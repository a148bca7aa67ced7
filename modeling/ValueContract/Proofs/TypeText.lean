import Mathlib.Data.List.Infix
import Mathlib.Logic.Function.Iterate
import ValueContract.Proofs.CustomFile
import ValueContract.Proofs.Definition
import ValueContract.Proofs.StatementReading

namespace ValueContract

namespace Name

variable {name : String} {c : Char}

def IsLetter (c : Char) : Prop :=
  ('A' ≤ c ∧ c ≤ 'Z') ∨ ('a' ≤ c ∧ c ≤ 'z') ∨ c = '_'

def IsDigit (c : Char) : Prop := '0' ≤ c ∧ c ≤ '9'

/-- The texts of the form `[A-Za-z_][A-Za-z0-9_]*`. -/
def IsWord (name : String) : Prop :=
  ∃ first rest, name.toList = first :: rest ∧ IsLetter first ∧ ∀ c ∈ rest, IsLetter c ∨ IsDigit c

theorem isStart_iff : isStart c ↔ IsLetter c := by
  have hupper : c.isUpper = decide ('A' ≤ c ∧ c ≤ 'Z') := rfl
  have hlower : c.isLower = (decide ('a' ≤ c) && decide (c ≤ 'z')) := rfl
  have halpha : c.isAlpha = (c.isUpper || c.isLower) := rfl
  simp [isStart, IsLetter, halpha, hupper, hlower, or_assoc]

theorem isPart_iff : isPart c ↔ IsLetter c ∨ IsDigit c := by
  have hpart : isPart c = (isStart c || c.isDigit) := Bool.or_right_comm ..
  have hdigit : c.isDigit = (decide ('0' ≤ c) && decide (c ≤ '9')) := rfl
  rw [hpart, Bool.or_eq_true, isStart_iff]
  simp [IsDigit, hdigit]

theorem isIdentifier_iff_isWord : isIdentifier name ↔ IsWord name := by
  unfold isIdentifier IsWord
  cases name.toList with
  | nil => simp
  | cons first rest => simp [isStart_iff, isPart_iff]

theorem IsWord.not_mem (h : IsWord name) (hc : isPart c = false) : c ∉ name.toList := by
  intro hm
  have hpart := isPart_of_isIdentifier (isIdentifier_iff_isWord.2 h) hm
  simp [hc] at hpart

end Name

namespace Primitive

variable {name : String} {kind : Primitive}

theorem mem_all (kind : Primitive) : kind ∈ all := by
  cases kind <;> decide

theorem name_injective : Function.Injective Primitive.name := by
  intro a b
  cases a <;> cases b <;> simp [Primitive.name]

theorem isWord_name (kind : Primitive) : Name.IsWord kind.name := by
  rw [← Name.isIdentifier_iff_isWord]
  cases kind <;> decide

theorem ofName?_eq_some_iff : ofName? name = some kind ↔ kind.name = name := by
  constructor
  · intro h
    simpa using List.find?_some h
  · intro h
    cases hf : ofName? name with
    | none => exact absurd h (by simpa using List.find?_eq_none.1 hf kind (mem_all kind))
    | some other =>
      have hn : other.name = name := by simpa using List.find?_some hf
      rw [name_injective (hn.trans h.symm)]

theorem ofName?_eq_none_iff : ofName? name = none ↔ ∀ kind : Primitive, kind.name ≠ name := by
  simp [Option.eq_none_iff_forall_ne_some, ofName?_eq_some_iff]

end Primitive

theorem Text.repeated_append_self (text : String) (n : Nat) :
    repeated text n ++ text = text ++ repeated text n := by
  induction n with
  | zero => simp [repeated]
  | succ n ih => rw [repeated, String.append_assoc, ih]

namespace TypeExpr

variable {text base word : String} {ty leaf : TypeExpr} {fault : TypeFault} {n : Nat}

/-- What a word stands for: a primitive kind goes by its name, and an entity by any other. -/
inductive Named : String → TypeExpr → Prop
  | primitive (kind : Primitive) : Named kind.name (.primitive kind)
  | entity {name : String} (h : ∀ kind : Primitive, kind.name ≠ name) : Named name (.entity name)

theorem Named.text_eq (h : Named word leaf) : leaf.text = word := by
  cases h <;> rfl

theorem Named.depth_eq (h : Named word leaf) : leaf.depth = 0 := by
  cases h <;> rfl

theorem Named.element_eq (h : Named word leaf) : leaf.element = leaf := by
  cases h <;> rfl

theorem depth_iterate_list (n : Nat) (ty : TypeExpr) : (list^[n] ty).depth = ty.depth + n := by
  induction n generalizing ty with
  | zero => rfl
  | succ n ih =>
    rw [Function.iterate_succ_apply, ih, depth]
    omega

theorem element_iterate_list (n : Nat) (ty : TypeExpr) : (list^[n] ty).element = ty.element := by
  induction n generalizing ty with
  | zero => rfl
  | succ n ih => rw [Function.iterate_succ_apply, ih, element]

theorem iterate_list_element (ty : TypeExpr) : list^[ty.depth] ty.element = ty := by
  induction ty with
  | primitive kind => rfl
  | entity name => rfl
  | list inner ih => rw [depth, element, Function.iterate_succ_apply', ih]

theorem text_eq_append (ty : TypeExpr) :
    ty.text = ty.element.text ++ Text.repeated "[]" ty.depth := by
  induction ty with
  | primitive kind => simp [element, depth, Text.repeated]
  | entity name => simp [element, depth, Text.repeated]
  | list inner ih =>
    rw [text, ih, element, depth, Text.repeated, String.append_assoc, Text.repeated_append_self]

theorem parse_append_pair (text : String) : parse (text ++ "[]") = list <$> parse text := by
  simp [parse, parseReversed]

theorem parse_append_pairs (text : String) (n : Nat) :
    parse (text ++ Text.repeated "[]" n) = list^[n] <$> parse text := by
  induction n generalizing text with
  | zero =>
    rw [Text.repeated, String.append_empty]
    cases parse text <;> rfl
  | succ n ih =>
    rw [Text.repeated, ← String.append_assoc, ih, parse_append_pair]
    cases parse text <;> rfl

theorem parse_of_not_endsWith (h : ¬Text.endsWith "[]" text) : parse text = parseBase text := by
  rw [Text.endsWith_iff, ← List.reverse_prefix] at h
  unfold parse parseReversed
  split
  · next rest heq => exact absurd ⟨rest, heq.symm⟩ h
  · rw [List.reverse_reverse, String.ofList_toList]

/-- `base` is what is left of the text when each of the `n` pairs at its end is taken off. -/
def Strips (text base : String) (n : Nat) : Prop :=
  text = base ++ Text.repeated "[]" n ∧ ¬Text.endsWith "[]" base

theorem exists_strips (text : String) : ∃ base n, Strips text base n := by
  induction hlen : text.length using Nat.strong_induction_on generalizing text with
  | _ len ih =>
    by_cases h : Text.endsWith "[]" text
    · obtain ⟨front, hfront⟩ := Text.endsWith_iff.1 h
      have htext : text = String.ofList front ++ "[]" := by
        rw [← String.toList_inj, ← hfront]
        simp
      have hlt : (String.ofList front).length < len := by
        rw [← hlen, htext, String.length_append]
        exact Nat.lt_add_of_pos_right (by decide)
      obtain ⟨base, n, hbase, hend⟩ := ih _ hlt _ rfl
      refine ⟨base, n + 1, ?_, hend⟩
      rw [htext, hbase, String.append_assoc, Text.repeated_append_self, Text.repeated]
    · exact ⟨text, 0, by simp [Text.repeated], h⟩

theorem Strips.parse_eq (h : Strips text base n) : parse text = list^[n] <$> parseBase base := by
  obtain ⟨rfl, hend⟩ := h
  rw [parse_append_pairs, parse_of_not_endsWith hend]

theorem strips_of_isWord (h : Name.IsWord word) (n : Nat) :
    Strips (word ++ Text.repeated "[]" n) word n := by
  refine ⟨rfl, ?_⟩
  rw [Text.endsWith_iff]
  intro hend
  exact h.not_mem (by decide : Name.isPart ']' = false) (hend.subset (by simp))

theorem parseBase_eq_ok_iff : parseBase base = .ok leaf ↔ Name.IsWord base ∧ Named base leaf := by
  constructor
  · intro h
    unfold parseBase at h
    split at h
    · cases h
    · split at h
      · cases h
      · split at h
        · next kind hk =>
          cases h
          obtain rfl := Primitive.ofName?_eq_some_iff.1 hk
          exact ⟨kind.isWord_name, .primitive kind⟩
        · cases h
        · next hk hf =>
          cases h
          rw [Name.fault?_eq_none_iff, Name.isIdentifier_iff_isWord] at hf
          exact ⟨hf, .entity (Primitive.ofName?_eq_none_iff.1 hk)⟩
  · rintro ⟨hword, hnamed⟩
    have hne : base ≠ "" := by
      obtain ⟨first, rest, hl, -⟩ := hword
      intro heq
      simp [heq] at hl
    have hbracket : '[' ∉ base.toList := hword.not_mem (by decide)
    rw [parseBase, if_neg hne, if_neg hbracket]
    cases hnamed with
    | primitive kind => rw [Primitive.ofName?_eq_some_iff.2 rfl]
    | entity h =>
      rw [Primitive.ofName?_eq_none_iff.2 h,
        Name.fault?_eq_none_iff.2 (Name.isIdentifier_iff_isWord.2 hword)]

/-- Why a text without `[]` at its end is no type. -/
inductive Refuses : String → TypeFault → Prop
  | empty : Refuses "" .empty
  | unclosed {base : String} (h : '[' ∈ base.toList) : Refuses base (.unclosedList base)
  | invalid {base : String} {fault : NameFault} (hne : base ≠ "") (h : '[' ∉ base.toList)
      (hf : Name.fault? base = some fault) : Refuses base (.invalidName base fault)

theorem parseBase_eq_error_iff : parseBase base = .error fault ↔ Refuses base fault := by
  constructor
  · intro h
    unfold parseBase at h
    split at h
    · next he =>
      cases h
      exact he ▸ .empty
    · next he =>
      split at h
      · next hb =>
        cases h
        exact .unclosed hb
      · next hb =>
        split at h
        · cases h
        · next hk hf =>
          cases h
          exact .invalid he hb hf
        · cases h
  · intro h
    cases h with
    | empty => rfl
    | unclosed h =>
      have hne : base ≠ "" := by
        intro heq
        simp [heq] at h
      rw [parseBase, if_neg hne, if_pos h]
    | @invalid _ fault hne h hf =>
      -- a kind's name is a word, so it has no fault
      have hk : Primitive.ofName? base = none := by
        rw [Primitive.ofName?_eq_none_iff]
        intro kind heq
        have hnone := Name.fault?_eq_none_iff.2 (Name.isIdentifier_iff_isWord.2 kind.isWord_name)
        rw [heq, hf] at hnone
        cases hnone
      rw [parseBase, if_neg hne, if_neg h, hk, hf]

theorem parse_eq_ok_iff : parse text = .ok ty ↔ ∃ word, Name.IsWord word ∧
    text = word ++ Text.repeated "[]" ty.depth ∧ Named word ty.element := by
  constructor
  · intro h
    obtain ⟨base, n, hs⟩ := exists_strips text
    rw [hs.parse_eq, map_eq_ok_iff] at h
    obtain ⟨leaf, hleaf, rfl⟩ := h
    obtain ⟨hword, hnamed⟩ := parseBase_eq_ok_iff.1 hleaf
    refine ⟨base, hword, ?_, ?_⟩
    · rw [depth_iterate_list, hnamed.depth_eq, Nat.zero_add]
      exact hs.1
    · rwa [element_iterate_list, hnamed.element_eq]
  · rintro ⟨word, hword, rfl, hnamed⟩
    rw [(strips_of_isWord hword ty.depth).parse_eq, map_eq_ok_iff]
    exact ⟨ty.element, parseBase_eq_ok_iff.2 ⟨hword, hnamed⟩, ty.iterate_list_element⟩

theorem Strips.parse_eq_error_iff (h : Strips text base n) :
    parse text = .error fault ↔ Refuses base fault := by
  rw [h.parse_eq, map_eq_error_iff, parseBase_eq_error_iff]

theorem text_of_parse (h : parse text = .ok ty) : ty.text = text := by
  obtain ⟨word, -, htext, hnamed⟩ := parse_eq_ok_iff.1 h
  rw [text_eq_append, hnamed.text_eq, htext]

theorem parse_text_iff : parse ty.text = .ok ty ↔ (∃ kind, ty.element = .primitive kind) ∨
    ∃ name, ty.element = .entity name ∧ Name.IsWord name ∧
      ∀ kind : Primitive, kind.name ≠ name := by
  rw [parse_eq_ok_iff]
  constructor
  · rintro ⟨word, hword, -, hnamed⟩
    generalize ty.element = leaf at hnamed
    cases hnamed with
    | primitive kind => exact .inl ⟨kind, rfl⟩
    | entity h => exact .inr ⟨word, rfl, hword, h⟩
  · intro h
    rw [text_eq_append]
    rcases h with ⟨kind, he⟩ | ⟨name, he, hword, hkind⟩
    · rw [he]
      exact ⟨kind.name, kind.isWord_name, rfl, .primitive kind⟩
    · rw [he]
      exact ⟨name, hword, rfl, .entity hkind⟩

/-- A text is read as a type if and only if it is a word and pairs of brackets after it, one for
each list layer, and the type is printed as that text. A type is read back from its own text if and
only if its element is primitive or an entity with a word for a name that no primitive has. When a
text is refused, what is left of it without the pairs at its end says why. -/
theorem type_grammar :
    (∀ text ty, parse text = .ok ty ↔ ∃ word, Name.IsWord word ∧
      text = word ++ Text.repeated "[]" ty.depth ∧ Named word ty.element) ∧
    (∀ text ty, parse text = .ok ty → ty.text = text) ∧
    (∀ ty, parse ty.text = .ok ty ↔ (∃ kind, ty.element = .primitive kind) ∨
      ∃ name, ty.element = .entity name ∧ Name.IsWord name ∧
        ∀ kind : Primitive, kind.name ≠ name) ∧
    (∀ text, ∃ base n, Strips text base n) ∧
    ∀ text base n, Strips text base n → ∀ fault, parse text = .error fault ↔ Refuses base fault :=
  ⟨fun _ _ ↦ parse_eq_ok_iff, fun _ _ ↦ text_of_parse, fun _ ↦ parse_text_iff, exists_strips,
    fun _ _ _ h _ ↦ h.parse_eq_error_iff⟩

example : parse "Point[][]" = .ok (.list (.list (.entity "Point"))) ∧
    parse "[][]" = .error .empty ∧ parse "int[][" = .error (.unclosedList "int[][") ∧
    parse "naïve[]" = .error (.invalidName "naïve" (.badCharacter "naïve" 'ï')) := by
  decide +kernel

end TypeExpr

end ValueContract
