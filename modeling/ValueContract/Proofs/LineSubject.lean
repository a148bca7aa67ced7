import ValueContract.Proofs.StatementReading

namespace ValueContract

theorem Name.exists_isPart {name : String} (h : isFree name) : ∃ c ∈ name.toList, isPart c := by
  have hident := isIdentifier_of_isFree h
  cases hl : name.toList with
  | nil => simp [isIdentifier, hl] at hident
  | cons c rest =>
    exact ⟨c, List.mem_cons_self, isPart_of_isIdentifier hident (hl ▸ List.mem_cons_self)⟩

namespace Statement

variable {field text word : String}

def lineWords (line : String) : List String :=
  words (String.ofList line.toList.dropLast)

def trailing (text : String) : String :=
  String.ofList (text.toList.reverse.takeWhile Name.isPart).reverse

/-- The field that a line of a body or a comparison is about. -/
def subject (text : String) : String :=
  leading ((after? "delete " text <|> after? "other." text <|> after? "*" text).getD text)

/-- What a line assigns to, by the last name of its left side. -/
def assigned? (line : String) : Option String :=
  match (lineWords line).splitOn "=" with
  | target :: _ :: _ => target.getLast?.map trailing
  | _ => none

/-- The comparisons whose conjunction a line returns. -/
def conjuncts (line : String) : List String :=
  (((lineWords line).drop 1).splitOn "&&").map (Text.joined " ")

theorem lineWords_eq (line : String) (h : text.toList = line.toList ++ [';']) :
    lineWords text = words line := by
  simp [lineWords, h]

theorem trailing_append (front : String) (hf : Name.isFree field)
    (hfront : front.toList.getLast?.all (!Name.isPart ·)) :
    trailing (front ++ field) = field := by
  have hparts : ∀ c ∈ field.toList.reverse, Name.isPart c := fun c hm ↦
    Name.isPart_of_isIdentifier (Name.isIdentifier_of_isFree hf) (List.mem_reverse.1 hm)
  have hstop : front.toList.reverse.takeWhile Name.isPart = [] := by
    rw [← List.head?_reverse] at hfront
    cases hr : front.toList.reverse with
    | nil => rfl
    | cons c rest =>
      rw [hr, List.head?_cons, Option.all_some] at hfront
      exact List.takeWhile_cons_of_neg (by simpa using hfront)
  rw [trailing, String.toList_append, List.reverse_append, List.takeWhile_append_of_pos hparts,
    hstop, List.append_nil, List.reverse_reverse, String.ofList_toList]

theorem trailing_self (hf : Name.isFree field) : trailing field = field := by
  simpa using trailing_append "" hf (by simp)

theorem after?_eq_none_of_leading {opening : String} (word : String) (c : Char)
    (ho : opening.toList = word.toList ++ [c]) (hw : word.toList.all Name.isPart)
    (hc : Name.isPart c = false) (h : leading text ≠ word) : after? opening text = none := by
  refine if_neg ?_
  intro ⟨rest, hrest⟩
  have htext : text.toList = word.toList ++ c :: rest := by
    rw [← hrest, ho, List.append_assoc]
    rfl
  exact h (leading_of_parts (List.all_eq_true.1 hw) hc htext)

theorem subject_eq {c : Char} {rest : List Char} (hf : Name.isFree field)
    (hc : Name.isPart c = false) (ht : text.toList = field.toList ++ c :: rest) :
    subject text = field := by
  have hleading : leading text = field := leading_eq hf hc ht
  have hdelete : after? "delete " text = none :=
    after?_eq_none_of_leading "delete" ' ' rfl (by decide) rfl
      (hleading ▸ Name.ne_of_isFree hf (by decide))
  have hother : after? "other." text = none :=
    after?_eq_none_of_leading "other" '.' rfl (by decide) rfl
      (hleading ▸ Name.ne_of_isFree hf (by decide))
  have hstar : after? "*" text = none :=
    after?_eq_none_of_leading "" '*' rfl (by decide) rfl
      (hleading ▸ Name.ne_of_isFree hf (by decide))
  simp [subject, hdelete, hother, hstar, hleading]

theorem subject_release (hf : Name.isFree field) : subject ("delete " ++ field ++ ";") = field := by
  have hafter : after? "delete " ("delete " ++ field ++ ";") = some (field ++ ";") := by
    rw [String.append_assoc, after?_append]
  have hleading : leading (field ++ ";") = field := leading_eq hf (c := ';') rfl (by simp; rfl)
  simp [subject, hafter, hleading]

theorem subject_copyValue (hf : Name.isFree field) :
    subject ("other." ++ field ++ " = " ++ field ++ ";") = field := by
  have hafter : after? "other." ("other." ++ field ++ " = " ++ field ++ ";") =
      some (field ++ " = " ++ field ++ ";") := by
    simp only [String.append_assoc, after?_append]
  have hdelete : after? "delete " ("other." ++ field ++ " = " ++ field ++ ";") = none := by
    simp [after?]
  have hleading : leading (field ++ " = " ++ field ++ ";") = field :=
    leading_eq hf (c := ' ') rfl (by simp; rfl)
  simp [subject, hdelete, hafter, hleading]

theorem subject_comparison {c : Comparison} (h : Name.isFree c.field) : subject c.text = c.field := by
  cases c with
  | pointees field =>
    have hfree : Name.isFree field := h
    have hafter : after? "*" ("*" ++ field ++ " == *other." ++ field) =
        some (field ++ " == *other." ++ field) := by
      simp only [String.append_assoc, after?_append]
    have hdelete : after? "delete " ("*" ++ field ++ " == *other." ++ field) = none := by
      simp [after?]
    have hother : after? "other." ("*" ++ field ++ " == *other." ++ field) = none := by
      simp [after?]
    have hleading : leading (field ++ " == *other." ++ field) = field :=
      leading_eq hfree (c := ' ') rfl (by simp; rfl)
    simp [subject, Comparison.text, Comparison.field, hdelete, hother, hafter, hleading]
  | values field =>
    have hfree : Name.isFree field := h
    exact subject_eq hfree (c := ' ') rfl (by simp [Comparison.text]; rfl)

theorem assigned?_eq_some {target : String} {rest : List String}
    (hw : lineWords text = target :: "=" :: rest) (ht : target ≠ "=") :
    assigned? text = some (trailing target) := by
  have hsplit : (lineWords text).splitOn "=" = [target] :: rest.splitOn "=" := by
    rw [hw]
    have hnot : "=" ∉ [target] := by simpa using ht.symm
    exact List.splitOn_append_cons_self_of_not_mem hnot rest
  cases hr : rest.splitOn "=" with
  | nil => exact absurd hr (List.splitOn_ne_nil _ _)
  | cons => simp [assigned?, hsplit, hr]

theorem assigned?_eq_none (h : "=" ∉ lineWords text) : assigned? text = none := by
  rw [assigned?, List.splitOn_eq_singleton h]

theorem assigned?_setZero {zero : String} (hf : Name.isFree field) (hz : ' ' ∉ zero.toList) :
    assigned? (field ++ " = " ++ zero ++ ";") = some field := by
  rw [assigned?_eq_some ((lineWords_eq (field ++ " = " ++ zero) (by simp)).trans
    (words_setZero hf hz)) (Name.ne_of_isFree hf (by decide)), trailing_self hf]

theorem assigned?_allocate {type : String} (hf : Name.isFree field) (ht : Name.isFree type) :
    assigned? (field ++ " = new " ++ type ++ "();") = some field := by
  rw [assigned?_eq_some ((lineWords_eq (field ++ " = new " ++ type ++ "()") (by simp)).trans
    (words_allocate hf ht)) (Name.ne_of_isFree hf (by decide)), trailing_self hf]

theorem assigned?_copyValue (hf : Name.isFree field) :
    assigned? ("other." ++ field ++ " = " ++ field ++ ";") = some field := by
  rw [assigned?_eq_some ((lineWords_eq ("other." ++ field ++ " = " ++ field) (by simp)).trans
    (words_copyValue hf)) (ne_of_mem (c := '.') (by simp) (by decide)),
    trailing_append "other." hf (by decide)]

theorem assigned?_copyPointee (hf : Name.isFree field) :
    assigned? (field ++ "->copy_to(*other." ++ field ++ ");") = none := by
  apply assigned?_eq_none
  rw [lineWords_eq (field ++ "->copy_to(*other." ++ field ++ ")") (by simp), words_copyPointee hf,
    List.mem_singleton]
  exact (ne_of_mem (c := '-') (by simp) (by decide)).symm

theorem assigned?_release (hf : Name.isFree field) :
    assigned? ("delete " ++ field ++ ";") = none := by
  apply assigned?_eq_none
  rw [lineWords_eq ("delete " ++ field) (by simp),
    words_eq_cons "delete" field (by simp) (by decide),
    words_eq_singleton (Name.not_mem_of_isFree hf rfl)]
  simpa using (Name.ne_of_isFree hf (by decide)).symm

theorem assigned?_declareClone {type : String} (ht : Name.isFree type) :
    assigned? (type ++ " clone;") = none := by
  apply assigned?_eq_none
  rw [lineWords_eq (type ++ " clone") (by simp),
    words_eq_cons type "clone" (by simp) (Name.not_mem_of_isFree ht rfl),
    words_eq_singleton (by decide)]
  simpa using (Name.ne_of_isFree ht (by decide)).symm

/-- A side of a comparison has a letter, so it is not an operator. -/
theorem not_mem_comparison {c : Comparison} (h : Name.isFree c.field)
    (hw : word.toList.all (!Name.isPart ·)) (he : word ≠ "==") :
    word ∉ [c.left, "==", c.right] := by
  obtain ⟨letter, hl, hp⟩ := Name.exists_isPart h
  have hnot : letter ∉ word.toList := fun hm ↦ by simpa [hp] using List.all_eq_true.1 hw letter hm
  have hleft : c.field.toList <:+ c.left.toList := by
    cases c <;> simp [Comparison.left, Comparison.field]
  have hright : c.field.toList <:+ c.right.toList := by
    cases c <;> exact ⟨_, String.toList_append.symm⟩
  have hne : word ≠ c.left ∧ word ≠ c.right :=
    ⟨(ne_of_mem (hleft.subset hl) hnot).symm, (ne_of_mem (hright.subset hl) hnot).symm⟩
  simp [he, hne]

theorem not_mem_words_conjunction {c : Comparison} {comparisons : List Comparison}
    (h : ∀ d ∈ c :: comparisons, Name.isFree d.field) :
    "=" ∉ words (conjunction (c :: comparisons)) := by
  induction comparisons generalizing c with
  | nil =>
    have hc := h c List.mem_cons_self
    have hwords : words (conjunction [c]) = [c.left, "==", c.right] := words_comparison hc
    rw [hwords]
    exact not_mem_comparison hc (by decide) (by decide)
  | cons d comparisons ih =>
    have hc := h c List.mem_cons_self
    have ih := @ih d fun d hd ↦ h d (List.mem_cons_of_mem _ hd)
    have hnot : "=" ∉ [c.left, "==", c.right] := not_mem_comparison hc (by decide) (by decide)
    rw [words_conjunction hc]
    simp_all

theorem splitOn_words_conjunction {c : Comparison} {comparisons : List Comparison}
    (h : ∀ d ∈ c :: comparisons, Name.isFree d.field) :
    (words (conjunction (c :: comparisons))).splitOn "&&" =
      (c :: comparisons).map fun d ↦ [d.left, "==", d.right] := by
  induction comparisons generalizing c with
  | nil =>
    have hc := h c List.mem_cons_self
    have hwords : words (conjunction [c]) = [c.left, "==", c.right] := words_comparison hc
    rw [hwords, List.splitOn_eq_singleton (not_mem_comparison hc (by decide) (by decide))]
    rfl
  | cons d comparisons ih =>
    have hc := h c List.mem_cons_self
    have ih := @ih d fun d hd ↦ h d (List.mem_cons_of_mem _ hd)
    rw [words_conjunction hc, List.map_cons, ← ih]
    have hnot : "&&" ∉ [c.left, "==", c.right] := not_mem_comparison hc (by decide) (by decide)
    exact List.splitOn_append_cons_self_of_not_mem hnot _

theorem lineWords_returnEqual (comparisons : List Comparison) :
    lineWords ("return " ++ conjunction comparisons ++ ";") =
      "return" :: words (conjunction comparisons) := by
  rw [lineWords_eq ("return " ++ conjunction comparisons) (by simp),
    words_eq_cons "return" (conjunction comparisons) (by simp) (by decide)]

theorem conjuncts_returnEqual {comparisons : List Comparison} (hne : comparisons ≠ [])
    (h : ∀ c ∈ comparisons, Name.isFree c.field) :
    conjuncts ("return " ++ conjunction comparisons ++ ";") = comparisons.map (·.text) := by
  cases comparisons with
  | nil => exact absurd rfl hne
  | cons c comparisons =>
    rw [conjuncts, lineWords_returnEqual, List.drop_one, List.tail_cons,
      splitOn_words_conjunction h, List.map_map]
    refine List.map_congr_left fun d _ ↦ ?_
    simp [Text.joined, d.text_eq, ← String.toList_inj]

theorem assigned?_returnEqual {comparisons : List Comparison}
    (h : ∀ c ∈ comparisons, Name.isFree c.field) :
    assigned? ("return " ++ conjunction comparisons ++ ";") = none := by
  apply assigned?_eq_none
  rw [lineWords_returnEqual, List.mem_cons, not_or]
  refine ⟨by decide, ?_⟩
  cases comparisons with
  | nil => decide
  | cons c comparisons => exact not_mem_words_conjunction h

end Statement

end ValueContract
