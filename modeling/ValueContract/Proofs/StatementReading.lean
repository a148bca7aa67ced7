import ValueContract.Class.Refusal
import ValueContract.Class.Unit
import ValueContract.Name
import ValueContract.Proofs.Fallible

namespace ValueContract

namespace Name

variable {name : String} {c : Char}

/-- A name for a field or a class of one's own. -/
def isFree (name : String) : Bool :=
  isIdentifier name && !Reserved.isReserved name

theorem isPart_of_isIdentifier (h : isIdentifier name) (hc : c ∈ name.toList) : isPart c := by
  unfold isIdentifier at h
  split at h
  · cases h
  · next first rest hl =>
    rw [Bool.and_eq_true, List.all_eq_true] at h
    rw [hl] at hc
    rcases List.mem_cons.1 hc with rfl | hc
    · simp only [isStart, isPart, Bool.or_eq_true, Char.isAlphanum] at h ⊢
      exact h.1.imp_left .inl
    · exact h.2 c hc

theorem isIdentifier_of_isFree (h : isFree name) : isIdentifier name := by
  rw [isFree, Bool.and_eq_true] at h
  exact h.1

theorem not_mem_of_isFree (h : isFree name) (hc : isPart c = false) : c ∉ name.toList := by
  intro hm
  have hpart := isPart_of_isIdentifier (isIdentifier_of_isFree h) hm
  simp [hc] at hpart

theorem ne_of_isFree {other : String} (h : isFree name) (ho : isFree other = false) :
    name ≠ other := by
  rintro rfl
  simp [h] at ho

end Name

namespace Comparison

def field : Comparison → String
  | pointees field | values field => field

def left : Comparison → String
  | pointees field => "*" ++ field
  | values field => field

def right : Comparison → String
  | pointees field => "*other." ++ field
  | values field => "other." ++ field

theorem text_eq (c : Comparison) : c.text = c.left ++ " == " ++ c.right := by
  cases c <;> simp [text, left, right, ← String.toList_inj]

theorem not_mem_left {c : Comparison} (h : Name.isFree c.field) : ' ' ∉ c.left.toList := by
  have hblank : ' ' ∉ c.field.toList := Name.not_mem_of_isFree h rfl
  cases c <;> simpa [left, field] using hblank

theorem not_mem_right {c : Comparison} (h : Name.isFree c.field) : ' ' ∉ c.right.toList := by
  have hblank : ' ' ∉ c.field.toList := Name.not_mem_of_isFree h rfl
  cases c <;> simpa [right, field] using hblank

end Comparison

namespace Statement

def words (text : String) : List String :=
  (text.toList.splitOn ' ').map String.ofList

def after? (opening text : String) : Option String :=
  if opening.toList <+: text.toList then
    some (String.ofList (text.toList.drop opening.toList.length))
  else none

def leading (text : String) : String :=
  String.ofList (text.toList.takeWhile Name.isPart)

def readComparison? (left right : String) : Option Comparison :=
  match after? "*" left with
  | some field =>
    if Name.isFree field ∧ right = "*other." ++ field then some (.pointees field) else none
  | none => if Name.isFree left ∧ right = "other." ++ left then some (.values left) else none

def readConjunction? : List String → Option (List Comparison)
  | [left, equals, right] =>
    if equals = "==" then (readComparison? left right).map ([·]) else none
  | left :: equals :: right :: next :: rest =>
    if equals = "==" ∧ next = "&&" then do
      return (← readComparison? left right) :: (← readConjunction? rest)
    else none
  | _ => none

def readAssignment? (target source : String) : Option Statement :=
  match after? "other." target with
  | some field => if Name.isFree field ∧ source = field then some (.copyValue field) else none
  | none => if Name.isFree target then some (.setZero target source) else none

def readAllocation? (target source : String) : Option Statement :=
  if Name.isFree target ∧ Name.isFree (leading source) ∧ source = leading source ++ "()" then
    some (.allocate target (leading source))
  else none

def readCall? (text : String) : Option Statement :=
  if text = "other.copy_to(*this)" then some .copyFromOther
  else if Name.isFree (leading text) ∧
      text = leading text ++ "->copy_to(*other." ++ leading text ++ ")" then
    some (.copyPointee (leading text))
  else none

def readWords? : List String → Option Statement
  | [] => none
  | first :: rest =>
    if first = "return" then
      returnEqual <$> if rest = ["true"] then some [] else readConjunction? rest
    else
      match rest with
      | [] => readCall? first
      | [equals, source] => if equals = "=" then readAssignment? first source else none
      | [equals, keyword, source] =>
        if equals = "=" ∧ keyword = "new" then readAllocation? first source else none
      | _ => none

/-- The statement of a line, which a semicolon ends. -/
def read? (text : String) : Option Statement :=
  if text.toList.getLast? = some ';' then
    readWords? (words (String.ofList text.toList.dropLast))
  else none

variable {field text : String}

theorem words_eq_cons (word rest : String) (h : text.toList = word.toList ++ ' ' :: rest.toList)
    (hw : ' ' ∉ word.toList) : words text = word :: words rest := by
  rw [words, h, List.splitOn_append_cons_self_of_not_mem hw, List.map_cons, String.ofList_toList]
  rfl

theorem words_eq_singleton (hw : ' ' ∉ text.toList) : words text = [text] := by
  rw [words, List.splitOn_eq_singleton hw, List.map_singleton, String.ofList_toList]

theorem after?_append (opening : String) : after? opening (opening ++ text) = some text := by
  simp [after?]

theorem after?_eq_none {opening : String} {c : Char} (hc : c ∈ opening.toList)
    (ht : c ∉ text.toList) : after? opening text = none :=
  if_neg fun hp ↦ ht (hp.subset hc)

theorem ne_of_mem {other : String} {c : Char} (hc : c ∈ text.toList) (ho : c ∉ other.toList) :
    text ≠ other := by
  rintro rfl
  exact ho hc

theorem leading_of_parts {word : String} {c : Char} {rest : List Char}
    (hw : ∀ c ∈ word.toList, Name.isPart c) (hc : Name.isPart c = false)
    (ht : text.toList = word.toList ++ c :: rest) : leading text = word := by
  rw [leading, ht, List.takeWhile_append_of_pos hw, List.takeWhile_cons_of_neg (by simp [hc]),
    List.append_nil, String.ofList_toList]

theorem leading_eq {c : Char} {rest : List Char} (hf : Name.isFree field)
    (hc : Name.isPart c = false) (ht : text.toList = field.toList ++ c :: rest) :
    leading text = field :=
  leading_of_parts
    (fun _ hm ↦ Name.isPart_of_isIdentifier (Name.isIdentifier_of_isFree hf) hm) hc ht

theorem read?_eq (line : String) (h : text.toList = line.toList ++ [';']) :
    read? text = readWords? (words line) := by
  simp [read?, h]

/-- The statements that construct, copy and compare, with names that are free. -/
def Readable : Statement → Prop
  | .setZero field zero => Name.isFree field ∧ ' ' ∉ zero.toList
  | .allocate field type => Name.isFree field ∧ Name.isFree type
  | .copyValue field | .copyPointee field => Name.isFree field
  | .returnEqual comparisons => ∀ comparison ∈ comparisons, Name.isFree comparison.field
  | .copyFromOther => True
  | _ => False

theorem words_setZero {zero : String} (hf : Name.isFree field) (hz : ' ' ∉ zero.toList) :
    words (field ++ " = " ++ zero) = [field, "=", zero] := by
  rw [words_eq_cons field ("= " ++ zero) (by simp) (Name.not_mem_of_isFree hf rfl),
    words_eq_cons "=" zero (by simp) (by decide), words_eq_singleton hz]

theorem words_allocate {type : String} (hf : Name.isFree field) (ht : Name.isFree type) :
    words (field ++ " = new " ++ type ++ "()") = [field, "=", "new", type ++ "()"] := by
  have hblank : ' ' ∉ (type ++ "()").toList := by
    simpa using Name.not_mem_of_isFree ht rfl
  rw [words_eq_cons field ("= new " ++ type ++ "()") (by simp) (Name.not_mem_of_isFree hf rfl),
    words_eq_cons "=" ("new " ++ type ++ "()") (by simp) (by decide),
    words_eq_cons "new" (type ++ "()") (by simp) (by decide), words_eq_singleton hblank]

theorem words_copyValue (hf : Name.isFree field) :
    words ("other." ++ field ++ " = " ++ field) = ["other." ++ field, "=", field] := by
  have hblank := Name.not_mem_of_isFree hf (c := ' ') rfl
  rw [words_eq_cons ("other." ++ field) ("= " ++ field) (by simp) (by simpa using hblank),
    words_eq_cons "=" field (by simp) (by decide), words_eq_singleton hblank]

theorem words_copyPointee (hf : Name.isFree field) :
    words (field ++ "->copy_to(*other." ++ field ++ ")") =
      [field ++ "->copy_to(*other." ++ field ++ ")"] :=
  words_eq_singleton (by simpa using Name.not_mem_of_isFree hf (c := ' ') rfl)

theorem read?_setZero {zero : String} (hf : Name.isFree field) (hz : ' ' ∉ zero.toList) :
    read? (field ++ " = " ++ zero ++ ";") = some (.setZero field zero) := by
  have hreturn : field ≠ "return" := Name.ne_of_isFree hf (by decide)
  have hother : after? "other." field = none :=
    after?_eq_none (c := '.') (by decide) (Name.not_mem_of_isFree hf rfl)
  rw [read?_eq (field ++ " = " ++ zero) (by simp), words_setZero hf hz]
  simp [readWords?, hreturn, readAssignment?, hother, hf]

theorem read?_allocate {type : String} (hf : Name.isFree field) (ht : Name.isFree type) :
    read? (field ++ " = new " ++ type ++ "();") = some (.allocate field type) := by
  have hreturn : field ≠ "return" := Name.ne_of_isFree hf (by decide)
  have hleading : leading (type ++ "()") = type := leading_eq ht (c := '(') rfl (by simp; rfl)
  rw [read?_eq (field ++ " = new " ++ type ++ "()") (by simp), words_allocate hf ht]
  simp [readWords?, hreturn, readAllocation?, hleading, hf, ht]

theorem read?_copyValue (hf : Name.isFree field) :
    read? ("other." ++ field ++ " = " ++ field ++ ";") = some (.copyValue field) := by
  have hreturn : "other." ++ field ≠ "return" := ne_of_mem (c := '.') (by simp) (by decide)
  rw [read?_eq ("other." ++ field ++ " = " ++ field) (by simp), words_copyValue hf]
  simp [readWords?, hreturn, readAssignment?, after?_append, hf]

theorem read?_copyPointee (hf : Name.isFree field) :
    read? (field ++ "->copy_to(*other." ++ field ++ ");") = some (.copyPointee field) := by
  have hleading : leading (field ++ "->copy_to(*other." ++ field ++ ")") = field :=
    leading_eq hf (c := '-') rfl (by simp; rfl)
  rw [read?_eq (field ++ "->copy_to(*other." ++ field ++ ")") (by simp), words_copyPointee hf]
  have hne : ∀ word : String, '-' ∉ word.toList →
      field ++ "->copy_to(*other." ++ field ++ ")" ≠ word := fun word ↦ ne_of_mem (by simp)
  simp [readWords?, readCall?, hne, hleading, hf]

theorem read?_copyFromOther : read? "other.copy_to(*this);" = some .copyFromOther := by
  decide

theorem readComparison?_eq {c : Comparison} (h : Name.isFree c.field) :
    readComparison? c.left c.right = some c := by
  cases c with
  | pointees field =>
    have hfree : Name.isFree field := h
    simp [readComparison?, Comparison.left, Comparison.right, after?_append, hfree]
  | values field =>
    have hfree : Name.isFree field := h
    have hstar : after? "*" field = none :=
      after?_eq_none (c := '*') (by decide) (Name.not_mem_of_isFree hfree rfl)
    simp [readComparison?, Comparison.left, Comparison.right, hstar, hfree]

theorem words_comparison {c : Comparison} (h : Name.isFree c.field) :
    words c.text = [c.left, "==", c.right] := by
  rw [c.text_eq, words_eq_cons c.left ("== " ++ c.right) (by simp) (Comparison.not_mem_left h),
    words_eq_cons "==" c.right (by simp) (by decide),
    words_eq_singleton (Comparison.not_mem_right h)]

theorem words_conjunction {c d : Comparison} {comparisons : List Comparison}
    (h : Name.isFree c.field) : words (conjunction (c :: d :: comparisons)) =
      c.left :: "==" :: c.right :: "&&" :: words (conjunction (d :: comparisons)) := by
  rw [words_eq_cons c.left ("== " ++ c.right ++ " && " ++ conjunction (d :: comparisons))
      (by simp [conjunction, Text.joined, Comparison.text_eq]) (Comparison.not_mem_left h),
    words_eq_cons "==" (c.right ++ " && " ++ conjunction (d :: comparisons)) (by simp)
      (by decide),
    words_eq_cons c.right ("&& " ++ conjunction (d :: comparisons)) (by simp)
      (Comparison.not_mem_right h),
    words_eq_cons "&&" (conjunction (d :: comparisons)) (by simp) (by decide)]

theorem readConjunction?_eq {c : Comparison} {comparisons : List Comparison}
    (h : ∀ d ∈ c :: comparisons, Name.isFree d.field) :
    readConjunction? (words (conjunction (c :: comparisons))) = some (c :: comparisons) := by
  induction comparisons generalizing c with
  | nil =>
    have hc := h c List.mem_cons_self
    have hwords : words (conjunction [c]) = [c.left, "==", c.right] := words_comparison hc
    simp [hwords, readConjunction?, readComparison?_eq hc]
  | cons d comparisons ih =>
    have hc := h c List.mem_cons_self
    have ih := @ih d fun d hd ↦ h d (List.mem_cons_of_mem _ hd)
    simp [words_conjunction hc, readConjunction?, readComparison?_eq hc, ih]

theorem read?_returnEqual {comparisons : List Comparison}
    (h : ∀ c ∈ comparisons, Name.isFree c.field) :
    read? ("return " ++ conjunction comparisons ++ ";") = some (.returnEqual comparisons) := by
  rw [read?_eq ("return " ++ conjunction comparisons) (by simp),
    words_eq_cons "return" (conjunction comparisons) (by simp) (by decide)]
  cases comparisons with
  | nil => decide
  | cons c comparisons =>
    have hread := readConjunction?_eq h
    have htrue : words (conjunction (c :: comparisons)) ≠ ["true"] := by
      intro hw
      simp [hw, readConjunction?] at hread
    simp [readWords?, htrue, hread]

/-- What is printed is read back. -/
theorem exists_read?_eq {st : Statement} (h : st.Readable) :
    ∃ text, st.lines = [⟨0, text⟩] ∧ read? text = some st := by
  cases st with
  | setZero => exact ⟨_, rfl, read?_setZero h.1 h.2⟩
  | allocate => exact ⟨_, rfl, read?_allocate h.1 h.2⟩
  | copyValue => exact ⟨_, rfl, read?_copyValue h⟩
  | copyPointee => exact ⟨_, rfl, read?_copyPointee h⟩
  | returnEqual => exact ⟨_, rfl, read?_returnEqual h⟩
  | copyFromOther => exact ⟨_, rfl, read?_copyFromOther⟩
  | _ => exact h.elim

end Statement

def Member.bodyLines (m : Member) (type : String) : List Line :=
  ((m.definition type).drop 2).dropLast

theorem Member.bodyLines_eq (m : Member) (type : String) :
    m.bodyLines type = (m.body.flatMap (·.lines)).map Line.deeper := by
  simp [bodyLines, definition, Line.block]

namespace ClassUnit

def member? (u : ClassUnit) (role : MemberRole) : Option Member :=
  u.members.find? (·.role = role)

def body? (u : ClassUnit) (role : MemberRole) : Option (List Statement) := do
  let m ← u.member? role
  (m.bodyLines u.entity).mapM fun line ↦ Statement.read? line.text

theorem mapM_read?_eq {body : List Statement} (h : ∀ st ∈ body, st.Readable) :
    ((body.flatMap (·.lines)).map Line.deeper).mapM (fun line ↦ Statement.read? line.text) =
      some body := by
  induction body with
  | nil => rfl
  | cons st body ih =>
    obtain ⟨hst, hbody⟩ := List.forall_mem_cons.1 h
    obtain ⟨text, hlines, hread⟩ := Statement.exists_read?_eq hst
    simp [hlines, Line.deeper, hread, ih hbody]

end ClassUnit

end ValueContract
