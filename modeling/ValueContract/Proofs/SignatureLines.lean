import ValueContract.Proofs.CustomFile
import ValueContract.Proofs.EmittedNames

/-!
Which methods have a line of their own in the file of hand-written methods. A method gets a stub
unless its signature occurs somewhere in the text, be it in the middle of a line. The stubs of
other methods hardly matter for this: a signature has one opening parenthesis, and the name in
front of it is the method's own.
-/

namespace ValueContract

theorem append_cons_inj_left {α : Type} {a : α} {x y z w : List α} (h : x ++ a :: z = y ++ a :: w)
    (hx : a ∉ x) (hy : a ∉ y) : x = y ∧ z = w := by
  rcases List.append_eq_append_iff.1 h with ⟨more, rfl, hmore⟩ | ⟨more, rfl, hmore⟩
  · cases more with
    | nil => simpa using hmore
    | cons b more =>
      obtain ⟨rfl, -⟩ := List.cons.inj hmore
      simp at hy
  · cases more with
    | nil => simpa [eq_comm] using hmore
    | cons b more =>
      obtain ⟨rfl, -⟩ := List.cons.inj hmore
      simp at hx

theorem append_cons_inj_right {α : Type} {a : α} {x y z w : List α}
    (h : x ++ a :: z = y ++ a :: w) (hz : a ∉ z) (hw : a ∉ w) : x = y ∧ z = w := by
  have hrev : z.reverse ++ a :: x.reverse = w.reverse ++ a :: y.reverse := by
    simpa using congrArg List.reverse h
  obtain ⟨hzw, hxy⟩ := append_cons_inj_left hrev (by simpa using hz) (by simpa using hw)
  exact ⟨List.reverse_inj.1 hxy, List.reverse_inj.1 hzw⟩

namespace Text

variable {p : List Char → Prop} {part text : String}

def startsLine (part text : String) : Bool :=
  (text.toList.splitOn '\n').any (part.toList.isPrefixOf ·)

def HasLine (p : List Char → Prop) (text : String) : Prop :=
  ∃ line ∈ text.toList.splitOn '\n', p line

theorem startsLine_iff : startsLine part text ↔ HasLine (part.toList <+: ·) text := by
  simp [startsLine, HasLine]

theorem hasLine_iff_of_not_mem (h : '\n' ∉ text.toList) : HasLine p text ↔ p text.toList := by
  simp [HasLine, List.splitOn_eq_singleton h]

theorem hasLine_append_newline (front rest : String) :
    HasLine p (front ++ "\n" ++ rest) ↔ HasLine p front ∨ HasLine p rest := by
  have hsplit : (front ++ "\n" ++ rest).toList = front.toList ++ '\n' :: rest.toList := by simp
  rw [HasLine, hsplit, List.splitOn_append_cons_self]
  simp only [List.mem_append, or_and_right, exists_or, HasLine]

theorem not_hasLine_empty (hp : ¬p []) : ¬HasLine p "" := by
  simpa [HasLine] using hp

theorem hasLine_newline (hp : ¬p []) (front : String) :
    HasLine p (front ++ "\n") ↔ HasLine p front := by
  rw [← String.append_empty (s := front ++ "\n"), hasLine_append_newline,
    or_iff_left (not_hasLine_empty hp)]

theorem hasLine_unlines {texts : List String} (hp : ¬p [])
    (h : ∀ text ∈ texts, '\n' ∉ text.toList) :
    HasLine p (unlines texts) ↔ ∃ text ∈ texts, p text.toList := by
  induction texts with
  | nil => simpa [unlines] using not_hasLine_empty hp
  | cons text texts ih =>
    obtain ⟨ht, h⟩ := List.forall_mem_cons.1 h
    rw [unlines, hasLine_append_newline, hasLine_iff_of_not_mem ht, ih h,
      List.exists_mem_cons_iff]

theorem infix_append_newline {part front rest : List Char} (h : '\n' ∉ part) :
    part <:+: front ++ '\n' :: rest ↔ part <:+: front ∨ part <:+: rest := by
  constructor
  · intro hi
    rcases List.infix_append_iff.1 hi with hi | hi | ⟨left, right, rfl, hl, hr⟩
    · exact .inl hi
    · rcases List.infix_cons_iff.1 hi with hi | hi
      · cases part with
        | nil => exact .inl List.nil_infix
        | cons c part =>
          obtain ⟨rfl, -⟩ := List.cons_prefix_cons.1 hi
          exact absurd List.mem_cons_self h
      · exact .inr hi
    · cases right with
      | nil => exact .inl (by simpa using hl.isInfix)
      | cons c right =>
        obtain ⟨rfl, -⟩ := List.cons_prefix_cons.1 hr
        simp at h
  · intro hi
    rcases hi with hi | hi
    · exact hi.trans (List.prefix_append _ _).isInfix
    · exact hi.trans ((List.suffix_cons _ _).trans (List.suffix_append _ _)).isInfix

theorem infix_iff_exists_splitOn {part : List Char} (h : '\n' ∉ part) (text : List Char) :
    part <:+: text ↔ ∃ line ∈ text.splitOn '\n', part <:+: line := by
  by_cases hm : '\n' ∈ text
  · obtain ⟨front, rest, rfl, hfront⟩ := List.eq_append_cons_of_mem hm
    rw [infix_append_newline h, List.splitOn_append_cons_self_of_not_mem hfront,
      List.exists_mem_cons_iff, infix_iff_exists_splitOn h rest]
  · simp [List.splitOn_eq_singleton hm]
termination_by text.length

theorem occursIn_iff_hasLine (h : '\n' ∉ part.toList) :
    occursIn part text ↔ HasLine (part.toList <:+: ·) text :=
  occursIn_iff.trans (infix_iff_exists_splitOn h text.toList)

theorem mem_of_mem_repeated {c : Char} {count : Nat} (h : c ∈ (repeated text count).toList) :
    c ∈ text.toList := by
  induction count with
  | zero => simp [repeated] at h
  | succ count ih =>
    rw [repeated, String.toList_append, List.mem_append] at h
    exact h.elim id ih

theorem mem_of_mem_joined {c : Char} {separator : String} {texts : List String}
    (h : c ∈ (joined separator texts).toList) :
    c ∈ separator.toList ∨ ∃ text ∈ texts, c ∈ text.toList := by
  fun_induction joined separator texts with
  | case1 => simp at h
  | case2 text => exact .inr ⟨text, List.mem_singleton_self _, h⟩
  | case3 text texts _ ih =>
    simp only [String.toList_append, List.mem_append] at h
    rcases h with (h | h) | h
    · exact .inr ⟨text, List.mem_cons_self, h⟩
    · exact .inl h
    · refine (ih h).imp_right fun hm ↦ ?_
      obtain ⟨other, ho, hc⟩ := hm
      exact ⟨other, List.mem_cons_of_mem _ ho, hc⟩

end Text

theorem Indent.not_mem_step {c : Char} (h : c ∉ [' ', '\t']) (indent : Indent) :
    c ∉ indent.step.toList := by
  intro hm
  cases indent with
  | tab => exact h (by simpa [step] using Or.inr hm)
  | spaces width => exact h (by simpa using Or.inl (Text.mem_of_mem_repeated hm))

namespace TypeExpr

/-- A zero is a literal or constructs a type by its name, and of these names the colons of only one
are not followed by an angle bracket. -/
inductive ZeroForm : String → Prop
  | literal {zero : String} (h : zero ∈ ["0", "0.0f", "0.0", "false"]) : ZeroForm zero
  | constructed {type : String} (hchar : ∀ c ∈ type.toList, isTypeChar c)
      (h : type = "std::string" ∨ ':' ∉ type.toList ∨ '<' ∈ type.toList) : ZeroForm (type ++ "()")

theorem ZeroForm.not_mem_newline {zero : String} (h : ZeroForm zero) : '\n' ∉ zero.toList := by
  cases h with
  | literal h =>
    have hall : ∀ zero ∈ ["0", "0.0f", "0.0", "false"], '\n' ∉ zero.toList := by decide
    exact hall zero h
  | constructed hchar _ =>
    intro hm
    simp only [String.toList_append, List.mem_append] at hm
    rcases hm with hm | hm
    · exact absurd (hchar _ hm) (by decide)
    · exact absurd hm (by decide)

variable {ty : TypeExpr} {text : String}

theorem zeroForm_of_zeroSpelling (h : ∀ other, ty.referenced? = some other → Name.isFree other)
    (hz : ty.zeroSpelling = .ok text) : ZeroForm text := by
  cases ty with
  | primitive kind =>
    by_cases hk : kind = .string
    · subst hk
      cases hz
      have hchar : "std::string".toList.all isTypeChar := by decide
      exact .constructed (List.all_eq_true.1 hchar) (.inl rfl)
    · refine .literal ?_
      cases kind <;> cases hz <;> simp_all
  | entity other =>
    cases hz
    refine .constructed ?_ (.inr (.inl (Name.not_mem_of_isFree (h other rfl) rfl)))
    exact fun c hc ↦ isTypeChar_of_isIdentifier (Name.isIdentifier_of_isFree (h other rfl)) hc
  | list inner =>
    rw [zeroSpelling, bind_eq_ok_iff] at hz
    · obtain ⟨spelled, hs, hz⟩ := hz
      cases hz
      refine .constructed (fun c hc ↦ isTypeChar_of_mem_spelling h hs hc) (.inr (.inr ?_))
      rw [spelling, bind_eq_ok_iff] at hs
      obtain ⟨text, -, hs⟩ := hs
      cases hs
      simp
    · simp

/-- A type is neither nothing nor the word that a return line starts with. -/
theorem not_mem_of_spelling (h : ∀ other, ty.referenced? = some other → Name.isFree other)
    (hs : ty.spelling = .ok text) : text ∉ ["", "return"] := by
  cases ty with
  | primitive kind => cases kind <;> cases hs <;> decide
  | entity other =>
    cases hs
    intro hm
    have hfree := h text rfl
    rcases List.mem_pair.1 hm with rfl | rfl <;> exact absurd hfree (by decide)
  | list inner =>
    rw [spelling, bind_eq_ok_iff] at hs
    obtain ⟨text, -, hs⟩ := hs
    cases hs
    have hopen : '<' ∈ ("std::vector<" ++ text ++ ">").toList := by simp
    intro hm
    rcases List.mem_pair.1 hm with heq | heq <;> simp [heq] at hopen

end TypeExpr

namespace CustomMethod

variable {m m' : CustomMethod} {indent : Indent} {p : List Char → Prop} {line : String}

def resultType (m : CustomMethod) : String :=
  m.returned.elim "void" (·.type)

structure Spelled (m : CustomMethod) : Prop where
  type : Name.isFree m.type
  name : Name.isFree m.name
  result : ∀ c ∈ m.resultType.toList, TypeExpr.isTypeChar c
  result_not_mem : m.resultType ∉ ["", "return"]
  parameters : ∀ c ∈ m.parameterList.toList, TypeExpr.isTypeChar c ∨ c ∈ [' ', '&', ',']
  zero : ∀ r ∈ m.returned, TypeExpr.ZeroForm r.zero

theorem signature_eq (m : CustomMethod) : m.signature.toList =
    m.resultType.toList ++ ' ' :: (m.type.toList ++ ':' :: ':' :: m.name.toList) ++
      '(' :: (m.parameterList.toList ++ [')']) := by
  cases hr : m.returned <;> simp [signature, signatureIn, resultType, hr]

theorem Spelled.not_mem {c : Char} (h : m.Spelled) (hc : TypeExpr.isTypeChar c = false)
    (hl : c ∉ [' ', '&', ',']) : c ∉ m.resultType.toList ∧ c ∉ m.type.toList ∧
      c ∉ m.name.toList ∧ c ∉ m.parameterList.toList := by
  have hpart : Name.isPart c = false := by
    simp only [TypeExpr.isTypeChar, Bool.or_eq_false_iff] at hc
    exact hc.1.1.1
  refine ⟨fun hm ↦ ?_, Name.not_mem_of_isFree h.type hpart, Name.not_mem_of_isFree h.name hpart,
    fun hm ↦ ?_⟩
  · simpa [hc] using h.result c hm
  · simpa [hc] using (h.parameters c hm).resolve_right hl

theorem not_mem_signature (h : m.Spelled) : '\n' ∉ m.signature.toList := by
  obtain ⟨hresult, htype, hname, hparameters⟩ := h.not_mem (c := '\n') rfl (by decide)
  simp [signature_eq, hresult, hparameters, htype, hname]

theorem stub_lines (step : String) (m : CustomMethod) : m.stub.map (Line.render step) =
    m.signature :: "\x7b" :: (step ++ "// Hand-written implementation.") ::
      (m.returned.elim [] fun r ↦ [step ++ ("return " ++ r.zero ++ ";")]) ++ ["\x7d"] := by
  cases hr : m.returned <;>
    simp [stub, Line.block, Line.render, Line.deeper, Text.repeated, hr]

/-- A signature that stands in front of the only parenthesis of a line ends with the name. -/
theorem exists_of_infix {head tail : List Char} (h : m.signature.toList <:+: head ++ '(' :: tail)
    (hhead : '(' ∉ head) (htail : '(' ∉ tail) :
    ∃ before, head = before ++ ' ' :: (m.type.toList ++ ':' :: ':' :: m.name.toList) := by
  obtain ⟨front, rest, h⟩ := h
  rw [signature_eq] at h
  have hcut : head ++ '(' :: tail =
      (front ++ m.resultType.toList ++ ' ' :: (m.type.toList ++ ':' :: ':' :: m.name.toList)) ++
        '(' :: (m.parameterList.toList ++ [')'] ++ rest) := by
    simp [← h]
  obtain ⟨hcut, -⟩ := (List.append_cons_inj_of_notMem hhead htail).1 hcut
  exact ⟨_, hcut⟩

theorem name_eq_of_infix_signature (hm : m.Spelled) (hm' : m'.Spelled)
    (h : m.signature.toList <:+: m'.signature.toList) : m.name = m'.name := by
  obtain ⟨hresult, htype, hname, hparameters⟩ := hm'.not_mem (c := '(') rfl (by decide)
  rw [signature_eq m'] at h
  obtain ⟨before, heq⟩ := exists_of_infix h (by simp [hresult, htype, hname])
    (by simp [hparameters])
  -- a name has no colon, so both names start behind the last one
  have hcut : (m'.resultType.toList ++ ' ' :: (m'.type.toList ++ [':'])) ++ ':' :: m'.name.toList =
      (before ++ ' ' :: (m.type.toList ++ [':'])) ++ ':' :: m.name.toList := by
    simpa using heq
  obtain ⟨-, hn⟩ := append_cons_inj_right hcut (Name.not_mem_of_isFree hm'.name rfl)
    (Name.not_mem_of_isFree hm.name rfl)
  exact String.toList_inj.1 hn.symm

theorem type_eq_of_infix_return {zero : String} (hm : m.Spelled) (hz : TypeExpr.ZeroForm zero)
    (h : m.signature.toList <:+: (indent.step ++ ("return " ++ zero ++ ";")).toList) :
    m.type = "std" := by
  have hstep : '(' ∉ indent.step.toList := Indent.not_mem_step (by decide) indent
  cases hz with
  | literal hz =>
    have hopen : '(' ∈ indent.step.toList ∨ '(' ∈ zero.toList := by
      simpa using h.subset (show '(' ∈ m.signature.toList by simp [signature_eq])
    have hzero : ∀ zero ∈ ["0", "0.0f", "0.0", "false"], '(' ∉ zero.toList := by decide
    exact absurd hopen (not_or.2 ⟨hstep, hzero zero hz⟩)
  | @constructed type hchar hz =>
    have hline : (indent.step ++ ("return " ++ (type ++ "()") ++ ";")).toList =
        indent.step.toList ++ "return".toList ++ ' ' :: type.toList ++ '(' :: [')', ';'] := by
      simp
    rw [hline] at h
    have hopen : '(' ∉ type.toList := fun hc ↦ absurd (hchar _ hc) (by decide)
    obtain ⟨before, heq⟩ := exists_of_infix h (by simp [hstep, hopen]) (by decide)
    -- behind the last blank stands the type on the one side, the scoped name on the other
    have hblank : ' ' ∉ m.type.toList ++ ':' :: ':' :: m.name.toList := by
      simp [Name.not_mem_of_isFree hm.type, Name.not_mem_of_isFree hm.name, Name.isPart]
    obtain ⟨-, htype⟩ := append_cons_inj_right heq
      (fun hc ↦ absurd (hchar _ hc) (by decide)) hblank
    rcases hz with rfl | hz | hz
    · have hcut : "std".toList ++ ':' :: ":string".toList =
          m.type.toList ++ ':' :: ':' :: m.name.toList := htype
      obtain ⟨hstd, -⟩ := append_cons_inj_left hcut (by decide) (Name.not_mem_of_isFree hm.type rfl)
      exact (String.toList_inj.1 hstd).symm
    · simp [htype] at hz
    · simp [htype, Name.not_mem_of_isFree hm.type, Name.not_mem_of_isFree hm.name,
        Name.isPart] at hz

theorem not_prefix_return {zero : String} (hm : m.Spelled) :
    ¬m.signature.toList <+: (indent.step ++ ("return " ++ zero ++ ";")).toList := by
  intro ⟨rest, h⟩
  have hchar := hm.result
  obtain ⟨hempty, hreturn⟩ := not_or.1 (mt List.mem_pair.2 hm.result_not_mem)
  rw [signature_eq, String.toList_append] at h
  have hnot : ∀ c ∈ indent.step.toList, ¬TypeExpr.isTypeChar c := by
    intro c hc hpart
    refine Indent.not_mem_step (fun hm ↦ ?_) indent hc
    rcases List.mem_pair.1 hm with rfl | rfl <;> exact absurd hpart (by decide)
  cases hstep : indent.step.toList with
  | nil =>
    have hcut : m.resultType.toList ++ ' ' :: (m.type.toList ++ ':' :: ':' :: m.name.toList ++
        '(' :: (m.parameterList.toList ++ [')']) ++ rest) =
        "return".toList ++ ' ' :: (zero.toList ++ [';']) := by
      simpa [hstep] using h
    have hblank : ' ' ∉ m.resultType.toList := fun hc ↦ absurd (hchar _ hc) (by decide)
    obtain ⟨hresult, -⟩ := append_cons_inj_left hcut hblank (by decide)
    exact hreturn (String.toList_inj.1 hresult)
  | cons c step =>
    cases hr : m.resultType.toList with
    | nil => exact hempty (String.toList_eq_nil_iff.1 hr)
    | cons d result =>
      rw [hstep, hr] at h
      obtain ⟨rfl, -⟩ := List.cons.inj h
      exact hnot d (by simp [hstep]) (hchar d (by simp [hr]))

theorem mem_stub_lines {step : String} : line ∈ m.stub.map (Line.render step) ↔
    line = m.signature ∨ line ∈ ["\x7b", step ++ "// Hand-written implementation.", "\x7d"] ∨
      ∃ r ∈ m.returned, line = step ++ ("return " ++ r.zero ++ ";") := by
  rw [stub_lines]
  cases hr : m.returned <;> simp [or_assoc, or_comm, or_left_comm]

theorem not_mem_stub_lines (hm : m.Spelled) (hline : line ∈ m.stub.map (Line.render indent.step)) :
    '\n' ∉ line.toList := by
  have hstep : '\n' ∉ indent.step.toList := Indent.not_mem_step (by decide) indent
  rcases mem_stub_lines.1 hline with rfl | hline | ⟨r, hr, rfl⟩
  · exact not_mem_signature hm
  · simp only [List.mem_cons, List.not_mem_nil, or_false] at hline
    rcases hline with rfl | rfl | rfl <;> simp [hstep]
  · simp [hstep, (hm.zero r hr).not_mem_newline]

/-- In the stub of another method a signature stands in the return line at most, and not at its
start. -/
theorem of_infix_stub_line (hm : m.Spelled) (hm' : m'.Spelled) (hne : m.name ≠ m'.name)
    (hline : line ∈ m'.stub.map (Line.render indent.step))
    (h : m.signature.toList <:+: line.toList) :
    m.type = "std" ∧ ¬m.signature.toList <+: line.toList := by
  have hcolon : ':' ∈ line.toList := h.subset (by simp [signature_eq])
  rcases mem_stub_lines.1 hline with rfl | hline | ⟨r, hr, rfl⟩
  · exact absurd (name_eq_of_infix_signature hm hm' h) hne
  · have hstep : ':' ∉ indent.step.toList := Indent.not_mem_step (by decide) indent
    simp only [List.mem_cons, List.not_mem_nil, or_false] at hline
    rcases hline with rfl | rfl | rfl <;> simp [hstep] at hcolon
  · exact ⟨type_eq_of_infix_return hm (hm'.zero r hr) h, not_prefix_return hm⟩

theorem hasLine_definition_iff (hp : ¬p []) (hm : m.Spelled) :
    Text.HasLine p (m.definition indent.step) ↔
      ∃ line ∈ m.stub.map (Line.render indent.step), p line.toList :=
  Text.hasLine_unlines hp fun _ hline ↦ not_mem_stub_lines hm hline

theorem hasLine_gap (hp : ¬p []) (text rest : String) :
    Text.HasLine p (text ++ gap text ++ rest) ↔ Text.HasLine p text ∨ Text.HasLine p rest := by
  have hempty : ¬Text.HasLine p "" := Text.not_hasLine_empty hp
  unfold gap
  split
  · next h =>
    rcases Bool.or_eq_true _ _ ▸ h with h | h
    · simp [of_decide_eq_true h, hempty]
    · obtain ⟨front, hfront⟩ := Text.endsWith_iff.1 h
      have htext : text = String.ofList front ++ "\n" ++ "\n" := by
        simp [← String.toList_inj, ← hfront]
      rw [String.append_empty, htext, Text.hasLine_append_newline]
      simp only [Text.hasLine_newline hp]
  · split
    · exact Text.hasLine_append_newline text rest
    · have htwo : text ++ "\n\n" ++ rest = text ++ "\n" ++ ("" ++ "\n" ++ rest) := by
        simp [← String.toList_inj]
      rw [htwo, Text.hasLine_append_newline, Text.hasLine_append_newline, or_iff_right hempty]

theorem hasLine_foldl_iff {methods : List CustomMethod} {step : String} (hp : ¬p [])
    (h : ∀ m ∈ methods, ¬Text.HasLine p (m.definition step)) (text : String) :
    Text.HasLine p (methods.foldl (appendStub step) text) ↔ Text.HasLine p text := by
  induction methods generalizing text with
  | nil => rfl
  | cons m methods ih =>
    obtain ⟨hm, h⟩ := List.forall_mem_cons.1 h
    rw [List.foldl_cons, ih h, appendStub]
    split
    · rfl
    · rw [hasLine_gap hp, or_iff_left hm]

theorem not_infix_nil (m : CustomMethod) : ¬m.signature.toList <:+: [] := by
  simp [signature_eq]

theorem not_prefix_nil (m : CustomMethod) : ¬m.signature.toList <+: [] := fun h ↦
  not_infix_nil m h.isInfix

theorem startsLine_appendStub_iff (hm : m.Spelled) (text : String) :
    Text.startsLine m.signature (m.appendStub indent.step text) ↔
      Text.startsLine m.signature text ∨ ¬Text.occursIn m.signature text := by
  simp only [Text.startsLine_iff]
  have hself : Text.HasLine (m.signature.toList <+: ·) (m.definition indent.step) :=
    (hasLine_definition_iff (not_prefix_nil m) hm).2
      ⟨m.signature, mem_stub_lines.2 (.inl rfl), List.prefix_rfl⟩
  unfold appendStub
  split
  · next ho => simp [ho]
  · next ho => simp [hasLine_gap (not_prefix_nil m), hself, ho]

theorem startsLine_foldl_iff {methods : List CustomMethod} (hm : m.Spelled)
    (h : ∀ m' ∈ methods, m'.Spelled ∧ m.name ≠ m'.name) (text : String) :
    Text.startsLine m.signature (methods.foldl (appendStub indent.step) text) ↔
      Text.startsLine m.signature text := by
  rw [Text.startsLine_iff, Text.startsLine_iff]
  refine hasLine_foldl_iff (not_prefix_nil m) (fun m' hmem hline ↦ ?_) text
  obtain ⟨hm', hne⟩ := h m' hmem
  obtain ⟨line, hline, hprefix⟩ := (hasLine_definition_iff (not_prefix_nil m) hm').1 hline
  exact (of_infix_stub_line hm hm' hne hline hprefix.isInfix).2 hprefix

theorem occursIn_foldl_iff {methods : List CustomMethod} (hm : m.Spelled)
    (h : ∀ m' ∈ methods, m'.Spelled ∧ m.name ≠ m'.name) (hstd : m.type ≠ "std") (text : String) :
    Text.occursIn m.signature (methods.foldl (appendStub indent.step) text) ↔
      Text.occursIn m.signature text := by
  have hnewline := not_mem_signature hm
  rw [Text.occursIn_iff_hasLine hnewline, Text.occursIn_iff_hasLine hnewline]
  refine hasLine_foldl_iff (not_infix_nil m) (fun m' hmem hline ↦ ?_) text
  obtain ⟨hm', hne⟩ := h m' hmem
  obtain ⟨line, hline, hinfix⟩ := (hasLine_definition_iff (not_infix_nil m) hm').1 hline
  exact hstd (of_infix_stub_line hm hm' hne hline hinfix).1

theorem returnedOf_eq_ok {ty : TypeExpr} {returned : Option Returned}
    (h : returnedOf ty = .ok returned) : returned = none ∨ ∃ type zero,
      returned = some ⟨type, zero⟩ ∧ ty.spelling = .ok type ∧ ty.zeroSpelling = .ok zero := by
  unfold returnedOf at h
  split at h
  · cases h
    exact .inl rfl
  · simp only [bind_eq_ok_iff] at h
    obtain ⟨type, ht, zero, hz, h⟩ := h
    cases h
    exact .inr ⟨type, zero, rfl, ht, hz⟩

theorem of_mem_parameter {q : Parameter} {declared : Declarator × String} {char : Char}
    (hq : ∀ other, q.ty.referenced? = some other → Name.isFree other)
    (hn : Name.isIdentifier q.name) (h : parameterOf q = .ok declared)
    (hc : char ∈ (declared.1.lead ++ declared.2).toList) :
    TypeExpr.isTypeChar char ∨ char ∈ [' ', '&', ','] := by
  simp only [parameterOf, bind_eq_ok_iff] at h
  obtain ⟨declarator, hd, h⟩ := h
  cases h
  -- the type with a blank and possibly an ampersand, then the name
  obtain ⟨type, ht, hlead⟩ : ∃ type, q.ty.spelling = .ok type ∧
      (declarator = .value type ∨ declarator = .reference type) := by
    unfold parameterDeclarator at hd
    split at hd
    · next other heq =>
      cases hd
      exact ⟨other, by rw [heq, TypeExpr.spelling], .inr rfl⟩
    · obtain ⟨type, ht, hd⟩ := bind_eq_ok_iff.1 hd
      cases hd
      exact ⟨type, ht, .inl rfl⟩
  have htype : char ∈ type.toList → TypeExpr.isTypeChar char :=
    TypeExpr.isTypeChar_of_mem_spelling hq ht
  have hname : char ∈ q.name.toList → TypeExpr.isTypeChar char :=
    TypeExpr.isTypeChar_of_isIdentifier hn
  rcases hlead with rfl | rfl <;>
    simp only [Declarator.lead, String.toList_append, List.mem_append] at hc
  · have hblank : " ".toList ⊆ [' ', '&', ','] := by decide
    exact hc.elim (Or.imp htype (hblank ·)) (.inl ∘ hname)
  · have hblank : " &".toList ⊆ [' ', '&', ','] := by decide
    exact hc.elim (Or.imp htype (hblank ·)) (.inl ∘ hname)

theorem Spelled.of_ofMethod {e : Entity} {method : Method} (he : e.Plain)
    (hmem : method ∈ e.methods) (h : ofMethod e.name method = .ok m) : m.Spelled := by
  have htypes : ∀ ty ∈ method.types, ∀ other, ty.referenced? = some other → Name.isFree other :=
    fun ty ht ↦ he.types ty (List.mem_append_right _ (List.mem_flatMap.2 ⟨method, hmem, ht⟩))
  have hreturns := htypes method.returns List.mem_cons_self
  simp only [ofMethod, bind_eq_ok_iff] at h
  obtain ⟨returned, hr, parameters, hp, h⟩ := h
  cases h
  have hparameters : ∀ c ∈ (Text.joined ", " (parameters.map fun p ↦ p.1.lead ++ p.2)).toList,
      TypeExpr.isTypeChar c ∨ c ∈ [' ', '&', ','] := by
    intro c hc
    rcases Text.mem_of_mem_joined hc with hc | ⟨text, ht, hc⟩
    · have hcomma : ", ".toList ⊆ [' ', '&', ','] := by decide
      exact .inr (hcomma hc)
    · obtain ⟨declared, hd, rfl⟩ := List.mem_map.1 ht
      obtain ⟨q, hq, hd⟩ := exists_of_forall₂_right (mapM_eq_ok_iff.1 hp) hd
      have hty : q.ty ∈ method.types := List.mem_cons_of_mem _ (List.mem_map_of_mem hq)
      exact of_mem_parameter (htypes q.ty hty) (he.parameters method hmem q hq) hd hc
  rcases returnedOf_eq_ok hr with rfl | ⟨type, zero, rfl, ht, hz⟩
  · have hvoid : "void".toList.all TypeExpr.isTypeChar := by decide
    have hword : "void" ∉ ["", "return"] := by decide
    exact ⟨he.name, he.methods method hmem, List.all_eq_true.1 hvoid, hword, hparameters, by simp⟩
  · refine ⟨he.name, he.methods method hmem, ?_, ?_, hparameters, ?_⟩
    · exact fun c hc ↦ TypeExpr.isTypeChar_of_mem_spelling hreturns ht hc
    · exact TypeExpr.not_mem_of_spelling hreturns ht
    · intro r hr
      cases hr
      exact TypeExpr.zeroForm_of_zeroSpelling hreturns hz

end CustomMethod

namespace Catalog

variable {c : Catalog} {s : Settings} {u : ClassUnit} {name : String}

theorem spelled_of_emit (hc : c.Built) (h : c.emit s name = .ok u) :
    (∀ m ∈ u.methods, m.Spelled ∧ m.type = u.entity) ∧ (u.methods.map (·.name)).Nodup := by
  obtain ⟨e, -, hu, hplain⟩ := plain_of_emit hc h
  have hmethods := mapM_eq_ok_iff.1 (ClassUnit.mapM_ofMethod_of_ofEntity hu)
  constructor
  · intro m hm
    obtain ⟨method, hmem, hof⟩ := exists_of_forall₂_right hmethods hm
    rw [(ClassUnit.isOf_of_ofEntity hu).entity]
    exact ⟨.of_ofMethod hplain hmem hof, (ClassUnit.name_of_ofMethod hof).1⟩
  · have hnodup := hplain.nodup
    rw [← ClassUnit.memberNames_eq hu] at hnodup
    exact (List.nodup_append.1 hnodup).2.1

/-- A method has a line of its own if its signature is not found when its turn comes, or stood at
the start of a line before. Stubs of other methods are not in its way, save for a class named
`std`: there `return std::string();` may hold the signature. -/
theorem signature_line_iff (hc : c.Built) (h : c.emit s name = .ok u) (existing : String)
    {before after : List CustomMethod} {m : CustomMethod} (hm : u.methods = before ++ m :: after) :
    (Text.startsLine m.signature (u.customFile (some existing)) ↔
      Text.startsLine m.signature existing ∨ ¬Text.occursIn m.signature
        (before.foldl (CustomMethod.appendStub u.settings.indent.step) existing)) ∧
    (u.entity ≠ "std" →
      (Text.startsLine m.signature (u.customFile (some existing)) ↔
        (Text.occursIn m.signature existing → Text.startsLine m.signature existing))) := by
  obtain ⟨hspelled, hnodup⟩ := spelled_of_emit hc h
  rw [hm] at hspelled hnodup
  obtain ⟨hself, htype⟩ := hspelled m (by simp)
  have hothers : ∀ m' ∈ before ++ after, m'.Spelled ∧ m.name ≠ m'.name := by
    intro m' hmem
    refine ⟨(hspelled m' (by simp_all [or_left_comm])).1, ?_⟩
    rw [List.map_append, List.map_cons, List.nodup_middle, ← List.map_append,
      List.nodup_cons] at hnodup
    exact fun heq ↦ hnodup.1 (heq ▸ List.mem_map_of_mem hmem)
  obtain ⟨hbefore, hafter⟩ := List.forall_mem_append.1 hothers
  have hfile : Text.startsLine m.signature (u.customFile (some existing)) ↔
      Text.startsLine m.signature existing ∨ ¬Text.occursIn m.signature
        (before.foldl (CustomMethod.appendStub u.settings.indent.step) existing) := by
    rw [ClassUnit.customFile, hm, List.foldl_append, List.foldl_cons, Option.getD_some,
      CustomMethod.startsLine_foldl_iff hself hafter,
      CustomMethod.startsLine_appendStub_iff hself,
      CustomMethod.startsLine_foldl_iff hself hbefore]
  refine ⟨hfile, fun hstd ↦ hfile.trans ?_⟩
  rw [CustomMethod.occursIn_foldl_iff hself hbefore (htype ▸ hstd), imp_iff_or_not]

def games : Catalog where
  entities :=
    [⟨"turn", [], []⟩,
      ⟨"std", [], [⟨"label", .primitive .string, []⟩, ⟨"string", .entity "turn", []⟩]⟩]

-- the second method is `turn std::string()` and gets no stub
example : (·.customFile (some "")) <$> games.emit {} "std" =
    .ok ("std::string std::label()\n\x7b\n\t// Hand-written implementation.\n" ++
      "\treturn std::string();\n\x7d\n") := by
  decide +kernel

def meters : Catalog where
  entities := [⟨"Meter", [], [⟨"total", .primitive .i32, []⟩, ⟨"reset", .primitive .void, []⟩]⟩]

theorem meters_built : meters.Built := by
  have hmeter : Entity.define "Meter" [] = .ok ⟨"Meter", [], []⟩ := rfl
  have hmethods : Entity.withMethods ⟨"Meter", [], []⟩
      [⟨"total", .primitive .i32, []⟩, ⟨"reset", .primitive .void, []⟩] =
      .ok meters.entities[0] := rfl
  exact .declare .empty (.withMethods (.define hmeter) hmethods) rfl

/-- Written when the method returned another type. -/
def unsignedTotal : String := "uint32_t Meter::total()\n\x7b\n\treturn 7;\n\x7d\n"

theorem meters_signature_line_iff : ∃ u, meters.emit {} "Meter" = .ok u ∧
    Text.startsLine "void Meter::reset()" (u.customFile (some unsignedTotal)) := by
  have hcheck : (fun u : ClassUnit ↦ (u.entity, u.methods)) <$> meters.emit {} "Meter" =
      .ok ("Meter", [⟨"Meter", "total", some ⟨"int32_t", "0"⟩, []⟩] ++
        [⟨"Meter", "reset", none, []⟩]) := by
    decide +kernel
  obtain ⟨u, hu, hshown⟩ := map_eq_ok_iff.1 hcheck
  obtain ⟨hentity, hmethods⟩ := Prod.mk.inj hshown
  obtain ⟨-, hfile⟩ := signature_line_iff meters_built hu unsignedTotal hmethods
  refine ⟨u, hu, (hfile ?_).2 fun hoccurs ↦ absurd hoccurs (by decide +kernel)⟩
  rw [hentity]
  decide

/-- The signature is a part of the line of the method as it was, and no stub is added. -/
theorem former_type_hides_signature : ∃ u, meters.emit {} "Meter" = .ok u ∧
    "int32_t Meter::total()" ∈ u.methods.map (·.signature) ∧
    ¬Text.startsLine "int32_t Meter::total()" (u.customFile (some unsignedTotal)) := by
  have hcheck : (fun u : ClassUnit ↦ (u.methods.map (·.signature),
        Text.startsLine "int32_t Meter::total()" (u.customFile (some unsignedTotal)))) <$>
      meters.emit {} "Meter" = .ok (["int32_t Meter::total()", "void Meter::reset()"], false) := by
    decide +kernel
  obtain ⟨u, hu, hshown⟩ := map_eq_ok_iff.1 hcheck
  obtain ⟨hmethods, hfile⟩ := Prod.mk.inj hshown
  exact ⟨u, hu, by simp [hmethods], by simp [hfile]⟩

end Catalog

end ValueContract
