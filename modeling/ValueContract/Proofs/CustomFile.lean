import Mathlib.Data.List.Infix
import ValueContract.Proofs.Emission

namespace ValueContract

variable {part text : String} {methods : List CustomMethod}

namespace Text

theorem occursInChars_iff {part text : List Char} : occursInChars part text ↔ part <:+: text := by
  induction text with
  | nil => simp [occursInChars]
  | cons c rest ih => simp [occursInChars, ih, List.infix_cons_iff]

theorem occursIn_iff : occursIn part text ↔ part.toList <:+: text.toList :=
  occursInChars_iff

theorem endsWith_iff {ending text : String} :
    endsWith ending text ↔ ending.toList <:+ text.toList :=
  List.isSuffixOf_iff_suffix

theorem occursIn_append (h : occursIn part text) (more : String) :
    occursIn part (text ++ more) := by
  rw [occursIn_iff] at h ⊢
  rw [String.toList_append]
  exact h.trans (List.prefix_append _ _).isInfix

theorem occursIn_append_self (before part after : String) :
    occursIn part (before ++ (part ++ after)) := by
  rw [occursIn_iff, String.toList_append, String.toList_append]
  exact ⟨before.toList, after.toList, List.append_assoc _ _ _⟩

end Text

namespace CustomMethod

theorem definition_eq (step : String) (m : CustomMethod) : m.definition step =
    m.signature ++ ("\n" ++ Text.unlines (m.stub.tail.map (Line.render step))) := by
  simp [definition, stub, Line.block, Line.document, Line.render, Text.repeated, Text.unlines,
    String.append_assoc]

theorem exists_appendStub_eq (step text : String) (m : CustomMethod) :
    ∃ more, m.appendStub step text = text ++ more := by
  unfold appendStub
  split
  · exact ⟨"", by simp⟩
  · exact ⟨gap text ++ m.definition step, String.append_assoc⟩

theorem occursIn_signature_appendStub (step text : String) (m : CustomMethod) :
    Text.occursIn m.signature (m.appendStub step text) := by
  unfold appendStub
  split
  · assumption
  · rw [definition_eq]
    exact Text.occursIn_append_self _ _ _

theorem exists_foldl_appendStub_eq (step text : String) (methods : List CustomMethod) :
    ∃ more, methods.foldl (appendStub step) text = text ++ more := by
  induction methods generalizing text with
  | nil => exact ⟨"", by simp⟩
  | cons m methods ih =>
    obtain ⟨first, hfirst⟩ := exists_appendStub_eq step text m
    obtain ⟨rest, hrest⟩ := ih (appendStub step text m)
    refine ⟨first ++ rest, ?_⟩
    rw [List.foldl_cons, hrest, hfirst, String.append_assoc]

theorem occursIn_signature_foldl (step text : String) :
    ∀ m ∈ methods, Text.occursIn m.signature (methods.foldl (appendStub step) text) := by
  induction methods generalizing text with
  | nil => simp
  | cons m methods ih =>
    refine List.forall_mem_cons.2 ⟨?_, ih _⟩
    -- the first signature stands in the text from then on
    obtain ⟨more, hmore⟩ := exists_foldl_appendStub_eq step (appendStub step text m) methods
    rw [List.foldl_cons, hmore]
    exact Text.occursIn_append (occursIn_signature_appendStub step text m) more

theorem foldl_appendStub_eq_self (step : String)
    (h : ∀ m ∈ methods, Text.occursIn m.signature text) :
    methods.foldl (appendStub step) text = text := by
  induction methods with
  | nil => rfl
  | cons m methods ih =>
    obtain ⟨hm, h⟩ := List.forall_mem_cons.1 h
    rw [List.foldl_cons, appendStub, if_pos hm, ih h]

end CustomMethod

namespace Catalog

/-- A file of hand-written methods that was completed under some settings is left as it is under
any others, to the last character and whatever people wrote into it before. -/
theorem customFile_stable {c : Catalog} {s s' : Settings} {name : String}
    {u u' : ClassUnit} (h : c.emit s name = .ok u) (h' : c.emit s' name = .ok u')
    (existing : Option String) :
    u'.customFile (some (u.customFile existing)) = u.customFile existing := by
  apply CustomMethod.foldl_appendStub_eq_self
  rw [← methods_eq_of_emit h h']
  exact CustomMethod.occursIn_signature_foldl _ _

def circle : Catalog where
  entities :=
    [⟨"Circle", [], [⟨"area", .primitive .f32, []⟩,
      ⟨"grow", .primitive .void, [⟨"by", .primitive .f32⟩]⟩]⟩]

def tabbed : Settings where
  marker := "Generated."

def spaced : Settings where
  marker := "Do not edit."
  indent := .spaces 4
  includePath := "shapes/"

def handWritten : String := "float Circle::area()\n\x7b return 3.14f; \x7d"

def growStub : String :=
  "\n\nvoid Circle::grow(float by)\n\x7b\n\t// Hand-written implementation.\n\x7d\n"

theorem circle_customFile_stable : ∃ u u', circle.emit tabbed "Circle" = .ok u ∧
    circle.emit spaced "Circle" = .ok u' ∧
    u.customFile (some handWritten) = handWritten ++ growStub ∧
    u'.customFile (some (u.customFile (some handWritten))) = u.customFile (some handWritten) := by
  have hfile : (·.customFile (some handWritten)) <$> circle.emit tabbed "Circle" =
      .ok (handWritten ++ growStub) := by
    decide +kernel
  obtain ⟨u, hu, htext⟩ := map_eq_ok_iff.1 hfile
  obtain ⟨u', hu'⟩ : ∃ u', circle.emit spaced "Circle" = .ok u' :=
    exists_eq_ok (by decide +kernel)
  exact ⟨u, u', hu, hu', htext, customFile_stable hu hu' _⟩

end Catalog

end ValueContract
