import ValueContract.Proofs.EmittedNames
import ValueContract.Proofs.MarkerBlock

namespace ValueContract

structure Insertion where
  gap : String
  method : CustomMethod

namespace Insertion

variable {step text : String} {methods : List CustomMethod} {insertions : List Insertion}

def added (step : String) (i : Insertion) : String := i.gap ++ i.method.definition step

def total (step : String) : List Insertion → String
  | [] => ""
  | i :: rest => i.added step ++ total step rest

structure Fits (text : String) (i : Insertion) : Prop where
  missing : ¬i.method.signature.toList <:+: text.toList
  gap : i.gap ∈ ["", "\n", "\n\n"]
  blank : text ++ i.gap = "" ∨ "\n\n".toList <:+ (text ++ i.gap).toList

/-- The text is completed by these insertions when the methods are gone through in order. -/
inductive Completes (step : String) : String → List CustomMethod → List Insertion → Prop
  | done {text : String} : Completes step text [] []
  | skip {text : String} {m : CustomMethod} {methods : List CustomMethod}
      {insertions : List Insertion} (hm : m.signature.toList <:+: text.toList)
      (h : Completes step text methods insertions) : Completes step text (m :: methods) insertions
  | insert {text : String} {i : Insertion} {methods : List CustomMethod}
      {insertions : List Insertion} (hi : i.Fits text)
      (h : Completes step (text ++ i.added step) methods insertions) :
      Completes step text (i.method :: methods) (i :: insertions)

theorem gap_mem (text : String) : CustomMethod.gap text ∈ ["", "\n", "\n\n"] := by
  unfold CustomMethod.gap
  split
  · exact List.mem_cons_self
  · split <;> simp

theorem blank_after_gap (text : String) : text ++ CustomMethod.gap text = "" ∨
    "\n\n".toList <:+ (text ++ CustomMethod.gap text).toList := by
  unfold CustomMethod.gap
  split
  case isTrue h =>
    rw [Bool.or_eq_true, decide_eq_true_iff, Text.endsWith_iff] at h
    simpa using h
  case isFalse =>
    right
    split
    case isTrue h =>
      -- the line feed that ends the text and the one put after it
      obtain ⟨front, hfront⟩ := Text.endsWith_iff.1 h
      rw [String.toList_append, ← hfront]
      exact ⟨front, by simp⟩
    case isFalse =>
      rw [String.toList_append]
      exact List.suffix_append _ _

theorem occurs_after_added (text : String) (i : Insertion) :
    i.method.signature.toList <:+: (text ++ i.added step).toList := by
  apply Text.occursIn_iff.1
  rw [added, CustomMethod.definition_eq, ← String.append_assoc]
  exact Text.occursIn_append_self _ _ _

theorem exists_completes (step text : String) (methods : List CustomMethod) : ∃ insertions,
    Completes step text methods insertions ∧
      methods.foldl (CustomMethod.appendStub step) text = text ++ total step insertions := by
  induction methods generalizing text with
  | nil => exact ⟨[], .done, String.append_empty.symm⟩
  | cons m methods ih =>
    rw [List.foldl_cons]
    by_cases hm : m.signature.toList <:+: text.toList
    · obtain ⟨insertions, h, htext⟩ := ih text
      refine ⟨insertions, .skip hm h, ?_⟩
      rw [CustomMethod.appendStub, if_pos (Text.occursIn_iff.2 hm), htext]
    · let i : Insertion := ⟨CustomMethod.gap text, m⟩
      obtain ⟨insertions, h, htext⟩ := ih (text ++ i.added step)
      have hi : i.Fits text := ⟨hm, gap_mem text, blank_after_gap text⟩
      have hstep : m.appendStub step text = text ++ i.added step := by
        rw [CustomMethod.appendStub, if_neg (Text.occursIn_iff.not.2 hm), String.append_assoc]
        rfl
      refine ⟨i :: insertions, .insert hi h, ?_⟩
      rw [hstep, htext, total, String.append_assoc]

namespace Completes

theorem sublist (h : Completes step text methods insertions) :
    (insertions.map (·.method)).Sublist methods := by
  induction h with
  | done => exact .slnil
  | skip _ _ ih => exact ih.cons _
  | insert _ _ ih => exact ih.cons_cons _

theorem missing (h : Completes step text methods insertions) :
    ∀ i ∈ insertions, ¬i.method.signature.toList <:+: text.toList := by
  induction h with
  | done => exact List.forall_mem_nil _
  | skip _ _ ih => exact ih
  | insert hi _ ih =>
    refine List.forall_mem_cons.2 ⟨hi.missing, ?_⟩
    intro j hj hoccurs
    apply ih j hj
    rw [String.toList_append]
    exact hoccurs.trans (List.prefix_append _ _).isInfix

theorem nodup (h : Completes step text methods insertions) :
    (insertions.map (·.method)).Nodup := by
  induction h with
  | done => exact .nil
  | skip _ _ ih => exact ih
  | insert hi h ih =>
    refine List.nodup_cons.2 ⟨?_, ih⟩
    intro hm
    -- a second stub of the method would find the signature of the first
    obtain ⟨j, hj, heq⟩ := List.mem_map.1 hm
    apply h.missing j hj
    rw [heq]
    exact occurs_after_added _ _

theorem fits (h : Completes step text methods insertions) :
    ∀ before i after, insertions = before ++ i :: after → i.Fits (text ++ total step before) := by
  induction h with
  | done => simp
  | skip _ _ ih => exact ih
  | insert hi _ ih =>
    intro before j after hsplit
    cases before with
    | nil =>
      obtain ⟨rfl, -⟩ := List.cons.inj hsplit
      rwa [total, String.append_empty]
    | cons first before =>
      obtain ⟨rfl, hrest⟩ := List.cons.inj hsplit
      have hj : j.Fits _ := ih before j after hrest
      rwa [String.append_assoc] at hj

end Completes

/-- The later text is the earlier one with stubs after it, after which no method is missing. -/
def Extends (step : String) (methods : List CustomMethod) (start result : String) : Prop :=
  ∃ insertions : List Insertion, result = start ++ total step insertions ∧
    (insertions.map (·.method)).Sublist methods ∧ (insertions.map (·.method)).Nodup ∧
    (∀ before i after, insertions = before ++ i :: after → i.Fits (start ++ total step before)) ∧
    ∀ m ∈ methods, m.signature.toList <:+: result.toList

theorem extends_foldl (step text : String) (methods : List CustomMethod) :
    Extends step methods text (methods.foldl (CustomMethod.appendStub step) text) := by
  obtain ⟨insertions, h, htext⟩ := exists_completes step text methods
  refine ⟨insertions, htext, h.sublist, h.nodup, h.fits, ?_⟩
  intro m hm
  exact Text.occursIn_iff.1 (CustomMethod.occursIn_signature_foldl step text m hm)

end Insertion

namespace Catalog

/-- Completing the file of hand-written methods keeps all that is there and adds missing stubs
only. Where there is no file yet, the include lines of the implementation are completed. -/
theorem customFile_extends {c : Catalog} {s : Settings} {name : String} {u : ClassUnit}
    (h : c.emit s name = .ok u) :
    (∃ e, c.resolve name = .ok e ∧ e.methods.mapM (CustomMethod.ofMethod name) = .ok u.methods) ∧
    (∀ existing, Insertion.Extends s.indent.step u.methods existing
      (u.customFile (some existing))) ∧
    Insertion.Extends s.indent.step u.methods (ClassUnit.includeBlock s name u.dependencies)
      (u.customFile none) ∧
    u.implementation = Marker.block s.marker ++ "\n" ++
      ClassUnit.includeBlock s name u.dependencies ++ "\n" ++
      u.print (u.members.flatMap (·.definition u.entity)) := by
  obtain ⟨e, hr, hu⟩ := ofEntity_of_emit h
  obtain ⟨rfl, hmarker⟩ := settings_of_emit h
  have hname : e.name = name := name_of_find? (find?_of_resolve hr)
  have hentity : u.entity = name := (ClassUnit.isOf_of_ofEntity hu).entity.trans hname
  refine ⟨⟨e, hr, ?_⟩, ?_, ?_, ?_⟩
  · rw [← hname]
    exact ClassUnit.mapM_ofMethod_of_ofEntity hu
  · intro existing
    exact Insertion.extends_foldl _ _ _
  · rw [← hentity, ← ClassUnit.print_includeLines_eq]
    exact Insertion.extends_foldl _ _ _
  · rw [← hentity]
    exact ClassUnit.implementation_eq (Marker.fault?_eq_none_iff.1 hmarker).1

theorem circle_customFile_extends : ∃ u, circle.emit tabbed "Circle" = .ok u ∧
    Insertion.Extends "\t" u.methods handWritten (handWritten ++ growStub) ∧
    Insertion.Extends "\t" u.methods "#include \"../Circle.hpp\"\n" (u.customFile none) := by
  have hfile : (fun u ↦ (u.dependencies, u.customFile (some handWritten))) <$>
      circle.emit tabbed "Circle" = .ok ([], handWritten ++ growStub) := by
    decide +kernel
  obtain ⟨u, hu, htexts⟩ := map_eq_ok_iff.1 hfile
  obtain ⟨hdependencies, htext⟩ := Prod.mk.inj htexts
  obtain ⟨-, hsome, hnone, -⟩ := customFile_extends hu
  have hblock : ClassUnit.includeBlock tabbed "Circle" [] = "#include \"../Circle.hpp\"\n" := by
    decide +kernel
  rw [hdependencies, hblock] at hnone
  exact ⟨u, hu, htext ▸ hsome handWritten, hnone⟩

end Catalog

end ValueContract
