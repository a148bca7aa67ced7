import Mathlib.Data.List.Nodup
import ValueContract.Proofs.Fallible
import ValueContract.Proofs.Reference

namespace ValueContract

theorem Name.fault?_eq_none_iff {name : String} : fault? name = none ↔ isIdentifier name := by
  unfold fault? isIdentifier
  split
  · simp
  · next c rest h =>
    by_cases hc : isStart c <;> simp [hc]

namespace Entity

variable {e e' : Entity} {owner name : String} {defined fields : List Field}

inductive Defined : Entity → Prop
  | define {name : String} {fields : List (String × TypeExpr)} {e : Entity} :
      Entity.define name fields = .ok e → Defined e
  | withMethods {e e' : Entity} {methods : List Method} :
      Defined e → e.withMethods methods = .ok e' → Defined e'

def NamedFields (fields : List Field) : Prop :=
  (∀ f ∈ fields, Name.isIdentifier f.name) ∧ (fields.map (·.name)).Nodup

theorem namedFields_defineFields {pairs : List (String × TypeExpr)} (hd : NamedFields defined)
    (h : defineFields owner defined pairs = .ok fields) : NamedFields fields := by
  fun_induction defineFields owner defined pairs with
  | case1 defined =>
    cases h
    exact hd
  | case2 | case3 => cases h
  | case4 defined name ty rest hn hm ih =>
    refine ih ⟨?_, ?_⟩ h
    · intro f hf
      rcases List.mem_append.1 hf with hf | hf
      · exact hd.1 f hf
      · cases List.mem_singleton.1 hf
        exact Name.fault?_eq_none_iff.1 hn
    · rw [List.map_append, List.nodup_append_comm]
      exact List.nodup_cons.2 ⟨hm, hd.2⟩

theorem define_eq_ok {pairs : List (String × TypeExpr)} (h : define name pairs = .ok e) :
    Name.isIdentifier name ∧
      ∃ fields, defineFields name [] pairs = .ok fields ∧ e = ⟨name, fields, []⟩ := by
  unfold define at h
  split at h
  · cases h
  · next hn =>
    obtain ⟨fields, hf, h⟩ := bind_eq_ok_iff.1 h
    cases h
    exact ⟨Name.fault?_eq_none_iff.1 hn, fields, hf, rfl⟩

theorem addMethod_eq_ok {m : Method} (h : e.addMethod m = .ok e') :
    Name.isIdentifier m.name ∧
      (m.name ∉ e.fields.map (·.name) ∧ m.name ∉ e.methods.map (·.name)) ∧
      checkParameters e.name m.name [] m.parameters = .ok () ∧
      e' = { e with methods := e.methods ++ [m] } := by
  unfold addMethod at h
  split at h
  · cases h
  · next hn =>
    split at h
    · cases h
    · next hfresh =>
      obtain ⟨_, hp, h⟩ := bind_eq_ok_iff.1 h
      cases h
      exact ⟨Name.fault?_eq_none_iff.1 hn, not_or.1 hfresh, hp, rfl⟩

theorem withMethods_invariant {P : Entity → Prop} {methods : List Method}
    (hadd : ∀ {e m e'}, P e → e.addMethod m = .ok e' → P e') (he : P e)
    (h : e.withMethods methods = .ok e') : P e' := by
  induction methods generalizing e with
  | nil =>
    cases h
    exact he
  | cons m methods ih =>
    rw [withMethods, List.foldlM_cons, bind_eq_ok_iff] at h
    obtain ⟨e'', hm, h⟩ := h
    exact ih (hadd he hm) h

/-- What definition gives and each added method keeps holds of every defined entity. -/
theorem Defined.invariant {P : Entity → Prop} (h : e.Defined)
    (hdefine : ∀ {name pairs e}, Entity.define name pairs = .ok e → P e)
    (hadd : ∀ {e m e'}, P e → e.addMethod m = .ok e' → P e') : P e := by
  induction h with
  | define h => exact hdefine h
  | withMethods _ h ih => exact withMethods_invariant hadd ih h

theorem Defined.isIdentifier_name (h : e.Defined) : Name.isIdentifier e.name := by
  apply h.invariant
  · intro name pairs e h
    obtain ⟨hname, fields, -, rfl⟩ := define_eq_ok h
    exact hname
  · intro e m e' he h
    obtain ⟨-, -, -, rfl⟩ := addMethod_eq_ok h
    exact he

theorem Defined.namedFields (h : e.Defined) : NamedFields e.fields := by
  apply h.invariant
  · intro name pairs e h
    obtain ⟨-, fields, hfields, rfl⟩ := define_eq_ok h
    exact namedFields_defineFields ⟨by simp, by simp⟩ hfields
  · intro e m e' he h
    obtain ⟨-, -, -, rfl⟩ := addMethod_eq_ok h
    exact he

end Entity

namespace Catalog

variable {c : Catalog} {e : Entity} {name : String}

/-- The catalogues that can be built by declaring entities that were defined. -/
inductive Built : Catalog → Prop
  | empty : Built .empty
  | declare {c d : Catalog} {e : Entity} {id : EntityId} :
      Built c → e.Defined → c.declare e = .ok (id, d) → Built d

theorem Built.defined (h : c.Built) (he : e ∈ c.entities) : e.Defined := by
  induction h with
  | empty => cases he
  | declare _ hdef h ih =>
    unfold Catalog.declare at h
    split at h
    · cases h
    · cases h
      rcases List.mem_append.1 he with he | he
      · exact ih he
      · cases List.mem_singleton.1 he
        exact hdef

theorem Built.defined_of_find? (h : c.Built) (hf : c.find? name = some e) : e.Defined :=
  h.defined (List.mem_of_find?_eq_some hf)

end Catalog

end ValueContract
