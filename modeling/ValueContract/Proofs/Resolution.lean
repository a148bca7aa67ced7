import ValueContract.Proofs.ClosureWalk
import ValueContract.Proofs.CycleSurvey

namespace ValueContract.Catalog

open Relation

variable {c : Catalog} {name : String} {e : Entity}

theorem unresolvedFields_eq_nil_iff : c.unresolvedFields e = [] ↔
    ∀ f ∈ e.fields, ∀ other, f.ty.element = .entity other → other ∈ c.names := by
  have hall : c.unresolvedFields e = [] ↔ ∀ r ∈ e.references, r.2 ∈ c.names := by
    simp [unresolvedFields, contains_iff]
  rw [hall]
  constructor
  · intro h f hf other ho
    obtain ⟨field, hr⟩ := Entity.exists_mem_references_iff.2 ⟨f, hf, ho⟩
    exact h (field, other) hr
  · intro h r hr
    obtain ⟨f, hf, ho⟩ := Entity.exists_mem_references_iff.1 ⟨r.1, hr⟩
    exact h f hf r.2 ho

theorem unresolvedMethods_eq_nil_iff :
    c.unresolvedMethods e = [] ↔ ∀ other, e.SignatureNames other → other ∈ c.names := by
  have hall : c.unresolvedMethods e = [] ↔ ∀ r ∈ e.methodReferences, r.2 ∈ c.names := by
    simp [unresolvedMethods, contains_iff]
  rw [hall]
  constructor
  · intro h other ho
    obtain ⟨method, hr⟩ := Entity.exists_mem_methodReferences_iff.2 ho
    exact h (method, other) hr
  · intro h r hr
    exact h r.2 (Entity.exists_mem_methodReferences_iff.1 ⟨r.1, hr⟩)

theorem signaturesDeclared_iff (h : c.find? name = some e) :
    c.SignaturesDeclared name ↔ c.unresolvedMethods e = [] := by
  simp [SignaturesDeclared, h, unresolvedMethods_eq_nil_iff]

/-- The outcomes of resolving an entity, each with all that decides it. -/
inductive Resolution (c : Catalog) (name : String) : Except SchemaError Entity → Prop
  | unknown (h : name ∉ c.names) : Resolution c name (.error (.unknownEntity name))
  | dangling (owner field target : String) (h : name ∈ c.names) (hc : ¬c.ClosureDeclared name) :
      Resolution c name (.error (.unresolvedType owner field target))
  | signature (method target : String) (h : name ∈ c.names) (hc : c.ClosureDeclared name)
      (hs : ¬c.SignaturesDeclared name) :
      Resolution c name (.error (.unresolvedMethodType name method target))
  | cycle (path : List String) (h : name ∈ c.names) (hc : c.ClosureDeclared name)
      (hs : c.SignaturesDeclared name) (he : c.Endless name) :
      Resolution c name (.error (.compositionCycle name path))
  | resolved (e : Entity) (h : c.find? name = some e) (hc : c.ClosureDeclared name)
      (hs : c.SignaturesDeclared name) (he : ¬c.Endless name) : Resolution c name (.ok e)

theorem resolution_resolve (c : Catalog) (name : String) :
    c.Resolution name (c.resolve name) := by
  unfold resolve
  split
  · next hf => exact .unknown (find?_eq_none_iff.1 hf)
  · next e hf =>
    have hm : name ∈ c.names := exists_find?_iff.1 ⟨e, hf⟩
    have hclosure := closureAnswer_checkClosure hf
    split
    · next fault hw =>
      rw [hw] at hclosure
      obtain ⟨owner, field, target, rfl, hr, ht, hn⟩ := hclosure
      exact .dangling owner field target hm fun hc ↦ hn (hc target (hr.tail ht))
    · next fault rest hw hs =>
      rw [hw] at hclosure
      have hmem : fault ∈ c.unresolvedMethods e := hs ▸ List.mem_cons_self
      obtain ⟨r, -, rfl⟩ := List.mem_map.1 hmem
      rw [name_of_find? hf]
      refine .signature r.1 r.2 hm hclosure ?_
      simp [signaturesDeclared_iff hf, hs]
    · next path hw hs hp =>
      rw [hw] at hclosure
      exact .cycle path hm hclosure ((signaturesDeclared_iff hf).2 hs)
        (endless_of_lasso ((findCycle_eq_some_iff c.noneEndless_nil).1 hp))
    · next hw hs hp =>
      rw [hw] at hclosure
      exact .resolved e hf hclosure ((signaturesDeclared_iff hf).2 hs)
        ((findCycle_eq_none_iff c.noneEndless_nil).1 hp)

theorem find?_of_resolve (h : c.resolve name = .ok e) : c.find? name = some e := by
  have hr := c.resolution_resolve name
  rw [h] at hr
  cases hr with
  | resolved _ hf => exact hf

inductive FaultSource (c : Catalog) (name : String) : SchemaError → Prop
  | lookup (h : c.find? name = none) : FaultSource c name (.unknownEntity name)
  | closure {e : Entity} {fault : SchemaError} (hf : c.find? name = some e)
      (h : c.checkClosure e = .error fault) : FaultSource c name fault
  | methods {e : Entity} {method target : String} (hf : c.find? name = some e) :
      FaultSource c name (.unresolvedMethodType e.name method target)
  | cycle {path : List String} (h : (c.findCycle name []).cycle? = some path) :
      FaultSource c name (.compositionCycle name path)

theorem faultSource_of_resolve {fault : SchemaError} (h : c.resolve name = .error fault) :
    c.FaultSource name fault := by
  unfold resolve at h
  split at h
  · next hf =>
    cases h
    exact .lookup hf
  · next e hf =>
    split at h
    · next fault hw =>
      cases h
      exact .closure hf hw
    · next fault rest _ hs =>
      cases h
      have hmem : fault ∈ c.unresolvedMethods e := hs ▸ List.mem_cons_self
      obtain ⟨r, -, rfl⟩ := List.mem_map.1 hmem
      exact .methods hf
    · next hp =>
      cases h
      exact .cycle hp
    · cases h

theorem exists_resolve_eq_ok_iff : (∃ e, c.resolve name = .ok e) ↔
    name ∈ c.names ∧ c.ClosureDeclared name ∧ c.SignaturesDeclared name ∧ ¬c.Endless name := by
  have h := c.resolution_resolve name
  constructor
  · intro ⟨e, hr⟩
    rw [hr] at h
    cases h with
    | resolved e hf hc hs he => exact ⟨exists_find?_iff.1 ⟨e, hf⟩, hc, hs, he⟩
  · intro ⟨hm, hc, hs, he⟩
    generalize c.resolve name = outcome at h
    cases h with
    | unknown h => exact absurd hm h
    | dangling _ _ _ _ h => exact absurd hc h
    | signature _ _ _ _ h => exact absurd hs h
    | cycle _ _ _ _ h => exact absurd h he
    | resolved e => exact ⟨e, rfl⟩

/-- An entity resolves if and only if it and its closure are declared, its signatures name
declared entities and it is not endless; otherwise the first of these that fails decides the
fault. Both walks end, after as many rounds as the catalogue has entities and references at
most. -/
theorem resolve_decides (c : Catalog) (name : String) :
    ((∃ e, c.resolve name = .ok e) ↔ name ∈ c.names ∧ c.ClosureDeclared name ∧
      c.SignaturesDeclared name ∧ ¬c.Endless name) ∧
    (∀ e, c.resolve name = .ok e → c.find? name = some e) ∧
    (name ∉ c.names → c.resolve name = .error (.unknownEntity name)) ∧
    (name ∈ c.names → ¬c.ClosureDeclared name →
      ∃ owner field target, c.resolve name = .error (.unresolvedType owner field target)) ∧
    (name ∈ c.names → c.ClosureDeclared name → ¬c.SignaturesDeclared name →
      ∃ method target, c.resolve name = .error (.unresolvedMethodType name method target)) ∧
    (name ∈ c.names → c.ClosureDeclared name → c.SignaturesDeclared name → c.Endless name →
      ∃ path, c.resolve name = .error (.compositionCycle name path)) ∧
    ∀ e, c.find? name = some e →
      (∃ n, n ≤ c.entities.length + 1 ∧
        c.closureWalk.Runs n ⟨[e.name], [e]⟩ (c.checkClosure e)) ∧
      ∃ n, n ≤ c.entities.length + (c.entities.flatMap (·.directTargets)).length + 1 ∧
        c.cycleSearch.Runs n ⟨[⟨name, e.directTargets⟩], []⟩ (c.findCycle name []) := by
  have h := c.resolution_resolve name
  refine ⟨exists_resolve_eq_ok_iff, ?_, ?_, ?_, ?_, ?_, fun e hf ↦
    ⟨closureWalk_runs hf, cycleSearch_runs hf List.not_mem_nil⟩⟩
  · intro e hr
    rw [hr] at h
    cases h with
    | resolved e hf => exact hf
  · intro hm
    rw [resolve, find?_eq_none_iff.2 hm]
  · intro hm hc
    generalize c.resolve name = outcome at h
    cases h with
    | unknown h => exact absurd hm h
    | dangling owner field target => exact ⟨owner, field, target, rfl⟩
    | signature _ _ _ h | cycle _ _ h | resolved _ _ h => exact absurd h hc
  · intro hm hc hs
    generalize c.resolve name = outcome at h
    cases h with
    | unknown h => exact absurd hm h
    | dangling _ _ _ _ h => exact absurd hc h
    | signature method target => exact ⟨method, target, rfl⟩
    | cycle _ _ _ h | resolved _ _ _ h => exact absurd h hs
  · intro hm hc hs he
    generalize c.resolve name = outcome at h
    cases h with
    | unknown h => exact absurd hm h
    | dangling _ _ _ _ h => exact absurd hc h
    | signature _ _ _ _ h => exact absurd hs h
    | cycle path => exact ⟨path, rfl⟩
    | resolved _ _ _ _ h => exact absurd he h

theorem check_eq_nil_iff : c.check = [] ↔ ∀ e ∈ c.entities,
    (∀ f ∈ e.fields, ∀ other, f.ty.element = .entity other → other ∈ c.names) ∧
      (∀ other, e.SignatureNames other → other ∈ c.names) ∧ ¬c.Endless e.name := by
  rw [check, List.append_eq_nil_iff, List.flatMap_eq_nil_iff, survey_errors_eq_nil_iff]
  simp only [List.append_eq_nil_iff, unresolvedFields_eq_nil_iff, unresolvedMethods_eq_nil_iff]
  constructor
  · rintro ⟨hrefs, hend⟩ e he
    exact ⟨(hrefs e he).1, (hrefs e he).2, hend e he⟩
  · intro h
    exact ⟨fun e he ↦ ⟨(h e he).1, (h e he).2.1⟩, fun e he ↦ (h e he).2.2⟩

theorem closureDeclared_of_fields (hm : name ∈ c.names)
    (h : ∀ e ∈ c.entities, ∀ f ∈ e.fields, ∀ other, f.ty.element = .entity other →
      other ∈ c.names) : c.ClosureDeclared name := by
  intro other ho
  cases ho with
  | refl => exact hm
  | tail _ hlast =>
    obtain ⟨e, hf, f, hfield, ht⟩ := hlast
    exact h e (List.mem_of_find?_eq_some hf) f hfield other ht

/-- A catalogue has no fault if and only if each of its entities resolves. -/
theorem check_eq_nil_iff_resolve (hc : c.Reachable) :
    c.check = [] ↔ ∀ name ∈ c.names, ∃ e, c.resolve name = .ok e := by
  rw [check_eq_nil_iff]
  constructor
  · intro h name hm
    obtain ⟨e, hf⟩ := exists_find?_iff.2 hm
    obtain ⟨-, hs, he⟩ := h e (List.mem_of_find?_eq_some hf)
    refine exists_resolve_eq_ok_iff.2 ⟨hm, ?_, ?_, name_of_find? hf ▸ he⟩
    · exact closureDeclared_of_fields hm fun e he ↦ (h e he).1
    · exact (signaturesDeclared_iff hf).2 (unresolvedMethods_eq_nil_iff.2 hs)
  · intro h e he
    have hf := find?_of_mem (reachable_iff_nodup.1 hc) he
    have hm : e.name ∈ c.names := List.mem_map_of_mem he
    obtain ⟨-, hclosure, hs, hend⟩ := exists_resolve_eq_ok_iff.1 (h e.name hm)
    refine ⟨?_, hs e hf, hend⟩
    intro f hfield other ht
    exact hclosure other (.single ⟨e, hf, f, hfield, ht⟩)

/-- Entities that name each other, but one of them in a list. -/
def family : Catalog where
  entities :=
    [⟨"Parent", [⟨"child", .entity "Child", 0⟩], []⟩,
      ⟨"Child", [⟨"siblings", .list (.entity "Parent"), 0⟩], []⟩]

theorem family_resolves : family.Reachable ∧ family.check = [] ∧
    ∀ name ∈ family.names, ∃ e, family.resolve name = .ok e := by
  have hr : family.Reachable := reachable_iff_nodup.2 (by decide)
  have hc : family.check = [] := by decide +kernel
  exact ⟨hr, hc, (check_eq_nil_iff_resolve hr).1 hc⟩

end ValueContract.Catalog
