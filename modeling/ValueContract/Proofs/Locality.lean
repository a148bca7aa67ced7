import ValueContract.Proofs.DefaultConstruction

namespace ValueContract.Catalog

open Relation

variable {c d : Catalog} {root name owner : String} {e : Entity}

/-- The closure of `root` in the first catalogue is found unchanged in the second. -/
def SameClosure (c d : Catalog) (root : String) : Prop :=
  ∀ name, ReflTransGen c.Refers root name → c.find? name = d.find? name

def SameSignatures (c d : Catalog) (root : String) : Prop :=
  ∀ e, c.find? root = some e → ∀ other, e.SignatureNames other →
    (other ∈ c.names ↔ other ∈ d.names)

theorem enqueue_congr {references : List (String × String)}
    (h : ∀ r ∈ references, c.find? r.2 = d.find? r.2) (f : Frontier) :
    c.enqueue owner references f = d.enqueue owner references f := by
  induction references generalizing f with
  | nil => rfl
  | cons r rest ih =>
    obtain ⟨hr, hrest⟩ := List.forall_mem_cons.1 h
    simp only [enqueue, hr, ih hrest]

theorem checkClosure_congr (h : c.SameClosure d root) (hf : c.find? root = some e) :
    c.checkClosure e = d.checkClosure e := by
  apply Loop.run_congr (c.Explored root)
  · rw [name_of_find? hf]
    exact .start hf
  · rintro ⟨visited, _ | ⟨q, queue⟩⟩ hi
    · rfl
    · obtain ⟨hq, hr⟩ := hi.queued q List.mem_cons_self
      have hsame : ∀ r ∈ q.references, c.find? r.2 = d.find? r.2 := by
        intro r hm
        exact h r.2 (hr.tail ((refers_iff_references hq).2 ⟨r.1, hm⟩))
      simp only [closureWalk, expand, enqueue_congr hsame]
  · intro f g hi hs
    exact hi.expand (hs ▸ c.expands_expand f)

def Inside (c : Catalog) (root : String) (s : Descent) : Prop :=
  ∀ v ∈ s.visits, ∀ target ∈ v.targets, ReflTransGen c.Refers root target

theorem reaches_directTargets (h : ReflTransGen c.Refers root name) (hf : c.find? name = some e) :
    ∀ target ∈ e.directTargets, ReflTransGen c.Refers root target :=
  fun _ ht ↦ h.tail ((holds_iff_directTargets hf).2 ht).refers

theorem Inside.descend {s t : Descent} (h : c.Inside root s) (hd : c.Descends s (.inl t)) :
    c.Inside root t := by
  cases hd with
  | leave entity below done => exact fun v hv ↦ h v (List.mem_cons_of_mem _ hv)
  | pass targets below hn =>
    obtain ⟨htop, hbelow⟩ := List.forall_mem_cons.1 h
    exact List.forall_mem_cons.2 ⟨fun t ht ↦ htop t (List.mem_cons_of_mem _ ht), hbelow⟩
  | enter targets ht hd hf =>
    obtain ⟨htop, hbelow⟩ := List.forall_mem_cons.1 h
    have hnext := htop _ List.mem_cons_self
    refine List.forall_mem_cons.2 ⟨reaches_directTargets hnext hf, ?_⟩
    exact List.forall_mem_cons.2 ⟨fun t ht ↦ htop t (List.mem_cons_of_mem _ ht), hbelow⟩

theorem findCycle_congr (h : c.SameClosure d root) (done : List String) :
    c.findCycle root done = d.findCycle root done := by
  have hroot : d.find? root = c.find? root := (h root .refl).symm
  unfold findCycle
  rw [hroot]
  split
  · rfl
  · next e hf =>
    split
    · rfl
    · apply Loop.run_congr (c.Inside root)
      · intro v hv
        cases List.mem_singleton.1 hv
        exact reaches_directTargets .refl hf
      · rintro ⟨_ | ⟨⟨entity, _ | ⟨next, targets⟩⟩, below⟩, done⟩ hi
        · rfl
        · rfl
        · have hnext := h next (hi _ List.mem_cons_self next List.mem_cons_self)
          simp only [cycleSearch, descend, hnext]
      · intro s t hi hs
        exact hi.descend (hs ▸ c.descends_descend s)

theorem unresolvedMethods_congr
    (h : ∀ other, e.SignatureNames other → (other ∈ c.names ↔ other ∈ d.names)) :
    c.unresolvedMethods e = d.unresolvedMethods e := by
  unfold unresolvedMethods
  congr 1
  apply List.filter_congr
  intro r hr
  have hsame := h r.2 (Entity.exists_mem_methodReferences_iff.1 ⟨r.1, hr⟩)
  rw [← contains_iff, ← contains_iff] at hsame
  rw [Bool.eq_iff_iff.2 hsame]

theorem resolve_congr (h : c.SameClosure d name) (hs : c.SameSignatures d name) :
    c.resolve name = d.resolve name := by
  have hname : d.find? name = c.find? name := (h name .refl).symm
  unfold resolve
  rw [hname]
  split
  · rfl
  · next e hf =>
    rw [checkClosure_congr h hf, unresolvedMethods_congr (hs e hf), findCycle_congr h]

theorem zeroSlots_congr (h : c.SameClosure d root) (owner : String) (trail : List String)
    (fields : List Field) (hf : ∀ f ∈ fields, ∀ target, f.ty = .entity target →
      ReflTransGen c.Refers root target) :
    c.zeroSlots owner trail fields = d.zeroSlots owner trail fields := by
  induction owner, trail, fields using zeroSlots.induct c with
  | case1 => rw [zeroSlots, zeroSlots]
  | case2 owner trail f fields ihe ihf =>
    obtain ⟨hfirst, hrest⟩ := List.forall_mem_cons.1 hf
    rw [zeroSlots_cons, zeroSlots_cons, ihf hrest]
    congr 1
    unfold zeroValue
    split
    · next target ht =>
      have hr := hfirst target ht
      rw [← h target hr]
      split
      · rfl
      · next hm =>
        split
        · rfl
        · next e he =>
          rw [ihe target hm e he]
          intro g hg inner hty
          exact hr.tail (Holds.refers ⟨e, he, g, hg, hty⟩)
    · rfl

theorem zeroInstance_congr (h : c.SameClosure d name) (hs : c.SameSignatures d name) :
    c.zeroInstance name = d.zeroInstance name := by
  unfold zeroInstance
  rw [← resolve_congr h hs]
  split
  · rfl
  · next e hr =>
    have hf := find?_of_resolve hr
    rw [zeroSlots_congr h]
    intro f hm target ht
    exact .single (Holds.refers ⟨e, hf, f, hm, ht⟩)

theorem emit_congr (h : c.SameClosure d name) (hs : c.SameSignatures d name) (s : Settings) :
    c.emit s name = d.emit s name := by
  unfold emit emitTraced
  rw [resolve_congr h hs]

structure SameOutcomes (c d : Catalog) (name : String) : Prop where
  resolve : c.resolve name = d.resolve name
  emit : ∀ s, c.emit s name = d.emit s name
  zeroInstance : c.zeroInstance name = d.zeroInstance name

theorem SameOutcomes.of_same (h : c.SameClosure d name) (hs : c.SameSignatures d name) :
    c.SameOutcomes d name :=
  ⟨resolve_congr h hs, emit_congr h hs, zeroInstance_congr h hs⟩

/-- All that a resolved entity depends on is declared, so more declarations do not reach it. -/
theorem SameOutcomes.of_resolve (hr : ∃ e, c.resolve name = .ok e)
    (h : ∀ other ∈ c.names, c.find? other = d.find? other) : c.SameOutcomes d name := by
  obtain ⟨-, hc, hs, -⟩ := exists_resolve_eq_ok_iff.1 hr
  refine .of_same (fun other ho ↦ h other (hc other ho)) ?_
  intro e hf other ho
  have hdeclared := hs e hf other ho
  obtain ⟨e', hf'⟩ := exists_find?_iff.2 hdeclared
  have hdeclared' : other ∈ d.names := exists_find?_iff.1 ⟨e', h other hdeclared ▸ hf'⟩
  exact iff_of_true hdeclared hdeclared'

theorem find?_eq_of_subset (hd : d.Reachable) (h : c.entities ⊆ d.entities) :
    ∀ other ∈ c.names, c.find? other = d.find? other := by
  intro other ho
  obtain ⟨e, hf⟩ := exists_find?_iff.2 ho
  have he := h (List.mem_of_find?_eq_some hf)
  rw [hf, ← name_of_find? hf, find?_of_mem (reachable_iff_nodup.1 hd) he]

def Declares (c d : Catalog) : Prop :=
  ∃ e id, c.declare e = .ok (id, d)

theorem Declares.entities_subset (h : c.Declares d) : c.entities ⊆ d.entities := by
  obtain ⟨e, id, h⟩ := h
  unfold declare at h
  split at h
  · cases h
  · cases h
    exact List.subset_append_left _ _

theorem reachable_of_declares (hc : c.Reachable) (h : ReflTransGen Declares c d) :
    d.Reachable ∧ c.entities ⊆ d.entities := by
  induction h with
  | refl => exact ⟨hc, fun _ ↦ id⟩
  | tail _ hlast ih =>
    have ⟨e, id, hdeclare⟩ := hlast
    exact ⟨.declare ih.1 hdeclare, fun _ he ↦ hlast.entities_subset (ih.2 he)⟩

/-- Catalogues that agree on the closure of an entity, and on whether what its signatures name is
declared, treat it alike. So the order of declaration, other entities and later declarations do
not matter once an entity resolves. -/
theorem outcomes_local (c : Catalog) (name : String) :
    (∀ d, c.SameClosure d name → c.SameSignatures d name → c.SameOutcomes d name) ∧
    (∀ d, d.Reachable → c.entities ⊆ d.entities → (∃ e, c.resolve name = .ok e) →
      c.SameOutcomes d name) ∧
    ∀ d, c.Reachable → ReflTransGen Declares c d → (∃ e, c.resolve name = .ok e) →
      c.SameOutcomes d name := by
  refine ⟨fun d ↦ .of_same, ?_, ?_⟩
  · intro d hd hsub hr
    exact .of_resolve hr (find?_eq_of_subset hd hsub)
  · intro d hc hgrows hr
    obtain ⟨hd, hsub⟩ := reachable_of_declares hc hgrows
    exact .of_resolve hr (find?_eq_of_subset hd hsub)

def stray : Entity := ⟨"Stray", [⟨"lost", .list (.entity "Nowhere"), 0⟩], []⟩

/-- The entities of `family` in the other order, behind one that does not resolve. -/
def strayFamily : Catalog where
  entities := stray :: family.entities.reverse

theorem closure_stray (h : ReflTransGen strayFamily.Refers "Stray" name) :
    name = "Stray" ∨ name = "Nowhere" := by
  induction h with
  | refl => exact .inl rfl
  | tail _ hlast ih =>
    obtain ⟨e, hf, f, hfield, ht⟩ := hlast
    rcases ih with rfl | rfl
    · have hstray : strayFamily.find? "Stray" = some stray := rfl
      cases hstray.symm.trans hf
      cases List.mem_singleton.1 hfield
      cases ht
      exact .inr rfl
    · have hnone : strayFamily.find? "Nowhere" = none := rfl
      cases hnone.symm.trans hf

theorem strayFamily_outcomes :
    strayFamily.SameOutcomes ⟨[stray]⟩ "Stray" ∧ family.SameOutcomes strayFamily "Parent" ∧
      family.SameOutcomes ⟨family.entities ++ [stray]⟩ "Parent" := by
  have hfamily : family.Reachable := reachable_iff_nodup.2 (by decide)
  have hr : ∃ e, family.resolve "Parent" = .ok e :=
    ⟨⟨"Parent", [⟨"child", .entity "Child", 0⟩], []⟩, by decide +kernel⟩
  obtain ⟨-, hsubset, hlater⟩ := outcomes_local family "Parent"
  refine ⟨(outcomes_local strayFamily "Stray").1 ⟨[stray]⟩ ?_ ?_, ?_, ?_⟩
  · intro name hn
    rcases closure_stray hn with rfl | rfl <;> rfl
  · rintro e ⟨⟩ other ho
    cases ho with
    | returned hm | parameter hm => cases hm
  · exact hsubset strayFamily (reachable_iff_nodup.2 (by decide)) (by decide) hr
  · exact hlater _ hfamily (.single ⟨stray, ⟨2⟩, rfl⟩) hr

end ValueContract.Catalog
