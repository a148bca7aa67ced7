import ValueContract.Catalog.Stacks
import ValueContract.Proofs.Resolution

namespace ValueContract.Catalog

open Relation

variable {c : Catalog} {s : Stacks} {d : Descent} {e : Entity} {below : List Visit}
  {root name next entity : String} {trail path targets done : List String}

/-- The separate structures say the same as the visits on one stack. -/
structure Mirrors (s : Stacks) (d : Descent) : Prop where
  path : s.path = d.trail.reverse
  onPath : ∀ name, name ∈ s.onPath ↔ name ∈ d.trail
  pending : s.pending = d.visits.map (·.targets)
  done : s.done = d.done
  nodup : d.trail.Nodup

/-- Where no entity is met twice, the first place of one on the path is its last. -/
theorem exists_drop_eq_cycleAt (hn : trail.Nodup) (h : next ∈ trail) :
    ∃ start, trail.reverse.idxOf? next = some start ∧
      trail.reverse.drop start ++ [next] = cycleAt trail next := by
  obtain ⟨recent, past, rfl⟩ := List.append_of_mem h
  rw [List.nodup_middle, List.nodup_cons, List.mem_append, not_or] at hn
  obtain ⟨⟨hrecent, hpast⟩, -⟩ := hn
  have hrev : (recent ++ next :: past).reverse = past.reverse ++ next :: recent.reverse := by simp
  refine ⟨past.length, ?_, ?_⟩
  · have hnone : past.reverse.findIdx? (· == next) = none := by
      rw [List.findIdx?_eq_none_iff]
      intro a ha
      have hne : a ≠ next := fun heq ↦ hpast (heq ▸ List.mem_reverse.1 ha)
      simpa using hne
    rw [hrev, List.idxOf?, List.findIdx?_append, hnone]
    simp [List.findIdx?_cons]
  · have hne : ∀ a ∈ recent, decide (a ≠ next) = true := by
      intro a ha
      exact decide_eq_true fun heq ↦ hrecent (heq ▸ ha)
    rw [hrev, cycleAt, List.takeWhile_append_of_pos hne]
    simp

theorem Mirrors.probe_leave (h : Mirrors s ⟨⟨entity, []⟩ :: below, done⟩) :
    c.probe s = .inl ⟨(below.map (·.entity)).reverse, s.onPath.filter (· ≠ entity),
      below.map (·.targets), entity :: done⟩ := by
  have hpath : s.path = (below.map (·.entity)).reverse ++ [entity] := by
    rw [h.path]
    simp [Descent.trail]
  simp [Catalog.probe, h.pending, hpath, h.done]

theorem Mirrors.leave (h : Mirrors s ⟨⟨entity, []⟩ :: below, done⟩) :
    Mirrors ⟨(below.map (·.entity)).reverse, s.onPath.filter (· ≠ entity),
      below.map (·.targets), entity :: done⟩ ⟨below, entity :: done⟩ := by
  obtain ⟨hout, hnodup⟩ := List.nodup_cons.1 h.nodup
  refine ⟨rfl, ?_, rfl, rfl, hnodup⟩
  intro name
  have hne : name ∈ below.map (·.entity) → name ≠ entity := fun hm heq ↦ hout (heq ▸ hm)
  simp only [List.mem_filter, h.onPath, Descent.trail, List.map_cons, List.mem_cons,
    decide_eq_true_eq]
  tauto

theorem Mirrors.pass (h : Mirrors s ⟨⟨entity, next :: targets⟩ :: below, done⟩) :
    Mirrors ⟨s.path, s.onPath, targets :: below.map (·.targets), done⟩
      ⟨⟨entity, targets⟩ :: below, done⟩ :=
  ⟨h.path, h.onPath, rfl, rfl, h.nodup⟩

theorem Mirrors.enter (h : Mirrors s ⟨⟨entity, next :: targets⟩ :: below, done⟩)
    (ht : next ∉ entity :: below.map (·.entity)) (hf : c.find? next = some e) :
    Mirrors ⟨s.path ++ [e.name], e.name :: s.onPath,
        e.directTargets :: targets :: below.map (·.targets), done⟩
      ⟨⟨next, e.directTargets⟩ :: ⟨entity, targets⟩ :: below, done⟩ := by
  rw [name_of_find? hf]
  refine ⟨?_, ?_, rfl, rfl, List.nodup_cons.2 ⟨ht, h.nodup⟩⟩
  · rw [h.path]
    simp [Descent.trail]
  · intro name
    rw [List.mem_cons, h.onPath]
    simp [Descent.trail]

theorem Mirrors.probe (h : Mirrors s d) :
    Sum.LiftRel Mirrors (fun answer found ↦ answer = .ok found) (c.probe s) (c.descend d) := by
  obtain ⟨_ | ⟨⟨entity, _ | ⟨next, targets⟩⟩, below⟩, done⟩ := d
  · simp only [Catalog.probe, descend, h.pending, h.done]
    exact .inr rfl
  · rw [h.probe_leave]
    exact .inl h.leave
  · have hpending : s.pending = (next :: targets) :: below.map (·.targets) := h.pending
    simp only [Catalog.probe, descend, hpending, h.onPath, h.done]
    split
    · next ht =>
      obtain ⟨start, hstart, hcycle⟩ := exists_drop_eq_cycleAt h.nodup ht
      rw [h.path, hstart]
      exact .inr (by rw [hcycle])
    · next ht =>
      split
      · exact .inl h.pass
      · cases hf : c.find? next with
        | none => exact .inl h.pass
        | some e => exact .inl (h.enter ht hf)

theorem findCycleOnStacks_eq (c : Catalog) (root : String) (done : List String) :
    c.findCycleOnStacks root done = .ok (c.findCycle root done) := by
  unfold findCycleOnStacks findCycle
  cases hf : c.find? root with
  | none => rfl
  | some e =>
    simp only [name_of_find? hf]
    by_cases hd : root ∈ done
    · rw [if_pos hd, if_pos hd]
    · rw [if_neg hd, if_neg hd]
      apply Loop.run_rel Mirrors fun (answer : Except OffPath Search) found ↦ answer = .ok found
      · exact ⟨rfl, fun _ ↦ .rfl, rfl, rfl, List.nodup_singleton root⟩
      · intro s d h
        exact h.probe

theorem nodup_dropLast_cycleAt (hn : trail.Nodup) : (cycleAt trail next).dropLast.Nodup := by
  rw [cycleAt, List.dropLast_concat, List.nodup_cons, List.mem_reverse, List.nodup_reverse]
  constructor
  · intro hm
    simpa using List.all_eq_true.1 List.all_takeWhile next hm
  · exact hn.sublist (List.takeWhile_sublist _)

theorem Lasso.nodup_dropLast {follows : String → String → Prop} (h : Lasso follows trail next path)
    (hn : trail.Nodup) : path.dropLast.Nodup := by
  induction h with
  | close _ => exact nodup_dropLast_cycleAt hn
  | step hm _ _ ih => exact ih (List.nodup_cons.2 ⟨hm, hn⟩)

/-- A way along fields that hold entities by value, from one of them back to it. -/
structure IsRoundTrip (c : Catalog) (path : List String) : Prop where
  two_le_length : 2 ≤ path.length
  closed : path.head? = path.getLast?
  nodup : path.dropLast.Nodup
  declared : ∀ name ∈ path.dropLast, name ∈ c.names
  linked : path.IsChain fun name other ↦
    ∃ e, c.find? name = some e ∧ ∃ f ∈ e.fields, f.ty = .entity other

theorem Lasso.isRoundTrip (h : Lasso c.FirstEndless [] root path) : c.IsRoundTrip path := by
  have hcycle := h.isCycle (List.isChain_singleton root)
  have hnodup := h.nodup_dropLast List.nodup_nil
  obtain ⟨first, inner, hpath, hchain⟩ := id hcycle
  refine ⟨?_, ?_, hnodup, ?_, ?_⟩
  · rw [hpath]
    simp
  · rw [hpath, List.getLast?_concat]
    rfl
  · intro name hm
    have hback := hcycle.transGen (List.dropLast_subset _ hm)
    obtain ⟨other, hother, -⟩ := TransGen.head'_iff.1 hback
    obtain ⟨e, hf, -⟩ := hother.holds
    exact exists_find?_iff.1 ⟨e, hf⟩
  · exact hchain.imp fun _ _ hf ↦ hf.holds

theorem lasso_of_resolve (h : c.resolve name = .error (.compositionCycle entity path)) :
    Lasso c.FirstEndless [] name path := by
  cases faultSource_of_resolve h with
  | closure hf hw =>
    have hclosure := closureAnswer_checkClosure hf
    rw [hw] at hclosure
    obtain ⟨owner, field, target, heq, -⟩ := hclosure
    cases heq
  | cycle hp => exact (findCycle_eq_some_iff c.noneEndless_nil).1 hp

theorem lasso_of_check (h : .compositionCycle entity path ∈ c.check) :
    ∃ root, Lasso c.FirstEndless [] root path := by
  obtain ⟨e, -, hf⟩ := (c.surveyed_survey c.entities).found path (mem_check_iff.1 ⟨entity, h⟩)
  exact ⟨e.name, (findCycle_eq_some_iff c.noneEndless_nil).1 hf⟩

def BlamesFirst : SchemaError → Prop
  | .compositionCycle entity path => path.head? = some entity
  | _ => True

theorem blamesFirst_surveyEntity {s : Survey} (hd : c.NoneEndless s.done)
    (h : ∀ fault ∈ s.errors, BlamesFirst fault) :
    ∀ fault ∈ (c.surveyEntity s e).errors, BlamesFirst fault := by
  unfold Catalog.surveyEntity
  split
  · exact h
  · next path done hs =>
    have hfound : (c.findCycle e.name s.done).cycle? = some path := by rw [hs]
    obtain ⟨first, inner, rfl, -⟩ :=
      ((findCycle_eq_some_iff hd).1 hfound).isCycle (List.isChain_singleton _)
    dsimp only
    split
    · exact h
    · intro fault hm
      rcases List.mem_append.1 hm with hm | hm
      · exact h fault hm
      · cases List.mem_singleton.1 hm
        rfl

theorem blamesFirst_survey (c : Catalog) (entities : List Entity) :
    ∀ fault ∈ (c.survey entities).errors, BlamesFirst fault := by
  induction entities using List.reverseRecOn with
  | nil => exact List.forall_mem_nil _
  | append_singleton entities e ih =>
    rw [survey, List.foldl_append]
    exact blamesFirst_surveyEntity (c.surveyed_survey entities).done ih

theorem blamesFirst_check (c : Catalog) : ∀ fault ∈ c.check, BlamesFirst fault := by
  intro fault hm
  rcases List.mem_append.1 hm with hm | hm
  · simp only [unresolvedFields, unresolvedMethods, List.mem_flatMap, List.mem_append,
      List.mem_map] at hm
    obtain ⟨e, -, ⟨r, -, rfl⟩ | ⟨r, -, rfl⟩⟩ := hm <;> trivial
  · exact c.blamesFirst_survey c.entities fault hm

/-- The path of a reported cycle leads along fields that hold entities by value back to where it
starts, through declared entities no two of which are the same. All of them can be reached from the
entity that was to be resolved, and a check blames the first. The search over separate structures
never loses its path. -/
theorem cycle_witness (c : Catalog) :
    (∀ name entity path, c.resolve name = .error (.compositionCycle entity path) →
      c.IsRoundTrip path ∧ ∀ member ∈ path, ReflTransGen c.Holds name member) ∧
    (∀ entity path, .compositionCycle entity path ∈ c.check →
      c.IsRoundTrip path ∧ path.head? = some entity) ∧
    ∀ root done, c.findCycleOnStacks root done = .ok (c.findCycle root done) := by
  refine ⟨?_, ?_, c.findCycleOnStacks_eq⟩
  · intro name entity path h
    have hl := lasso_of_resolve h
    refine ⟨hl.isRoundTrip, fun member hm ↦ ?_⟩
    exact ReflTransGen.mono (fun _ _ hf ↦ hf.holds) _ _ (hl.reaches hm)
  · intro entity path h
    obtain ⟨root, hl⟩ := lasso_of_check h
    exact ⟨hl.isRoundTrip, c.blamesFirst_check _ h⟩

/-- The cycle is not where the search starts, and an entity without fields comes before it. -/
def ringed : Catalog where
  entities :=
    [⟨"Start", [⟨"leaf", .entity "Leaf", 0⟩, ⟨"ring", .entity "Ring", 1⟩], []⟩, ⟨"Leaf", [], []⟩,
      ⟨"Ring", [⟨"link", .entity "Link", 0⟩], []⟩, ⟨"Link", [⟨"ring", .entity "Ring", 0⟩], []⟩]

theorem ringed_cycle_witness :
    ringed.resolve "Start" = .error (.compositionCycle "Start" ["Ring", "Link", "Ring"]) ∧
    ringed.IsRoundTrip ["Ring", "Link", "Ring"] ∧
    ∀ member ∈ ["Ring", "Link", "Ring"], ReflTransGen ringed.Holds "Start" member := by
  have hr : ringed.resolve "Start" =
      .error (.compositionCycle "Start" ["Ring", "Link", "Ring"]) := by
    decide +kernel
  exact ⟨hr, (cycle_witness ringed).1 _ _ _ hr⟩

end ValueContract.Catalog
