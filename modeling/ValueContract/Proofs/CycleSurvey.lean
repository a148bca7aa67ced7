import ValueContract.Proofs.CycleSearch
import ValueContract.Proofs.SortedNames

namespace ValueContract

def SchemaError.cycle? : SchemaError → Option (List String)
  | compositionCycle _ path => some path
  | _ => none

namespace Catalog

open Relation

variable {c : Catalog} {entities : List Entity} {s : Survey} {e : Entity} {name : String}
  {path : List String}

def Survey.paths (s : Survey) : List (List String) :=
  s.errors.filterMap (·.cycle?)

structure Surveyed (c : Catalog) (entities : List Entity) (s : Survey) : Prop where
  done : c.NoneEndless s.done
  errors : ∀ fault ∈ s.errors, fault.cycle?.isSome
  reported : ∀ members, members ∈ s.reported ↔ members ∈ s.paths.map Name.sorted
  nodup : (s.paths.map List.toFinset).Nodup
  found : ∀ path ∈ s.paths, ∃ e ∈ entities, (c.findCycle e.name []).cycle? = some path
  complete : ∀ e ∈ entities, ∀ path, (c.findCycle e.name []).cycle? = some path →
    path.toFinset ∈ s.paths.map List.toFinset

theorem Surveyed.empty (c : Catalog) : c.Surveyed [] {} := by
  constructor <;> simp [Survey.paths, noneEndless_nil]

theorem mem_map_toFinset_iff {paths : List (List String)} :
    path.toFinset ∈ paths.map List.toFinset ↔ Name.sorted path ∈ paths.map Name.sorted := by
  simp only [List.mem_map, Name.sorted_eq_sorted_iff]

/-- A search whose answer is not reported again only adds to what is passed by. -/
theorem Surveyed.skip (h : c.Surveyed entities s) {done : List String}
    (hd : c.NoneEndless done)
    (hp : ∀ path, (c.findCycle e.name []).cycle? = some path →
      path.toFinset ∈ s.paths.map List.toFinset) :
    c.Surveyed (entities ++ [e]) { s with done } := by
  refine ⟨hd, h.errors, h.reported, h.nodup, ?_, ?_⟩
  · intro path hm
    obtain ⟨e', he, hf⟩ := h.found path hm
    exact ⟨e', List.mem_append_left _ he, hf⟩
  · intro e' he
    rcases List.mem_append.1 he with he | he
    · exact h.complete e' he
    · cases List.mem_singleton.1 he
      exact hp

theorem Surveyed.report (h : c.Surveyed entities s) {done : List String} {entity : String}
    (hd : c.NoneEndless done) (hp : (c.findCycle e.name []).cycle? = some path)
    (hn : path.toFinset ∉ s.paths.map List.toFinset) :
    c.Surveyed (entities ++ [e]) ⟨done, Name.sorted path :: s.reported,
      s.errors ++ [.compositionCycle entity path]⟩ := by
  have hpaths : Survey.paths ⟨done, Name.sorted path :: s.reported,
      s.errors ++ [.compositionCycle entity path]⟩ = s.paths ++ [path] := by
    simp [Survey.paths, SchemaError.cycle?]
  refine ⟨hd, ?_, ?_, ?_, ?_, ?_⟩
  · intro fault hm
    rcases List.mem_append.1 hm with hm | hm
    · exact h.errors fault hm
    · cases List.mem_singleton.1 hm
      rfl
  · intro members
    rw [hpaths, List.map_append, List.mem_append, List.mem_cons, h.reported]
    simp [or_comm]
  · rw [hpaths, List.map_append]
    exact List.nodup_append_comm.1 (List.nodup_cons.2 ⟨hn, h.nodup⟩)
  · rw [hpaths]
    intro path' hm
    rcases List.mem_append.1 hm with hm | hm
    · obtain ⟨e', he, hf⟩ := h.found path' hm
      exact ⟨e', List.mem_append_left _ he, hf⟩
    · cases List.mem_singleton.1 hm
      exact ⟨e, by simp, hp⟩
  · rw [hpaths, List.map_append]
    intro e' he path' hf
    rcases List.mem_append.1 he with he | he
    · exact List.mem_append_left _ (h.complete e' he path' hf)
    · cases List.mem_singleton.1 he
      cases hp.symm.trans hf
      simp

theorem Surveyed.surveyEntity (h : c.Surveyed entities s) (e : Entity) :
    c.Surveyed (entities ++ [e]) (c.surveyEntity s e) := by
  have hsame := findCycle_cycle?_eq e.name h.done
  have hdone := (searchAnswer_findCycle e.name h.done).done
  unfold Catalog.surveyEntity
  split
  · next done hs =>
    rw [hs] at hsame hdone
    exact h.skip hdone fun path hp ↦ nomatch hsame.trans hp
  · next path done hs =>
    rw [hs] at hsame hdone
    by_cases hm : Name.sorted path ∈ s.reported
    · simp only [hm, ↓reduceIte]
      refine h.skip hdone fun path' hp ↦ ?_
      cases hsame.trans hp
      rwa [mem_map_toFinset_iff, ← h.reported]
    · simp only [hm, ↓reduceIte]
      refine h.report hdone hsame.symm ?_
      rwa [mem_map_toFinset_iff, ← h.reported]

theorem surveyed_survey (c : Catalog) (entities : List Entity) :
    c.Surveyed entities (c.survey entities) := by
  induction entities using List.reverseRecOn with
  | nil => exact .empty c
  | append_singleton entities e ih =>
    rw [survey, List.foldl_append]
    exact ih.surveyEntity e

theorem survey_errors_eq_nil_iff :
    (c.survey c.entities).errors = [] ↔ ∀ e ∈ c.entities, ¬c.Endless e.name := by
  have h := c.surveyed_survey c.entities
  constructor
  · intro he e hm
    rw [← findCycle_eq_none_iff c.noneEndless_nil, Option.eq_none_iff_forall_ne_some]
    intro path hp
    simpa [Survey.paths, he] using h.complete e hm path hp
  · intro hall
    rw [List.eq_nil_iff_forall_not_mem]
    intro fault hm
    obtain ⟨path, hp⟩ := Option.isSome_iff_exists.1 (h.errors fault hm)
    obtain ⟨e, he, hf⟩ := h.found path (List.mem_filterMap.2 ⟨fault, hm, hp⟩)
    exact hall e he (endless_of_lasso ((findCycle_eq_some_iff c.noneEndless_nil).1 hf))

def cycleMembers (c : Catalog) : List (Finset String) :=
  (c.check.filterMap (·.cycle?)).map List.toFinset

theorem filterMap_cycle?_check (c : Catalog) :
    c.check.filterMap (·.cycle?) = (c.survey c.entities).paths := by
  have hdangling : (c.entities.flatMap fun e ↦
      c.unresolvedFields e ++ c.unresolvedMethods e).filterMap (·.cycle?) = [] := by
    rw [List.filterMap_eq_nil_iff]
    intro fault hm
    simp only [unresolvedFields, unresolvedMethods, List.mem_flatMap, List.mem_append,
      List.mem_map] at hm
    obtain ⟨e, -, ⟨r, -, rfl⟩ | ⟨r, -, rfl⟩⟩ := hm <;> rfl
  rw [check, List.filterMap_append, hdangling, List.nil_append]
  rfl

theorem mem_check_iff : (∃ entity, .compositionCycle entity path ∈ c.check) ↔
    path ∈ (c.survey c.entities).paths := by
  rw [← filterMap_cycle?_check, List.mem_filterMap]
  constructor
  · intro ⟨entity, hm⟩
    exact ⟨_, hm, rfl⟩
  · intro ⟨fault, hm, hp⟩
    cases fault <;> cases hp
    exact ⟨_, hm⟩

theorem nodup_cycleMembers (c : Catalog) : c.cycleMembers.Nodup := by
  rw [cycleMembers, filterMap_cycle?_check]
  exact (c.surveyed_survey c.entities).nodup

theorem mem_cycleMembers_iff {members : Finset String} : members ∈ c.cycleMembers ↔
    ∃ e ∈ c.entities, ∃ path, (c.findCycle e.name []).cycle? = some path ∧
      path.toFinset = members := by
  have h := c.surveyed_survey c.entities
  rw [cycleMembers, filterMap_cycle?_check]
  constructor
  · intro hm
    obtain ⟨path, hp, rfl⟩ := List.mem_map.1 hm
    obtain ⟨e, he, hf⟩ := h.found path hp
    exact ⟨e, he, path, hf, rfl⟩
  · intro ⟨e, he, path, hf, hm⟩
    exact hm ▸ h.complete e he path hf

theorem mem_cycleMembers_of_perm {d : Catalog} {members : Finset String} (hc : c.names.Nodup)
    (h : d.entities.Perm c.entities) : members ∈ d.cycleMembers ↔ members ∈ c.cycleMembers := by
  have hfollows := firstEndless_congr fun name ↦ find?_eq_of_perm hc h
  simp only [mem_cycleMembers_iff, findCycle_eq_some_iff (noneEndless_nil _), hfollows,
    h.mem_iff]

/-- What the searches of a check share changes none of their answers, and the sets of entities
reported do not depend on the order of declaration. -/
theorem cycle_report_exact (hc : c.Reachable) :
    (∀ before e after, c.entities = before ++ e :: after →
      (c.findCycle e.name (c.survey before).done).cycle? = (c.findCycle e.name []).cycle?) ∧
    c.cycleMembers.Nodup ∧
    (∀ members, members ∈ c.cycleMembers ↔ ∃ e ∈ c.entities, ∃ path,
      (c.findCycle e.name []).cycle? = some path ∧ path.toFinset = members) ∧
    ∀ d : Catalog, d.entities.Perm c.entities → d.cycleMembers.Perm c.cycleMembers := by
  refine ⟨?_, c.nodup_cycleMembers, fun _ ↦ mem_cycleMembers_iff, ?_⟩
  · intro before e after _
    exact findCycle_cycle?_eq e.name (c.surveyed_survey before).done
  · intro d h
    rw [List.perm_ext_iff_of_nodup d.nodup_cycleMembers c.nodup_cycleMembers]
    intro members
    exact mem_cycleMembers_of_perm (reachable_iff_nodup.1 hc) h

/-- The search from `A` passes by `D`, which the search before has looked through. -/
def shared : Catalog where
  entities :=
    [⟨"D", [], []⟩, ⟨"A", [⟨"d", .entity "D", 0⟩, ⟨"b", .entity "B", 1⟩], []⟩,
      ⟨"B", [⟨"a", .entity "A", 0⟩], []⟩]

theorem shared_cycle_report : shared.Reachable ∧
    (shared.survey [⟨"D", [], []⟩]).done = ["D"] ∧
    (shared.findCycle "A" (shared.survey [⟨"D", [], []⟩]).done).cycle? =
      (shared.findCycle "A" []).cycle? ∧
    (Catalog.mk shared.entities.reverse).cycleMembers.Perm shared.cycleMembers := by
  have hr : shared.Reachable := reachable_iff_nodup.2 (by decide)
  obtain ⟨hsame, -, -, hperm⟩ := cycle_report_exact hr
  refine ⟨hr, by decide +kernel, hsame [⟨"D", [], []⟩] _ _ rfl, hperm _ (List.reverse_perm _)⟩

theorem exists_mem_paths_of_endless (h : c.Endless name) :
    ∃ path, Lasso c.FirstEndless [] name path ∧
      ∃ path' ∈ (c.survey c.entities).paths, path'.toFinset = path.toFinset := by
  obtain ⟨path, hp⟩ : ∃ path, (c.findCycle name []).cycle? = some path :=
    Option.ne_none_iff_exists'.1 fun hn ↦ (findCycle_eq_none_iff c.noneEndless_nil).1 hn h
  obtain ⟨other, ⟨e, hf, -⟩, -⟩ := h.exists_holds
  have hm := (c.surveyed_survey c.entities).complete e (List.mem_of_find?_eq_some hf) path
    (by rwa [name_of_find? hf])
  exact ⟨path, (findCycle_eq_some_iff c.noneEndless_nil).1 hp, List.mem_map.1 hm⟩

/-- An entity is on a reported cycle if and only if going on to the first endless entity leads
back to it; from any entity on a cycle some reported cycle can be reached. -/
theorem reported_iff_periodic (c : Catalog) :
    (∀ name, (∃ entity path, .compositionCycle entity path ∈ c.check ∧ name ∈ path) ↔
      TransGen c.FirstEndless name name) ∧
    ∀ name, TransGen c.Holds name name → ∃ entity path,
      .compositionCycle entity path ∈ c.check ∧
        ∀ member ∈ path, ReflTransGen c.Holds name member := by
  refine ⟨fun name ↦ ⟨?_, ?_⟩, ?_⟩
  · intro ⟨entity, path, hm, hn⟩
    obtain ⟨e, -, hf⟩ := (c.surveyed_survey c.entities).found path (mem_check_iff.1 ⟨entity, hm⟩)
    have hl := (findCycle_eq_some_iff c.noneEndless_nil).1 hf
    exact (hl.isCycle (List.isChain_singleton _)).transGen hn
  · intro hp
    obtain ⟨further, hf, -⟩ := TransGen.head'_iff.1 hp
    obtain ⟨path, hl, path', hm, hsame⟩ := exists_mem_paths_of_endless hf.endless
    obtain ⟨entity, hm⟩ := mem_check_iff.2 hm
    have hn := (hl.mem_iff_periodic c.rightUnique_firstEndless).2 hp
    exact ⟨entity, path', hm, (List.toFinset.ext_iff.1 hsame name).2 hn⟩
  · intro name hn
    obtain ⟨path, hl, path', hm, hsame⟩ := exists_mem_paths_of_endless (.of_cycle hn)
    obtain ⟨entity, hm⟩ := mem_check_iff.2 hm
    refine ⟨entity, path', hm, fun member hmem ↦ ?_⟩
    have hr := hl.reaches ((List.toFinset.ext_iff.1 hsame member).1 hmem)
    exact ReflTransGen.mono (fun _ _ h ↦ h.holds) _ _ hr

/-- Two cycles through `A`, of which a search only meets the one through `B`. -/
def overlapping : Catalog where
  entities :=
    [⟨"A", [⟨"b", .entity "B", 0⟩, ⟨"c", .entity "C", 1⟩], []⟩,
      ⟨"B", [⟨"a", .entity "A", 0⟩], []⟩, ⟨"C", [⟨"a", .entity "A", 0⟩], []⟩]

theorem overlapping_check : overlapping.check = [.compositionCycle "A" ["A", "B", "A"]] := by
  decide +kernel

theorem cycle_through_second_field_unreported : overlapping.Reachable ∧
    "C" ∈ overlapping.names ∧ TransGen overlapping.Holds "C" "C" ∧
    ∀ entity path, .compositionCycle entity path ∈ overlapping.check → "C" ∉ path := by
  refine ⟨reachable_iff_nodup.2 (by decide), by decide, ?_, ?_⟩
  · have hca : overlapping.Holds "C" "A" := ⟨_, rfl, by decide⟩
    have hac : overlapping.Holds "A" "C" := ⟨_, rfl, by decide⟩
    exact .tail (.single hca) hac
  · intro entity path hm
    rw [overlapping_check] at hm
    cases List.mem_singleton.1 hm
    decide

end Catalog

end ValueContract
