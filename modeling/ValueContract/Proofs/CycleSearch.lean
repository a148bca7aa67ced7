import ValueContract.Proofs.FirstCycle
import ValueContract.Proofs.Reference

namespace ValueContract.Catalog

open Relation

variable {c : Catalog} {root name next : String} {targets done path : List String}

/-- Of what `name` holds only `targets` can be endless. What leaves the stack never is, so a search
that finds a cycle has always gone on to the first endless entity. -/
def Cleared (c : Catalog) (name : String) (targets : List String) : Prop :=
  ∃ e before, c.find? name = some e ∧ e.directTargets = before ++ targets ∧ c.NoneEndless before

theorem Cleared.start {e : Entity} (h : c.find? name = some e) :
    c.Cleared name e.directTargets :=
  ⟨e, [], h, rfl, c.noneEndless_nil⟩

theorem Cleared.holds (h : c.Cleared name (next :: targets)) : c.Holds name next := by
  obtain ⟨e, before, hf, hd, -⟩ := h
  exact (holds_iff_directTargets hf).2 (by simp [hd])

theorem Cleared.pass (h : c.Cleared name (next :: targets)) (hn : ¬c.Endless next) :
    c.Cleared name targets := by
  obtain ⟨e, before, hf, hd, hb⟩ := h
  refine ⟨e, before ++ [next], hf, by simp [hd], ?_⟩
  intro target ht
  rcases List.mem_append.1 ht with ht | ht
  · exact hb target ht
  · exact List.mem_singleton.1 ht ▸ hn

theorem Cleared.not_endless (h : c.Cleared name []) : ¬c.Endless name := by
  obtain ⟨e, before, hf, hd, hb⟩ := h
  intro he
  obtain ⟨other, ho, hother⟩ := he.exists_holds
  rw [holds_iff_directTargets hf, hd, List.append_nil] at ho
  exact hb other ho hother

theorem Cleared.firstEndless (h : c.Cleared name (next :: targets)) (hn : c.Endless next) :
    c.FirstEndless name next := by
  obtain ⟨e, before, hf, hd, hb⟩ := h
  exact firstEndless_of_directTargets hf hd hb hn

/-- `next` comes up above the visits, which lead to it from the root. -/
inductive Ascent (c : Catalog) (root : String) : String → List Visit → Prop
  | root : Ascent c root root []
  | visit {next : String} {v : Visit} {below : List Visit}
      (h : Ascent c root v.entity below) (hv : v.entity ∉ below.map (·.entity))
      (hc : c.Cleared v.entity (next :: v.targets)) : Ascent c root next (v :: below)

theorem Ascent.transGen {visits : List Visit} (h : c.Ascent root next visits)
    (hn : name ∈ visits.map (·.entity)) : TransGen c.Holds name next := by
  induction h with
  | root => simp at hn
  | @visit next v below _ _ hc ih =>
    rcases List.mem_cons.1 hn with rfl | hn
    · exact .single hc.holds
    · exact (ih hn).tail hc.holds

theorem Ascent.lasso {visits : List Visit} (h : c.Ascent root next visits) (hn : c.Endless next)
    (hl : Lasso c.FirstEndless (visits.map (·.entity)) next path) :
    Lasso c.FirstEndless [] root path := by
  induction h with
  | root => exact hl
  | @visit next v below _ hv hc ih =>
    exact ih (.of_holds hc.holds hn) (.step hv (hc.firstEndless hn) hl)

theorem endless_of_lasso (h : Lasso c.FirstEndless [] root path) : c.Endless root := by
  cases h with
  | close h => exact absurd h List.not_mem_nil
  | step _ hf _ => exact hf.endless

structure Searching (c : Catalog) (root : String) (d : Descent) : Prop where
  done : c.NoneEndless d.done
  bottom : d.visits = [] → root ∈ d.done
  top : ∀ v below, d.visits = v :: below →
    c.Ascent root v.entity below ∧ v.entity ∉ below.map (·.entity) ∧ c.Cleared v.entity v.targets

theorem Searching.ascent {targets : List String} {below : List Visit}
    (h : c.Searching root ⟨⟨name, next :: targets⟩ :: below, done⟩) :
    c.Ascent root next (⟨name, targets⟩ :: below) := by
  obtain ⟨ha, hv, hc⟩ := h.top _ _ rfl
  exact .visit ha hv hc

theorem Searching.descend {d d' : Descent} (h : c.Searching root d)
    (hd : c.Descends d (.inl d')) : c.Searching root d' := by
  cases hd with
  | leave entity below done =>
    obtain ⟨ha, hv, hc⟩ := h.top _ _ rfl
    have hn : ¬c.Endless entity := hc.not_endless
    refine ⟨?_, ?_, ?_⟩
    · rintro name (_ | ⟨_, hm⟩)
      · exact hn
      · exact h.done name hm
    · rintro rfl
      cases ha
      exact List.mem_cons_self
    · rintro v below rfl
      cases ha with
      | visit ha hv hc => exact ⟨ha, hv, hc.pass hn⟩
  | @pass entity next targets below done hn =>
    obtain ⟨ha, hv, hc⟩ := h.top _ _ rfl
    have hne : ¬c.Endless next := hn.elim (h.done next) not_endless_of_find?_eq_none
    refine ⟨h.done, nofun, ?_⟩
    rintro v below ⟨⟩
    exact ⟨ha, hv, hc.pass hne⟩
  | @enter entity next targets below done e ht hd hf =>
    refine ⟨h.done, nofun, ?_⟩
    rintro v below ⟨⟩
    exact ⟨h.ascent, ht, .start hf⟩

structure SearchAnswer (c : Catalog) (root : String) (s : Search) : Prop where
  done : c.NoneEndless s.done
  none : s.cycle? = none → ¬c.Endless root
  some : ∀ path, s.cycle? = some path → Lasso c.FirstEndless [] root path

theorem Searching.answer {d : Descent} {s : Search} (h : c.Searching root d)
    (hd : c.Descends d (.inr s)) : c.SearchAnswer root s := by
  cases hd with
  | finish done => exact ⟨h.done, fun _ ↦ h.done root (h.bottom rfl), nofun⟩
  | @close entity next targets below done ht =>
    have ha := h.ascent
    refine ⟨h.done, nofun, ?_⟩
    rintro path ⟨⟩
    exact ha.lasso (.of_cycle (ha.transGen ht)) (.close ht)

theorem searchAnswer_findCycle (root : String) (hd : c.NoneEndless done) :
    c.SearchAnswer root (c.findCycle root done) := by
  unfold findCycle
  split
  · next hf => exact ⟨hd, fun _ ↦ not_endless_of_find?_eq_none hf, nofun⟩
  · next e hf =>
    split
    · next hr => exact ⟨hd, fun _ ↦ hd root hr, nofun⟩
    · apply Loop.run_post (c.Searching root) (c.SearchAnswer root)
      · refine ⟨hd, nofun, ?_⟩
        rintro v below ⟨⟩
        exact ⟨.root, List.not_mem_nil, .start hf⟩
      · intro d d' h hs
        exact h.descend (hs ▸ c.descends_descend d)
      · intro d s h hs
        exact h.answer (hs ▸ c.descends_descend d)

theorem findCycle_eq_none_iff (hd : c.NoneEndless done) :
    (c.findCycle root done).cycle? = none ↔ ¬c.Endless root := by
  have ha := searchAnswer_findCycle root hd
  refine ⟨ha.none, fun hr ↦ ?_⟩
  cases hp : (c.findCycle root done).cycle? with
  | none => rfl
  | some path => exact absurd (endless_of_lasso (ha.some path hp)) hr

theorem findCycle_eq_some_iff (hd : c.NoneEndless done) :
    (c.findCycle root done).cycle? = some path ↔ Lasso c.FirstEndless [] root path := by
  have ha := searchAnswer_findCycle root hd
  refine ⟨ha.some path, fun hl ↦ ?_⟩
  cases hp : (c.findCycle root done).cycle? with
  | none => exact absurd (endless_of_lasso hl) (ha.none hp)
  | some path' => rw [(ha.some path' hp).unique c.rightUnique_firstEndless hl]

/-- What is known to be passed by makes no difference to what is found. -/
theorem findCycle_cycle?_eq (root : String) (hd : c.NoneEndless done) :
    (c.findCycle root done).cycle? = (c.findCycle root []).cycle? := by
  ext path
  rw [findCycle_eq_some_iff hd, findCycle_eq_some_iff c.noneEndless_nil]

theorem length_flatMap_directTargets (entities : List Entity) :
    (entities.flatMap fun e ↦ e.name :: e.directTargets).length =
      entities.length + (entities.flatMap (·.directTargets)).length := by
  induction entities with
  | nil => rfl
  | cons e rest ih =>
    simp only [List.flatMap_cons, List.length_append, List.length_cons, ih]
    omega

/-- The search looks at every declared entity, and at what it holds, at most once. -/
theorem cycleSearch_runs {e : Entity} (hf : c.find? root = some e) (hr : root ∉ done) :
    ∃ n, n ≤ c.entities.length + (c.entities.flatMap (·.directTargets)).length + 1 ∧
      c.cycleSearch.Runs n ⟨[⟨root, e.directTargets⟩], done⟩ (c.findCycle root done) := by
  obtain ⟨n, hn, hruns⟩ := c.cycleSearch.runs_run ⟨[⟨root, e.directTargets⟩], done⟩
  refine ⟨n, Nat.le_trans hn (Nat.succ_le_succ ?_), ?_⟩
  · have hstart := unseen_cons_add_le (fun e ↦ e.name :: e.directTargets) hf hr
    have hall : c.unseen (fun e ↦ e.name :: e.directTargets) done ≤ _ :=
      length_flatMap_filter_le _ _ _
    rw [length_flatMap_directTargets] at hall
    simp only [cycleSearch, Descent.rank, Descent.trail, List.map_cons, List.map_nil,
      List.flatMap_cons, List.flatMap_nil, List.append_nil, List.cons_append, List.nil_append,
      List.length_cons] at hstart ⊢
    omega
  · simpa [findCycle, hf, hr] using hruns

end ValueContract.Catalog
