import ValueContract.Proofs.Reference

namespace ValueContract.Catalog

open Relation

structure Enqueued (c : Catalog) (references : List (String × String)) (f g : Frontier) :
    Prop where
  visited_subset : f.visited ⊆ g.visited
  queue_subset : f.queue ⊆ g.queue
  mem_visited : ∀ r ∈ references, r.2 ∈ g.visited
  visited_cases : ∀ name ∈ g.visited, name ∈ f.visited ∨ ∃ q ∈ g.queue, q.name = name
  queue_cases : ∀ q ∈ g.queue, q ∈ f.queue ∨ ∃ r ∈ references, c.find? r.2 = some q

variable {c : Catalog} {owner root : String} {references : List (String × String)}
  {f g : Frontier}

theorem enqueued_of_enqueue (h : c.enqueue owner references f = .ok g) :
    c.Enqueued references f g := by
  fun_induction enqueue c owner references f with
  | case1 f =>
    cases h
    exact ⟨fun _ ↦ id, fun _ ↦ id, by simp, fun _ ↦ .inl, fun _ ↦ .inl⟩
  | case2 => cases h
  | case3 field target rest f next hf hv ih =>
    have hr := ih h
    refine ⟨hr.visited_subset, hr.queue_subset, ?_, hr.visited_cases, ?_⟩
    · simpa using ⟨hr.visited_subset hv, fun a b hab ↦ hr.mem_visited (a, b) hab⟩
    · intro q hq
      rcases hr.queue_cases q hq with hq | ⟨r, hr, hf⟩
      · exact .inl hq
      · exact .inr ⟨r, List.mem_cons_of_mem _ hr, hf⟩
  | case4 field target rest f next hf hv ih =>
    have hr := ih h
    have htarget : target ∈ g.visited := hr.visited_subset List.mem_cons_self
    have hnext : next ∈ g.queue := hr.queue_subset (by simp)
    refine ⟨fun x hx ↦ hr.visited_subset (List.mem_cons_of_mem _ hx),
      fun x hx ↦ hr.queue_subset (List.mem_append_left _ hx), ?_, ?_, ?_⟩
    · simpa using ⟨htarget, fun a b hab ↦ hr.mem_visited (a, b) hab⟩
    · intro name hn
      rcases hr.visited_cases name hn with hn | hn
      · rcases List.mem_cons.1 hn with rfl | hn
        · exact .inr ⟨next, hnext, name_of_find? hf⟩
        · exact .inl hn
      · exact .inr hn
    · intro q hq
      rcases hr.queue_cases q hq with hq | ⟨r, hr, hf⟩
      · rcases List.mem_append.1 hq with hq | hq
        · exact .inl hq
        · cases List.mem_singleton.1 hq
          exact .inr ⟨(field, target), List.mem_cons_self, hf⟩
      · exact .inr ⟨r, List.mem_cons_of_mem _ hr, hf⟩

/-- The fault names the first reference that is not declared. -/
theorem enqueue_eq_error {fault : SchemaError} (h : c.enqueue owner references f = .error fault) :
    ∃ before field target after, references = before ++ (field, target) :: after ∧
      (∀ r ∈ before, r.2 ∈ c.names) ∧ target ∉ c.names ∧
      fault = .unresolvedType owner field target := by
  fun_induction enqueue c owner references f with
  | case1 => cases h
  | case2 field target rest f hf =>
    cases h
    exact ⟨[], field, target, rest, rfl, by simp, find?_eq_none_iff.1 hf, rfl⟩
  | case3 field target rest f next hf hv ih | case4 field target rest f next hf hv ih =>
    obtain ⟨before, field', target', after, rfl, hb, ht, hfault⟩ := ih h
    refine ⟨(field, target) :: before, field', target', after, rfl, ?_, ht, hfault⟩
    simpa using ⟨exists_find?_iff.1 ⟨next, hf⟩, fun a b hab ↦ hb (a, b) hab⟩

structure Explored (c : Catalog) (root : String) (f : Frontier) : Prop where
  root_mem : root ∈ f.visited
  queued : ∀ q ∈ f.queue, c.find? q.name = some q ∧ ReflTransGen c.Refers root q.name
  visited : ∀ name ∈ f.visited, (∃ q ∈ f.queue, q.name = name) ∨
    name ∈ c.names ∧ ∀ other, c.Refers name other → other ∈ f.visited

theorem Explored.start {e : Entity} (h : c.find? root = some e) :
    c.Explored root ⟨[root], [e]⟩ := by
  have hn := name_of_find? h
  refine ⟨by simp, ?_, ?_⟩
  · simp [hn, h, ReflTransGen.refl]
  · simp [hn]

theorem Explored.take {e : Entity} {visited : List String} {queue : List Entity}
    (h : c.Explored root ⟨visited, e :: queue⟩) (hg : c.Enqueued e.references ⟨visited, queue⟩ g) :
    c.Explored root g := by
  obtain ⟨hf, hr⟩ := h.queued e List.mem_cons_self
  refine ⟨hg.visited_subset h.root_mem, ?_, ?_⟩
  · intro q hq
    rcases hg.queue_cases q hq with hq | ⟨⟨field, target⟩, hm, hq⟩
    · exact h.queued q (List.mem_cons_of_mem _ hq)
    · cases name_of_find? hq
      exact ⟨hq, hr.tail ((refers_iff_references hf).2 ⟨field, hm⟩)⟩
  · intro name hn
    rcases hg.visited_cases name hn with hn | hn
    · rcases h.visited name hn with ⟨q, hq, rfl⟩ | ⟨hn, hclosed⟩
      · rcases List.mem_cons.1 hq with rfl | hq
        · -- the entity just taken from the queue has been looked through
          refine .inr ⟨exists_find?_iff.1 ⟨_, hf⟩, ?_⟩
          intro other ho
          obtain ⟨field, hm⟩ := (refers_iff_references hf).1 ho
          exact hg.mem_visited (field, other) hm
        · exact .inl ⟨q, hg.queue_subset hq, rfl⟩
      · exact .inr ⟨hn, fun other ho ↦ hg.visited_subset (hclosed other ho)⟩
    · exact .inl hn

theorem Explored.expand (h : c.Explored root f) (hs : c.Expands f (.inl g)) :
    c.Explored root g := by
  cases hs with
  | take hq => exact h.take (enqueued_of_enqueue hq)

theorem Explored.closureDeclared {visited : List String} (h : c.Explored root ⟨visited, []⟩) :
    c.ClosureDeclared root := by
  have hv : ∀ name ∈ visited, name ∈ c.names ∧ ∀ other, c.Refers name other → other ∈ visited := by
    intro name hn
    simpa using h.visited name hn
  intro other ho
  have hm : other ∈ visited := by
    induction ho with
    | refl => exact h.root_mem
    | tail _ hab ih => exact (hv _ ih).2 _ hab
  exact (hv other hm).1

def ClosureAnswer (c : Catalog) (root : String) : Except SchemaError Unit → Prop
  | .ok _ => c.ClosureDeclared root
  | .error fault => ∃ owner field target, fault = .unresolvedType owner field target ∧
      ReflTransGen c.Refers root owner ∧ c.Refers owner target ∧ target ∉ c.names

theorem Explored.closureAnswer (h : c.Explored root f) {answer : Except SchemaError Unit}
    (ha : c.Expands f (.inr answer)) : c.ClosureAnswer root answer := by
  cases ha with
  | finish visited => exact h.closureDeclared
  | @refuse visited e queue fault hq =>
    obtain ⟨before, field, target, after, hrefs, -, ht, rfl⟩ := enqueue_eq_error hq
    obtain ⟨hf, hr⟩ := h.queued e List.mem_cons_self
    have hrefers : c.Refers e.name target :=
      (refers_iff_references hf).2 ⟨field, by simp [hrefs]⟩
    exact ⟨e.name, field, target, rfl, hr, hrefers, ht⟩

theorem closureAnswer_checkClosure {e : Entity} (h : c.find? root = some e) :
    c.ClosureAnswer root (c.checkClosure e) := by
  apply Loop.run_post (c.Explored root) (c.ClosureAnswer root)
  · rw [name_of_find? h]
    exact .start h
  · intro f g hi hs
    exact hi.expand (hs ▸ c.expands_expand f)
  · intro f answer hi hs
    exact hi.closureAnswer (hs ▸ c.expands_expand f)

/-- The walk takes every declared entity from the queue at most once. -/
theorem closureWalk_runs {e : Entity} (h : c.find? root = some e) :
    ∃ n, n ≤ c.entities.length + 1 ∧
      c.closureWalk.Runs n ⟨[e.name], [e]⟩ (c.checkClosure e) := by
  obtain ⟨n, hn, hr⟩ := c.closureWalk.runs_run ⟨[e.name], [e]⟩
  refine ⟨n, Nat.le_trans hn (Nat.succ_le_succ ?_), hr⟩
  have hstart := unseen_cons_add_le ([·.name]) h List.not_mem_nil
  have hall : c.unseen ([·.name]) [] = c.entities.length := by simp [unseen]
  simp only [closureWalk, Frontier.rank, name_of_find? h, List.length_singleton] at hstart ⊢
  omega

end ValueContract.Catalog
