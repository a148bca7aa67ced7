import ValueContract.Proofs.Resolution

namespace ValueContract

/-- The first of some references comes from the first of the fields that make them. -/
theorem Entity.exists_field_of_references {e : Entity} {before after : List (String × String)}
    {field target : String} (h : e.references = before ++ (field, target) :: after) :
    ∃ front f back, e.fields = front ++ f :: back ∧ f.name = field ∧
      f.ty.element = .entity target ∧
      ∀ g ∈ front, ∀ other, g.ty.element = .entity other → (g.name, other) ∈ before := by
  obtain ⟨front, f, back, hfields, hf, hfront⟩ := exists_split_of_filterMap h
  obtain ⟨_, ht, heq⟩ := Option.map_eq_some_iff.1 hf
  cases heq
  refine ⟨front, f, back, hfields, rfl, TypeExpr.referenced?_eq_some_iff.1 ht, ?_⟩
  intro g hg other ho
  exact hfront g hg _ (by rw [TypeExpr.referenced?_eq_some_iff.2 ho]; rfl)

namespace Catalog

variable {c : Catalog} {root name other owner field target : String} {e : Entity} {n m : Nat}
  {visited : List String} {current upcoming : List Entity} {f g : Frontier}

/-- The entity is `n` references away from the root, going by a way that may not be the shortest. -/
inductive RefersIn (c : Catalog) (root : String) : Nat → String → Prop
  | root : RefersIn c root 0 root
  | step {n : Nat} {name other : String} :
      RefersIn c root n name → c.Refers name other → RefersIn c root (n + 1) other

/-- The shortest way from the root to the entity has `n` references. -/
def Distance (c : Catalog) (root name : String) (n : Nat) : Prop :=
  c.RefersIn root n name ∧ ∀ m, m < n → ¬c.RefersIn root m name

theorem Distance.le (h : c.Distance root name n) (hm : c.RefersIn root m name) : n ≤ m := by
  apply Nat.le_of_not_lt
  intro hlt
  exact h.2 m hlt hm

def Sound (c : Catalog) (name : String) : Prop :=
  ∀ e, c.find? name = some e → ∀ f ∈ e.fields, ∀ other, f.ty.element = .entity other →
    other ∈ c.names

theorem Explored.mem_names (h : c.Explored root f) (hn : name ∈ f.visited) : name ∈ c.names := by
  rcases h.visited name hn with ⟨q, hq, rfl⟩ | ⟨hn, -⟩
  · exact exists_find?_iff.1 ⟨q, (h.queued q hq).1⟩
  · exact hn

theorem exists_queue_eq_append {references : List (String × String)}
    (h : c.enqueue owner references f = .ok g) : ∃ found, g.queue = f.queue ++ found ∧
      ∀ q ∈ found, q.name ∉ f.visited ∧ ∃ r ∈ references, c.find? r.2 = some q := by
  fun_induction enqueue c owner references f with
  | case1 f =>
    cases h
    exact ⟨[], by simp, by simp⟩
  | case2 => cases h
  | case3 field target rest f next hf hv ih =>
    obtain ⟨found, hqueue, hfound⟩ := ih h
    refine ⟨found, hqueue, fun q hq ↦ ?_⟩
    obtain ⟨hout, r, hr, hf⟩ := hfound q hq
    exact ⟨hout, r, List.mem_cons_of_mem _ hr, hf⟩
  | case4 field target rest f next hf hv ih =>
    obtain ⟨found, hqueue, hfound⟩ := ih h
    refine ⟨next :: found, by rw [hqueue, List.append_assoc, List.singleton_append], ?_⟩
    intro q hq
    rcases List.mem_cons.1 hq with rfl | hq
    · exact ⟨name_of_find? hf ▸ hv, (field, target), List.mem_cons_self, hf⟩
    · obtain ⟨hout, r, hr, hf⟩ := hfound q hq
      exact ⟨fun hm ↦ hout (List.mem_cons_of_mem _ hm), r, List.mem_cons_of_mem _ hr, hf⟩

/-- The queue holds the rest of one layer and the part of the next one that is known so far. What
is nearer to the root has been looked through. -/
structure Layered (c : Catalog) (root : String) (n : Nat) (current upcoming : List Entity)
    (visited : List String) : Prop where
  explored : c.Explored root ⟨visited, current ++ upcoming⟩
  current : ∀ q ∈ current, c.Distance root q.name n
  upcoming : ∀ q ∈ upcoming, c.Distance root q.name (n + 1)
  near : ∀ m, m ≤ n → ∀ name, c.RefersIn root m name → name ∈ visited

theorem Layered.start (h : c.find? root = some e) : c.Layered root 0 [e] [] [root] := by
  refine ⟨.start h, ?_, by simp, ?_⟩
  · intro q hq
    cases List.mem_singleton.1 hq
    rw [name_of_find? h]
    exact ⟨.root, fun m hm ↦ absurd hm (Nat.not_lt_zero m)⟩
  · intro m hm name hr
    cases hr with
    | root => exact List.mem_singleton_self _
    | step => omega

theorem Layered.closed (h : c.Layered root n current upcoming visited)
    (hr : c.RefersIn root m name) (hm : m < n ∨ m = n ∧ current = []) :
    ∀ other, c.Refers name other → other ∈ visited := by
  have hv : name ∈ visited := h.near m (by omega) name hr
  rcases h.explored.visited name hv with ⟨q, hq, rfl⟩ | ⟨-, hclosed⟩
  · rcases List.mem_append.1 hq with hq | hq
    · have hle := (h.current q hq).le hr
      rcases hm with hm | ⟨-, rfl⟩
      · omega
      · cases hq
    · have hle := (h.upcoming q hq).le hr
      omega
  · exact hclosed

theorem Layered.sound (h : c.Layered root n current upcoming visited)
    (hr : c.RefersIn root m name) (hm : m < n) : c.Sound name := by
  intro e hf f hfield other ho
  have hrefers : c.Refers name other := ⟨e, hf, f, hfield, ho⟩
  exact h.explored.mem_names (h.closed hr (.inl hm) other hrefers)

theorem Layered.nextLayer (h : c.Layered root n [] upcoming visited) :
    c.Layered root (n + 1) upcoming [] visited := by
  refine ⟨?_, h.upcoming, by simp, ?_⟩
  · rw [List.append_nil]
    exact h.explored
  · intro m hm name hr
    by_cases hle : m ≤ n
    · exact h.near m hle name hr
    · obtain rfl : m = n + 1 := by omega
      cases hr with
      | step hr ho => exact h.closed hr (.inr ⟨rfl, rfl⟩) _ ho

theorem Layered.take (h : c.Layered root n (e :: current) upcoming visited)
    (hg : c.enqueue e.name e.references ⟨visited, current ++ upcoming⟩ = .ok g) :
    ∃ found, g.queue = current ++ (upcoming ++ found) ∧
      c.Layered root n current (upcoming ++ found) g.visited := by
  have henqueued := enqueued_of_enqueue hg
  obtain ⟨found, hqueue, hfound⟩ := exists_queue_eq_append hg
  rw [List.append_assoc] at hqueue
  refine ⟨found, hqueue, ?_, ?_, ?_, ?_⟩
  · rw [← hqueue]
    exact h.explored.take henqueued
  · exact fun q hq ↦ h.current q (List.mem_cons_of_mem _ hq)
  · intro q hq
    rcases List.mem_append.1 hq with hq | hq
    · exact h.upcoming q hq
    · obtain ⟨hout, ⟨field, target⟩, hr, hf⟩ := hfound q hq
      obtain rfl := name_of_find? hf
      have hrefers : c.Refers e.name q.name :=
        (refers_iff_references (h.explored.queued e List.mem_cons_self).1).2 ⟨field, hr⟩
      refine ⟨.step (h.current e List.mem_cons_self).1 hrefers, ?_⟩
      -- a shorter way would have led to it before
      intro m hm hshort
      exact hout (h.near m (by omega) q.name hshort)
  · exact fun m hm name hr ↦ henqueued.visited_subset (h.near m hm name hr)

def InLayers (c : Catalog) (root : String) (f : Frontier) : Prop :=
  ∃ n current upcoming, f.queue = current ++ upcoming ∧
    c.Layered root n current upcoming f.visited

theorem InLayers.exists_cons {queue : List Entity} (h : c.InLayers root ⟨visited, e :: queue⟩) :
    ∃ n current upcoming, queue = current ++ upcoming ∧
      c.Layered root n (e :: current) upcoming visited := by
  obtain ⟨n, current, upcoming, hqueue, h⟩ := h
  cases current with
  | nil =>
    obtain rfl : e :: queue = upcoming := hqueue
    exact ⟨n + 1, queue, [], (List.append_nil queue).symm, h.nextLayer⟩
  | cons first current =>
    obtain ⟨rfl, rfl⟩ := List.cons.inj hqueue
    exact ⟨n, current, upcoming, rfl, h⟩

theorem InLayers.expand (h : c.InLayers root f) (hs : c.Expands f (.inl g)) :
    c.InLayers root g := by
  cases hs with
  | take hg =>
    obtain ⟨n, current, upcoming, rfl, hl⟩ := h.exists_cons
    obtain ⟨found, hqueue, hl⟩ := hl.take hg
    exact ⟨n, current, upcoming ++ found, hqueue, hl⟩

/-- The fault is the first of an entity, and no entity nearer to the root has one. -/
def NearestDangling (c : Catalog) (root owner field target : String) : Prop :=
  ∃ e n, c.find? owner = some e ∧ c.Distance root owner n ∧
    (∃ before f after, e.fields = before ++ f :: after ∧ f.name = field ∧
      f.ty.element = .entity target ∧ target ∉ c.names ∧
      ∀ g ∈ before, ∀ other, g.ty.element = .entity other → other ∈ c.names) ∧
    ∀ other m, c.Distance root other m → m < n → c.Sound other

theorem Layered.nearestDangling {fault : SchemaError}
    (h : c.Layered root n (e :: current) upcoming visited)
    (hf : c.enqueue e.name e.references ⟨visited, current ++ upcoming⟩ = .error fault) :
    ∃ field target, fault = .unresolvedType e.name field target ∧
      c.NearestDangling root e.name field target := by
  obtain ⟨before, field, target, after, hrefs, hb, ht, rfl⟩ := enqueue_eq_error hf
  obtain ⟨front, f, back, hfields, hname, hty, hfront⟩ := Entity.exists_field_of_references hrefs
  refine ⟨field, target, rfl, e, n, (h.explored.queued e List.mem_cons_self).1,
    h.current e List.mem_cons_self, ⟨front, f, back, hfields, hname, hty, ht, ?_⟩, ?_⟩
  · exact fun g hg other ho ↦ hb _ (hfront g hg other ho)
  · exact fun other m hd hm ↦ h.sound hd.1 hm

def LayerAnswer (c : Catalog) (root : String) : Except SchemaError Unit → Prop
  | .ok _ => True
  | .error fault => ∃ owner field target, fault = .unresolvedType owner field target ∧
      c.NearestDangling root owner field target

theorem InLayers.answer (h : c.InLayers root f) {answer : Except SchemaError Unit}
    (ha : c.Expands f (.inr answer)) : c.LayerAnswer root answer := by
  cases ha with
  | finish visited => trivial
  | @refuse visited e queue fault hq =>
    obtain ⟨n, current, upcoming, rfl, hl⟩ := h.exists_cons
    exact ⟨e.name, hl.nearestDangling hq⟩

theorem layerAnswer_checkClosure (h : c.find? root = some e) :
    c.LayerAnswer root (c.checkClosure e) := by
  apply Loop.run_post (c.InLayers root) (c.LayerAnswer root)
  · rw [name_of_find? h]
    exact ⟨0, [e], [], rfl, .start h⟩
  · intro f g hi hs
    exact hi.expand (hs ▸ c.expands_expand f)
  · intro f answer hi hs
    exact hi.answer (hs ▸ c.expands_expand f)

/-- An entity that does not resolve for a dangling field is at fault through a declared entity that
references lead to. Its first dangling field is named, and no entity at a smaller distance has
any. -/
theorem nearest_dangling (h : c.resolve root = .error (.unresolvedType owner field target)) :
    c.NearestDangling root owner field target := by
  cases faultSource_of_resolve h with
  | closure hf hw =>
    have ha := layerAnswer_checkClosure hf
    rw [hw] at ha
    obtain ⟨_, _, _, heq, hnearest⟩ := ha
    cases heq
    exact hnearest

/-- Going down before going on would lead to `Deep` first. -/
def frayed : Catalog where
  entities :=
    [⟨"Top", [⟨"left", .entity "Left", 0⟩, ⟨"right", .list (.entity "Right"), 1⟩], []⟩,
      ⟨"Left", [⟨"deep", .entity "Deep", 0⟩], []⟩, ⟨"Deep", [⟨"lost", .entity "Lost", 0⟩], []⟩,
      ⟨"Right", [⟨"top", .list (.entity "Top"), 0⟩, ⟨"gone", .entity "Gone", 1⟩,
        ⟨"lost", .entity "Lost", 2⟩], []⟩]

theorem frayed_nearest_dangling :
    frayed.resolve "Top" = .error (.unresolvedType "Right" "gone" "Gone") ∧
    frayed.NearestDangling "Top" "Right" "gone" "Gone" := by
  have hr : frayed.resolve "Top" = .error (.unresolvedType "Right" "gone" "Gone") := by
    decide +kernel
  exact ⟨hr, nearest_dangling hr⟩

end Catalog

end ValueContract
