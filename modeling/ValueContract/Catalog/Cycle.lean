import ValueContract.Catalog.Basic
import ValueContract.Loop

namespace ValueContract.Catalog

structure Search where
  cycle? : Option (List String)
  done : List String
  deriving DecidableEq, Repr

structure Visit where
  entity : String
  targets : List String
  deriving DecidableEq, Repr

/-- The visits run from the entity reached back to the root. -/
structure Descent where
  visits : List Visit
  done : List String
  deriving DecidableEq, Repr

def Descent.trail (d : Descent) : List String :=
  d.visits.map (·.entity)

/-- `trail` runs from the entity being visited back to the root, and `next` is on it. The cycle
starts and ends with `next`. -/
def cycleAt (trail : List String) (next : String) : List String :=
  next :: (trail.takeWhile (· ≠ next)).reverse ++ [next]

def descend (c : Catalog) (d : Descent) : Descent ⊕ Search :=
  match d.visits with
  | [] => .inr ⟨none, d.done⟩
  | ⟨entity, []⟩ :: below => .inl ⟨below, entity :: d.done⟩
  | ⟨entity, next :: targets⟩ :: below =>
    if next ∈ d.trail then .inr ⟨some (cycleAt d.trail next), d.done⟩
    else if next ∈ d.done then .inl ⟨⟨entity, targets⟩ :: below, d.done⟩
    else
      match c.find? next with
      | none => .inl ⟨⟨entity, targets⟩ :: below, d.done⟩
      | some e => .inl ⟨⟨next, e.directTargets⟩ :: ⟨entity, targets⟩ :: below, d.done⟩

inductive Descends (c : Catalog) : Descent → Descent ⊕ Search → Prop
  | finish (done : List String) : Descends c ⟨[], done⟩ (.inr ⟨none, done⟩)
  | leave (entity : String) (below : List Visit) (done : List String) :
      Descends c ⟨⟨entity, []⟩ :: below, done⟩ (.inl ⟨below, entity :: done⟩)
  | close {entity next : String} {targets : List String} {below : List Visit}
      (done : List String) (ht : next ∈ entity :: below.map (·.entity)) :
      Descends c ⟨⟨entity, next :: targets⟩ :: below, done⟩
        (.inr ⟨some (cycleAt (entity :: below.map (·.entity)) next), done⟩)
  | pass {entity next : String} (targets : List String) (below : List Visit)
      {done : List String} (hn : next ∈ done ∨ c.find? next = none) :
      Descends c ⟨⟨entity, next :: targets⟩ :: below, done⟩
        (.inl ⟨⟨entity, targets⟩ :: below, done⟩)
  | enter {entity next : String} (targets : List String) {below : List Visit}
      {done : List String} {e : Entity} (ht : next ∉ entity :: below.map (·.entity))
      (hd : next ∉ done) (hf : c.find? next = some e) :
      Descends c ⟨⟨entity, next :: targets⟩ :: below, done⟩
        (.inl ⟨⟨next, e.directTargets⟩ :: ⟨entity, targets⟩ :: below, done⟩)

theorem descends_descend (c : Catalog) (d : Descent) : c.Descends d (c.descend d) := by
  obtain ⟨_ | ⟨⟨entity, _ | ⟨next, targets⟩⟩, below⟩, done⟩ := d
  · exact .finish done
  · exact .leave entity below done
  · simp only [descend]
    split
    · next ht => exact .close done ht
    · next ht =>
      split
      · next hd => exact .pass targets below (.inl hd)
      · next hd =>
        split
        · next hf => exact .pass targets below (.inr hf)
        · next e hf => exact .enter targets ht hd hf

def Descent.rank (c : Catalog) (d : Descent) : Nat :=
  c.unseen (fun e ↦ e.name :: e.directTargets) (d.trail ++ d.done) +
    (d.visits.flatMap fun v ↦ v.entity :: v.targets).length

theorem Descends.rank_lt {c : Catalog} {d d' : Descent} (h : c.Descends d (.inl d')) :
    d'.rank c < d.rank c := by
  cases h with
  | leave entity below done =>
    -- the entity moves from the trail to `done`
    have hseen : ∀ name, name ∈ below.map (·.entity) ++ entity :: done ↔
        name ∈ entity :: (below.map (·.entity) ++ done) := by
      intro name
      simp only [List.mem_append, List.mem_cons]
      grind
    simp only [Descent.rank, Descent.trail, List.map_cons, List.flatMap_cons, List.cons_append,
      List.nil_append, List.length_cons]
    rw [unseen_congr _ hseen]
    omega
  | pass targets below hn => simp [Descent.rank, Descent.trail]
  | @enter entity next targets below done e ht hd hf =>
    have hs : next ∉ entity :: below.map (·.entity) ++ done :=
      mt List.mem_append.1 (not_or.2 ⟨ht, hd⟩)
    have hlt := unseen_cons_add_le (fun e ↦ e.name :: e.directTargets) hf hs
    simp only [Descent.rank, Descent.trail, List.map_cons, List.flatMap_cons, List.cons_append,
      List.length_cons, List.length_append] at hlt ⊢
    omega

def cycleSearch (c : Catalog) : Loop Descent Search where
  round := c.descend
  rank := Descent.rank c
  rank_lt h := (h ▸ c.descends_descend _).rank_lt

/-- The first cycle met from `root`, passing by the entities in `done`. An entity that leaves the
stack reaches no cycle, and is passed by from then on. -/
def findCycle (c : Catalog) (root : String) (done : List String) : Search :=
  match c.find? root with
  | none => ⟨none, done⟩
  | some e =>
    if root ∈ done then ⟨none, done⟩
    else c.cycleSearch.run ⟨[⟨root, e.directTargets⟩], done⟩

end ValueContract.Catalog
