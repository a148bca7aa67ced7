import ValueContract.Entity.Define

namespace ValueContract

structure EntityId where
  index : Nat
  deriving DecidableEq, Repr

def EntityId.text (id : EntityId) : String := s!"#{id.index}"

/-- Entities in the order of their declaration. One may be declared before those that it names. -/
structure Catalog where
  entities : List Entity := []
  deriving DecidableEq, Repr

namespace Catalog

def empty : Catalog := {}

def names (c : Catalog) : List String :=
  c.entities.map (·.name)

def find? (c : Catalog) (name : String) : Option Entity :=
  c.entities.find? (·.name = name)

def contains (c : Catalog) (name : String) : Bool :=
  c.names.contains name

def idOf? (c : Catalog) (name : String) : Option EntityId :=
  (c.entities.findIdx? (·.name = name)).map (⟨·⟩)

def byId? (c : Catalog) (id : EntityId) : Option Entity :=
  c.entities[id.index]?

def declare (c : Catalog) (e : Entity) : Except SchemaError (EntityId × Catalog) :=
  if c.contains e.name then .error (.duplicateEntity e.name)
  else .ok (⟨c.entities.length⟩, ⟨c.entities ++ [e]⟩)

/-- How much work the declared entities not in `seen` stand for, a bound on what a walk has
ahead. -/
def unseen (c : Catalog) (work : Entity → List String) (seen : List String) : Nat :=
  ((c.entities.filter (·.name ∉ seen)).flatMap work).length

variable {c : Catalog} {name : String} {e : Entity}

theorem contains_iff : c.contains name ↔ name ∈ c.names := by
  simp [contains]

theorem name_of_find? (h : c.find? name = some e) : e.name = name := by
  simpa using List.find?_some h

theorem find?_eq_none_iff : c.find? name = none ↔ name ∉ c.names := by
  simp [find?, names]

theorem exists_find?_iff : (∃ e, c.find? name = some e) ↔ name ∈ c.names := by
  rw [← Option.isSome_iff_exists, Option.isSome_iff_ne_none, ne_eq, find?_eq_none_iff,
    Decidable.not_not]

variable (work : Entity → List String)

theorem length_flatMap_filter_le (p : Entity → Bool) (entities : List Entity) :
    ((entities.filter p).flatMap work).length ≤ (entities.flatMap work).length := by
  induction entities with
  | nil => exact Nat.le_refl _
  | cons a rest ih =>
    cases hp : p a with
    | true =>
      rw [List.filter_cons_of_pos hp, List.flatMap_cons, List.flatMap_cons, List.length_append,
        List.length_append]
      exact Nat.add_le_add_left ih _
    | false =>
      rw [List.filter_cons_of_neg (by simp [hp]), List.flatMap_cons, List.length_append]
      omega

theorem length_flatMap_filter_add_le {p : Entity → Bool} {entities : List Entity} {e : Entity}
    (he : e ∈ entities) (hp : p e = false) :
    ((entities.filter p).flatMap work).length + (work e).length ≤
      (entities.flatMap work).length := by
  obtain ⟨before, after, rfl⟩ := List.append_of_mem he
  have hbefore := length_flatMap_filter_le work p before
  have hafter := length_flatMap_filter_le work p after
  rw [List.filter_append, List.filter_cons_of_neg (by simp [hp])]
  simp only [List.flatMap_append, List.flatMap_cons, List.length_append]
  omega

theorem unseen_congr {seen seen' : List String} (h : ∀ name, name ∈ seen ↔ name ∈ seen') :
    c.unseen work seen = c.unseen work seen' := by
  simp only [unseen, h]

theorem unseen_mono {seen seen' : List String} (h : seen ⊆ seen') :
    c.unseen work seen' ≤ c.unseen work seen := by
  have hsub : c.entities.filter (·.name ∉ seen') =
      (c.entities.filter (·.name ∉ seen)).filter (·.name ∉ seen') := by
    rw [List.filter_filter]
    congr 1
    funext e
    by_cases he : e.name ∈ seen
    · simp [he, h he]
    · simp [he]
  rw [unseen, unseen, hsub]
  exact length_flatMap_filter_le work _ _

/-- A discovery takes its own work off what is unseen. -/
theorem unseen_cons_add_le {seen : List String} (hf : c.find? name = some e)
    (hs : name ∉ seen) :
    c.unseen work (name :: seen) + (work e).length ≤ c.unseen work seen := by
  have hn := name_of_find? hf
  have hsub : c.entities.filter (·.name ∉ name :: seen) =
      (c.entities.filter (·.name ∉ seen)).filter (·.name ≠ name) := by
    rw [List.filter_filter]
    congr 1
    funext other
    simp
  have hm : e ∈ c.entities.filter (·.name ∉ seen) :=
    List.mem_filter.2 ⟨List.mem_of_find?_eq_some hf, by simpa [hn] using hs⟩
  rw [unseen, unseen, hsub]
  exact length_flatMap_filter_add_le work hm (by simp [hn])

end Catalog

end ValueContract
