import ValueContract.Catalog.Basic
import ValueContract.Loop

namespace ValueContract.Catalog

/-- `visited` holds every entity that is or was in the queue. -/
structure Frontier where
  visited : List String
  queue : List Entity
  deriving DecidableEq, Repr

variable (c : Catalog)

def enqueue (owner : String) :
    List (String × String) → Frontier → Except SchemaError Frontier
  | [], f => .ok f
  | (field, target) :: rest, f =>
    match c.find? target with
    | none => .error (.unresolvedType owner field target)
    | some next =>
      if target ∈ f.visited then enqueue owner rest f
      else enqueue owner rest ⟨target :: f.visited, f.queue ++ [next]⟩

def Frontier.rank (f : Frontier) : Nat :=
  c.unseen ([·.name]) f.visited + f.queue.length

def expand : Frontier → Frontier ⊕ Except SchemaError Unit
  | ⟨_, []⟩ => .inr (.ok ())
  | ⟨visited, e :: queue⟩ =>
    match c.enqueue e.name e.references ⟨visited, queue⟩ with
    | .error fault => .inr (.error fault)
    | .ok f => .inl f

inductive Expands : Frontier → Frontier ⊕ Except SchemaError Unit → Prop
  | finish (visited : List String) : Expands ⟨visited, []⟩ (.inr (.ok ()))
  | refuse {visited : List String} {e : Entity} {queue : List Entity} {fault : SchemaError}
      (h : c.enqueue e.name e.references ⟨visited, queue⟩ = .error fault) :
      Expands ⟨visited, e :: queue⟩ (.inr (.error fault))
  | take {visited : List String} {e : Entity} {queue : List Entity} {f : Frontier}
      (h : c.enqueue e.name e.references ⟨visited, queue⟩ = .ok f) :
      Expands ⟨visited, e :: queue⟩ (.inl f)

theorem expands_expand (f : Frontier) : c.Expands f (c.expand f) := by
  obtain ⟨visited, _ | ⟨e, queue⟩⟩ := f
  · exact .finish visited
  · rw [expand]
    split
    · next fault h => exact .refuse h
    · next f h => exact .take h

variable {c} {f g : Frontier}

theorem rank_enqueue_le {owner : String} {references : List (String × String)}
    (h : c.enqueue owner references f = .ok g) : g.rank c ≤ f.rank c := by
  fun_induction enqueue c owner references f with
  | case1 f =>
    cases h
    exact Nat.le_refl _
  | case2 => cases h
  | case3 field target rest f next hf hv ih => exact ih h
  | case4 field target rest f next hf hv ih =>
    have hlt := unseen_cons_add_le ([·.name]) hf hv
    have hle := ih h
    simp only [Frontier.rank, List.length_append, List.length_singleton] at hlt hle ⊢
    omega

theorem Expands.rank_lt (h : c.Expands f (.inl g)) : g.rank c < f.rank c := by
  cases h with
  | take h =>
    have hle := rank_enqueue_le h
    simp only [Frontier.rank, List.length_cons] at hle ⊢
    omega

variable (c)

def closureWalk : Loop Frontier (Except SchemaError Unit) where
  round := c.expand
  rank := Frontier.rank c
  rank_lt h := (h ▸ c.expands_expand _).rank_lt

/-- Every entity in the closure of `e` is declared. The walk is breadth first, so of several fields
that name an undeclared entity the nearest is reported. -/
def checkClosure (e : Entity) : Except SchemaError Unit :=
  c.closureWalk.run ⟨[e.name], [e]⟩

end ValueContract.Catalog
