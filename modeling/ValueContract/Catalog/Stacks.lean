import ValueContract.Catalog.Cycle

namespace ValueContract.Catalog

/-- Whether an entity closes a cycle is asked of `onPath`, and where the cycle starts of `path`. -/
structure Stacks where
  /-- From the root to the entity reached. -/
  path : List String
  onPath : List String
  /-- From the entity reached back to the root. -/
  pending : List (List String)
  done : List String
  deriving DecidableEq, Repr

/-- An entity of the set is nowhere on the path. -/
structure OffPath where
  entity : String
  deriving DecidableEq, Repr

variable (c : Catalog)

def probe (s : Stacks) : Stacks ⊕ Except OffPath Search :=
  match s.pending with
  | [] => .inr (.ok ⟨none, s.done⟩)
  | [] :: pending =>
    match s.path.getLast? with
    | none => .inl { s with pending }
    | some finished =>
      .inl ⟨s.path.dropLast, s.onPath.filter (· ≠ finished), pending, finished :: s.done⟩
  | (next :: targets) :: pending =>
    if next ∈ s.onPath then
      match s.path.idxOf? next with
      | none => .inr (.error ⟨next⟩)
      | some start => .inr (.ok ⟨some (s.path.drop start ++ [next]), s.done⟩)
    else if next ∈ s.done then .inl { s with pending := targets :: pending }
    else
      match c.find? next with
      | none => .inl { s with pending := targets :: pending }
      | some e =>
        .inl ⟨s.path ++ [e.name], e.name :: s.onPath, e.directTargets :: targets :: pending, s.done⟩

def Stacks.rank (s : Stacks) : Nat :=
  c.unseen (fun e ↦ e.name :: e.directTargets) (s.onPath ++ s.done) +
    (s.pending.flatten.length + s.pending.length)

variable {c} {s t : Stacks}

theorem rank_probe_lt (h : c.probe s = .inl t) : t.rank c < s.rank c := by
  obtain ⟨path, onPath, pending, done⟩ := s
  match pending with
  | [] => simp [probe] at h
  | [] :: pending =>
    simp only [probe] at h
    split at h
    · cases h
      simp [Stacks.rank]
    · next finished _ =>
      cases h
      -- an entity that is taken off the set is done
      have hseen : onPath ++ done ⊆ onPath.filter (· ≠ finished) ++ finished :: done := by
        intro name hm
        by_cases hn : name = finished <;> simp_all
      have hle := unseen_mono (c := c) (fun e ↦ e.name :: e.directTargets) hseen
      simp only [Stacks.rank, List.flatten_cons, List.nil_append, List.length_cons]
      omega
  | (next :: targets) :: pending =>
    simp only [probe] at h
    split at h
    · split at h <;> cases h
    · next hon =>
      split at h
      · cases h
        simp [Stacks.rank]
      · next hd =>
        split at h
        · cases h
          simp [Stacks.rank]
        · next e hf =>
          cases h
          have hs : next ∉ onPath ++ done := mt List.mem_append.1 (not_or.2 ⟨hon, hd⟩)
          have hlt := unseen_cons_add_le (fun e ↦ e.name :: e.directTargets) hf hs
          simp only [Stacks.rank, name_of_find? hf, List.flatten_cons, List.cons_append,
            List.length_append, List.length_cons] at hlt ⊢
          omega

variable (c)

def stackSearch : Loop Stacks (Except OffPath Search) where
  round := c.probe
  rank := Stacks.rank c
  rank_lt := rank_probe_lt

def findCycleOnStacks (root : String) (done : List String) : Except OffPath Search :=
  match c.find? root with
  | none => .ok ⟨none, done⟩
  | some e =>
    if e.name ∈ done then .ok ⟨none, done⟩
    else c.stackSearch.run ⟨[e.name], [e.name], [e.directTargets], done⟩

end ValueContract.Catalog
