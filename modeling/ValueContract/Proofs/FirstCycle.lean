import Mathlib.Data.List.Chain
import Mathlib.Logic.Relation
import ValueContract.Catalog.Cycle

namespace ValueContract.Catalog

open Relation

variable {follows : String → String → Prop} {trail path path' : List String}
  {root next name other : String}

/-- With `trail` behind it, the way on from `next` closes `path`. -/
inductive Lasso (follows : String → String → Prop) : List String → String → List String → Prop
  | close {trail : List String} {next : String} (h : next ∈ trail) :
      Lasso follows trail next (cycleAt trail next)
  | step {trail path : List String} {next further : String} (hn : next ∉ trail)
      (hf : follows next further) (h : Lasso follows (next :: trail) further path) :
      Lasso follows trail next path

theorem Lasso.unique (hu : Relator.RightUnique follows) (h : Lasso follows trail next path)
    (h' : Lasso follows trail next path') : path = path' := by
  induction h with
  | close h =>
    cases h' with
    | close => rfl
    | step hn => exact absurd h hn
  | step hn hf _ ih =>
    cases h' with
    | close h => exact absurd h hn
    | step _ hf' h' =>
      cases hu hf hf'
      exact ih h'

/-- A path that follows the relation and ends where it starts. -/
def IsCycle (follows : String → String → Prop) (path : List String) : Prop :=
  ∃ first inner, path = first :: inner ++ [first] ∧ path.IsChain follows

theorem isCycle_cycleAt (hc : (next :: trail).IsChain (fun a b ↦ follows b a))
    (h : next ∈ trail) : IsCycle follows (cycleAt trail next) := by
  refine ⟨next, (trail.takeWhile (· ≠ next)).reverse, rfl, ?_⟩
  obtain ⟨recent, past, rfl, hn⟩ := List.eq_append_cons_of_mem h
  have hne : ∀ a ∈ recent, decide (a ≠ next) = true := by
    intro a ha
    exact decide_eq_true fun he ↦ hn (he ▸ ha)
  have hrev : cycleAt (recent ++ next :: past) next = (next :: recent ++ [next]).reverse := by
    rw [cycleAt, List.takeWhile_append_of_pos hne]
    simp
  have hsplit : next :: (recent ++ next :: past) = (next :: recent ++ [next]) ++ past := by simp
  rw [hrev, List.isChain_reverse]
  rw [hsplit] at hc
  exact hc.left_of_append

theorem Lasso.isCycle (h : Lasso follows trail next path)
    (hc : (next :: trail).IsChain (fun a b ↦ follows b a)) : IsCycle follows path := by
  induction h with
  | close h => exact isCycle_cycleAt hc h
  | step hn hf _ ih => exact ih (hc.cons_cons hf)

theorem mem_closed_iff {first : String} {inner : List String} :
    name ∈ first :: inner ++ [first] ↔ name = first ∨ name ∈ inner := by
  simp only [List.mem_append, List.mem_cons, List.not_mem_nil, or_false]
  tauto

theorem mem_or_of_mem_cycleAt (h : name ∈ cycleAt trail next) : name = next ∨ name ∈ trail := by
  refine (mem_closed_iff.1 h).imp id fun h ↦ ?_
  exact List.takeWhile_subset _ (List.mem_reverse.1 h)

theorem Lasso.reaches_of_trail (h : Lasso follows trail next path)
    (hr : ∀ name ∈ next :: trail, ReflTransGen follows root name) (hm : name ∈ path) :
    ReflTransGen follows root name := by
  induction h with
  | close _ => exact hr name (List.mem_cons.2 (mem_or_of_mem_cycleAt hm))
  | step hn hf _ ih =>
    refine ih ?_ hm
    rintro name (_ | ⟨_, hm⟩)
    · exact (hr _ List.mem_cons_self).tail hf
    · exact hr name hm

theorem Lasso.reaches (h : Lasso follows [] root path) (hm : name ∈ path) :
    ReflTransGen follows root name :=
  h.reaches_of_trail (by simp [ReflTransGen.refl]) hm

theorem IsCycle.transGen (h : IsCycle follows path) (hm : name ∈ path) :
    TransGen follows name name := by
  obtain ⟨first, inner, rfl, hc⟩ := h
  have hp : (first :: (inner ++ [first])).Pairwise (TransGen follows) :=
    List.isChain_iff_pairwise.1 (hc.imp fun _ _ ↦ .single)
  rw [List.pairwise_cons, List.pairwise_append] at hp
  obtain ⟨hfirst, -, -, hlast⟩ := hp
  rcases mem_closed_iff.1 hm with rfl | hm
  · exact hfirst name (by simp)
  · exact (hlast name hm first (by simp)).trans (hfirst name (by simp [hm]))

theorem IsCycle.mem_of_follows (hu : Relator.RightUnique follows) (h : IsCycle follows path)
    (hm : name ∈ path) (hf : follows name other) : other ∈ path := by
  obtain ⟨first, inner, rfl, hc⟩ := h
  obtain ⟨before, after, hsplit⟩ := List.append_of_mem (List.mem_cons.2 (mem_closed_iff.1 hm))
  obtain ⟨further, rest, hrest⟩ : ∃ further rest, after ++ [first] = further :: rest := by
    cases after <;> simp
  rw [hsplit, List.append_assoc, List.cons_append, hrest] at hc ⊢
  cases hu hf (List.isChain_cons_cons.1 hc.right_of_append).1
  simp

theorem IsCycle.mem_of_reaches (hu : Relator.RightUnique follows) (h : IsCycle follows path)
    (hm : name ∈ path) (hr : ReflTransGen follows name other) : other ∈ path := by
  induction hr with
  | refl => exact hm
  | tail _ hf ih => exact h.mem_of_follows hu ih hf

theorem reaches_periodic (hu : Relator.RightUnique follows) (hp : TransGen follows root root)
    (hr : ReflTransGen follows root name) : ReflTransGen follows name root := by
  induction hr with
  | refl => exact .refl
  | @tail name other _ hf ih =>
    obtain ⟨further, hf', hr⟩ : ∃ further, follows name further ∧
        ReflTransGen follows further root := by
      rcases ih.cases_head with rfl | h
      · exact TransGen.head'_iff.1 hp
      · exact h
    cases hu hf hf'
    exact hr

/-- The cycle that a start runs into goes through the start if and only if the start is
periodic. -/
theorem Lasso.mem_iff_periodic (hu : Relator.RightUnique follows) (h : Lasso follows [] root path) :
    root ∈ path ↔ TransGen follows root root := by
  have hc := h.isCycle (List.isChain_singleton root)
  refine ⟨hc.transGen, fun hp ↦ ?_⟩
  obtain ⟨first, inner, rfl, -⟩ := id hc
  have hr : ReflTransGen follows root first := h.reaches List.mem_cons_self
  exact hc.mem_of_reaches hu List.mem_cons_self (reaches_periodic hu hp hr)

end ValueContract.Catalog
