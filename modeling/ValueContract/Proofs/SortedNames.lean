import Mathlib.Data.Finset.Dedup
import Mathlib.Data.List.Sort
import Mathlib.Data.String.Basic
import ValueContract.Name

namespace ValueContract.Name

variable {x name : String} {names names' : List String}

theorem mem_insertSorted : x ∈ insertSorted name names ↔ x = name ∨ x ∈ names := by
  induction names with
  | nil => simp [insertSorted]
  | cons other rest ih =>
    rw [insertSorted]
    split
    · simp
    · split
      · next h => simp [h]
      · rw [List.mem_cons, ih, List.mem_cons]
        exact or_left_comm

theorem pairwise_insertSorted (h : names.Pairwise (· < ·)) :
    (insertSorted name names).Pairwise (· < ·) := by
  induction names with
  | nil => exact List.pairwise_singleton _ _
  | cons other rest ih =>
    obtain ⟨hother, hrest⟩ := List.pairwise_cons.1 h
    rw [insertSorted]
    split
    · next hlt =>
      refine List.pairwise_cons.2 ⟨?_, h⟩
      intro x hx
      rcases List.mem_cons.1 hx with rfl | hx
      · exact hlt
      · exact hlt.trans (hother x hx)
    · next hlt =>
      split
      · exact h
      · next hne =>
        refine List.pairwise_cons.2 ⟨?_, ih hrest⟩
        intro x hx
        rcases mem_insertSorted.1 hx with rfl | hx
        · exact lt_of_le_of_ne (not_lt.1 hlt) (Ne.symm hne)
        · exact hother x hx

theorem mem_sorted : x ∈ sorted names ↔ x ∈ names := by
  induction names with
  | nil => rfl
  | cons name rest ih => rw [sorted, List.foldr_cons, ← sorted, mem_insertSorted, ih, List.mem_cons]

theorem pairwise_sorted (names : List String) : (sorted names).Pairwise (· < ·) := by
  induction names with
  | nil => exact List.Pairwise.nil
  | cons name rest ih => exact pairwise_insertSorted ih

theorem sorted_eq_sorted_iff :
    sorted names = sorted names' ↔ names.toFinset = names'.toFinset := by
  rw [List.toFinset.ext_iff]
  constructor
  · intro h x
    rw [← mem_sorted, h, mem_sorted]
  · intro h
    apply (pairwise_sorted names).eq_of_mem_iff (pairwise_sorted names')
    intro x
    rw [mem_sorted, mem_sorted, h]

end ValueContract.Name
