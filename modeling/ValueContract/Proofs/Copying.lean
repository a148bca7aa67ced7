import ValueContract.Proofs.ValueTree
import ValueContract.Value.Copy

namespace ValueContract

variable {i j : Instance}

namespace Record

def shape (slots : List (Slot Value)) : List (String × TypeExpr) :=
  slots.map fun slot ↦ (slot.name, slot.ty)

theorem sameShape_iff : i.sameShape j ↔ i.entity = j.entity ∧ shape i.slots = shape j.slots := by
  simp [sameShape, shape]

theorem shape_blankSlots (slots : List (Slot Value)) : shape (blankSlots slots) = shape slots := by
  induction slots with
  | nil => rfl
  | cons slot slots ih => simpa [blankSlots, shape] using ih

theorem sameShape_blank (i : Instance) : i.sameShape i.blank := by
  obtain ⟨entity, slots⟩ := i
  exact sameShape_iff.2 ⟨rfl, (shape_blankSlots slots).symm⟩

theorem copySlots_eq {source target : List (Slot Value)} (h : shape source = shape target)
    (hv : ∀ slot ∈ source, ∀ w, slot.value.copyOver w = slot.value) :
    copySlots source target = source := by
  induction source generalizing target with
  | nil =>
    cases target with
    | nil => rfl
    | cons => simp [shape] at h
  | cons slot source ih =>
    cases target with
    | nil => simp [shape] at h
    | cons other target =>
      obtain ⟨hslot, hrest⟩ := List.cons.inj h
      obtain ⟨hname, hty⟩ := Prod.mk.inj hslot
      obtain ⟨hfirst, hv⟩ := List.forall_mem_cons.1 hv
      rw [copySlots, ih hrest hv, hfirst, ← hname, ← hty]

end Record

theorem Value.cloneItems_eq {items : List Value} (h : ∀ v ∈ items, v.clone = v) :
    cloneItems items = items := by
  induction items with
  | nil => rfl
  | cons v items ih =>
    obtain ⟨hv, hrest⟩ := List.forall_mem_cons.1 h
    rw [cloneItems, hv, ih hrest]

theorem Record.copyInto_eq_of_values (h : i.sameShape j)
    (hv : ∀ slot ∈ i.slots, ∀ w, slot.value.copyOver w = slot.value) : i.copyInto j = i := by
  obtain ⟨hentity, hshape⟩ := sameShape_iff.1 h
  rw [copyInto, copySlots_eq hshape hv, ← hentity]

theorem Value.copy_eq (v : Value) : (∀ w, v.copyOver w = v) ∧ v.clone = v := by
  induction v with
  | list items ih =>
    have hitems : cloneItems items = items := cloneItems_eq fun v hv ↦ (ih v hv).2
    simp [copyOver, clone, hitems]
  | entity i ih =>
    have hcopy : ∀ {j : Instance}, i.sameShape j → i.copyInto j = i := fun h ↦
      Record.copyInto_eq_of_values h fun slot hs ↦ (ih slot hs).1
    have hblank := hcopy i.sameShape_blank
    refine ⟨fun w ↦ ?_, by rw [clone, hblank]⟩
    cases w with
    | entity j =>
      rw [copyOver]
      split
      · next h => rw [hcopy h]
      · rw [hblank]
    | _ => rw [copyOver, hblank]; nofun
  | _ => simp [copyOver, clone]

namespace Record

theorem copyInto_eq (h : i.sameShape j) : i.copyInto j = i :=
  copyInto_eq_of_values h fun slot _ ↦ slot.value.copy_eq.1

theorem clone_eq (i : Instance) : i.clone = i := copyInto_eq i.sameShape_blank

theorem copyTo_eq_ok_iff {k : Instance} : i.copyTo j = .ok k ↔ i.sameShape j ∧ k = i := by
  unfold copyTo
  split
  · next h => simp [copyInto_eq h, h, eq_comm]
  · next h => simp [h]

/-- What an instance is once a change of it was tried: a change that fails is not made. -/
def afterwards (i : Instance) : Except ValueError Instance → Instance
  | .ok changed => changed
  | .error _ => i

/-- A copy is made just where the entity and the names and types of the fields are the same,
whatever the fields hold. The target is then the source, down to the bits of its numbers, and
otherwise it is what it was; a clone is always the source. -/
theorem copy_exact (i j : Instance) :
    ((∃ k, i.copyTo j = .ok k) ↔ i.entity = j.entity ∧ shape i.slots = shape j.slots) ∧
    j.afterwards (i.copyTo j) =
      (if i.entity = j.entity ∧ shape i.slots = shape j.slots then i else j) ∧
    j.assign i = i.copyTo j ∧ i.clone = i.copyInto i.blank ∧ i.clone = i := by
  refine ⟨by simp [copyTo_eq_ok_iff, sameShape_iff], ?_, rfl, rfl, i.clone_eq⟩
  by_cases h : i.entity = j.entity ∧ shape i.slots = shape j.slots
  · have hcopy : i.copyTo j = .ok i := copyTo_eq_ok_iff.2 ⟨sameShape_iff.2 h, rfl⟩
    rw [if_pos h, hcopy, afterwards]
  · have hshape : ¬i.sameShape j := fun hs ↦ h (sameShape_iff.1 hs)
    rw [if_neg h, copyTo, if_neg hshape, afterwards]

end Record

end ValueContract
