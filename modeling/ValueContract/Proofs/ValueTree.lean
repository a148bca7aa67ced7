import ValueContract.Value.Instance

namespace ValueContract

variable {v : Value} {i j : Instance}

/-- The items of a list and the fields of an instance are smaller than the whole. -/
@[elab_as_elim, induction_eliminator]
theorem Value.induction {motive : Value → Prop} (int : ∀ n, motive (.int n))
    (uint : ∀ n, motive (.uint n)) (float : ∀ x, motive (.float x)) (bool : ∀ b, motive (.bool b))
    (text : ∀ s, motive (.text s))
    (list : ∀ items, (∀ v ∈ items, motive v) → motive (.list items))
    (entity : ∀ i : Instance, (∀ slot ∈ i.slots, motive slot.value) → motive (.entity i)) :
    ∀ v, motive v
  | .int n => int n
  | .uint n => uint n
  | .float x => float x
  | .bool b => bool b
  | .text s => text s
  | .list items => list items fun v _ ↦ induction int uint float bool text list entity v
  | .entity ⟨name, slots⟩ => entity ⟨name, slots⟩ fun slot _hs ↦
      induction int uint float bool text list entity slot.value
termination_by v => sizeOf v
decreasing_by
  · decreasing_tactic
  · have hlt := List.sizeOf_lt_of_mem _hs
    cases slot
    simp only [Value.entity.sizeOf_spec, Record.mk.sizeOf_spec, Slot.mk.sizeOf_spec] at hlt ⊢
    omega

/-- The instance stands somewhere inside the value, at any depth. -/
inductive Value.Contains : Value → Instance → Prop
  | here (i : Instance) : Contains (.entity i) i
  | slot {i j : Instance} {slot : Slot Value} (hs : slot ∈ i.slots) (h : slot.value.Contains j) :
      Contains (.entity i) j
  | item {items : List Value} {v : Value} {j : Instance} (hv : v ∈ items) (h : v.Contains j) :
      Contains (.list items) j

theorem Value.forall_contains_entity_iff {P : Instance → Prop} :
    (∀ j, (entity i).Contains j → P j) ↔
      P i ∧ ∀ slot ∈ i.slots, ∀ j, slot.value.Contains j → P j := by
  constructor
  · intro h
    exact ⟨h i (.here i), fun slot hs j hj ↦ h j (.slot hs hj)⟩
  · rintro ⟨hi, hslots⟩ j (_ | ⟨hs, hj⟩)
    · exact hi
    · exact hslots _ hs j hj

theorem Value.forall_contains_list_iff {items : List Value} {P : Instance → Prop} :
    (∀ j, (list items).Contains j → P j) ↔ ∀ v ∈ items, ∀ j, v.Contains j → P j := by
  constructor
  · exact fun h v hv j hj ↦ h j (.item hv hj)
  · rintro h j (_ | _ | ⟨hv, hj⟩)
    exact h _ hv j hj

theorem Value.Contains.trans (h : v.Contains i) (hj : (Value.entity i).Contains j) :
    v.Contains j := by
  induction h with
  | here => exact hj
  | slot hs _ ih => exact .slot hs (ih hj)
  | item hv _ ih => exact .item hv (ih hj)

end ValueContract
