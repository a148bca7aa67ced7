import ValueContract.Proofs.Fallible
import ValueContract.Value.Instance

namespace ValueContract.Record

variable {i j inner : Instance} {field : String} {slot : Slot Value} {v : Value}

theorem slot_eq_ok_iff : i.slot field = .ok slot ↔ i.slots.find? (·.name = field) = some slot := by
  unfold Record.slot
  split
  · next h => simp [h]
  · next h => simp [h]

theorem putSlot_append {before after : List (Slot Value)} (hb : ∀ s ∈ before, s.name ≠ field)
    (hs : slot.name = field) : putSlot field v (before ++ slot :: after) =
      before ++ { slot with value := v } :: after := by
  induction before with
  | nil => simp [putSlot, hs]
  | cons s before ih =>
    obtain ⟨hfirst, hb⟩ := List.forall_mem_cons.1 hb
    simp [putSlot, hfirst, ih hb]

theorem exists_put (h : i.slot field = .ok slot) : ∃ before after,
    i.slots = before ++ slot :: after ∧
      ∀ v, i.put field v = ⟨i.entity, before ++ { slot with value := v } :: after⟩ := by
  obtain ⟨hname, before, after, hslots, hb⟩ :=
    List.find?_eq_some_iff_append.1 (slot_eq_ok_iff.1 h)
  refine ⟨before, after, hslots, fun v ↦ ?_⟩
  rw [put, hslots, putSlot_append _ (by simpa using hname)]
  intro s hs
  simpa using hb s hs

theorem set_eq_ok (h : i.set field v = .ok j) : ∃ slot stored,
    i.slot field = .ok slot ∧ v.coerce slot.ty = some stored ∧ j = i.put field stored := by
  obtain ⟨slot, hs, h⟩ := bind_eq_ok_iff.1 h
  split at h
  · next stored hv =>
    cases h
    exact ⟨slot, stored, hs, hv, rfl⟩
  · cases h

theorem nested_eq_ok (h : i.nested field = .ok inner) :
    ∃ slot, i.slot field = .ok slot ∧ slot.value = .entity inner := by
  obtain ⟨value, hg, h⟩ := bind_eq_ok_iff.1 h
  obtain ⟨slot, hs, ⟨⟩⟩ := bind_eq_ok_iff.1 hg
  split at h
  · next hv =>
    cases h
    exact ⟨slot, hs, hv⟩
  · cases h

theorem modifyAt_cons_eq_ok {change : Instance → Except ValueError Instance} {path : List String}
    (h : i.modifyAt change (field :: path) = .ok j) : ∃ slot inner inner',
      i.slot field = .ok slot ∧ slot.value = .entity inner ∧
        inner.modifyAt change path = .ok inner' ∧ j = i.put field (.entity inner') := by
  obtain ⟨inner, hn, h⟩ := bind_eq_ok_iff.1 h
  obtain ⟨slot, hs, hv⟩ := nested_eq_ok hn
  obtain ⟨inner', hm, ⟨⟩⟩ := bind_eq_ok_iff.1 h
  exact ⟨slot, inner, inner', hs, hv, hm, rfl⟩

theorem follow_cons_eq_ok {path : List String} (h : i.follow (field :: path) = .ok j) :
    ∃ inner, i.nested field = .ok inner ∧ inner.follow path = .ok j :=
  bind_eq_ok_iff.1 h

theorem exists_modifyAt_eq_error_iff {change : Instance → Except ValueError Instance}
    {path : List String} (h : i.follow path = .ok j) :
    (∃ fault, i.modifyAt change path = .error fault) ↔ ∃ fault, change j = .error fault := by
  induction path generalizing i with
  | nil =>
    cases h
    rfl
  | cons field path ih =>
    obtain ⟨inner, hn, h⟩ := follow_cons_eq_ok h
    rw [← ih h]
    simp [modifyAt, hn, bind_eq_error_iff, map_eq_error_iff]

end ValueContract.Record
