import ValueContract.Proofs.Coercion
import ValueContract.Proofs.DeclaredShape
import ValueContract.Value.Place

namespace ValueContract

open Relation

variable {i j inner x y : Instance} {field step : String} {slot : Slot Value} {v w : Value}
  {path : List String} {fault : ValueError}

namespace Record

/-! ### One field -/

theorem find?_putSlot_self {slots : List (Slot Value)}
    (h : slots.find? (·.name = field) = some slot) :
    (putSlot field v slots).find? (·.name = field) = some { slot with value := v } := by
  induction slots with
  | nil => cases h
  | cons first slots ih =>
    by_cases hf : first.name = field
    · rw [List.find?_cons_of_pos (by simpa using hf)] at h
      cases h
      simp [putSlot, hf]
    · rw [List.find?_cons_of_neg (by simpa using hf)] at h
      simp [putSlot, hf, ih h]

theorem find?_putSlot_of_ne {other : String} (h : other ≠ field) (slots : List (Slot Value)) :
    (putSlot field v slots).find? (·.name = other) = slots.find? (·.name = other) := by
  induction slots with
  | nil => rfl
  | cons first slots ih =>
    by_cases hf : first.name = field
    · simp [putSlot, hf, h.symm]
    · simp [putSlot, hf, List.find?_cons, ih]

theorem slot_put_self (h : i.slot field = .ok slot) :
    (i.put field v).slot field = .ok { slot with value := v } :=
  slot_eq_ok_iff.2 (find?_putSlot_self (slot_eq_ok_iff.1 h))

theorem slot_put_of_ne {other : String} (h : other ≠ field) :
    (i.put field v).slot other = i.slot other := by
  rw [Record.slot, Record.slot, put, find?_putSlot_of_ne h]

theorem put_value (h : i.slot field = .ok slot) : i.put field slot.value = i := by
  obtain ⟨before, after, hslots, hput⟩ := exists_put h
  rw [hput, ← hslots]

theorem nested_of_slot (hs : i.slot field = .ok slot) (hv : slot.value = .entity inner) :
    i.nested field = .ok inner := by
  simp [nested, get, hs, hv, pure, Except.pure, bind, Except.bind]

theorem nested_of_slot_error (hs : i.slot field = .error fault) :
    i.nested field = .error fault := by
  rw [nested, get, hs]
  rfl

theorem nested_of_not_entity (hs : i.slot field = .ok slot)
    (hv : ∀ inner, slot.value ≠ .entity inner) :
    i.nested field = .error (.typeMismatch i.entity slot.name "entity" slot.value.describe) := by
  have hname : slot.name = field := by simpa using List.find?_some (slot_eq_ok_iff.1 hs)
  have hget : i.get field = .ok slot.value := by
    rw [get, hs]
    rfl
  rw [nested, hget, hname]
  cases h : slot.value with
  | entity inner => exact absurd h (hv inner)
  | _ => rfl

theorem nested_put_self (h : i.slot field = .ok slot) :
    (i.put field (.entity inner)).nested field = .ok inner :=
  nested_of_slot (slot_put_self h) rfl

theorem nested_put_of_ne {other : String} (h : other ≠ field) :
    (i.put field v).nested other = i.nested other := by
  rw [nested, nested, get, get, slot_put_of_ne h, put]

/-! ### Reads after a write -/

def getAt (i : Instance) (path : List String) (field : String) : Except ValueError Value := do
  (← i.follow path).get field

/-- Neither of the two leads through the other or to the same end. -/
def Apart (target other : List String) : Prop :=
  ¬target <+: other ∧ ¬other <+: target

theorem getAt_nil (i : Instance) (field : String) : i.getAt [] field = i.get field := rfl

theorem getAt_cons (h : i.nested step = .ok inner) :
    i.getAt (step :: path) field = inner.getAt path field := by
  rw [getAt, follow, h]
  rfl

theorem getAt_setAt_self (h : x.setAt path field v = .ok y) : ∃ inner slot stored,
    x.follow path = .ok inner ∧ inner.slot field = .ok slot ∧ v.coerce slot.ty = some stored ∧
      y.getAt path field = .ok stored := by
  induction path generalizing x y with
  | nil =>
    obtain ⟨slot, stored, hs, hv, rfl⟩ := set_eq_ok h
    refine ⟨x, slot, stored, rfl, hs, hv, ?_⟩
    rw [getAt_nil, get, slot_put_self hs]
    rfl
  | cons step path ih =>
    obtain ⟨outer, inner, inner', ho, hinner, hrest, rfl⟩ := modifyAt_cons_eq_ok h
    obtain ⟨last, slot, stored, hlast, hs, hv, hget⟩ := ih hrest
    refine ⟨last, slot, stored, ?_, hs, hv, ?_⟩
    · rw [follow, nested_of_slot ho hinner]
      exact hlast
    · rw [getAt_cons (nested_put_self ho), hget]

/-- A read that starts with another field does not get to see the change. -/
theorem getAt_put_of_ne {path : List String} {other : String}
    (h : ∀ rest, path ++ [other] ≠ field :: rest) :
    (i.put field v).getAt path other = i.getAt path other := by
  cases path with
  | nil =>
    have hne : other ≠ field := by simpa using h
    rw [getAt_nil, getAt_nil, get, get, slot_put_of_ne hne]
  | cons step path =>
    have hne : step ≠ field := by simpa using h
    rw [getAt, getAt, follow, follow, nested_put_of_ne hne]

theorem getAt_setAt_of_apart {path' : List String} {field' : String}
    (h : x.setAt path field v = .ok y) (ha : Apart (path ++ [field]) (path' ++ [field'])) :
    y.getAt path' field' = x.getAt path' field' := by
  induction path generalizing x y path' with
  | nil =>
    obtain ⟨slot, stored, hs, hv, rfl⟩ := set_eq_ok h
    apply getAt_put_of_ne
    intro rest hrest
    exact ha.1 (by simp [hrest])
  | cons step path ih =>
    obtain ⟨outer, inner, inner', ho, hinner, hrest, rfl⟩ := modifyAt_cons_eq_ok h
    cases path' with
    | nil =>
      -- the field read cannot be the one passed through, as it would enclose the one written
      apply getAt_put_of_ne
      intro rest hrest
      exact ha.2 (by simp_all)
    | cons step' path' =>
      by_cases hstep : step' = step
      · subst hstep
        rw [getAt_cons (nested_put_self ho), getAt_cons (nested_of_slot ho hinner)]
        exact ih hrest (by simpa [Apart] using ha)
      · apply getAt_put_of_ne
        intro rest hrest
        exact hstep (List.cons.inj hrest).1

/-! ### Writing what was read -/

theorem set_of_coerce {stored : Value} (hs : i.slot field = .ok slot)
    (hv : v.coerce slot.ty = some stored) : i.set field v = .ok (i.put field stored) := by
  simp [set, hs, hv, pure, Except.pure, bind, Except.bind]

theorem set_of_misfit (hs : i.slot field = .ok slot) (hv : v.coerce slot.ty = none) :
    i.set field v = .error (.typeMismatch i.entity field slot.ty.text v.describe) := by
  rw [set, hs]
  simp only [bind, Except.bind, hv]
  rfl

theorem setAt_cons (h : i.nested step = .ok inner) :
    i.setAt (step :: path) field v = (i.put step <| .entity ·) <$> inner.setAt path field v := by
  rw [setAt, modifyAt, h, setAt, map_eq_pure_bind]
  rfl

theorem setAt_cons_of_error (h : i.nested step = .error fault) :
    i.setAt (step :: path) field v = .error fault := by
  rw [setAt, modifyAt, h]
  rfl

theorem setAt_getAt (hx : (Value.entity x).Typed) (h : x.getAt path field = .ok v) :
    x.setAt path field v = .ok x := by
  induction path generalizing x with
  | nil =>
    obtain ⟨slot, hs, ⟨⟩⟩ := bind_eq_ok_iff.1 ((getAt_nil x field).symm.trans h)
    have hmem : slot ∈ x.slots := List.mem_of_find?_eq_some (slot_eq_ok_iff.1 hs)
    have hfits : slot.value.Fits slot.ty := (Value.typed_entity_iff.1 hx).1.fits slot hmem
    calc x.set field slot.value
        = .ok (x.put field slot.value) := set_of_coerce hs (Value.coerce_of_fits hfits)
      _ = .ok x := by rw [put_value hs]
  | cons step path ih =>
    obtain ⟨last, hlast, -⟩ := bind_eq_ok_iff.1 h
    obtain ⟨inner, hn, -⟩ := follow_cons_eq_ok hlast
    obtain ⟨slot, hs, hv⟩ := nested_eq_ok hn
    have hmem : slot ∈ x.slots := List.mem_of_find?_eq_some (slot_eq_ok_iff.1 hs)
    have hinner : (Value.entity inner).Typed := hv ▸ (Value.typed_entity_iff.1 hx).2 slot hmem
    rw [getAt_cons hn] at h
    calc x.setAt (step :: path) field v
        = (x.put step <| .entity ·) <$> inner.setAt path field v := setAt_cons hn
      _ = .ok (x.put step (.entity inner)) := by rw [ih hinner h]; rfl
      _ = .ok x := by rw [← hv, put_value hs]

/-! ### Places -/

theorem split_of_find? {slots : List (Slot Value)} (h : slots.find? (·.name = field) = some slot) :
    ∃ before after, split field slots = some (before, slot, after) ∧
      ∀ v, putSlot field v slots = before ++ { slot with value := v } :: after := by
  induction slots with
  | nil => cases h
  | cons first slots ih =>
    by_cases hf : first.name = field
    · rw [List.find?_cons_of_pos (by simpa using hf)] at h
      cases h
      exact ⟨[], slots, by simp [split, hf], by simp [putSlot, hf]⟩
    · rw [List.find?_cons_of_neg (by simpa using hf)] at h
      obtain ⟨before, after, hsplit, hput⟩ := ih h
      exact ⟨first :: before, after, by simp [split, hf, hsplit], by simp [putSlot, hf, hput]⟩

theorem split_eq_none {slots : List (Slot Value)} (h : slots.find? (·.name = field) = none) :
    split field slots = none := by
  induction slots with
  | nil => rfl
  | cons first slots ih =>
    rw [List.find?_eq_none, List.forall_mem_cons] at h
    simp [split, ih (List.find?_eq_none.2 h.2), show first.name ≠ field by simpa using h.1]

theorem frame_of_slot (h : i.slot field = .ok slot) : ∃ frame, i.frame field = .ok frame ∧
    frame.slot = slot ∧ ∀ v, frame.close v = i.put field v := by
  obtain ⟨before, after, hsplit, hput⟩ := split_of_find? (slot_eq_ok_iff.1 h)
  refine ⟨⟨i.entity, before, slot, after⟩, by rw [Record.frame, hsplit], rfl, fun v ↦ ?_⟩
  rw [Frame.close, put, hput]

theorem frame_of_error (h : i.slot field = .error fault) : i.frame field = .error fault := by
  unfold Record.slot at h
  split at h
  · cases h
  · next hfind =>
    cases h
    rw [Record.frame, split_eq_none hfind]

end Record

namespace Place

variable {p q : Place}

theorem run_throw {α : Type} (fault : ValueError) (p : Place) :
    (throw fault : Access α).run p = .error fault p := rfl

theorem run_enter (field : String) (p : Place) : (enter field).run p =
    match p.here.frame field with
    | .error fault => .error fault p
    | .ok frame =>
      match frame.slot.value with
      | .entity inner => .ok () ⟨inner, frame :: p.around⟩
      | v => .error (.typeMismatch p.here.entity frame.slot.name "entity" v.describe) p := by
  cases h : p.here.frame field with
  | error fault => simp [enter, h, ofExcept, run_throw]
  | ok frame => cases hv : frame.slot.value <;> simp [enter, h, ofExcept, hv]

theorem run_write (field : String) (v : Value) (p : Place) : (write field v).run p =
    match p.here.frame field with
    | .error fault => .error fault p
    | .ok frame =>
      match v.coerce frame.slot.ty with
      | some stored => .ok () { p with here := frame.close stored }
      | none => .error (.typeMismatch p.here.entity field frame.slot.ty.text v.describe) p := by
  cases h : p.here.frame field with
  | error fault => simp [write, h, ofExcept, run_throw]
  | ok frame => cases hv : v.coerce frame.slot.ty <;> simp [write, h, ofExcept, hv]

/-- Whatever comes to stand at the place entered stands in that field of the instance around it. -/
theorem run_enter_of_ok (h : p.here.nested field = .ok inner) :
    ∃ q, (enter field).run p = .ok () q ∧ q.here = inner ∧ q.whole = p.whole ∧
      ∀ j, whole { q with here := j } = whole { p with here := p.here.put field (.entity j) } := by
  obtain ⟨slot, hs, hv⟩ := Record.nested_eq_ok h
  obtain ⟨frame, hframe, rfl, hclose⟩ := Record.frame_of_slot hs
  have hwhole : ∀ j, whole ⟨j, frame :: p.around⟩ =
      whole { p with here := p.here.put field (.entity j) } := by
    intro j
    rw [← hclose]
    rfl
  refine ⟨⟨inner, frame :: p.around⟩, by rw [run_enter, hframe]; simp only [hv], rfl, ?_, hwhole⟩
  rw [hwhole, ← hv, Record.put_value hs]

theorem run_enter_of_error (h : p.here.nested field = .error fault) :
    (enter field).run p = .error fault p := by
  rw [run_enter]
  cases hs : p.here.slot field with
  | error unknown =>
    cases h.symm.trans (Record.nested_of_slot_error hs)
    rw [Record.frame_of_error hs]
  | ok slot =>
    obtain ⟨frame, hframe, rfl, -⟩ := Record.frame_of_slot hs
    have hv : ∀ inner, frame.slot.value ≠ .entity inner := by
      intro inner hv
      cases h.symm.trans (Record.nested_of_slot hs hv)
    cases h.symm.trans (Record.nested_of_not_entity hs hv)
    simp only [hframe]

theorem run_write_of_ok (h : p.here.set field v = .ok j) :
    (write field v).run p = .ok () { p with here := j } := by
  obtain ⟨slot, stored, hs, hv, rfl⟩ := Record.set_eq_ok h
  obtain ⟨frame, hframe, rfl, hclose⟩ := Record.frame_of_slot hs
  rw [run_write, hframe]
  simp only [hv, hclose]

theorem run_write_of_error (h : p.here.set field v = .error fault) :
    (write field v).run p = .error fault p := by
  rw [run_write]
  cases hs : p.here.slot field with
  | error unknown =>
    rw [Record.set, hs] at h
    cases h
    rw [Record.frame_of_error hs]
  | ok slot =>
    obtain ⟨frame, hframe, rfl, -⟩ := Record.frame_of_slot hs
    cases hv : v.coerce frame.slot.ty with
    | some stored => cases h.symm.trans (Record.set_of_coerce hs hv)
    | none =>
      cases h.symm.trans (Record.set_of_misfit hs hv)
      simp only [hframe, hv]

/-! ### Whole paths -/

theorem run_seq_of_ok {first second : Access Unit} (h : first.run p = .ok () q) :
    (first >>= fun _ ↦ second).run p = second.run q := by
  rw [EStateM.run_bind, h]

theorem run_seq_of_error {first second : Access Unit} (h : first.run p = .error fault q) :
    (first >>= fun _ ↦ second).run p = .error fault q := by
  rw [EStateM.run_bind, h]

theorem run_forM_enter_of_ok (h : p.here.follow path = .ok inner) :
    ∃ q, (path.forM enter).run p = .ok () q ∧ q.here = inner := by
  induction path generalizing p with
  | nil =>
    cases h
    exact ⟨p, rfl, rfl⟩
  | cons step path ih =>
    obtain ⟨next, hn, h⟩ := Record.follow_cons_eq_ok h
    obtain ⟨q, hq, rfl, -⟩ := run_enter_of_ok hn
    obtain ⟨last, hlast, hhere⟩ := ih h
    exact ⟨last, (run_seq_of_ok hq).trans hlast, hhere⟩

theorem run_forM_enter_of_error (h : p.here.follow path = .error fault) :
    ∃ q, (path.forM enter).run p = .error fault q := by
  induction path generalizing p with
  | nil => cases h
  | cons step path ih =>
    rcases bind_eq_error_iff.1 h with h | ⟨next, hn, h⟩
    · exact ⟨p, run_seq_of_error (run_enter_of_error h)⟩
    · obtain ⟨q, hq, rfl, -⟩ := run_enter_of_ok hn
      obtain ⟨last, hlast⟩ := ih h
      exact ⟨last, (run_seq_of_ok hq).trans hlast⟩

theorem writeAt_cons : writeAt (step :: path) field v =
    enter step >>= fun _ ↦ writeAt path field v :=
  bind_assoc (enter step) (fun _ ↦ path.forM enter) fun _ ↦ write field v

theorem run_writeAt_of_ok (h : p.here.setAt path field v = .ok j) :
    ∃ q, (writeAt path field v).run p = .ok () q ∧ q.whole = whole { p with here := j } := by
  induction path generalizing p j with
  | nil => exact ⟨_, run_write_of_ok h, rfl⟩
  | cons step path ih =>
    obtain ⟨slot, inner, inner', hs, hv, hrest, rfl⟩ := Record.modifyAt_cons_eq_ok h
    obtain ⟨q, hq, rfl, -, hwhole⟩ := run_enter_of_ok (Record.nested_of_slot hs hv)
    obtain ⟨last, hlast, hlast'⟩ := ih hrest
    refine ⟨last, ?_, hlast'.trans (hwhole inner')⟩
    rw [writeAt_cons, run_seq_of_ok hq, hlast]

/-- Wherever a write fails, the instances taken apart on the way are put together as they were. -/
theorem run_writeAt_of_error (h : p.here.setAt path field v = .error fault) :
    ∃ q, (writeAt path field v).run p = .error fault q ∧ q.whole = p.whole := by
  induction path generalizing p with
  | nil => exact ⟨p, run_write_of_error h, rfl⟩
  | cons step path ih =>
    rw [writeAt_cons]
    cases hn : p.here.nested step with
    | error unreachable =>
      cases h.symm.trans (Record.setAt_cons_of_error hn)
      exact ⟨p, run_seq_of_error (run_enter_of_error hn), rfl⟩
    | ok inner =>
      rw [Record.setAt_cons hn, map_eq_error_iff] at h
      obtain ⟨q, hq, rfl, hwhole, -⟩ := run_enter_of_ok hn
      obtain ⟨last, hlast, hlast'⟩ := ih h
      exact ⟨last, (run_seq_of_ok hq).trans hlast, hlast'.trans hwhole⟩

end Place

namespace Record

theorem map_here_place (x : Instance) (path : List String) :
    (·.here) <$> x.place path = x.follow path := by
  cases h : x.follow path with
  | ok inner =>
    obtain ⟨q, hq, rfl⟩ := Place.run_forM_enter_of_ok (p := ⟨x, []⟩) h
    rw [place, hq]
    rfl
  | error fault =>
    obtain ⟨q, hq⟩ := Place.run_forM_enter_of_error (p := ⟨x, []⟩) h
    rw [place, hq]
    rfl

theorem writeAt_of_ok (h : x.setAt path field v = .ok y) :
    x.writeAt path field v = (.ok (), y) := by
  obtain ⟨q, hq, hwhole⟩ := Place.run_writeAt_of_ok (p := ⟨x, []⟩) h
  rw [writeAt, hq]
  exact Prod.ext rfl hwhole

theorem writeAt_of_error (h : x.setAt path field v = .error fault) :
    x.writeAt path field v = (.error fault, x) := by
  obtain ⟨q, hq, hwhole⟩ := Place.run_writeAt_of_error (p := ⟨x, []⟩) h
  rw [writeAt, hq]
  exact Prod.ext rfl hwhole

end Record

namespace Variables

variable {vars : Variables}

/-- Writes at the end of a path, whatever was done to instances before. -/
theorem path_write_lawful (h : ReflTransGen Step (fun _ ↦ none) vars) (hx : vars.Holds x)
    (path : List String) (field : String) :
    (·.here) <$> x.place path = x.follow path ∧
    (∀ v, (∃ fault, x.setAt path field v = .error fault ∧
        x.writeAt path field v = (.error fault, x)) ∨
      ∃ y, x.setAt path field v = .ok y ∧ x.writeAt path field v = (.ok (), y) ∧
        (∃ inner slot stored, x.follow path = .ok inner ∧ inner.slot field = .ok slot ∧
          v.coerce slot.ty = some stored ∧ y.getAt path field = .ok stored) ∧
        ∀ path' field', Record.Apart (path ++ [field]) (path' ++ [field']) →
          y.getAt path' field' = x.getAt path' field') ∧
    ∀ v, x.getAt path field = .ok v → x.writeAt path field v.clone = (.ok (), x) := by
  refine ⟨x.map_here_place path, fun v ↦ ?_, fun v hv ↦ ?_⟩
  · cases hset : x.setAt path field v with
    | error fault => exact .inl ⟨fault, rfl, Record.writeAt_of_error hset⟩
    | ok y =>
      exact .inr ⟨y, rfl, Record.writeAt_of_ok hset, Record.getAt_setAt_self hset,
        fun path' field' ↦ Record.getAt_setAt_of_apart hset⟩
  · have htyped : (Value.entity x).Typed := (typed_of_run h).of_holds hx
    rw [v.copy_eq.2]
    exact Record.writeAt_of_ok (Record.setAt_getAt htyped hv)

/-- A number that does not fit is refused one level down, one that fits is stored without a sign,
and what stood there may be written again. -/
theorem shape_path_write : ∃ vars : Variables, ReflTransGen Step (fun _ ↦ none) vars ∧
    vars.Holds (shapeAround planarPoint) ∧
    (shapeAround planarPoint).writeAt ["centre"] "x" (.int 256) =
      (.error (.typeMismatch "Point" "x" "u8" "int"), shapeAround planarPoint) ∧
    (shapeAround planarPoint).writeAt ["centre"] "x" (.int 7) =
      (.ok (), shapeAround ⟨"Point", [⟨"x", .primitive .u8, .uint 7⟩]⟩) ∧
    (shapeAround planarPoint).writeAt ["centre"] "x" (Value.uint 0).clone =
      (.ok (), shapeAround planarPoint) := by
  have hrun : ReflTransGen Step (fun _ ↦ none)
      (Function.update (fun _ ↦ none) "shape" (some (shapeAround planarPoint))) :=
    .single (.create "shape" planar_built zeroInstance_planar)
  have hheld : Holds (Function.update (fun _ ↦ none) "shape" (some (shapeAround planarPoint)))
      (shapeAround planarPoint) := ⟨"shape", shapeAround planarPoint, rfl, .here _⟩
  have hlawful := path_write_lawful hrun hheld ["centre"] "x"
  exact ⟨_, hrun, hheld, rfl, rfl, hlawful.2.2 (.uint 0) rfl⟩

end Variables

end ValueContract
