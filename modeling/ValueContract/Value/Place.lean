import ValueContract.Value.Instance

namespace ValueContract

/-- An instance taken apart at one of its slots. -/
structure Frame where
  entity : String
  before : List (Slot Value)
  slot : Slot Value
  after : List (Slot Value)

def Frame.close (f : Frame) (v : Value) : Instance :=
  ⟨f.entity, f.before ++ { f.slot with value := v } :: f.after⟩

namespace Record

def split (field : String) :
    List (Slot Value) → Option (List (Slot Value) × Slot Value × List (Slot Value))
  | [] => none
  | slot :: slots =>
    if slot.name = field then some ([], slot, slots)
    else (split field slots).map fun parts ↦ (slot :: parts.1, parts.2)

def frame (i : Instance) (field : String) : Except ValueError Frame :=
  match split field i.slots with
  | some parts => .ok ⟨i.entity, parts.1, parts.2.1, parts.2.2⟩
  | none => .error (.unknownField i.entity field)

end Record

structure Place where
  here : Instance
  /-- What is around the instance reached, from the inside out. -/
  around : List Frame

namespace Place

def whole (p : Place) : Instance :=
  p.around.foldl (fun inner frame ↦ frame.close (.entity inner)) p.here

/-- A fault leaves the place as it was reached. -/
abbrev Access := EStateM ValueError Place

def enter (field : String) : Access Unit := do
  let p ← get
  let frame ← ofExcept (p.here.frame field)
  match frame.slot.value with
  | .entity inner => set (⟨inner, frame :: p.around⟩ : Place)
  | v => throw (.typeMismatch p.here.entity frame.slot.name "entity" v.describe)

def write (field : String) (v : Value) : Access Unit := do
  let p ← get
  let frame ← ofExcept (p.here.frame field)
  match v.coerce frame.slot.ty with
  | some stored => set { p with here := frame.close stored }
  | none => throw (.typeMismatch p.here.entity field frame.slot.ty.text v.describe)

def writeAt (path : List String) (field : String) (v : Value) : Access Unit := do
  path.forM enter
  write field v

end Place

def Record.place (i : Instance) (path : List String) : Except ValueError Place :=
  match (path.forM Place.enter).run ⟨i, []⟩ with
  | .ok () p => .ok p
  | .error fault _ => .error fault

def Record.writeAt (i : Instance) (path : List String) (field : String) (v : Value) :
    Except ValueError Unit × Instance :=
  match (Place.writeAt path field v).run ⟨i, []⟩ with
  | .ok () p => (.ok (), p.whole)
  | .error fault p => (.error fault, p.whole)

end ValueContract
