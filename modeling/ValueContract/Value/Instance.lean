import ValueContract.Value.Coerce

namespace ValueContract.Record

variable (i : Instance)

def slot (field : String) : Except ValueError (Slot Value) :=
  match i.slots.find? (·.name = field) with
  | some slot => .ok slot
  | none => .error (.unknownField i.entity field)

def get (field : String) : Except ValueError Value := do
  return (← i.slot field).value

/-- The value of the first slot of that name is replaced. -/
def putSlot (field : String) (v : Value) : List (Slot Value) → List (Slot Value)
  | [] => []
  | slot :: slots =>
    if slot.name = field then { slot with value := v } :: slots
    else slot :: putSlot field v slots

def put (field : String) (v : Value) : Instance :=
  { i with slots := putSlot field v i.slots }

def set (field : String) (v : Value) : Except ValueError Instance := do
  let slot ← i.slot field
  match v.coerce slot.ty with
  | some stored => return i.put field stored
  | none => throw (.typeMismatch i.entity field slot.ty.text v.describe)

def nested (field : String) : Except ValueError Instance := do
  match ← i.get field with
  | .entity inner => return inner
  | v => throw (.typeMismatch i.entity field "entity" v.describe)

def follow (i : Instance) : List String → Except ValueError Instance
  | [] => .ok i
  | field :: path => do (← i.nested field).follow path

/-- Changes the instance at the end of a path, in its place. -/
def modifyAt (change : Instance → Except ValueError Instance) (i : Instance) :
    List String → Except ValueError Instance
  | [] => change i
  | field :: path => do
    let inner ← i.nested field
    return i.put field (.entity (← inner.modifyAt change path))

def setAt (path : List String) (field : String) (v : Value) : Except ValueError Instance :=
  i.modifyAt (·.set field v) path

end ValueContract.Record
