import ValueContract.Value.Instance

namespace ValueContract

namespace Record

/-- The same entity with the same field names and declared types, in the same order. What the
fields hold is not looked at. -/
def sameShape (i j : Instance) : Bool :=
  i.entity = j.entity &&
    i.slots.map (fun slot ↦ (slot.name, slot.ty)) = j.slots.map fun slot ↦ (slot.name, slot.ty)

end Record

mutual

/-- Every field back at its zero; instances inside keep their shape. -/
def Record.blank : Record Value → Record Value
  | ⟨entity, slots⟩ => ⟨entity, Record.blankSlots slots⟩
termination_by structural i => i

def Record.blankSlots : List (Slot Value) → List (Slot Value)
  | [] => []
  | ⟨name, ty, value⟩ :: slots => ⟨name, ty, value.blank ty⟩ :: Record.blankSlots slots
termination_by structural slots => slots

def Value.blank (ty : TypeExpr) : Value → Value
  | .entity inner => .entity inner.blank
  | v => (Value.zero? ty).getD v
termination_by structural v => v

end

mutual

def Record.copyInto : (source target : Record Value) → Record Value
  | ⟨_, slots⟩, target => ⟨target.entity, Record.copySlots slots target.slots⟩
termination_by structural source => source

def Record.copySlots : (source target : List (Slot Value)) → List (Slot Value)
  | ⟨_, _, value⟩ :: source, slot :: target =>
    { slot with value := value.copyOver slot.value } :: Record.copySlots source target
  | _, target => target
termination_by structural source => source

/-- The value that replaces the second one. -/
def Value.copyOver : (source target : Value) → Value
  | .entity inner, .entity into =>
    .entity (if inner.sameShape into then inner.copyInto into else inner.copyInto inner.blank)
  | .entity inner, _ => .entity (inner.copyInto inner.blank)
  | .list items, _ => .list (Value.cloneItems items)
  | v, _ => v
termination_by structural source => source

def Value.cloneItems : List Value → List Value
  | [] => []
  | v :: items => v.clone :: Value.cloneItems items
termination_by structural items => items

def Value.clone : Value → Value
  | .entity inner => .entity (inner.copyInto inner.blank)
  | .list items => .list (Value.cloneItems items)
  | v => v
termination_by structural v => v

end

namespace Record

def clone (i : Instance) : Instance := i.copyInto i.blank

def copyTo (i target : Instance) : Except ValueError Instance :=
  if i.sameShape target then .ok (i.copyInto target)
  else .error (.entityMismatch target.entity i.entity)

def assign (i other : Instance) : Except ValueError Instance := other.copyTo i

end Record

end ValueContract
