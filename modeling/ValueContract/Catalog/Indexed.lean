import ValueContract.Catalog.Basic

namespace ValueContract

structure IndexedCatalog extends Catalog where
  /-- Of several entries for a name the first counts. -/
  index : List (String × EntityId) := []
  deriving DecidableEq, Repr

namespace IndexedCatalog

/-- The index led to a place where no entity stands. -/
structure OutOfRange where
  id : EntityId
  deriving DecidableEq, Repr

variable (c : IndexedCatalog)

def idOf? (name : String) : Option EntityId := c.index.lookup name

def contains (name : String) : Bool := (c.idOf? name).isSome

def find (name : String) : Except OutOfRange (Option Entity) :=
  match c.idOf? name with
  | none => .ok none
  | some id =>
    match c.byId? id with
    | some e => .ok (some e)
    | none => .error ⟨id⟩

def declare (e : Entity) : Except SchemaError EntityId × IndexedCatalog :=
  if c.contains e.name then (.error (.duplicateEntity e.name), c)
  else
    let id : EntityId := ⟨c.entities.length⟩
    (.ok id, { entities := c.entities ++ [e], index := (e.name, id) :: c.index })

def declareAll (calls : List Entity) : IndexedCatalog :=
  calls.foldl (fun c e ↦ (c.declare e).2) c

end IndexedCatalog

end ValueContract
