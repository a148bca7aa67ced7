import ValueContract.Entity.Error
import ValueContract.TypeExpr
import ValueContract.Value.Binary

namespace ValueContract

inductive ValueError
  | schema (error : SchemaError)
  | unsupportedPrimitive (entity field : String) (kind : Primitive)
  | unknownField (entity field : String)
  | typeMismatch (entity field expected found : String)
  | entityMismatch (entity source : String)
  deriving DecidableEq, Repr

def ValueError.message : ValueError → String
  | schema error => error.message
  | unsupportedPrimitive entity field kind =>
    s!"field '{field}' of entity '{entity}' uses primitive '{kind.name}', which has no value"
  | unknownField entity field => s!"entity '{entity}' has no field '{field}'"
  | typeMismatch entity field expected found =>
    s!"field '{field}' of entity '{entity}' expects {expected}, got {found}"
  | entityMismatch entity source =>
    s!"cannot copy an instance of '{source}' into an instance of '{entity}'"

structure Slot (α : Type) where
  name : String
  ty : TypeExpr
  value : α
  deriving Repr

structure Record (α : Type) where
  entity : String
  slots : List (Slot α)
  deriving Repr

inductive Value
  | int (n : Int64)
  | uint (n : UInt64)
  | float (x : Binary64)
  | bool (b : Bool)
  | text (s : String)
  | list (items : List Value)
  | entity (inner : Record Value)

abbrev Instance := Record Value

namespace Value

def describe : Value → String
  | int _ => "int"
  | uint _ => "uint"
  | float _ => "float"
  | bool _ => "bool"
  | text _ => "string"
  | list _ => "list"
  | entity i => i.entity

/-- The zero of a type. An entity has none without a catalogue, and `void` has none at all. -/
def zero? : TypeExpr → Option Value
  | .list inner => if inner.primitive? = some .void then none else some (list [])
  | .entity _ => none
  | .primitive kind =>
    match kind.category with
    | .integer => some (if kind.isSigned then int 0 else uint 0)
    | .float => some (float .zero)
    | .boolean => some (bool false)
    | .text => some (text "")
    | .void => none

end Value

mutual

/-- Equality of values as generated classes have it: field by field, floats as numbers. -/
def Value.equal : Value → Value → Bool
  | .int m, .int n => m = n
  | .uint m, .uint n => m = n
  | .float x, .float y => x.equal y
  | .bool a, .bool b => a = b
  | .text s, .text t => s = t
  | .list xs, .list ys => Value.equalItems xs ys
  | .entity i, .entity j => Record.equal i j
  | _, _ => false
termination_by structural v => v

def Value.equalItems : List Value → List Value → Bool
  | [], [] => true
  | x :: xs, y :: ys => x.equal y && Value.equalItems xs ys
  | _, _ => false
termination_by structural items => items

def Record.equal : Record Value → Record Value → Bool
  | ⟨entity, slots⟩, ⟨entity', slots'⟩ => entity = entity' && Record.equalSlots slots slots'
termination_by structural i => i

def Record.equalSlots : List (Slot Value) → List (Slot Value) → Bool
  | [], [] => true
  | ⟨name, _, value⟩ :: slots, ⟨name', _, value'⟩ :: slots' =>
    name = name' && value.equal value' && Record.equalSlots slots slots'
  | _, _ => false
termination_by structural slots => slots

end

end ValueContract
