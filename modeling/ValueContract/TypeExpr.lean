import ValueContract.Name

namespace ValueContract

/-- Scalar kinds, in the order by which types are sorted. Schemas can name `void`, but no value
has that kind. -/
inductive Primitive
  | i8 | i16 | i32 | i64
  | u8 | u16 | u32 | u64
  | f32 | f64
  | bool
  | string
  | void
  deriving DecidableEq, Repr

inductive Category
  | integer | float | boolean | text | void
  deriving DecidableEq, Repr

namespace Primitive

def all : List Primitive :=
  [i8, i16, i32, i64, u8, u16, u32, u64, f32, f64, bool, string, void]

def name : Primitive → String
  | i8 => "i8"
  | i16 => "i16"
  | i32 => "i32"
  | i64 => "i64"
  | u8 => "u8"
  | u16 => "u16"
  | u32 => "u32"
  | u64 => "u64"
  | f32 => "f32"
  | f64 => "f64"
  | bool => "bool"
  | string => "string"
  | void => "void"

def ofName? (name : String) : Option Primitive :=
  all.find? (·.name = name)

def category : Primitive → Category
  | i8 | i16 | i32 | i64 | u8 | u16 | u32 | u64 => .integer
  | f32 | f64 => .float
  | bool => .boolean
  | string => .text
  | void => .void

def isSigned : Primitive → Bool
  | i8 | i16 | i32 | i64 => true
  | _ => false

def isUnsigned : Primitive → Bool
  | u8 | u16 | u32 | u64 => true
  | _ => false

def rank (kind : Primitive) : Nat :=
  all.idxOf kind

end Primitive

inductive TypeExpr
  | primitive (kind : Primitive)
  | entity (name : String)
  | list (inner : TypeExpr)
  deriving DecidableEq, Repr

namespace TypeExpr

def text : TypeExpr → String
  | primitive kind => kind.name
  | entity name => name
  | list inner => inner.text ++ "[]"

def element : TypeExpr → TypeExpr
  | list inner => inner.element
  | ty => ty

def depth : TypeExpr → Nat
  | list inner => inner.depth + 1
  | _ => 0

def isList : TypeExpr → Bool
  | list _ => true
  | _ => false

/-- The entity named by the type, list elements included. -/
def referenced? (ty : TypeExpr) : Option String :=
  match ty.element with
  | entity name => some name
  | _ => none

/-- The entity held by value, without a list in between. -/
def direct? : TypeExpr → Option String
  | entity name => some name
  | _ => none

def primitive? (ty : TypeExpr) : Option Primitive :=
  match ty.element with
  | primitive kind => some kind
  | _ => none

/-- Primitives come before entities and entities before lists. Primitives compare by rank,
entities by name and lists by what they hold. -/
def order : TypeExpr → TypeExpr → Ordering
  | primitive a, primitive b => compare a.rank b.rank
  | primitive _, _ => .lt
  | _, primitive _ => .gt
  | entity a, entity b => compare a b
  | entity _, list _ => .lt
  | list _, entity _ => .gt
  | list a, list b => a.order b

instance : Ord TypeExpr := ⟨order⟩

def sort (types : List TypeExpr) : List TypeExpr :=
  types.mergeSort fun a b ↦ (a.order b).isLE

end TypeExpr

inductive TypeFault
  | empty
  | unclosedList (text : String)
  | invalidName (name : String) (fault : NameFault)
  deriving DecidableEq, Repr

def TypeFault.message : TypeFault → String
  | .empty => "type name is empty"
  | .unclosedList text => s!"unclosed list in type '{text}'"
  | .invalidName _ fault => s!"invalid entity name: {fault.message}"

namespace TypeExpr

/-- What is left once every trailing `[]` is removed. Primitive names win over entity names. -/
def parseBase (base : String) : Except TypeFault TypeExpr :=
  if base = "" then .error .empty
  else if '[' ∈ base.toList then .error (.unclosedList base)
  else
    match Primitive.ofName? base, Name.fault? base with
    | some kind, _ => .ok (primitive kind)
    | none, some fault => .error (.invalidName base fault)
    | none, none => .ok (entity base)

def parseReversed : List Char → Except TypeFault TypeExpr
  | ']' :: '[' :: rest => list <$> parseReversed rest
  | base => parseBase (String.ofList base.reverse)

def parse (text : String) : Except TypeFault TypeExpr :=
  parseReversed text.toList.reverse

end TypeExpr

end ValueContract
