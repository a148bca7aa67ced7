import ValueContract.TypeExpr

namespace ValueContract

namespace Primitive

def spelling? : Primitive → Option String
  | i8 => some "int8_t"
  | i16 => some "int16_t"
  | i32 => some "int32_t"
  | i64 => some "int64_t"
  | u8 => some "uint8_t"
  | u16 => some "uint16_t"
  | u32 => some "uint32_t"
  | u64 => some "uint64_t"
  | f32 => some "float"
  | f64 => some "double"
  | bool => some "bool"
  | string => some "std::string"
  | void => none

def zeroSpelling? (kind : Primitive) : Option String :=
  match kind.category with
  | .integer => some "0"
  | .float => some (if kind = f32 then "0.0f" else "0.0")
  | .boolean => some "false"
  | .text => some "std::string()"
  | .void => none

end Primitive

namespace TypeExpr

/-- The type of a value, or the primitive kind that has none. -/
def spelling : TypeExpr → Except Primitive String
  | primitive kind => kind.spelling?.elim (.error kind) .ok
  | entity name => .ok name
  | list inner => do return "std::vector<" ++ (← inner.spelling) ++ ">"

def zeroSpelling : TypeExpr → Except Primitive String
  | primitive kind => kind.zeroSpelling?.elim (.error kind) .ok
  | ty => do return (← ty.spelling) ++ "()"

end TypeExpr

inductive Declarator
  | value (type : String)
  | reference (type : String)
  | constReference (type : String)
  | pointer (type : String)
  deriving DecidableEq, Repr

/-- The type with the spacing that the declared name expects after it. -/
def Declarator.lead : Declarator → String
  | value type => type ++ " "
  | reference type => type ++ " &"
  | constReference type => "const " ++ type ++ " &"
  | pointer type => type ++ " *"

end ValueContract
