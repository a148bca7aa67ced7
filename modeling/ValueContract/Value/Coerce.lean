import ValueContract.Value.Basic

namespace ValueContract

def Primitive.range? : Primitive → Option (Int × Int)
  | .i8 => some (-0x80, 0x7F)
  | .i16 => some (-0x8000, 0x7FFF)
  | .i32 => some (-0x80000000, 0x7FFFFFFF)
  | .i64 => some (-0x8000000000000000, 0x7FFFFFFFFFFFFFFF)
  | .u8 => some (0, 0xFF)
  | .u16 => some (0, 0xFFFF)
  | .u32 => some (0, 0xFFFFFFFF)
  | .u64 => some (0, 0xFFFFFFFFFFFFFFFF)
  | _ => none

namespace Value

def integer? : Value → Option Int
  | int n => some n.toInt
  | uint n => some n.toNat
  | _ => none

/-- A signed kind stores `int` and an unsigned kind `uint`, whatever the number came as. -/
def ofInteger? (kind : Primitive) (m : Int) : Option Value :=
  match kind.range? with
  | none => none
  | some (least, greatest) =>
    if least ≤ m ∧ m ≤ greatest then
      some (if kind.isSigned then int (.ofInt m) else uint (.ofNat m.toNat))
    else none

def coercePrimitive (kind : Primitive) (v : Value) : Option Value :=
  match kind.category, v with
  | .integer, v => v.integer? >>= ofInteger? kind
  | .float, float x => some (float (if kind = .f32 then x.narrow.widen else x))
  | .boolean, bool b => some (bool b)
  | .text, text s => some (text s)
  | _, _ => none

def coerce : TypeExpr → Value → Option Value
  | .primitive kind, v => coercePrimitive kind v
  | .list inner, list items => list <$> items.mapM (coerce inner)
  | .entity name, entity i => if i.entity = name then some (entity i) else none
  | _, _ => none

end Value

namespace Primitive

def admitsSigned (kind : Primitive) (n : Int64) : Bool :=
  match kind with
  | .i8 => -0x80 ≤ n && n ≤ 0x7F
  | .i16 => -0x8000 ≤ n && n ≤ 0x7FFF
  | .i32 => -0x80000000 ≤ n && n ≤ 0x7FFFFFFF
  | _ => true

def admitsUnsigned (kind : Primitive) (n : UInt64) : Bool :=
  match kind with
  | .u8 => n ≤ 0xFF
  | .u16 => n ≤ 0xFFFF
  | .u32 => n ≤ 0xFFFFFFFF
  | _ => true

end Primitive

namespace Value

def signedWord? (n : UInt64) : Option Int64 :=
  if n ≤ 0x7FFFFFFFFFFFFFFF then some n.toInt64 else none

def unsignedWord? (n : Int64) : Option UInt64 :=
  if 0 ≤ n then some n.toUInt64 else none

/-- What an integer kind stores, going by words. A word changes its sign convention only where the
number stays the same. -/
def storeWord? (kind : Primitive) : Value → Option Value
  | int n =>
    if kind.isSigned then if kind.admitsSigned n then some (int n) else none
    else ((unsignedWord? n).filter kind.admitsUnsigned).map uint
  | uint n =>
    if kind.isSigned then ((signedWord? n).filter kind.admitsSigned).map int
    else if kind.admitsUnsigned n then some (uint n) else none
  | _ => none

end Value

end ValueContract
