/-!
Binary floating-point numbers by their bits. A number of `p + 1` significant bits and an exponent
field of `w` bits has the bits sign, exponent and fraction, from the highest down. Of numbers the
library compares them and moves them between double and single precision, rounding to the nearest
number and to the even one of two that are equally near; a not-a-number becomes the default one.
-/

namespace ValueContract

structure Binary64 where
  bits : UInt64
  deriving DecidableEq, Repr

structure Binary32 where
  bits : UInt32
  deriving DecidableEq, Repr

/-- `m / 2 ^ shift`, rounded to the nearest integer, to the even one of two. -/
def roundShift (m shift : Nat) : Nat :=
  let unit := Nat.pow 2 shift
  let whole := m / unit
  let twice := 2 * (m % unit)
  if unit < twice ∨ (twice = unit ∧ whole % 2 = 1) then whole + 1 else whole

namespace Binary64

def zero : Binary64 := ⟨0⟩

def nan : Binary64 := ⟨0x7FF8000000000000⟩

def isNegative (x : Binary64) : Bool := Nat.pow 2 63 ≤ x.bits.toNat

def magnitude (x : Binary64) : Nat := x.bits.toNat % Nat.pow 2 63

def exponent (x : Binary64) : Nat := x.magnitude / Nat.pow 2 52

def fraction (x : Binary64) : Nat := x.magnitude % Nat.pow 2 52

def isNaN (x : Binary64) : Bool := 0x7FF * Nat.pow 2 52 < x.magnitude

/-- A not-a-number equals nothing, and the two zeros are equal. -/
def equal (x y : Binary64) : Bool :=
  !x.isNaN && !y.isNaN && (x.bits = y.bits || (x.magnitude = 0 && y.magnitude = 0))

end Binary64

namespace Binary32

def nan : Binary32 := ⟨0x7FC00000⟩

def isNegative (x : Binary32) : Bool := Nat.pow 2 31 ≤ x.bits.toNat

def magnitude (x : Binary32) : Nat := x.bits.toNat % Nat.pow 2 31

def exponent (x : Binary32) : Nat := x.magnitude / Nat.pow 2 23

def fraction (x : Binary32) : Nat := x.magnitude % Nat.pow 2 23

def isNaN (x : Binary32) : Bool := 0xFF * Nat.pow 2 23 < x.magnitude

def wideMagnitude (x : Binary32) : Nat :=
  if x.exponent = 0xFF then 0x7FF * Nat.pow 2 52
  else if x.exponent ≠ 0 then (x.exponent + 896) * Nat.pow 2 52 + x.fraction * Nat.pow 2 29
  else if x.fraction = 0 then 0
  else
    let top := x.fraction.log2
    (top + 874) * Nat.pow 2 52 + (x.fraction - Nat.pow 2 top) * Nat.pow 2 (52 - top)

def widen (x : Binary32) : Binary64 :=
  if x.isNaN then .nan
  else ⟨.ofNat ((if x.isNegative then Nat.pow 2 63 else 0) + x.wideMagnitude)⟩

end Binary32

namespace Binary64

/-- The integer that the fraction stands for, with the leading one of a normal number. -/
def significand (x : Binary64) : Nat :=
  if x.exponent = 0 then x.fraction else Nat.pow 2 52 + x.fraction

/-- The magnitude bits in single precision. A carry out of the fraction raises the exponent, as
the bits are laid out for it, and what is too large becomes infinite. -/
def narrowMagnitude (x : Binary64) : Nat :=
  let exponent := max x.exponent 1
  min (0xFF * Nat.pow 2 23)
    ((exponent - 897) * Nat.pow 2 23 + roundShift x.significand (max 29 (926 - exponent)))

def narrow (x : Binary64) : Binary32 :=
  if x.isNaN then .nan
  else ⟨.ofNat ((if x.isNegative then Nat.pow 2 31 else 0) + x.narrowMagnitude)⟩

end Binary64

end ValueContract
