import Mathlib.Data.Nat.Log
import ValueContract.Value.Binary

namespace ValueContract

theorem roundShift_mul_pow (m shift : Nat) : roundShift (m * Nat.pow 2 shift) shift = m := by
  have hpos : 0 < Nat.pow 2 shift := Nat.two_pow_pos shift
  rw [roundShift, Nat.mul_div_cancel _ hpos, Nat.mul_mod_left]
  exact if_neg (by omega)

theorem pow_mul_pow_sub {top : Nat} (h : top < 23) :
    Nat.pow 2 top * Nat.pow 2 (52 - top) = Nat.pow 2 52 := by
  rw [Nat.pow_eq, Nat.pow_eq, ← Nat.pow_add, Nat.add_sub_cancel' (by omega)]

namespace Binary64

variable {x : Binary64} {exponent fraction magnitude : Nat}

theorem magnitude_signed (negative : Bool) (h : magnitude < Nat.pow 2 63) :
    Binary64.magnitude ⟨.ofNat ((if negative then Nat.pow 2 63 else 0) + magnitude)⟩ =
      magnitude := by
  simp only [Nat.pow_eq] at h ⊢
  rw [Binary64.magnitude, UInt64.toNat_ofNat_of_lt']
  · cases negative <;> simp [Nat.pow_eq] <;> omega
  · cases negative <;> simp [UInt64.size] <;> omega

theorem isNegative_signed (negative : Bool) (h : magnitude < Nat.pow 2 63) :
    isNegative ⟨.ofNat ((if negative then Nat.pow 2 63 else 0) + magnitude)⟩ = negative := by
  simp only [Nat.pow_eq] at h ⊢
  rw [isNegative, UInt64.toNat_ofNat_of_lt']
  · cases negative <;> simp [Nat.pow_eq, h]
  · cases negative <;> simp [UInt64.size] <;> omega

theorem exponent_eq (hf : fraction < Nat.pow 2 52)
    (hx : x.magnitude = exponent * Nat.pow 2 52 + fraction) :
    x.exponent = exponent ∧ x.fraction = fraction := by
  simp only [Nat.pow_eq] at hf hx
  simp only [Binary64.exponent, Binary64.fraction, Nat.pow_eq, hx]
  omega

theorem narrowMagnitude_eq {significand whole shift : Nat}
    (hs : x.significand = significand * Nat.pow 2 shift)
    (hshift : shift = max 29 (926 - max x.exponent 1))
    (hw : (max x.exponent 1 - 897) * Nat.pow 2 23 + significand = whole)
    (hwhole : whole ≤ 0xFF * Nat.pow 2 23) : x.narrowMagnitude = whole := by
  rw [narrowMagnitude, hs, ← hshift, roundShift_mul_pow, hw, Nat.min_eq_right hwhole]

end Binary64

namespace Binary32

variable {y : Binary32}

theorem magnitude_eq (y : Binary32) : y.magnitude = y.exponent * Nat.pow 2 23 + y.fraction := by
  rw [exponent, fraction, Nat.div_add_mod']

theorem fraction_lt (y : Binary32) : y.fraction < Nat.pow 2 23 :=
  Nat.mod_lt _ (Nat.two_pow_pos 23)

theorem exponent_le (y : Binary32) : y.exponent ≤ 0xFF := by
  simp only [exponent, magnitude, Nat.pow_eq]
  omega

theorem fraction_eq_zero (hy : ¬y.isNaN) (he : y.exponent = 0xFF) : y.fraction = 0 := by
  have hm := y.magnitude_eq
  simp only [isNaN, decide_eq_true_eq] at hy
  rw [hm, he] at hy
  omega

theorem narrowMagnitude_of_infinite {x : Binary64} (he : y.exponent = 0xFF) (hf : y.fraction = 0)
    (hx : x.magnitude = 0x7FF * Nat.pow 2 52) : x.narrowMagnitude = y.magnitude := by
  obtain ⟨hexp, -⟩ : x.exponent = 0x7FF ∧ x.fraction = 0 := Binary64.exponent_eq (by decide) hx
  rw [y.magnitude_eq, he, hf, Binary64.narrowMagnitude, hexp]
  apply Nat.min_eq_left
  simp only [Nat.pow_eq]
  omega

theorem narrowMagnitude_of_normal {x : Binary64} (he : y.exponent ≠ 0) (hfin : y.exponent ≠ 0xFF)
    (hx : x.magnitude = (y.exponent + 896) * Nat.pow 2 52 + y.fraction * Nat.pow 2 29) :
    x.narrowMagnitude = y.magnitude := by
  have hfraction := y.fraction_lt
  have hexponent := y.exponent_le
  have hlt : y.fraction * Nat.pow 2 29 < Nat.pow 2 52 := by
    simp only [Nat.pow_eq] at hfraction ⊢
    omega
  obtain ⟨hexp, hfrac⟩ := Binary64.exponent_eq hlt hx
  have hs : x.significand = (Nat.pow 2 23 + y.fraction) * Nat.pow 2 29 := by
    rw [Binary64.significand, if_neg (by omega), hfrac, Nat.add_mul]
  refine Binary64.narrowMagnitude_eq hs (by omega) ?_ ?_
  · rw [y.magnitude_eq, hexp]
    simp only [Nat.pow_eq]
    omega
  · rw [y.magnitude_eq]
    simp only [Nat.pow_eq] at hfraction ⊢
    omega

theorem narrowMagnitude_of_zero {x : Binary64} (he : y.exponent = 0) (hf : y.fraction = 0)
    (hx : x.magnitude = 0) : x.narrowMagnitude = y.magnitude := by
  obtain ⟨hexp, hfrac⟩ : x.exponent = 0 ∧ x.fraction = 0 :=
    Binary64.exponent_eq (by decide) (by rw [hx])
  have hs : x.significand = 0 * Nat.pow 2 (max 29 (926 - max x.exponent 1)) := by
    rw [Binary64.significand, if_pos hexp, hfrac, Nat.zero_mul]
  refine Binary64.narrowMagnitude_eq hs rfl ?_ ?_
  · rw [y.magnitude_eq, hexp, he, hf]
    rfl
  · rw [y.magnitude_eq, he, hf]
    simp

theorem log2_fraction_lt (hf : y.fraction ≠ 0) : y.fraction.log2 < 23 :=
  (Nat.log2_lt hf).2 y.fraction_lt

/-- What a subnormal number has below its leading one, moved to the front. -/
theorem shifted_fraction_lt (hf : y.fraction ≠ 0) :
    (y.fraction - Nat.pow 2 y.fraction.log2) * Nat.pow 2 (52 - y.fraction.log2) <
      Nat.pow 2 52 := by
  have htop := log2_fraction_lt hf
  have hgt : y.fraction < Nat.pow 2 (y.fraction.log2 + 1) := Nat.lt_log2_self
  have hbelow : y.fraction - Nat.pow 2 y.fraction.log2 < Nat.pow 2 y.fraction.log2 := by
    have hpos : 0 < Nat.pow 2 y.fraction.log2 := Nat.two_pow_pos _
    simp only [Nat.pow_eq, Nat.pow_succ] at hgt hpos ⊢
    omega
  rw [← pow_mul_pow_sub htop]
  exact Nat.mul_lt_mul_of_pos_right hbelow (Nat.two_pow_pos _)

theorem narrowMagnitude_of_subnormal {x : Binary64} (he : y.exponent = 0) (hf : y.fraction ≠ 0)
    (hx : x.magnitude = (y.fraction.log2 + 874) * Nat.pow 2 52 +
      (y.fraction - Nat.pow 2 y.fraction.log2) * Nat.pow 2 (52 - y.fraction.log2)) :
    x.narrowMagnitude = y.magnitude := by
  have hfraction := y.fraction_lt
  have htop := log2_fraction_lt hf
  have hle : Nat.pow 2 y.fraction.log2 ≤ y.fraction := Nat.log2_self_le hf
  obtain ⟨hexp, hfrac⟩ := Binary64.exponent_eq (shifted_fraction_lt hf) hx
  -- the leading one is not stored any more, but the significand has it
  have hs : x.significand = y.fraction * Nat.pow 2 (52 - y.fraction.log2) := by
    rw [Binary64.significand, if_neg (by omega), hfrac, ← pow_mul_pow_sub htop, ← Nat.add_mul,
      Nat.add_sub_cancel' hle]
  refine Binary64.narrowMagnitude_eq hs (by omega) ?_ ?_
  · rw [y.magnitude_eq, hexp, he]
    simp only [Nat.pow_eq]
    omega
  · rw [y.magnitude_eq, he]
    simp only [Nat.pow_eq] at hfraction ⊢
    omega

theorem narrowMagnitude_of_wide {x : Binary64} (hy : ¬y.isNaN)
    (hx : x.magnitude = y.wideMagnitude) : x.narrowMagnitude = y.magnitude := by
  unfold wideMagnitude at hx
  split at hx
  · next he => exact narrowMagnitude_of_infinite he (fraction_eq_zero hy he) hx
  · next hfin =>
    split at hx
    · next he => exact narrowMagnitude_of_normal he hfin hx
    · next he =>
      split at hx
      · next hf => exact narrowMagnitude_of_zero (not_not.1 he) hf hx
      · next hf => exact narrowMagnitude_of_subnormal (not_not.1 he) hf hx

theorem wideMagnitude_le (y : Binary32) : y.wideMagnitude ≤ 0x7FF * Nat.pow 2 52 := by
  have hfraction := y.fraction_lt
  have hexponent := y.exponent_le
  unfold wideMagnitude
  simp only [Nat.pow_eq] at hfraction ⊢
  split
  · rfl
  · split
    · omega
    · split
      · omega
      · next hf =>
        have htop := log2_fraction_lt hf
        have hlt := shifted_fraction_lt hf
        simp only [Nat.pow_eq] at hlt
        omega

theorem ofNat_signed (y : Binary32) :
    (⟨.ofNat ((if y.isNegative then Nat.pow 2 31 else 0) + y.magnitude)⟩ : Binary32) = y := by
  have hlt := y.bits.toNat_lt
  have hbits : (if y.isNegative then Nat.pow 2 31 else 0) + y.magnitude = y.bits.toNat := by
    simp only [isNegative, magnitude, Nat.pow_eq, decide_eq_true_eq]
    split <;> omega
  rw [hbits, UInt32.ofNat_toNat]

theorem narrow_widen (hy : ¬y.isNaN) : y.widen.narrow = y := by
  have hle := y.wideMagnitude_le
  have hlt : y.wideMagnitude < Nat.pow 2 63 := by
    simp only [Nat.pow_eq] at hle ⊢
    omega
  have hwiden : y.widen =
      ⟨.ofNat ((if y.isNegative then Nat.pow 2 63 else 0) + y.wideMagnitude)⟩ := if_neg hy
  have hmagnitude : y.widen.magnitude = y.wideMagnitude := by
    rw [hwiden, Binary64.magnitude_signed _ hlt]
  have hnegative : y.widen.isNegative = y.isNegative := by
    rw [hwiden, Binary64.isNegative_signed _ hlt]
  have hnumber : ¬y.widen.isNaN := by
    rw [Binary64.isNaN, hmagnitude]
    simpa using hle
  rw [Binary64.narrow, if_neg hnumber, hnegative, narrowMagnitude_of_wide hy hmagnitude,
    ofNat_signed]

/-- Once rounded, a number stays what it is. -/
theorem widen_narrow_widen (y : Binary32) : y.widen.narrow.widen = y.widen := by
  by_cases hy : y.isNaN
  · have hnan : y.widen = .nan := if_pos hy
    rw [hnan]
    decide
  · rw [narrow_widen hy]

end Binary32

end ValueContract
