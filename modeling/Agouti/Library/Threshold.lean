import Mathlib.Algebra.Order.Ring.Nat

/-! # Comparisons with a product

A number is compared with a product of two others. Dividing it by one factor decides the
comparison in any width (`div_lt_iff`). Multiplying the factors decides it for every number exactly
when the product fits the width (`lt_mul_iff_fits`).
-/

namespace Threshold

variable {width : Nat} {weight target : BitVec width}

/-- The division decides the comparison of the natural numbers. -/
theorem div_lt_iff (positive : weight ≠ 0) (value : BitVec width) :
    value / weight < target ↔ value.toNat < target.toNat * weight.toNat := by
  have some : 0 < weight.toNat := by
    apply Nat.pos_of_ne_zero
    intro zero
    exact positive (BitVec.eq_of_toNat_eq zero)
  rw [BitVec.lt_def, BitVec.toNat_udiv]
  exact Nat.div_lt_iff_lt_mul some

theorem toNat_mul_of_fits (fits : weight.toNat * target.toNat < 2 ^ width) :
    (weight * target).toNat = weight.toNat * target.toNat := by
  rw [BitVec.toNat_mul, Nat.mod_eq_of_lt fits]

/-- **The multiplication decides the comparison for every number if and only if it does not
wrap.** -/
theorem lt_mul_iff_fits :
    (∀ value : BitVec width,
        value < weight * target ↔ value.toNat < weight.toNat * target.toNat) ↔
      weight.toNat * target.toNat < 2 ^ width := by
  constructor
  · intro decides
    by_contra wraps
    -- the largest number is below the product and not below its remainder
    have largest := decides (BitVec.allOnes width)
    have value : (BitVec.allOnes width).toNat = 2 ^ width - 1 := BitVec.toNat_allOnes
    have positive := Nat.two_pow_pos width
    have remainder := (weight * target).isLt
    rw [BitVec.lt_def, value] at largest
    have below := largest.mpr (by omega)
    omega
  · intro fits value
    rw [BitVec.lt_def, toNat_mul_of_fits fits]

end Threshold
