import Mathlib.Tactic.Ring

/-! # Arithmetic that stays in range

Operations on an unsigned type with `bound` values, each undefined where its exact result is no
value of the type. A computation made of them that succeeds has had no intermediate result out of
range.
-/

namespace Agouti

namespace Checked

/-- A value of the type. -/
def within (bound value : Nat) : Option Nat := if value < bound then some value else none

/-- The sum, when it is in range. -/
def add (bound a b : Nat) : Option Nat := within bound (a + b)

/-- The product, when it is in range. -/
def mul (bound a b : Nat) : Option Nat := within bound (a * b)

/-- The difference, when it is not below zero. -/
def sub (a b : Nat) : Option Nat := if b ≤ a then some (a - b) else none

/-- `count` multiplications by `factor`, one after the other. -/
def scale (bound factor : Nat) : Nat → Nat → Option Nat
  | 0, n => some n
  | count + 1, n => (mul bound n factor).bind (scale bound factor count)

variable {bound a b : Nat}

theorem add_of_lt (small : a + b < bound) : add bound a b = some (a + b) := if_pos small

theorem mul_of_lt (small : a * b < bound) : mul bound a b = some (a * b) := if_pos small

theorem sub_of_le (enough : b ≤ a) : sub a b = some (a - b) := if_pos enough

/-- Multiplications by a positive factor stay in range when the last one does. -/
theorem scale_of_lt {factor : Nat} (positive : 0 < factor) (count : Nat) {n : Nat}
    (small : n * factor ^ count < bound) :
    scale bound factor count n = some (n * factor ^ count) := by
  induction count generalizing n with
  | zero => rw [scale, pow_zero, Nat.mul_one]
  | succ count ih =>
    have further : n * factor ^ (count + 1) = n * factor * factor ^ count := by ring
    rw [further] at small ⊢
    have product : n * factor < bound := by
      refine lt_of_le_of_lt ?_ small
      exact Nat.le_mul_of_pos_right _ (Nat.pow_pos positive)
    rw [scale, mul_of_lt product, Option.bind_some, ih small]

end Checked

end Agouti
