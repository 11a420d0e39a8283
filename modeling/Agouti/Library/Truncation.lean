import Mathlib.Algebra.Order.Ring.Nat
import Mathlib.Data.Nat.Size

/-! # Numbers of a few digits

A floating representation keeps the leading bits of a number: bits are dropped in groups, so that
at least `kept` groups and the bits of a group begun are left. The number that is left is below the
number (`truncate_le`), is not zero if the number is not (`truncate_pos`), has as many bits
(`size_truncate`), and larger numbers leave no smaller ones (`truncate_mono`).
-/

namespace Truncation

/-- How many bits of a number of so many bits are dropped. -/
def shift (group kept size : Nat) : Nat := group * (size / group - kept)

/-- What is left of a number. -/
def truncate (group kept value : Nat) : Nat :=
  value / 2 ^ shift group kept value.size * 2 ^ shift group kept value.size

variable {group kept : Nat}

theorem shift_mono {smaller larger : Nat} (below : smaller ≤ larger) :
    shift group kept smaller ≤ shift group kept larger :=
  Nat.mul_le_mul_left group (Nat.sub_le_sub_right (Nat.div_le_div_right below) kept)

theorem shift_lt (positive : 0 < group) (keeps : 0 < kept) {size : Nat} (some : 0 < size) :
    shift group kept size < size := by
  have groups := Nat.div_mul_le_self size group
  unfold shift
  rcases Nat.eq_zero_or_pos (size / group - kept) with none | more
  · rw [none, Nat.mul_zero]
    exact some
  · calc group * (size / group - kept)
        < group * (size / group) := Nat.mul_lt_mul_of_pos_left (by omega) positive
      _ ≤ size := by rwa [Nat.mul_comm]

theorem truncate_le (value : Nat) : truncate group kept value ≤ value := Nat.div_mul_le_self _ _

theorem truncate_pos (positive : 0 < group) (keeps : 0 < kept) {value : Nat} (some : 0 < value) :
    0 < truncate group kept value := by
  have size : 0 < value.size := Nat.size_pos.mpr some
  have leading : 2 ^ shift group kept value.size ≤ value :=
    Nat.lt_size.mp (shift_lt positive keeps size)
  exact Nat.mul_pos (Nat.div_pos leading (Nat.two_pow_pos _)) (Nat.two_pow_pos _)

/-- The highest bit is kept. -/
theorem size_truncate (positive : 0 < group) (keeps : 0 < kept) (value : Nat) :
    (truncate group kept value).size = value.size := by
  refine le_antisymm (Nat.size_le_size (truncate_le value)) ?_
  rcases Nat.eq_zero_or_pos value.size with none | some
  · rw [none]
    exact Nat.zero_le _
  have drops := shift_lt positive keeps some
  have leading : 2 ^ (value.size - 1) ≤ value := Nat.lt_size.mp (Nat.sub_lt some Nat.one_pos)
  have split : 2 ^ (value.size - 1) =
      2 ^ (value.size - 1 - shift group kept value.size) * 2 ^ shift group kept value.size := by
    rw [← Nat.pow_add, Nat.sub_add_cancel (Nat.le_sub_one_of_lt drops)]
  have bit : value.size - 1 < (truncate group kept value).size := by
    rw [Nat.lt_size, split, truncate]
    apply Nat.mul_le_mul_right
    rwa [Nat.le_div_iff_mul_le (Nat.two_pow_pos _), ← split]
  omega

/-- A number of another number of groups is above all that is left of a smaller one. -/
theorem le_truncate_of_shift_lt (keeps : 0 < kept) {smaller larger : Nat}
    (drops : shift group kept smaller.size < shift group kept larger.size) :
    smaller ≤ truncate group kept larger := by
  have positive : 0 < group := by
    apply Nat.pos_of_ne_zero
    rintro rfl
    rw [shift, shift, Nat.zero_mul, Nat.zero_mul] at drops
    exact absurd drops (lt_irrefl 0)
  have groups : smaller.size / group < larger.size / group := by
    by_contra same
    have order := Nat.mul_le_mul_left group (Nat.sub_le_sub_right (not_lt.mp same) kept)
    exact absurd drops (not_lt.mpr order)
  -- between the two is a power of two that the larger one keeps
  have below : smaller < 2 ^ (group * (larger.size / group) - 1) := by
    rw [← Nat.size_le]
    have inside := (Nat.div_lt_iff_lt_mul positive).mp groups
    rw [Nat.mul_comm] at inside
    omega
  have some : 0 < larger.size / group := Nat.zero_lt_of_lt groups
  have whole : 0 < group * (larger.size / group) := Nat.mul_pos positive some
  have above : 2 ^ (group * (larger.size / group) - 1) ≤ larger := by
    apply Nat.lt_size.mp
    have most := Nat.div_mul_le_self larger.size group
    rw [Nat.mul_comm] at most
    omega
  have less : shift group kept larger.size ≤ group * (larger.size / group) - 1 := by
    unfold shift
    have fewer := Nat.mul_lt_mul_of_pos_left (Nat.sub_lt some keeps) positive
    omega
  obtain ⟨rest, split⟩ := Nat.exists_eq_add_of_le less
  rw [split, Nat.pow_add] at below above
  refine below.le.trans ?_
  rw [truncate, Nat.mul_comm]
  refine Nat.mul_le_mul_right _ ?_
  rw [Nat.le_div_iff_mul_le (Nat.two_pow_pos _), Nat.mul_comm]
  exact above

/-- **Larger numbers leave no smaller ones.** -/
theorem truncate_mono (keeps : 0 < kept) {smaller larger : Nat} (below : smaller ≤ larger) :
    truncate group kept smaller ≤ truncate group kept larger := by
  rcases (shift_mono (Nat.size_le_size below)).eq_or_lt with same | drops
  · unfold truncate
    rw [same]
    exact Nat.mul_le_mul_right _ (Nat.div_le_div_right below)
  · exact (truncate_le smaller).trans (le_truncate_of_shift_lt keeps drops)

end Truncation
