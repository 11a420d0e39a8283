import Mathlib.Algebra.BigOperators.Group.Finset.Basic
import Mathlib.Data.Nat.Bitwise
import Mathlib.Data.Nat.Size

/-! # Numbers in limbs

A number is kept in limbs of `word` bits, the lowest first. A limb is written without the others
(`Limbs.value_write`), its bits are those of the number (`Limbs.testBit_value`), and the highest limbs
decide an order (`Limbs.value_lt_of_top`) and the size (`Limbs.size_value`). A loop over the limbs
keeps what one of its rounds keeps (`Limbs.fold_invariant`).
-/

namespace Agouti

namespace Limbs

/-- The number in the first `count` limbs. -/
def value (word : Nat) (limb : Nat → Nat) (count : Nat) : Nat :=
  ∑ i ∈ Finset.range count, limb i * 2 ^ (word * i)

variable {word count : Nat} {limb other : Nat → Nat}

theorem value_succ :
    value word limb (count + 1) = limb count * 2 ^ (word * count) + value word limb count := by
  rw [value, Finset.sum_range_succ, Nat.add_comm, value]

theorem value_zero (empty : ∀ i < count, limb i = 0) : value word limb count = 0 :=
  Finset.sum_eq_zero fun i inside => by rw [empty i (Finset.mem_range.mp inside), Nat.zero_mul]

theorem value_lt (small : ∀ i < count, limb i < 2 ^ word) :
    value word limb count < 2 ^ (word * count) := by
  induction count with
  | zero => exact Nat.one_pos
  | succ count ih =>
    have low := ih fun i below => small i (Nat.lt_succ_of_lt below)
    have high : limb count + 1 ≤ 2 ^ word := small count (Nat.lt_succ_self _)
    rw [value_succ]
    calc
      limb count * 2 ^ (word * count) + value word limb count <
          (limb count + 1) * 2 ^ (word * count) := by
        rw [Nat.succ_mul]
        omega
      _ ≤ 2 ^ word * 2 ^ (word * count) := Nat.mul_le_mul_right _ high
      _ = 2 ^ (word * (count + 1)) := by rw [← Nat.pow_add, Nat.mul_succ, Nat.add_comm]

/-- Writing a limb exchanges its part of the number. -/
theorem value_write {i : Nat} (inside : i < count) (same : ∀ j, j ≠ i → other j = limb j) :
    value word other count + limb i * 2 ^ (word * i) =
      value word limb count + other i * 2 ^ (word * i) := by
  have member : i ∈ Finset.range count := Finset.mem_range.mpr inside
  have rest : ∑ j ∈ (Finset.range count).erase i, other j * 2 ^ (word * j) =
      ∑ j ∈ (Finset.range count).erase i, limb j * 2 ^ (word * j) :=
    Finset.sum_congr rfl fun j apart => by rw [same j (Finset.ne_of_mem_erase apart)]
  rw [value, value, ← Finset.add_sum_erase _ _ member, ← Finset.add_sum_erase _ _ member, rest]
  omega

theorem testBit_value (positive : 0 < word) (small : ∀ i < count, limb i < 2 ^ word) (q : Nat) :
    (value word limb count).testBit q =
      (decide (q / word < count) && (limb (q / word)).testBit (q % word)) := by
  induction count with
  | zero => simp [value]
  | succ count ih =>
    have smaller : ∀ i < count, limb i < 2 ^ word := fun i below => small i (Nat.lt_succ_of_lt below)
    rw [value_succ, Nat.mul_comm (limb count), Nat.testBit_two_pow_mul_add _ (value_lt smaller),
      ih smaller]
    have low : q < word * count ↔ q / word < count := by
      rw [Nat.div_lt_iff_lt_mul positive, Nat.mul_comm]
    by_cases below : q < word * count
    · have lower := low.mp below
      rw [if_pos below, decide_eq_true lower, decide_eq_true (Nat.lt_succ_of_lt lower)]
    rw [if_neg below]
    have above : count ≤ q / word := not_lt.mp fun lower => below (low.mpr lower)
    have split := Nat.div_add_mod q word
    by_cases here : q / word = count
    · have rest : q - word * count = q % word := by
        rw [← here]
        omega
      rw [rest, here, decide_eq_true (Nat.lt_succ_self _), Bool.true_and]
    · -- the bit lies behind the last limb
      have more : word * (count + 1) ≤ q := by
        calc
          word * (count + 1) ≤ word * (q / word) := Nat.mul_le_mul_left _ (by omega)
          _ ≤ q := Nat.mul_div_le q word
      rw [decide_eq_false (by omega), Bool.false_and]
      apply Nat.testBit_lt_two_pow
      refine (small count (Nat.lt_succ_self _)).trans_le (Nat.pow_le_pow_right Nat.two_pos ?_)
      rw [Nat.mul_succ] at more
      omega

/-- The highest limb in which two numbers differ decides their order. -/
theorem value_lt_of_top (small : ∀ i < count, limb i < 2 ^ word) (top : limb count < other count) :
    value word limb (count + 1) < value word other (count + 1) := by
  have low := value_lt small
  rw [value_succ, value_succ]
  calc
    limb count * 2 ^ (word * count) + value word limb count <
        (limb count + 1) * 2 ^ (word * count) := by
      rw [Nat.succ_mul]
      omega
    _ ≤ other count * 2 ^ (word * count) := Nat.mul_le_mul_right _ top
    _ ≤ other count * 2 ^ (word * count) + value word other count := Nat.le_add_right _ _

theorem size_value (small : ∀ i < count, limb i < 2 ^ word) (top : limb count ≠ 0) :
    (value word limb (count + 1)).size = word * count + (limb count).size := by
  have low := value_lt small
  have bound := Nat.lt_size_self (limb count)
  have some : 0 < (limb count).size := Nat.size_pos.mpr (Nat.pos_of_ne_zero top)
  have leading : 2 ^ ((limb count).size - 1) ≤ limb count :=
    Nat.lt_size.mp (Nat.sub_lt some Nat.one_pos)
  apply le_antisymm
  · rw [Nat.size_le, value_succ, Nat.add_comm (word * count), Nat.pow_add]
    calc
      limb count * 2 ^ (word * count) + value word limb count <
          (limb count + 1) * 2 ^ (word * count) := by
        rw [Nat.succ_mul]
        omega
      _ ≤ 2 ^ (limb count).size * 2 ^ (word * count) := Nat.mul_le_mul_right _ bound
  · have bit : word * count + ((limb count).size - 1) < (value word limb (count + 1)).size := by
      rw [Nat.lt_size, value_succ, Nat.add_comm (word * count), Nat.pow_add]
      exact (Nat.mul_le_mul_right _ leading).trans (Nat.le_add_right _ _)
    omega

theorem value_complement (pairs : ∀ i < count, other i + limb i + 1 = 2 ^ word) :
    value word other count + value word limb count + 1 = 2 ^ (word * count) := by
  induction count with
  | zero => simp [value]
  | succ count ih =>
    have low := ih fun i below => pairs i (Nat.lt_succ_of_lt below)
    have high := congrArg (· * 2 ^ (word * count)) (pairs count (Nat.lt_succ_self _))
    simp only [Nat.add_mul, Nat.one_mul] at high
    rw [value_succ, value_succ, Nat.mul_succ, Nat.pow_add, Nat.mul_comm (2 ^ (word * count)), ← high]
    omega

/-- What holds in front of a loop, and behind each of its rounds, holds behind the loop. -/
theorem fold_invariant {State : Type} (Holds : Nat → State → Prop) {init : State}
    {round : (i : Nat) → i < count → State → State} (start : Holds 0 init)
    (next : ∀ i inside state, Holds i state → Holds (i + 1) (round i inside state)) :
    Holds count (Nat.fold count round init) := by
  induction count with
  | zero => exact start
  | succ count ih =>
    rw [Nat.fold_succ]
    exact next count _ _ (ih fun i inside => next i (Nat.lt_succ_of_lt inside))

end Limbs

end Agouti
