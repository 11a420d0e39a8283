import Mathlib.Algebra.Order.BigOperators.Group.List
import Mathlib.Tactic.Linarith
import Mathlib.Tactic.Positivity
import Mathlib.Tactic.Ring

/-! # Running totals

Amounts are added one after the other in a signed type with `2 * half` values. The total is the
exact sum while no sum of the first amounts leaves the type (`runningTotal_eq_sum`), and amounts that
are not negative and small for their number stay inside (`inside_of_small`).
-/

namespace RunningTotal

/-- A number is a value of the type. -/
def Inside (half : Nat) (sum : Int) : Prop := -half ≤ sum ∧ sum < half

/-- The total that a loop adds up in the type. -/
def runningTotal (half : Nat) (amounts : List Int) : Int :=
  amounts.foldl (fun total amount => (total + amount).bmod (2 * half)) 0

variable {half : Nat} {amounts : List Int}

theorem bmod_of_inside {sum : Int} (inside : Inside half sum) : sum.bmod (2 * half) = sum := by
  obtain ⟨low, high⟩ := inside
  apply Int.bmod_eq_of_le_mul_two
  · push_cast
    linarith
  · push_cast
    linarith

/-- The running total is the exact sum when all partial sums are values of the type. -/
theorem runningTotal_eq_sum (inside : ∀ first, first <+: amounts → Inside half first.sum) :
    runningTotal half amounts = amounts.sum := by
  induction amounts using List.reverseRecOn with
  | nil => rfl
  | append_singleton first last ih =>
    have before := ih fun front ahead => inside front (ahead.trans (List.prefix_append _ _))
    have whole := inside _ (List.prefix_refl _)
    unfold runningTotal at before ⊢
    rw [List.foldl_append, before, List.foldl_cons, List.foldl_nil]
    rw [List.sum_append, List.sum_singleton] at whole ⊢
    exact bmod_of_inside whole

/-- The first amounts add up to no more than all of them, when none is negative. -/
theorem sum_prefix_le (nonneg : ∀ amount ∈ amounts, 0 ≤ amount) {first : List Int}
    (ahead : first <+: amounts) : 0 ≤ first.sum ∧ first.sum ≤ amounts.sum := by
  obtain ⟨rest, rfl⟩ := ahead
  rw [List.sum_append]
  have front : 0 ≤ first.sum :=
    List.sum_nonneg fun amount member => nonneg amount (List.mem_append_left _ member)
  have back : 0 ≤ rest.sum :=
    List.sum_nonneg fun amount member => nonneg amount (List.mem_append_right _ member)
  exact ⟨front, le_add_of_nonneg_right back⟩

/-- Of amounts that are not negative, each is at most the sum. -/
theorem le_sum (nonneg : ∀ amount ∈ amounts, 0 ≤ amount) {amount : Int} (member : amount ∈ amounts) :
    amount ≤ amounts.sum := List.single_le_sum nonneg amount member

/-- Amounts between 0 and a bound that the type has room for so many times stay inside. -/
theorem inside_of_small {bound : Int} (nonneg : ∀ amount ∈ amounts, 0 ≤ amount)
    (small : ∀ amount ∈ amounts, amount ≤ bound) (room : amounts.length * bound < half)
    {first : List Int} (ahead : first <+: amounts) : Inside half first.sum := by
  obtain ⟨low, high⟩ := sum_prefix_le nonneg ahead
  have total : amounts.sum ≤ amounts.length * bound := by
    have bounded := List.sum_le_card_nsmul amounts bound small
    rwa [nsmul_eq_mul] at bounded
  exact ⟨by linarith, by linarith⟩

end RunningTotal
