import Mathlib.Algebra.Order.Pi

/-! # Computations that count

A computation that may fail and counts how often it did something (`Tally`); the counts are those
of an additive monoid, so that there can be one for each kind of thing. The count stays when the
computation fails. A tallied computation has the result of the computation without the count
(`result_bind` and its companions), and the count of a composed computation is that of its parts
(`count_bind_le`).
-/

namespace Agouti

/-- An outcome and a count. -/
structure Tally (Count Failure α : Type) where
  result : Except Failure α
  count : Count

namespace Tally

variable {Count Failure α β : Type}

section

variable [Zero Count]

/-- A computation that counts nothing. -/
def lift (computation : Except Failure α) : Tally Count Failure α := ⟨computation, 0⟩

instance : MonadLift (Except Failure) (Tally Count Failure) where
  monadLift := lift

@[simp] theorem result_lift (computation : Except Failure α) :
    (liftM computation : Tally Count Failure α).result = computation := rfl

@[simp] theorem count_lift (computation : Except Failure α) :
    (liftM computation : Tally Count Failure α).count = 0 := rfl

variable [Add Count]

/-- What is behind a computation runs when that returns. -/
def andThen (first : Tally Count Failure α) (next : α → Tally Count Failure β) :
    Tally Count Failure β :=
  match first.result with
  | .ok value => ⟨(next value).result, first.count + (next value).count⟩
  | .error failure => ⟨.error failure, first.count⟩

instance : Monad (Tally Count Failure) where
  pure value := ⟨.ok value, 0⟩
  bind := andThen

@[simp] theorem result_pure (value : α) :
    (pure value : Tally Count Failure α).result = .ok value := rfl

@[simp] theorem result_bind (first : Tally Count Failure α) (next : α → Tally Count Failure β) :
    (first >>= next).result = first.result >>= fun value => (next value).result := by
  change (andThen first next).result = _
  unfold andThen
  cases first.result with
  | ok value => rfl
  | error failure => rfl

end

variable [AddCommMonoid Count] [PartialOrder Count] [CanonicallyOrderedAdd Count]
  [IsOrderedAddMonoid Count]

variable {next : α → Tally Count Failure β}

theorem count_bind_le {first : Tally Count Failure α} {here later : Count}
    (counted : first.count ≤ here)
    (further : ∀ value, first.result = .ok value → (next value).count ≤ later) :
    (first >>= next).count ≤ here + later := by
  change (andThen first next).count ≤ here + later
  unfold andThen
  split
  · rename_i value returned
    exact add_le_add counted (further value returned)
  · exact le_add_of_le_of_nonneg counted zero_le

theorem count_lift_bind_le {first : Except Failure α} {later : Count}
    (further : ∀ value, first = .ok value → (next value).count ≤ later) :
    (liftM first >>= next : Tally Count Failure β).count ≤ later := by
  have bound := count_bind_le (le_refl (liftM first : Tally Count Failure α).count) further
  rwa [count_lift, zero_add] at bound

theorem count_bind_zero {first : Tally Count Failure α} {here : Count}
    (counted : first.count ≤ here)
    (further : ∀ value, first.result = .ok value → (next value).count ≤ 0) :
    (first >>= next).count ≤ here := by
  have bound := count_bind_le counted further
  rwa [add_zero] at bound

end Tally

end Agouti
