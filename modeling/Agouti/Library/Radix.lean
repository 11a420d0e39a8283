import Mathlib.Data.Nat.Digits.Lemmas

/-! # Numbers in a buffer of digits

A number is a list of digits in a base, the highest first. A buffer of fixed length is multiplied
and added to in place, from its last digit on, and what does not fit is left as a carry
(`Radix.scale_spec`). A number that is fed to a buffer of another base digit by digit stays without a
carry as long as it is below the range of the buffer (`Radix.feed_spec`). The digits behind the leading
zeros are those of the number (`Radix.significant_eq`), so a conversion to another base and back gives
the digits again.
-/

namespace Agouti

open List

namespace Radix

/-- The number of a list of digits, the highest first. -/
def value (base : Nat) (digits : List Nat) : Nat := Nat.ofDigits base digits.reverse

/-- Multiply by a factor and add a carry, from the last digit on. -/
def scale (base factor : Nat) : List Nat → Nat → List Nat × Nat
  | [], carry => ([], carry)
  | digit :: rest, carry =>
    let low := scale base factor rest carry
    let total := low.2 + factor * digit
    (total % base :: low.1, total / base)

/-- Feed the digits of a number in the base `factor`; nothing if a carry is left. -/
def feed (base factor : Nat) : List Nat → List Nat → Option (List Nat)
  | buffer, [] => some buffer
  | buffer, digit :: rest =>
    let scaled := scale base factor buffer digit
    if scaled.2 ≠ 0 then none else feed base factor scaled.1 rest

/-- The digits behind the leading zeros. -/
def significant (digits : List Nat) : List Nat := digits.dropWhile (· == 0)

variable {base factor : Nat} {digits buffer : List Nat}

theorem value_nil : value base [] = 0 := rfl

theorem value_cons (digit : Nat) (digits : List Nat) :
    value base (digit :: digits) = base ^ digits.length * digit + value base digits := by
  rw [value, reverse_cons, Nat.ofDigits_append, Nat.ofDigits_singleton, length_reverse,
    Nat.add_comm]
  rfl

theorem value_append (high low : List Nat) :
    value base (high ++ low) = value base high * base ^ low.length + value base low := by
  rw [value, reverse_append, Nat.ofDigits_append, length_reverse, Nat.mul_comm,
    Nat.add_comm]
  rfl

theorem value_zeros (count : Nat) : value base (List.replicate count 0) = 0 := by
  rw [value, reverse_replicate, Nat.ofDigits_replicate_zero]

theorem value_lt (large : 1 < base) (small : ∀ digit ∈ digits, digit < base) :
    value base digits < base ^ digits.length := by
  rw [value, ← length_reverse]
  exact Nat.ofDigits_lt_base_pow_length large fun digit member =>
    small digit (mem_reverse.mp member)

theorem scale_spec (positive : 0 < base) (buffer : List Nat) (carry : Nat) :
    (scale base factor buffer carry).1.length = buffer.length ∧
      (∀ digit ∈ (scale base factor buffer carry).1, digit < base) ∧
      base ^ buffer.length * (scale base factor buffer carry).2 +
        value base (scale base factor buffer carry).1 = factor * value base buffer + carry := by
  induction buffer with
  | nil => exact ⟨rfl, forall_mem_nil _, by simp [scale, value_nil]⟩
  | cons digit rest ih =>
    obtain ⟨length, small, sum⟩ := ih
    refine ⟨congrArg (· + 1) length, ?_, ?_⟩
    · exact forall_mem_cons.mpr ⟨Nat.mod_lt _ positive, small⟩
    · simp only [scale, value_cons, length, length_cons, pow_succ]
      have split := Nat.div_add_mod ((scale base factor rest carry).2 + factor * digit) base
      generalize ((scale base factor rest carry).2 + factor * digit) / base = high at split ⊢
      generalize ((scale base factor rest carry).2 + factor * digit) % base = low at split ⊢
      calc
        base ^ rest.length * base * high +
              (base ^ rest.length * low + value base (scale base factor rest carry).1) =
            base ^ rest.length * (base * high + low) +
              value base (scale base factor rest carry).1 := by ring
        _ = base ^ rest.length * (factor * digit) +
              (base ^ rest.length * (scale base factor rest carry).2 +
                value base (scale base factor rest carry).1) := by rw [split]; ring
        _ = factor * (base ^ rest.length * digit + value base rest) + carry := by rw [sum]; ring

theorem scale_fits (positive : 0 < base) {carry : Nat}
    (fits : factor * value base buffer + carry < base ^ buffer.length) :
    (scale base factor buffer carry).2 = 0 ∧
      value base (scale base factor buffer carry).1 = factor * value base buffer + carry := by
  have sum : base ^ buffer.length * (scale base factor buffer carry).2 +
      value base (scale base factor buffer carry).1 = factor * value base buffer + carry :=
    (scale_spec positive buffer carry).2.2
  have none : (scale base factor buffer carry).2 = 0 := by
    by_contra some
    have least := Nat.le_mul_of_pos_right (base ^ buffer.length) (Nat.pos_of_ne_zero some)
    omega
  rw [none] at sum
  exact ⟨none, by omega⟩

theorem scale_step (positive : 0 < base) {digit count : Nat} (small : digit < factor)
    (fits : (value base buffer + 1) * factor ^ (count + 1) ≤ base ^ buffer.length) :
    (scale base factor buffer digit).2 = 0 ∧
      value base (scale base factor buffer digit).1 = value base buffer * factor + digit ∧
      (value base (scale base factor buffer digit).1 + 1) * factor ^ count ≤
        base ^ (scale base factor buffer digit).1.length := by
  have next : factor * value base buffer + digit + 1 ≤ factor * (value base buffer + 1) := by
    rw [Nat.mul_succ]
    omega
  have room : (factor * value base buffer + digit + 1) * factor ^ count ≤ base ^ buffer.length := by
    calc
      (factor * value base buffer + digit + 1) * factor ^ count ≤
          factor * (value base buffer + 1) * factor ^ count := Nat.mul_le_mul_right _ next
      _ = (value base buffer + 1) * factor ^ (count + 1) := by ring
      _ ≤ base ^ buffer.length := fits
  have below : factor * value base buffer + digit < base ^ buffer.length := by
    refine lt_of_lt_of_le (Nat.lt_succ_self _) (le_trans ?_ room)
    exact Nat.le_mul_of_pos_right _ (Nat.pow_pos (by omega))
  obtain ⟨none, sum⟩ := scale_fits positive below
  rw [sum, (scale_spec positive buffer digit).1]
  exact ⟨none, by rw [Nat.mul_comm], room⟩

/-- **A number that the buffer has room for is fed without a carry.** -/
theorem feed_spec (positive : 0 < base) {input : List Nat} (small : ∀ digit ∈ input, digit < factor)
    (held : ∀ digit ∈ buffer, digit < base)
    (fits : (value base buffer + 1) * factor ^ input.length ≤ base ^ buffer.length) :
    ∃ result, feed base factor buffer input = some result ∧ (∀ digit ∈ result, digit < base) ∧
      value base result = value base buffer * factor ^ input.length + value factor input := by
  induction input generalizing buffer with
  | nil => exact ⟨buffer, rfl, held, by simp [value_nil]⟩
  | cons digit rest ih =>
    obtain ⟨here, later⟩ := forall_mem_cons.mp small
    obtain ⟨none, sum, room⟩ := scale_step positive here fits
    have scaled : ∀ other ∈ (scale base factor buffer digit).1, other < base :=
      (scale_spec positive buffer digit).2.1
    obtain ⟨result, fed, heldResult, total⟩ := ih later scaled room
    refine ⟨result, ?_, heldResult, ?_⟩
    · simp only [feed, none, ne_eq, not_true_eq_false, if_false]
      exact fed
    · rw [total, sum, value_cons, length_cons, pow_succ]
      ring

/-! ## Leading zeros -/

theorem leading_append {α : Type} [BEq α] [LawfulBEq α] (x : α) (list : List α) :
    list = List.replicate (list.takeWhile (· == x)).length x ++ list.dropWhile (· == x) := by
  have leading : list.takeWhile (· == x) = List.replicate (list.takeWhile (· == x)).length x := by
    rw [eq_replicate_iff]
    exact ⟨rfl, fun y member => beq_iff_eq.mp (all_eq_true.mp all_takeWhile y member)⟩
  rw [← leading]
  exact (takeWhile_append_dropWhile).symm

theorem leading_replicate {α : Type} [BEq α] [LawfulBEq α] {x : α} {list : List α} (count : Nat)
    (other : ∀ y ∈ list.head?, y ≠ x) :
    ((List.replicate count x ++ list).takeWhile (· == x)).length = count ∧
      (List.replicate count x ++ list).dropWhile (· == x) = list := by
  induction count with
  | zero =>
    cases list with
    | nil => exact ⟨rfl, rfl⟩
    | cons y list =>
      have apart : (y == x) = false := beq_eq_false_iff_ne.mpr (other y rfl)
      simp [apart]
  | succ count ih =>
    simp only [replicate_succ, cons_append, takeWhile_cons, dropWhile_cons,
      beq_self_eq_true, if_true]
    exact ⟨congrArg (· + 1) ih.1, ih.2⟩

theorem head_significant (digits : List Nat) : ∀ digit ∈ (significant digits).head?, digit ≠ 0 := by
  intro digit here
  have head := List.head?_dropWhile_not (· == 0) digits
  rw [← significant, Option.mem_def.mp here] at head
  exact beq_eq_false_iff_ne.mp head

theorem significant_of_head {digits : List Nat} (head : ∀ digit ∈ digits.head?, digit ≠ 0) :
    significant digits = digits :=
  (leading_replicate 0 head).2

theorem value_significant (digits : List Nat) :
    value base (significant digits) = value base digits := by
  conv_rhs => rw [leading_append 0 digits, value_append, value_zeros, zero_mul, zero_add]
  rfl

/-- **The digits behind the leading zeros are those of the number.** -/
theorem significant_eq (large : 1 < base) (small : ∀ digit ∈ digits, digit < base) :
    significant digits = (Nat.digits base (value base digits)).reverse := by
  rw [← value_significant, value, Nat.digits_ofDigits base large, reverse_reverse]
  · intro digit member
    exact small digit ((dropWhile_sublist _).subset (mem_reverse.mp member))
  · intro filled
    rw [getLast_reverse]
    exact beq_eq_false_iff_ne.mp (head_dropWhile_not (· == 0) _)

end Radix

end Agouti
