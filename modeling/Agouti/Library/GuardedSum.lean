import Agouti.Library.Outcome
import Mathlib.Algebra.BigOperators.Group.List.Basic
import Mathlib.Algebra.Ring.Int.Defs

/-! # Sums with guards

A loop that adds the values of a list in an integer type of the machine (`GuardedSum.total`). Every
element is looked at before its value is added and with the sum that is reached; a guard may refuse
it, and a sum that the type does not have is an overflow. The loop returns the exact sum when all
elements pass (`total_eq_ok`), and it overflows when elements that pass lead to a sum out of range
(`total_eq_overflow`).
-/

namespace Agouti

/-- The guards of a loop that adds values. -/
structure GuardedSum (Failure α : Type) where
  value : α → Int
  /-- the sum is one of the type -/
  representable : Int → Bool
  /-- looked at in front of the addition -/
  admits : α → Except Failure Unit
  /-- looked at with the sum that is reached -/
  accepts : α → Int → Except Failure Unit
  overflow : Failure

namespace GuardedSum

open Outcome

variable {Failure α : Type} (loop : GuardedSum Failure α)

/-- An addition of the type. -/
def add (sum value : Int) : Except Failure Int := do
  refuseIf (loop.representable (sum + value) = false) loop.overflow
  pure (sum + value)

/-- The loop, with the sum so far. -/
def total : List α → Int → Except Failure Int
  | [], sum => pure sum
  | element :: rest, sum => do
      loop.admits element
      let sum ← loop.add sum (loop.value element)
      loop.accepts element sum
      total rest sum

/-- The exact sum of the values. -/
def sum (elements : List α) : Int := (elements.map loop.value).sum

/-- An element passes the guards on top of a sum. -/
structure Passes (before : Int) (element : α) : Prop where
  admitted : loop.admits element = .ok ()
  representable : loop.representable (before + loop.value element) = true
  accepted : loop.accepts element (before + loop.value element) = .ok ()

/-- The elements pass one after the other. -/
def AllPass (start : Int) (elements : List α) : Prop :=
  ∀ before element after, elements = before ++ element :: after →
    loop.Passes (start + loop.sum before) element

/-- Elements that pass lead to one that is admitted and whose value does not fit. -/
def Overflows (start : Int) (elements : List α) : Prop :=
  ∃ before element after, elements = before ++ element :: after ∧ loop.AllPass start before ∧
    loop.admits element = .ok () ∧
    loop.representable (start + loop.sum before + loop.value element) = false

variable {loop} {start : Int} {elements : List α}

theorem sum_nil : loop.sum [] = 0 := rfl

theorem sum_cons (element : α) (rest : List α) :
    loop.sum (element :: rest) = loop.value element + loop.sum rest := by
  rw [sum, List.map_cons, List.sum_cons]
  rfl

theorem sum_append (before after : List α) :
    loop.sum (before ++ after) = loop.sum before + loop.sum after := by
  rw [sum, List.map_append, List.sum_append]
  rfl

theorem add_eq_ok {sum value total : Int} :
    loop.add sum value = .ok total ↔
      loop.representable (sum + value) = true ∧ total = sum + value := by
  rw [add, refuse_bind_eq_ok, Bool.not_eq_false]
  constructor
  · rintro ⟨fits, same⟩
    exact ⟨fits, (Except.ok.inj same).symm⟩
  · rintro ⟨fits, rfl⟩
    exact ⟨fits, rfl⟩

theorem allPass_nil : loop.AllPass start [] := by
  intro before element after split
  simp at split

theorem allPass_cons {element : α} {rest : List α} : loop.AllPass start (element :: rest) ↔
    loop.Passes start element ∧ loop.AllPass (start + loop.value element) rest := by
  constructor
  · intro all
    have first := all [] element rest rfl
    rw [sum_nil, Int.add_zero] at first
    refine ⟨first, fun before later after split => ?_⟩
    have behind := all (element :: before) later after (by rw [split]; rfl)
    rwa [sum_cons, ← Int.add_assoc] at behind
  · rintro ⟨first, others⟩ before later after split
    cases before with
    | nil =>
      obtain ⟨rfl, -⟩ := List.cons.inj split
      rwa [sum_nil, Int.add_zero]
    | cons head before =>
      obtain ⟨rfl, tail⟩ := List.cons.inj split
      rw [sum_cons, ← Int.add_assoc]
      exact others before later after tail

theorem total_eq_ok {result : Int} :
    loop.total elements start = .ok result ↔
      loop.AllPass start elements ∧ result = start + loop.sum elements := by
  induction elements generalizing start with
  | nil =>
    rw [total, sum_nil, Int.add_zero]
    constructor
    · intro returned
      exact ⟨allPass_nil, (Except.ok.inj returned).symm⟩
    · rintro ⟨-, rfl⟩
      rfl
  | cons element rest ih =>
    rw [total, bind_eq_ok, allPass_cons, sum_cons, ← Int.add_assoc]
    constructor
    · rintro ⟨⟨⟩, admitted, further⟩
      obtain ⟨reached, added, further⟩ := bind_eq_ok.mp further
      obtain ⟨fits, rfl⟩ := add_eq_ok.mp added
      obtain ⟨⟨⟩, accepted, further⟩ := bind_eq_ok.mp further
      obtain ⟨others, same⟩ := ih.mp further
      exact ⟨⟨⟨admitted, fits, accepted⟩, others⟩, same⟩
    · rintro ⟨⟨first, others⟩, same⟩
      refine ⟨(), first.admitted, bind_eq_ok.mpr ⟨_, add_eq_ok.mpr ⟨first.representable, rfl⟩, ?_⟩⟩
      exact bind_eq_ok.mpr ⟨(), first.accepted, ih.mpr ⟨others, same⟩⟩

theorem not_overflows_nil : ¬ loop.Overflows start [] := by
  rintro ⟨before, element, after, split, _⟩
  simp at split

theorem overflows_cons {element : α} {rest : List α} :
    loop.Overflows start (element :: rest) ↔ loop.admits element = .ok () ∧
      (loop.representable (start + loop.value element) = false ∨
        (loop.Passes start element ∧ loop.Overflows (start + loop.value element) rest)) := by
  constructor
  · rintro ⟨before, last, after, split, all, admitted, outside⟩
    cases before with
    | nil =>
      obtain ⟨rfl, -⟩ := List.cons.inj split
      rw [sum_nil, Int.add_zero] at outside
      exact ⟨admitted, .inl outside⟩
    | cons head before =>
      obtain ⟨rfl, tail⟩ := List.cons.inj split
      obtain ⟨first, others⟩ := allPass_cons.mp all
      rw [sum_cons, ← Int.add_assoc] at outside
      exact ⟨first.admitted, .inr ⟨first, before, last, after, tail, others, admitted, outside⟩⟩
  · rintro ⟨admitted, outside | ⟨first, before, last, after, rfl, others, later, outside⟩⟩
    · refine ⟨[], element, rest, rfl, allPass_nil, admitted, ?_⟩
      rwa [sum_nil, Int.add_zero]
    · refine ⟨element :: before, last, after, rfl, allPass_cons.mpr ⟨first, others⟩, later, ?_⟩
      rwa [sum_cons, ← Int.add_assoc]

/-- The loop overflows behind elements that pass, at one that is admitted. -/
theorem total_eq_overflow (admits : ∀ element, loop.admits element ≠ .error loop.overflow)
    (accepts : ∀ element sum, loop.accepts element sum ≠ .error loop.overflow) :
    loop.total elements start = .error loop.overflow ↔ loop.Overflows start elements := by
  induction elements generalizing start with
  | nil => exact iff_of_false (fun stopped => nomatch stopped) not_overflows_nil
  | cons element rest ih =>
    rw [total, overflows_cons]
    cases admitted : loop.admits element with
    | error failure =>
      refine iff_of_false (fun stopped => ?_) (fun all => nomatch all.1)
      exact admits element (admitted.trans (congrArg _ (Except.error.inj stopped)))
    | ok _ =>
      cases fits : loop.representable (start + loop.value element) with
      | false =>
        refine iff_of_true ?_ ⟨rfl, .inl rfl⟩
        change (loop.add start (loop.value element) >>= _) = _
        rw [add, refuseIf, if_pos fits]
        rfl
      | true =>
        have added : loop.add start (loop.value element) =
            .ok (start + loop.value element) := add_eq_ok.mpr ⟨fits, rfl⟩
        change (loop.add start (loop.value element) >>= _) = _ ↔ _
        rw [added]
        change (loop.accepts element _ >>= _) = _ ↔ _
        cases accepted : loop.accepts element (start + loop.value element) with
        | error failure =>
          refine iff_of_false (fun stopped => ?_) ?_
          · exact accepts element _ (accepted.trans (congrArg _ (Except.error.inj stopped)))
          · rintro ⟨_, outside | ⟨first, _⟩⟩
            · cases outside
            · rw [first.accepted] at accepted
              cases accepted
        | ok _ =>
          change loop.total rest (start + loop.value element) = _ ↔ _
          rw [ih]
          constructor
          · exact fun later => ⟨rfl, .inr ⟨⟨admitted, fits, accepted⟩, later⟩⟩
          · rintro ⟨_, outside | ⟨_, later⟩⟩
            · cases outside
            · exact later

/-- A loop whose values and sums are bounded where they are added does not overflow. -/
theorem not_overflows (bounded : ∀ before element, loop.AllPass start before →
    loop.admits element = .ok () →
      loop.representable (start + loop.sum before + loop.value element) = true) :
    ¬ loop.Overflows start elements := by
  rintro ⟨before, element, after, _, all, admitted, outside⟩
  rw [bounded before element all admitted] at outside
  cases outside

end GuardedSum

end Agouti
