import Mathlib.Algebra.Order.BigOperators.Group.List

/-! # Elements chosen by flags

A subset of a list is given by a list of flags of the same length. Setting one flag adds its
element to the sum of the chosen ones (`Flags.sum_set_true`), and without negative elements the sum
is at most that of the list (`Flags.sum_le`).
-/

namespace Flags

variable {α β : Type}

/-- The elements whose flag is set. -/
def chosen : List α → List Bool → List α
  | [], _ => []
  | _ :: _, [] => []
  | x :: items, flag :: flags => if flag then x :: chosen items flags else chosen items flags

theorem chosen_sublist (items : List α) (flags : List Bool) :
    (chosen items flags).Sublist items := by
  induction items generalizing flags with
  | nil => exact List.Sublist.slnil
  | cons x items ih =>
    cases flags with
    | nil => exact List.nil_sublist _
    | cons flag flags =>
      cases flag with
      | true => exact (ih flags).cons_cons x
      | false => exact (ih flags).cons x

theorem chosen_map (f : α → β) (items : List α) (flags : List Bool) :
    chosen (items.map f) flags = (chosen items flags).map f := by
  induction items generalizing flags with
  | nil => rfl
  | cons x items ih =>
    cases flags with
    | nil => rfl
    | cons flag flags =>
      cases flag with
      | true => exact congrArg (f x :: ·) (ih flags)
      | false => exact ih flags

theorem chosen_all (items : List α) : chosen items (List.replicate items.length true) = items := by
  induction items with
  | nil => rfl
  | cons x items ih => exact congrArg (x :: ·) ih

theorem chosen_none (items : List α) :
    chosen items (List.replicate items.length false) = [] := by
  induction items with
  | nil => rfl
  | cons x items ih => exact ih

theorem set_same {flags : List Bool} {i : Nat} {flag : Bool} (here : flags[i]? = some flag) :
    flags.set i flag = flags := by
  obtain ⟨inside, rfl⟩ := List.getElem?_eq_some_iff.mp here
  exact List.set_getElem_self inside

section

variable [AddCommMonoid α] {items : List α} {flags : List Bool} {i : Nat} {x : α}

theorem sum_set_true (here : items[i]? = some x) (off : flags[i]? = some false) :
    (chosen items (flags.set i true)).sum = (chosen items flags).sum + x := by
  induction items generalizing flags i with
  | nil => cases here
  | cons y items ih =>
    cases flags with
    | nil => cases off
    | cons flag flags =>
      cases i with
      | zero =>
        obtain rfl : y = x := Option.some.inj here
        obtain rfl : flag = false := Option.some.inj off
        exact (List.sum_cons).trans (add_comm _ _)
      | succ i =>
        have later := ih here off
        cases flag with
        | true =>
          rw [List.set_cons_succ, chosen, chosen, if_pos rfl, if_pos rfl, List.sum_cons,
            List.sum_cons, later, add_assoc]
        | false => exact later

end

/-- Without negative elements the chosen ones sum to at most the whole. -/
theorem sum_le [AddCommMonoid α] [Preorder α] [AddLeftMono α] {items : List α}
    (nonneg : ∀ x ∈ items, 0 ≤ x) (flags : List Bool) : (chosen items flags).sum ≤ items.sum :=
  (chosen_sublist items flags).sum_le_sum nonneg

end Flags
