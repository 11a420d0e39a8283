import Mathlib.Data.List.Basic

/-! # Worklists

A worklist holds keys to visit, the first one next. A visit may pass over its key; otherwise it
changes the state and finds further keys, which go to the end of the list. When the keys that are
found come out of a supply that shrinks with every visit, the worklist is empty after as many
visits as it has keys at the start and in the supply, and what every visit keeps holds of the
state that is left (`Worklist.run_rule`).
-/

namespace Worklist

variable {State Key : Type} (visit : Key → State → Option (State × List Key))

/-- At most `fuel` visits. -/
def run : Nat → List Key → State → State
  | 0, _, state => state
  | _, [], state => state
  | fuel + 1, key :: queue, state =>
    match visit key state with
    | none => run fuel queue state
    | some (next, found) => run fuel (queue ++ found) next

/-- A visit takes the keys it finds out of the supply. -/
def Supplied (supply : State → Nat) : Prop :=
  ∀ key state next found, visit key state = some (next, found) →
    supply next + found.length ≤ supply state

variable {visit} {supply : State → Nat}

theorem run_nil (fuel : Nat) (state : State) : run visit fuel [] state = state := by
  cases fuel <;> rfl

/-- **What every visit keeps holds when the worklist is empty.** -/
theorem run_rule (supplied : Supplied visit supply) (Kept : List Key → State → Prop)
    (pass : ∀ key queue state, Kept (key :: queue) state → visit key state = none →
      Kept queue state)
    (take : ∀ key queue state next found, Kept (key :: queue) state →
      visit key state = some (next, found) → Kept (queue ++ found) next)
    {fuel : Nat} {queue : List Key} {state : State} (enough : queue.length + supply state ≤ fuel)
    (kept : Kept queue state) : Kept [] (run visit fuel queue state) := by
  induction fuel generalizing queue state with
  | zero =>
    have empty : queue = [] := List.length_eq_zero_iff.mp (by omega)
    subst empty
    exact kept
  | succ fuel ih =>
    cases queue with
    | nil => exact kept
    | cons key queue =>
      rw [List.length_cons] at enough
      rw [run]
      cases visited : visit key state with
      | none => exact ih (by omega) (pass key queue state kept visited)
      | some result =>
        obtain ⟨next, found⟩ := result
        have fewer := supplied key state next found visited
        apply ih
        · rw [List.length_append]
          omega
        · exact take key queue state next found kept visited

end Worklist
