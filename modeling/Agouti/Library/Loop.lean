import Mathlib.Order.WellFounded

/-! # Loops

A loop is a step from one state to the next one or to a result. It returns a result when
some number of steps leads there; a loop that comes back to the same state never returns
(`Loop.not_returns_of_stays`).
-/

namespace Loop

variable {State Result : Type} (step : State → State ⊕ Result)

/-- At most `fuel` steps of a loop. -/
def run : Nat → State → Option Result
  | 0, _ => none
  | fuel + 1, state =>
    match step state with
    | .inl next => run fuel next
    | .inr result => some result

/-- The loop returns the result from a state. -/
def Returns (state : State) (result : Result) : Prop := ∃ fuel, run step fuel state = some result

/-- The loop comes to an end from a state. -/
def Terminates (state : State) : Prop := ∃ result, Returns step state result

variable {step} {state next : State} {result : Result}

theorem run_of_done (done : step state = .inr result) (fuel : Nat) :
    run step (fuel + 1) state = some result := by
  simp only [run, done]

theorem run_of_next (goes : step state = .inl next) (fuel : Nat) :
    run step (fuel + 1) state = run step fuel next := by
  simp only [run, goes]

theorem returns_of_done (done : step state = .inr result) : Returns step state result :=
  ⟨1, run_of_done done 0⟩

theorem returns_iff_next (goes : step state = .inl next) :
    Returns step state result ↔ Returns step next result := by
  constructor
  · rintro ⟨fuel, ended⟩
    cases fuel with
    | zero => contradiction
    | succ fuel =>
      exact ⟨fuel, (run_of_next goes fuel).symm.trans ended⟩
  · rintro ⟨fuel, ended⟩
    exact ⟨fuel + 1, (run_of_next goes fuel).trans ended⟩

theorem returns_iff_done (done : step state = .inr result) {other : Result} :
    Returns step state other ↔ result = other := by
  constructor
  · rintro ⟨fuel, ended⟩
    cases fuel with
    | zero => contradiction
    | succ fuel =>
      exact Option.some.inj ((run_of_done done fuel).symm.trans ended)
  · rintro rfl
    exact returns_of_done done

theorem not_returns_of_stays (stays : step state = .inl state) : ¬ Returns step state result := by
  rintro ⟨fuel, ended⟩
  induction fuel with
  | zero => contradiction
  | succ fuel ih =>
    exact ih ((run_of_next stays fuel).symm.trans ended)

end Loop
