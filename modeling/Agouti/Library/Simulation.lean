import Mathlib.Tactic.Basic

/-! # Runs and their simulation

A machine is a partial step function on its states; a step without a result is a failed
assertion. A specification is a step relation over the same calls. If every call that fits
the state before it is matched by a step of the specification, then every run whose calls all
fit has a state at its end, and the specification has the same run to a related state
(`simulates_run`).
-/

namespace Simulation

variable {State Spec Call : Type}

/-- The state after a list of calls. -/
def run (step : State → Call → Option State) : State → List Call → Option State
  | state, [] => some state
  | state, call :: rest => (step state call).bind fun next => run step next rest

/-- The specification takes the calls of a list one after the other. -/
inductive SpecRun (spec : Spec → Call → Spec → Prop) : Spec → List Call → Spec → Prop
  | nil (start : Spec) : SpecRun spec start [] start
  | cons {start next last : Spec} {call : Call} {rest : List Call} (first : spec start call next)
      (others : SpecRun spec next rest last) : SpecRun spec start (call :: rest) last

/-- Every call of a run fits the state before it. -/
def AllFit (step : State → Call → Option State) (fits : State → Call → Prop) :
    State → List Call → Prop
  | _, [] => True
  | state, call :: rest =>
    fits state call ∧ ∀ next, step state call = some next → AllFit step fits next rest

variable {step : State → Call → Option State} {spec : Spec → Call → Spec → Prop}
  {fits : State → Call → Prop} {Related : State → Spec → Prop}

/-- Step by step, the run follows one of the specification. -/
theorem simulates_run
    (simulates : ∀ state start call, Related state start → fits state call →
      ∃ next last, step state call = some next ∧ spec start call last ∧ Related next last)
    {state : State} {start : Spec} (related : Related state start) {calls : List Call}
    (fit : AllFit step fits state calls) :
    ∃ next last, run step state calls = some next ∧ SpecRun spec start calls last ∧
      Related next last := by
  induction calls generalizing state start with
  | nil => exact ⟨state, start, rfl, .nil start, related⟩
  | cons call rest ih =>
    obtain ⟨here, later⟩ := fit
    obtain ⟨middle, specMiddle, stepped, first, still⟩ := simulates state start call related here
    obtain ⟨next, last, ran, others, relatedLast⟩ := ih still (later middle stepped)
    refine ⟨next, last, ?_, .cons first others, relatedLast⟩
    rw [run, stepped, Option.bind_some]
    exact ran

end Simulation
