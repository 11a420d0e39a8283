import Agouti.Script.EvalBounds

/-! # Runs of a script

A run of `EvalScript` goes through machines (`EvalRun`), and the stacks that evaluations leave are
where other evaluations begin (`Produced`). In every such run the limits hold between the
instructions, an instruction fails with an error of the script or a number format error only, and no
more than 201 counted operations pass (`evalScript_safe`).
-/

namespace Agouti

open Outcome List

namespace Script

open CScript

section

variable (env : EvalEnv) (start : Machine)

/-- The machines that the loop reaches, with the number of counted operations behind them. -/
inductive EvalRun : Nat → Machine → Prop
  | start : EvalRun 0 start
  | step {counted : Nat} {m next : Machine} (run : EvalRun counted m) (more : m.pc ≠ [])
      (stepped : evalStep env m = .ok next) : EvalRun (counted + (countsOp m).toNat) next

end

/-- The stacks in front of an evaluation: none, one that an evaluation has come to, and one whose
top has been popped. -/
inductive Produced : Stack → Prop
  | empty : Produced []
  | evaluated {stack : Stack} {script : CScript} {env : EvalEnv} {counted : Nat} {m : Machine}
      (before : Produced stack) (run : EvalRun env (enter stack script) counted m) :
      Produced m.stack
  | popped {vch : Valtype} {stack : Stack} (before : Produced (vch :: stack)) : Produced stack

section

variable {env : EvalEnv} {start m : Machine} {counted : Nat}

variable (env) in
theorem evalStep_ends (within : Within m) :
    Ends Harmless (fun next => next.pc.length < m.pc.length ∧ Within next ∧
        m.nOpCount + (countsOp m).toNat ≤ next.nOpCount)
      (evalStep env m) := by
  refine (evalOpcode_ends within).bind fun next performed => ?_
  obtain ⟨shorter, elements, saved, grows, counted⟩ := performed
  refine Ends.refuse trivial fun fits => ?_
  exact Ends.pure ⟨shorter, ⟨elements, saved, by omega, counted⟩, grows⟩

theorem EvalRun.within (run : EvalRun env start counted m) (begins : Within start)
    (fresh : start.nOpCount = 0) : Within m ∧ counted ≤ m.nOpCount := by
  induction run with
  | start => exact ⟨begins, by omega⟩
  | step _ _ stepped ih =>
    have ends := evalStep_ends env ih.1
    rw [stepped] at ends
    obtain ⟨_, after, grows⟩ := ends
    exact ⟨after, by omega⟩

theorem enter_within {stack : Stack} (small : Small stack) (held : stack.length ≤ 1000)
    (script : CScript) : Within (enter stack script) :=
  ⟨small, fun _ member => (nomatch member), held, Nat.zero_le _⟩

theorem Produced.within {stack : Stack} (produced : Produced stack) :
    Small stack ∧ stack.length ≤ 1000 := by
  induction produced with
  | empty => exact ⟨fun _ member => (nomatch member), by decide⟩
  | evaluated before run ih =>
    have after := (run.within (enter_within ih.1 ih.2 _) rfl).1
    exact ⟨after.elements, le_trans (Nat.le_add_right _ _) after.held⟩
  | popped before ih =>
    refine ⟨ih.1.tail, ?_⟩
    have length := ih.2
    rw [length_cons] at length
    omega

/-- The loop ends behind the script or at the step that stops it. -/
theorem evalLoop_run (fuel : Nat) (run : EvalRun env start counted m)
    (begins : Within start) (fresh : start.nOpCount = 0) (enough : m.pc.length ≤ fuel) :
    (∃ total done, evalLoop env fuel m = .ok done ∧ EvalRun env start total done ∧ done.pc = []) ∨
      ∃ total last stop, evalLoop env fuel m = .error stop ∧ EvalRun env start total last ∧
        last.pc ≠ [] ∧ evalStep env last = .error stop := by
  induction fuel generalizing counted m with
  | zero => exact .inl ⟨counted, m, rfl, run, length_eq_zero_iff.mp (by omega)⟩
  | succ fuel ih =>
    by_cases finished : m.pc = []
    · refine .inl ⟨counted, m, ?_, run, finished⟩
      simp only [evalLoop, finished, if_true]
      rfl
    · have ends := evalStep_ends env (run.within begins fresh).1
      cases stepped : evalStep env m with
      | error stop =>
        refine .inr ⟨counted, m, stop, ?_, run, finished, stepped⟩
        simp only [evalLoop, finished, if_false, stepped]
        rfl
      | ok next =>
        have unfolds : evalLoop env (fuel + 1) m = evalLoop env fuel next := by
          simp only [evalLoop, finished, if_false, stepped]
          rfl
        rw [stepped] at ends
        rw [unfolds]
        have shorter := ends.1
        exact ih (run.step finished stepped) (by omega)

theorem evalScript_ends {stack : Stack} (produced : Produced stack) (script : CScript) :
    Ends Harmless Produced (evalScript env stack script) := by
  refine Ends.refuse trivial fun _ => ?_
  have begins := enter_within produced.within.1 produced.within.2 script
  rcases evalLoop_run script.length (.start : EvalRun env _ 0 _) begins rfl le_rfl with
    ⟨total, done, returned, run, _⟩ | ⟨total, last, stop, failed, run, _, refused⟩
  · rw [returned]
    exact Ends.refuse trivial fun _ => Ends.pure (produced.evaluated run)
  · rw [failed]
    have ends := evalStep_ends env (run.within begins rfl).1
    rw [refused] at ends
    exact ends

theorem evalOpcode_overcounted (counts : countsOp m = true) (full : 201 ≤ m.nOpCount) :
    ∃ serror, evalOpcode env m = fail serror := by
  unfold countsOp at counts
  unfold evalOpcode
  rcases read : getOp m.pc with _ | ⟨opcode, pushed, rest⟩
  · exact ⟨.BAD_OPCODE, rfl⟩
  · rw [read] at counts
    have above : OP_16 < opcode := of_decide_eq_true counts
    have tooMany : 201 < m.nOpCount + 1 := by omega
    by_cases long : 520 < pushed.length
    · refine ⟨.PUSH_SIZE, ?_⟩
      simp only [failIf, refuseIf, long, if_true]
      rfl
    · refine ⟨.OP_COUNT, ?_⟩
      simp only [failIf, refuseIf, long, if_false, above, if_true, tooMany, and_self]
      rfl

end

/-- Every run from a stack that evaluations have produced, of any script and with any flags and
signature checker: it ends with such a stack, an error of the script or a number format error; in
every machine that it reaches the limits hold and the counted operations are within 201, one more
is not executed; and what an instruction leaves, before the stacks are measured, has no long
element either. -/
theorem evalScript_safe (env : EvalEnv) {stack : Stack} (produced : Produced stack)
    (script : CScript) :
    Ends Harmless Produced (evalScript env stack script) ∧
      ∀ counted m, EvalRun env (enter stack script) counted m →
        Small m.stack ∧ Small m.altstack ∧ m.stack.length + m.altstack.length ≤ 1000 ∧
          counted ≤ m.nOpCount ∧ m.nOpCount ≤ 201 ∧
          (counted = 201 → countsOp m = true → ∃ serror, evalOpcode env m = fail serror) ∧
          Ends Harmless (fun after => Small after.stack ∧ Small after.altstack)
            (evalOpcode env m) := by
  refine ⟨evalScript_ends produced script, fun counted m run => ?_⟩
  have begins := enter_within produced.within.1 produced.within.2 script
  obtain ⟨within, covered⟩ := run.within begins rfl
  refine ⟨within.elements, within.saved, within.held, covered, within.counted, ?_, ?_⟩
  · intro full counts
    exact evalOpcode_overcounted counts (by omega)
  · exact (evalOpcode_ends within).mono fun after left => ⟨left.2.1, left.2.2.1⟩

/-- No flags, and a checker that accepts nothing. -/
def plainEnv : EvalEnv :=
  { flags := 0
    checkSig := fun _ _ _ => false
    RIPEMD160 := fun _ => 0
    SHA1 := fun _ => 0
    Hash160 := fun _ => 0
    SHA256 := fun _ => 0
    Hash256 := fun _ => 0 }

/-- `OP_1` leaves its number. -/
theorem evalScript_safe_number :
    Ends Harmless Produced (evalScript plainEnv [] [OP_1]) ∧
      evalScript plainEnv [] [OP_1] = .ok [[1]] :=
  ⟨(evalScript_safe plainEnv .empty [OP_1]).1, by rfl⟩

/-! ## The instruction that exceeds the limit -/

/-- A machine in front of a script of `OP_0` with a stack of empty elements. -/
def zeros (script : CScript) (done left : Nat) : Machine :=
  { enter [] script with
    pc := List.replicate left OP_0
    stack := List.replicate done [] }

theorem evalOpcode_zero (script : CScript) (done left : Nat) :
    evalOpcode plainEnv (zeros script done (left + 1)) = .ok (zeros script (done + 1) left) := rfl

theorem evalStep_zero (script : CScript) {done : Nat} (left : Nat) (fits : done < 1000) :
    evalStep plainEnv (zeros script done (left + 1)) = .ok (zeros script (done + 1) left) := by
  have enough : ¬ 1000 < (zeros script (done + 1) left).stack.length +
      (zeros script (done + 1) left).altstack.length := by
    simp only [zeros, enter, length_replicate, length_nil]
    omega
  unfold evalStep
  rw [evalOpcode_zero]
  simp only [failIf, refuseIf, bind, Except.bind, enough, if_false]
  rfl

theorem zeros_run (script : CScript) {done : Nat} (fits : done ≤ 1000) (left : Nat) :
    EvalRun plainEnv (zeros script 0 (left + done)) 0 (zeros script done left) := by
  induction done generalizing left with
  | zero => exact .start
  | succ done ih =>
    have before := ih (by omega) (left + 1)
    rw [show left + 1 + done = left + (done + 1) by omega] at before
    exact before.step (cons_ne_nil _ _) (evalStep_zero script left (by omega))

/-- The limit of the stacks is looked at behind the instruction: 1001 pushes put 1001 elements on
the stack. -/
theorem evalOpcode_overfull : ¬ ∀ (env : EvalEnv) (stack : Stack) (script : CScript)
    (counted : Nat) (m after : Machine), Produced stack →
    EvalRun env (enter stack script) counted m → evalOpcode env m = .ok after →
    after.stack.length + after.altstack.length ≤ 1000 := by
  intro claimed
  have run := zeros_run (List.replicate 1001 OP_0) (le_refl 1000) 1
  have tooMany := claimed plainEnv [] (List.replicate 1001 OP_0) 0 _ _ .empty run
    (evalOpcode_zero _ 1000 0)
  simp only [zeros, enter, length_replicate, length_nil] at tooMany
  omega

end Script

end Agouti
