import Agouti.Library.Tally
import Agouti.Script.EvalScript

/-! # The signature checks of a script

The interpreter with a count of the calls of `CheckSig`. Only the two signature opcodes and their
`VERIFY` forms differ from `EvalScript`; what they check, the order in which they do and what they
leave are the same, so that the count can be dropped (`result_evalScript`).
-/

namespace Agouti

namespace Script

namespace Counted

open CScript

variable (env : EvalEnv) (opcode : UInt8) (m : Machine)

/-- `checker.CheckSig`. -/
def checkSig (vchSig vchPubKey : Valtype) (scriptCode : CScript) : Tally Nat Stop Bool :=
  ⟨.ok (env.checkSig vchSig vchPubKey scriptCode), 1⟩

/-- `OP_CHECKSIG` and `OP_CHECKSIGVERIFY`. -/
def opCheckSig : Tally Nat Stop Machine := do
  failIf (m.stack.length < 2) .INVALID_STACK_OPERATION
  let vchSig ← stacktop m.stack 2
  let vchPubKey ← stacktop m.stack 1
  let scriptCode := m.pbegincodehash.findAndDelete (pushData vchSig)
  checkEncodings env vchSig vchPubKey
  let fSuccess ← checkSig env vchSig vchPubKey scriptCode
  let stack ← popstack m.stack
  let stack ← popstack stack
  let stack ← verified (opcode == OP_CHECKSIGVERIFY) fSuccess .CHECKSIGVERIFY stack
  pure { m with stack := stack }

/-- The loop of `OP_CHECKMULTISIG`. -/
def multisigLoop (stack : Stack) (scriptCode : CScript) :
    Nat → Nat → Nat → Nat → Tally Nat Stop Bool
  | _, 0, _, _ => pure true
  | 0, _ + 1, _, _ => liftM (throw .outOfRange : EvalM Bool)
  | nKeysCount + 1, nSigsCount + 1, isig, ikey => do
      let vchSig ← stacktop stack isig
      let vchPubKey ← stacktop stack ikey
      checkEncodings env vchSig vchPubKey
      let fOk ← checkSig env vchSig vchPubKey scriptCode
      let isig := if fOk then isig + 1 else isig
      let nSigsCount := if fOk then nSigsCount else nSigsCount + 1
      if nKeysCount < nSigsCount then pure false
      else multisigLoop stack scriptCode nKeysCount nSigsCount isig (ikey + 1)

/-- `OP_CHECKMULTISIG` and `OP_CHECKMULTISIGVERIFY`. -/
def opCheckMultiSig : Tally Nat Stop Machine := do
  let (nKeysCount, nSigsCount, nOpCount) ← multisigCounts env m
  let isig := 3 + nKeysCount
  let scriptCode ← deleteSigs m.stack nSigsCount isig m.pbegincodehash
  let fSuccess ← multisigLoop env m.stack scriptCode nKeysCount nSigsCount isig 2
  let stack ← popMany (2 + nKeysCount + nSigsCount) m.stack
  let stack ← dropDummy env stack
  let stack ←
    verified (opcode == OP_CHECKMULTISIGVERIFY) fSuccess .CHECKMULTISIGVERIFY stack
  pure { m with
    stack := stack
    nOpCount := nOpCount }

def execute : Tally Nat Stop Machine :=
  if opcode = OP_CHECKSIG ∨ opcode = OP_CHECKSIGVERIFY then opCheckSig env opcode m
  else if opcode = OP_CHECKMULTISIG ∨ opcode = OP_CHECKMULTISIGVERIFY then
    opCheckMultiSig env opcode m
  else liftM (Script.execute env opcode m)

/-- What is done with an instruction that has been read and counted. -/
def perform (vchPushValue : Valtype) : Tally Nat Stop Machine :=
  if m.fExec ∧ opcode ≤ OP_PUSHDATA4 then liftM (Script.perform env opcode m vchPushValue)
  else if m.fExec ∨ (OP_IF ≤ opcode ∧ opcode ≤ OP_ENDIF) then execute env opcode m
  else pure m

/-- One instruction, but for the limit of the stacks. -/
def evalOpcode : Tally Nat Stop Machine :=
  match getOp m.pc with
  | none => liftM (fail .BAD_OPCODE : EvalM Machine)
  | some (opcode, vchPushValue, pc) => do
      failIf (520 < vchPushValue.length) .PUSH_SIZE
      let nOpCount := if OP_16 < opcode then m.nOpCount + 1 else m.nOpCount
      failIf (OP_16 < opcode ∧ 201 < nOpCount) .OP_COUNT
      failIf (opcode ∈ disabledOpcodes) .DISABLED_OPCODE
      perform env opcode { m with pc := pc, nOpCount := nOpCount } vchPushValue

def evalStep : Tally Nat Stop Machine := do
  let m ← evalOpcode env m
  failIf (1000 < m.stack.length + m.altstack.length) .STACK_SIZE
  pure m

def evalLoop : Nat → Machine → Tally Nat Stop Machine
  | 0, m => pure m
  | fuel + 1, m =>
    if m.pc = [] then pure m
    else do
      let m ← evalStep env m
      evalLoop fuel m

def evalScript (stack : Stack) (script : CScript) : Tally Nat Stop Stack := do
  failIf (10000 < script.length) .SCRIPT_SIZE
  let m ← evalLoop env script.length (enter stack script)
  failIf (m.vfExec ≠ []) .UNBALANCED_CONDITIONAL
  pure m.stack

/-! ## Without the count -/

variable {env} {opcode} {m}

theorem result_opCheckSig : (opCheckSig env opcode m).result = Script.opCheckSig env opcode m := by
  simp only [opCheckSig, Tally.result_bind, Tally.result_lift, Tally.result_pure]
  rfl

theorem result_multisigLoop {stack : Stack} {scriptCode : CScript}
    (nKeysCount nSigsCount isig ikey : Nat) :
    (multisigLoop env stack scriptCode nKeysCount nSigsCount isig ikey).result =
      Script.multisigLoop env stack scriptCode nKeysCount nSigsCount isig ikey := by
  induction nKeysCount generalizing nSigsCount isig ikey with
  | zero =>
    cases nSigsCount with
    | zero => rfl
    | succ nSigsCount => rfl
  | succ nKeysCount ih =>
    cases nSigsCount with
    | zero => rfl
    | succ nSigsCount =>
      simp only [multisigLoop, Script.multisigLoop, Tally.result_bind, Tally.result_lift]
      refine congrArg _ (funext fun vchSig => congrArg _ (funext fun vchPubKey =>
        congrArg _ (funext fun _ => ?_)))
      have branch (left right : Nat) :
          (if nKeysCount < left then pure false
            else multisigLoop env stack scriptCode nKeysCount left right (ikey + 1)).result =
          if nKeysCount < left then pure false
          else Script.multisigLoop env stack scriptCode nKeysCount left right (ikey + 1) := by
        split
        · rfl
        · exact ih left right (ikey + 1)
      exact branch _ _

theorem result_opCheckMultiSig :
    (opCheckMultiSig env opcode m).result = Script.opCheckMultiSig env opcode m := by
  simp only [opCheckMultiSig, Tally.result_bind, Tally.result_lift, Tally.result_pure,
    result_multisigLoop]
  rfl

theorem result_execute : (execute env opcode m).result = Script.execute env opcode m := by
  unfold execute
  split
  · rename_i single
    rw [result_opCheckSig]
    rcases single with rfl | rfl
    · rfl
    · rfl
  · split
    · rename_i multiple
      rw [result_opCheckMultiSig]
      rcases multiple with rfl | rfl
      · rfl
      · rfl
    · rfl

theorem result_perform (vchPushValue : Valtype) :
    (perform env opcode m vchPushValue).result = Script.perform env opcode m vchPushValue := by
  unfold perform
  split
  · rfl
  · rename_i executed
    rw [Script.perform, if_neg executed]
    split
    · exact result_execute
    · rfl

theorem result_evalOpcode : (evalOpcode env m).result = Script.evalOpcode env m := by
  unfold evalOpcode Script.evalOpcode
  rcases getOp m.pc with _ | ⟨opcode, vchPushValue, pc⟩
  · rfl
  · simp only [Tally.result_bind, Tally.result_lift, result_perform]

theorem result_evalStep : (evalStep env m).result = Script.evalStep env m := by
  simp only [evalStep, Tally.result_bind, Tally.result_lift, Tally.result_pure, result_evalOpcode]
  rfl

theorem result_evalLoop (fuel : Nat) : (evalLoop env fuel m).result = Script.evalLoop env fuel m := by
  induction fuel generalizing m with
  | zero => rfl
  | succ fuel ih =>
    unfold evalLoop Script.evalLoop
    split
    · rfl
    · simp only [Tally.result_bind, result_evalStep, ih]

theorem result_evalScript (stack : Stack) (script : CScript) :
    (evalScript env stack script).result = Script.evalScript env stack script := by
  simp only [evalScript, Tally.result_bind, Tally.result_lift, Tally.result_pure, result_evalLoop]
  rfl

/-! ## The checks of an operation -/

theorem multisigLoop_count {scriptCode : CScript} (nKeysCount nSigsCount isig ikey : Nat) :
    (multisigLoop env stack scriptCode nKeysCount nSigsCount isig ikey).count ≤
      nKeysCount := by
  induction nKeysCount generalizing nSigsCount isig ikey with
  | zero =>
    cases nSigsCount with
    | zero => exact Nat.le_refl 0
    | succ nSigsCount => exact Nat.le_refl 0
  | succ nKeysCount ih =>
    cases nSigsCount with
    | zero => exact Nat.zero_le _
    | succ nSigsCount =>
      unfold multisigLoop
      refine Tally.count_lift_bind_le fun vchSig _ => ?_
      refine Tally.count_lift_bind_le fun vchPubKey _ => ?_
      refine Tally.count_lift_bind_le fun _ _ => ?_
      rw [Nat.add_comm nKeysCount 1]
      refine Tally.count_bind_le (Nat.le_refl 1) fun fOk _ => ?_
      have branch (left right : Nat) :
          (if nKeysCount < left then pure false
            else multisigLoop env stack scriptCode nKeysCount left right
              (ikey + 1)).count ≤ nKeysCount := by
        split
        · exact Nat.zero_le nKeysCount
        · exact ih left right (ikey + 1)
      exact branch _ _

theorem opCheckMultiSig_count {opcode : UInt8} {m : Machine} {most : Nat}
    (few : ∀ nKeysCount nSigsCount nOpCount,
      multisigCounts env m = .ok (nKeysCount, nSigsCount, nOpCount) → nKeysCount ≤ most) :
    (opCheckMultiSig env opcode m).count ≤ most := by
  refine Tally.count_lift_bind_le fun counts counted => ?_
  obtain ⟨nKeysCount, nSigsCount, nOpCount⟩ := counts
  refine Tally.count_lift_bind_le fun scriptCode _ => ?_
  refine le_trans (Tally.count_bind_zero (multisigLoop_count _ _ _ _) ?_)
    (few _ _ _ counted)
  intro fSuccess _
  refine Tally.count_lift_bind_le fun _ _ => ?_
  refine Tally.count_lift_bind_le fun _ _ => ?_
  exact Tally.count_lift_bind_le fun _ _ => Nat.le_refl 0

end Counted

end Script

end Agouti
