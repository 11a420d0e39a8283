import Agouti.Script.Interpreter

/-! # Running a script

The loop of `EvalScript`. A machine holds the variables of the loop; an instruction is read, counted
and executed (`evalOpcode`), and behind it the stacks are measured (`evalStep`). The cases of the
switch that only change the stack are a table (`stackCases`).
-/

namespace Agouti

open Outcome

/-- The variables of the loop of `EvalScript`. -/
structure Machine where
  /-- what is behind the iterator -/
  pc : CScript
  pbegincodehash : CScript
  stack : Stack
  altstack : Stack
  /-- the innermost conditional first -/
  vfExec : List Bool
  nOpCount : Nat

def Machine.fExec (m : Machine) : Bool := m.vfExec.all id

namespace Script

open CScript

variable (env : EvalEnv) (opcode : UInt8) (m : Machine)

/-- The cases of the switch that only change the stack: their opcodes and what is done. -/
def stackCases : List (List UInt8 × (Stack → EvalM Stack)) :=
  [([OP_1NEGATE, 0x51, 0x52, 0x53, 0x54, 0x55, 0x56, 0x57, 0x58, 0x59, 0x5a, 0x5b, 0x5c, 0x5d, 0x5e,
      0x5f, 0x60], fun stack => opNumber opcode stack),
    ([OP_NOP], fun stack => pure stack),
    ([OP_NOP1, 0xb1, 0xb2, 0xb3, 0xb4, 0xb5, 0xb6, 0xb7, 0xb8, OP_NOP10], opUpgradable env),
    ([OP_VERIFY], opVerify),
    ([OP_RETURN], fun _ => fail .OP_RETURN),
    ([OP_2DROP], op2Drop),
    ([OP_2DUP], op2Dup),
    ([OP_3DUP], op3Dup),
    ([OP_2OVER], op2Over),
    ([OP_2ROT], op2Rot),
    ([OP_2SWAP], op2Swap),
    ([OP_IFDUP], opIfDup),
    ([OP_DEPTH], opDepth),
    ([OP_DROP], opDrop),
    ([OP_DUP], opDup),
    ([OP_NIP], opNip),
    ([OP_OVER], opOver),
    ([OP_PICK, OP_ROLL], opPick env opcode),
    ([OP_ROT], opRot),
    ([OP_SWAP], opSwap),
    ([OP_TUCK], opTuck),
    ([OP_SIZE], opSize),
    ([OP_EQUAL, OP_EQUALVERIFY], opEqual opcode),
    ([OP_1ADD, OP_1SUB, OP_NEGATE, OP_ABS, OP_NOT, OP_0NOTEQUAL], opUnary env opcode),
    ([OP_ADD, OP_SUB, OP_BOOLAND, OP_BOOLOR, OP_NUMEQUAL, OP_NUMEQUALVERIFY, OP_NUMNOTEQUAL,
      OP_LESSTHAN, OP_GREATERTHAN, OP_LESSTHANOREQUAL, OP_GREATERTHANOREQUAL, OP_MIN, OP_MAX],
      opBinary env opcode),
    ([OP_WITHIN], opWithin env),
    ([OP_RIPEMD160, OP_SHA1, OP_SHA256, OP_HASH160, OP_HASH256], opHash env opcode)]

/-- The case of an opcode among those that only change the stack. -/
def stackCase : Option (Stack → EvalM Stack) :=
  ((stackCases env opcode).find? fun entry => entry.1.contains opcode).map Prod.snd

/-- `OP_IF` and `OP_NOTIF`. -/
def opIf : EvalM Machine :=
  if m.fExec then do
    failIf (m.stack.length < 1) .UNBALANCED_CONDITIONAL
    let vch ← stacktop m.stack 1
    let fValue := if opcode = OP_NOTIF then !castToBool vch else castToBool vch
    let stack ← popstack m.stack
    pure { m with
      stack := stack
      vfExec := fValue :: m.vfExec }
  else pure { m with vfExec := false :: m.vfExec }

def opElse : EvalM Machine :=
  match m.vfExec with
  | [] => fail .UNBALANCED_CONDITIONAL
  | fValue :: vfExec => pure { m with vfExec := (!fValue) :: vfExec }

def opEndIf : EvalM Machine :=
  match m.vfExec with
  | [] => fail .UNBALANCED_CONDITIONAL
  | _ :: vfExec => pure { m with vfExec := vfExec }

def opToAltStack : EvalM Machine := do
  failIf (m.stack.length < 1) .INVALID_STACK_OPERATION
  let vch ← stacktop m.stack 1
  let stack ← popstack m.stack
  pure { m with
    stack := stack
    altstack := vch :: m.altstack }

def opFromAltStack : EvalM Machine := do
  failIf (m.altstack.length < 1) .INVALID_ALTSTACK_OPERATION
  let vch ← stacktop m.altstack 1
  let altstack ← popstack m.altstack
  pure { m with
    stack := vch :: m.stack
    altstack := altstack }

/-- `OP_CHECKSIG` and `OP_CHECKSIGVERIFY`. -/
def opCheckSig : EvalM Machine := do
  failIf (m.stack.length < 2) .INVALID_STACK_OPERATION
  let vchSig ← stacktop m.stack 2
  let vchPubKey ← stacktop m.stack 1
  let scriptCode := m.pbegincodehash.findAndDelete (pushData vchSig)
  checkEncodings env vchSig vchPubKey
  let fSuccess := env.checkSig vchSig vchPubKey scriptCode
  let stack ← popstack m.stack
  let stack ← popstack stack
  let stack ← verified (opcode == OP_CHECKSIGVERIFY) fSuccess .CHECKSIGVERIFY stack
  pure { m with stack := stack }

/-- The signatures of `OP_CHECKMULTISIG` are deleted from the script. -/
def deleteSigs (stack : Stack) : Nat → Nat → CScript → EvalM CScript
  | 0, _, scriptCode => pure scriptCode
  | nSigsCount + 1, isig, scriptCode => do
      let vchSig ← stacktop stack isig
      deleteSigs stack nSigsCount (isig + 1) (scriptCode.findAndDelete (pushData vchSig))

/-- The loop of `OP_CHECKMULTISIG`: `fSuccess` at its end. It is left before there are fewer keys
than signatures, so that the second case is not met. -/
def multisigLoop (stack : Stack) (scriptCode : CScript) : Nat → Nat → Nat → Nat → EvalM Bool
  | _, 0, _, _ => pure true
  | 0, _ + 1, _, _ => throw .outOfRange
  | nKeysCount + 1, nSigsCount + 1, isig, ikey => do
      let vchSig ← stacktop stack isig
      let vchPubKey ← stacktop stack ikey
      checkEncodings env vchSig vchPubKey
      let fOk := env.checkSig vchSig vchPubKey scriptCode
      let isig := if fOk then isig + 1 else isig
      let nSigsCount := if fOk then nSigsCount else nSigsCount + 1
      if nKeysCount < nSigsCount then pure false
      else multisigLoop stack scriptCode nKeysCount nSigsCount isig (ikey + 1)

/-- `popstack` a number of times. -/
def popMany : Nat → Stack → EvalM Stack
  | 0, stack => pure stack
  | count + 1, stack => do
      let stack ← popstack stack
      popMany count stack

def multisigCounts : EvalM (Nat × Nat × Nat) := do
  failIf (m.stack.length < 1) .INVALID_STACK_OPERATION
  let vch ← stacktop m.stack 1
  let value ← scriptNum vch env.fRequireMinimal
  let nKeysCount := getint value
  failIf (nKeysCount < 0 ∨ 20 < nKeysCount) .PUBKEY_COUNT
  let nKeysCount := nKeysCount.toNat
  let nOpCount := m.nOpCount + nKeysCount
  failIf (201 < nOpCount) .OP_COUNT
  failIf (m.stack.length < 2 + nKeysCount) .INVALID_STACK_OPERATION
  let vch ← stacktop m.stack (2 + nKeysCount)
  let value ← scriptNum vch env.fRequireMinimal
  let nSigsCount := getint value
  failIf (nSigsCount < 0 ∨ (nKeysCount : Int) < nSigsCount) .SIG_COUNT
  let nSigsCount := nSigsCount.toNat
  failIf (m.stack.length < 3 + nKeysCount + nSigsCount) .INVALID_STACK_OPERATION
  pure (nKeysCount, nSigsCount, nOpCount)

/-- The element below the arguments, which is asked to be empty by a flag, is dropped. -/
def dropDummy (stack : Stack) : EvalM Stack := do
  failIf (stack.length < 1) .INVALID_STACK_OPERATION
  if env.has SCRIPT_VERIFY_NULLDUMMY then do
    let vch ← stacktop stack 1
    failIf (vch.length ≠ 0) .SIG_NULLDUMMY
    popstack stack
  else popstack stack

/-- `OP_CHECKMULTISIG` and `OP_CHECKMULTISIGVERIFY`. -/
def opCheckMultiSig : EvalM Machine := do
  let (nKeysCount, nSigsCount, nOpCount) ← multisigCounts env m
  let isig := 3 + nKeysCount
  let scriptCode ← deleteSigs m.stack nSigsCount isig m.pbegincodehash
  let fSuccess ← multisigLoop env m.stack scriptCode nKeysCount nSigsCount isig 2
  let stack ← popMany (2 + nKeysCount + nSigsCount) m.stack
  let stack ← dropDummy env stack
  let stack ←
    verified (opcode == OP_CHECKMULTISIGVERIFY) fSuccess .CHECKMULTISIGVERIFY stack
  pure { m with
    stack := stack
    nOpCount := nOpCount }

def execute : EvalM Machine :=
  match stackCase env opcode with
  | some operation => do
      let stack ← operation m.stack
      pure { m with stack := stack }
  | none =>
    if opcode = OP_IF ∨ opcode = OP_NOTIF then opIf opcode m
    else if opcode = OP_ELSE then opElse m
    else if opcode = OP_ENDIF then opEndIf m
    else if opcode = OP_TOALTSTACK then opToAltStack m
    else if opcode = OP_FROMALTSTACK then opFromAltStack m
    else if opcode = OP_CODESEPARATOR then pure { m with pbegincodehash := m.pc }
    else if opcode = OP_CHECKSIG ∨ opcode = OP_CHECKSIGVERIFY then opCheckSig env opcode m
    else if opcode = OP_CHECKMULTISIG ∨ opcode = OP_CHECKMULTISIGVERIFY then
      opCheckMultiSig env opcode m
    else fail .BAD_OPCODE

/-- What is done with an instruction that has been read and counted. -/
def perform (vchPushValue : Valtype) : EvalM Machine :=
  if m.fExec ∧ opcode ≤ OP_PUSHDATA4 then do
    failIf (env.fRequireMinimal ∧ !checkMinimalPush vchPushValue opcode) .MINIMALDATA
    pure { m with stack := vchPushValue :: m.stack }
  else if m.fExec ∨ (OP_IF ≤ opcode ∧ opcode ≤ OP_ENDIF) then execute env opcode m
  else pure m

/-- One instruction, but for the limit of the stacks. -/
def evalOpcode : EvalM Machine :=
  match getOp m.pc with
  | none => fail .BAD_OPCODE
  | some (opcode, vchPushValue, pc) => do
      failIf (520 < vchPushValue.length) .PUSH_SIZE
      let nOpCount := if OP_16 < opcode then m.nOpCount + 1 else m.nOpCount
      failIf (OP_16 < opcode ∧ 201 < nOpCount) .OP_COUNT
      failIf (opcode ∈ disabledOpcodes) .DISABLED_OPCODE
      perform env opcode { m with pc := pc, nOpCount := nOpCount } vchPushValue

def evalStep : EvalM Machine := do
  let m ← evalOpcode env m
  failIf (1000 < m.stack.length + m.altstack.length) .STACK_SIZE
  pure m

/-- The loop. Every instruction has a byte, so that the length of the script is enough fuel. -/
def evalLoop : Nat → Machine → EvalM Machine
  | 0, m => pure m
  | fuel + 1, m =>
    if m.pc = [] then pure m
    else do
      let m ← evalStep env m
      evalLoop fuel m

/-- The variables in front of the loop. -/
def enter (stack : Stack) (script : CScript) : Machine :=
  { pc := script
    pbegincodehash := script
    stack := stack
    altstack := []
    vfExec := []
    nOpCount := 0 }

/-- `EvalScript`: the stack when it returns true. -/
def evalScript (stack : Stack) (script : CScript) : EvalM Stack := do
  failIf (10000 < script.length) .SCRIPT_SIZE
  let m ← evalLoop env script.length (enter stack script)
  failIf (m.vfExec ≠ []) .UNBALANCED_CONDITIONAL
  pure m.stack

end Script

end Agouti
