import Agouti.Primitives.Serialize
import Mathlib.Tactic.Basic

/-! # Verdicts and the checks of a transaction

`CValidationState` of `main.h` and the verdict of a check: the value it computes,
or the state in which it returned `false`. A check that returns `false` without a
call of `DoS`, `Invalid` or `Error` leaves the state valid. Checks are written as
sequences of `reject`, and `reject_eq_ok` with `bind_eq_ok` reads off what a check
that passed has established.
-/

namespace Agouti

def REJECT_INVALID : Nat := 0x10
def REJECT_DUPLICATE : Nat := 0x12
def REJECT_NONSTANDARD : Nat := 0x40
def REJECT_INSUFFICIENTFEE : Nat := 0x42
def REJECT_CHECKPOINT : Nat := 0x43

/-- `enum mode_state`. -/
inductive ModeState
  | MODE_VALID
  | MODE_INVALID
  | MODE_ERROR
  deriving DecidableEq, Repr

/-- What a check found. -/
structure CValidationState where
  mode : ModeState := .MODE_VALID
  nDoS : Int := 0
  strRejectReason : String := ""
  chRejectCode : Nat := 0
  corruptionPossible : Bool := false
  deriving DecidableEq, Repr

namespace CValidationState

def doS (state : CValidationState) (level : Int) (chRejectCodeIn : Nat)
    (strRejectReasonIn : String) (corruptionIn : Bool) : CValidationState :=
  let state := { state with
    chRejectCode := chRejectCodeIn, strRejectReason := strRejectReasonIn,
    corruptionPossible := corruptionIn }
  if state.mode = .MODE_ERROR then state
  else { state with nDoS := state.nDoS + level, mode := .MODE_INVALID }

def error (state : CValidationState) (strRejectReasonIn : String) : CValidationState :=
  { state with
    strRejectReason :=
      if state.mode = .MODE_VALID then strRejectReasonIn else state.strRejectReason,
    mode := .MODE_ERROR }

def isInvalid (state : CValidationState) : Bool := state.mode == .MODE_INVALID

end CValidationState

abbrev Verdict (α : Type) := Except CValidationState α

namespace Verdict

/-- `return false` in an untouched state. -/
def failure : CValidationState := {}

/-- `return state.DoS(level, error(...), code, reason)`. -/
def doS (level : Int) (code : Nat) (reason : String) : CValidationState :=
  ({} : CValidationState).doS level code reason false

/-- `return state.DoS(level, error(...), code, reason, true)`. -/
def corrupt (level : Int) (code : Nat) (reason : String) : CValidationState :=
  ({} : CValidationState).doS level code reason true

/-- `return state.Invalid(error(...), code, reason)`. -/
def invalid (code : Nat) (reason : String) : CValidationState := doS 0 code reason

/-- `if (fails) return ...`. -/
def reject (fails : Bool) (refusal : CValidationState) : Verdict Unit :=
  if fails then .error refusal else .ok ()

/-- `if (applies) { ... }` around checks. -/
def whenever (applies : Bool) (checks : Verdict Unit) : Verdict Unit :=
  if applies then checks else .ok ()

def demand {α : Type} (found : Option α) (refusal : CValidationState) : Verdict α :=
  match found with
  | some value => .ok value
  | none => .error refusal

@[simp] theorem reject_eq_ok {fails : Bool} {refusal : CValidationState} {result : Unit} :
    reject fails refusal = .ok result ↔ fails = false := by
  cases fails <;> simp [reject]

@[simp] theorem whenever_eq_ok {applies : Bool} {checks : Verdict Unit} {result : Unit} :
    whenever applies checks = .ok result ↔ (applies = true → checks = .ok ()) := by
  cases applies <;> simp [whenever]

@[simp] theorem demand_eq_ok {α : Type} {found : Option α} {refusal : CValidationState}
    {value : α} : demand found refusal = .ok value ↔ found = some value := by
  cases found <;> simp [demand]

@[simp] theorem mapError_eq_ok {α : Type} {check : Verdict α}
    {change : CValidationState → CValidationState} {value : α} :
    check.mapError change = .ok value ↔ check = .ok value := by
  cases check with
  | ok found => exact Iff.rfl
  | error refusal => exact iff_of_false (by rintro ⟨⟩) (by rintro ⟨⟩)

@[simp] theorem toOption_eq_some {α : Type} {check : Verdict α} {value : α} :
    check.toOption = some value ↔ check = .ok value := by
  cases check <;> simp [Except.toOption]

@[simp] theorem bind_eq_ok {α β : Type} {first : Verdict α} {next : α → Verdict β} {value : β} :
    (first >>= next) = .ok value ↔ ∃ middle, first = .ok middle ∧ next middle = .ok value := by
  cases first with
  | error refusal => simp [bind, Except.bind]
  | ok middle => simp [bind, Except.bind]

end Verdict

/-! ## Checks of a transaction without context

`CheckTransaction` and `IsFinalTx` of `main.cpp`.
-/

def MAX_STANDARD_TX_SIZE : Nat := 100000
def LOCKTIME_THRESHOLD : Nat := 500000000

namespace Verdict

/-- The loop of `CheckTransaction` over the outputs, with the sum so far. -/
def checkOutputs [ChainParams] (tx : CTransaction) : List CTxOut → CAmount → Verdict Unit
  | [], _ => .ok ()
  | txout :: rest, nValueOut => do
      reject (txout.isEmpty && !tx.isCoinBase && !tx.isCoinStake) (doS 100 0 "")
      reject (decide (txout.nValue < 0)) (doS 100 REJECT_INVALID "bad-txns-vout-negative")
      reject (decide (nMaxMoneyOut < txout.nValue)) (doS 100 REJECT_INVALID "bad-txns-vout-toolarge")
      let nValueOut := nValueOut + txout.nValue
      reject (!moneyRange nValueOut) (doS 100 REJECT_INVALID "bad-txns-txouttotal-toolarge")
      checkOutputs tx rest nValueOut

def checkTransaction [ChainParams] (tx : CTransaction) : Verdict Unit := do
  reject (tx.vin == []) (doS 10 REJECT_INVALID "bad-txns-vin-empty")
  reject (tx.vout == []) (doS 10 REJECT_INVALID "bad-txns-vout-empty")
  reject (decide (MAX_STANDARD_TX_SIZE < (Serialize.transaction tx).length))
    (doS 100 REJECT_INVALID "bad-txns-oversize")
  checkOutputs tx tx.vout 0
  reject (decide ¬(tx.vin.map CTxIn.prevout).Nodup)
    (doS 100 REJECT_INVALID "bad-txns-inputs-duplicate")
  let size := (tx.vin.head?.map fun txin => txin.scriptSig.length).getD 0
  if tx.isCoinBase then
    reject (decide (size < 2) || decide (150 < size)) (doS 100 REJECT_INVALID "bad-cb-length")
  else if tx.isV5CoinStake then
    reject (decide (100 < size)) (doS 100 REJECT_INVALID "bad-cs-length")
  else
    reject (tx.vin.any fun txin => txin.prevout.isNull)
      (doS 10 REJECT_INVALID "bad-txns-prevout-null")

end Verdict

/-- `IsFinalTx`, with the chain height and the adjusted time it falls back to. -/
def isFinalTx (chainHeight adjustedTime : Int) (tx : CTransaction) (nBlockHeight nBlockTime : Int) :
    Bool :=
  let nBlockHeight := if nBlockHeight = 0 then chainHeight else nBlockHeight
  let nBlockTime := if nBlockTime = 0 then adjustedTime else nBlockTime
  tx.nLockTime == 0 ||
    decide ((tx.nLockTime : Int) <
      if tx.nLockTime < LOCKTIME_THRESHOLD then nBlockHeight else nBlockTime) ||
    tx.vin.all CTxIn.isFinal

end Agouti
