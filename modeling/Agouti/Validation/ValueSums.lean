import Agouti.Library.GuardedSum
import Agouti.Validation.Connect
import Mathlib.Algebra.BigOperators.Group.Finset.Basic
import Mathlib.Algebra.Order.BigOperators.Group.List

/-! # The value sums of a transaction

`CheckTransaction`, `CheckInputs` and `CTransaction::GetValueOut` with sums of type `int64_t`. The
loop of `CheckTransaction` looks at a value before it adds it; the loop of `CheckInputs` adds first,
and `GetValueOut` looks for a sum that has wrapped.
-/

namespace Agouti

open Outcome List Bool

def INT64_MAX : Int := 2 ^ 63 - 1
def INT64_MIN : Int := -2 ^ 63

/-- The values of `int64_t`. -/
def isInt64 (value : Int) : Bool := decide (INT64_MIN ≤ value) && decide (value ≤ INT64_MAX)

/-- How a check ends that does not pass. -/
inductive SumStop
  /-- it returns `false` in a state -/
  | refused (state : CValidationState)
  /-- a signed overflow -/
  | overflow
  /-- `std::runtime_error` -/
  | runtimeError (what : String)
  /-- a dereference of `mapBlockIndex.end()` -/
  | endIterator
  deriving DecidableEq, Repr

namespace Amounts

/-- The verdict of checks without sums. -/
def judged {α : Type} (verdict : Verdict α) : Except SumStop α := verdict.mapError .refused

open Verdict

theorem judged_eq_ok {α : Type} {verdict : Verdict α} {value : α} :
    judged verdict = .ok value ↔ verdict = .ok value := by
  cases verdict with
  | ok found => exact ⟨fun done => congrArg _ (Except.ok.inj done), fun done =>
    congrArg _ (Except.ok.inj done)⟩
  | error state => exact iff_of_false (fun done => nomatch done) fun done => nomatch done

theorem judged_ne_overflow {α : Type} {verdict : Verdict α} :
    judged verdict ≠ .error .overflow := by
  cases verdict with
  | ok value => exact fun stopped => nomatch stopped
  | error state => exact fun stopped => nomatch Except.error.inj stopped

theorem judged_reject_eq_ok {fails : Bool} {refusal : CValidationState} {result : Unit} :
    judged (reject fails refusal) = .ok result ↔ fails = false :=
  judged_eq_ok.trans reject_eq_ok

theorem judged_bind_eq_overflow {α β : Type} {verdict : Verdict α}
    {next : α → Except SumStop β} : judged verdict >>= next = .error .overflow ↔
      ∃ value, verdict = .ok value ∧ next value = .error .overflow := by
  rw [Outcome.bind_eq_error, or_iff_right judged_ne_overflow]
  exact exists_congr fun value => and_congr_left fun _ => judged_eq_ok

theorem reject_bind_eq_overflow {fails : Bool} {refusal : CValidationState} {β : Type}
    {next : Unit → Except SumStop β} :
    judged (reject fails refusal) >>= next = .error .overflow ↔
      fails = false ∧ next () = .error .overflow := by
  rw [judged_bind_eq_overflow]
  constructor
  · rintro ⟨_, passes, stopped⟩
    exact ⟨reject_eq_ok.mp passes, stopped⟩
  · rintro ⟨passes, stopped⟩
    exact ⟨(), reject_eq_ok.mpr passes, stopped⟩

theorem isInt64_iff {value : Int} :
    isInt64 value = true ↔ INT64_MIN ≤ value ∧ value ≤ INT64_MAX := by
  rw [isInt64, and_eq_true, decide_eq_true_eq, decide_eq_true_eq]

def int64 {ε : Type} (overflow : ε) (value : Int) : Except ε Int :=
  if isInt64 value then .ok value else .error overflow

theorem int64_ok {ε : Type} {overflow : ε} {value : Int} (least : INT64_MIN ≤ value)
    (most : value ≤ INT64_MAX) : int64 overflow value = .ok value :=
  if_pos (isInt64_iff.mpr ⟨least, most⟩)

theorem int64_nonneg {ε : Type} {overflow : ε} {value : Int} (least : 0 ≤ value)
    (most : value ≤ INT64_MAX) : int64 overflow value = .ok value :=
  int64_ok (le_trans (show INT64_MIN ≤ 0 by decide) least) most

variable [ChainParams]

/-- The loop of `CheckTransaction` over the outputs. -/
def outputLoop (tx : CTransaction) : GuardedSum SumStop CTxOut where
  value := CTxOut.nValue
  representable := isInt64
  admits := fun txout => judged do
    reject (txout.isEmpty && !tx.isCoinBase && !tx.isCoinStake) (doS 100 0 "")
    reject (decide (txout.nValue < 0)) (doS 100 REJECT_INVALID "bad-txns-vout-negative")
    reject (decide (nMaxMoneyOut < txout.nValue)) (doS 100 REJECT_INVALID "bad-txns-vout-toolarge")
  accepts := fun _ nValueOut => judged do
    reject (!moneyRange nValueOut) (doS 100 REJECT_INVALID "bad-txns-txouttotal-toolarge")
  overflow := .overflow

def checkTransaction (tx : CTransaction) : Except SumStop Unit := do
  judged (reject (tx.vin == []) (doS 10 REJECT_INVALID "bad-txns-vin-empty"))
  judged (reject (tx.vout == []) (doS 10 REJECT_INVALID "bad-txns-vout-empty"))
  judged (reject (decide (MAX_STANDARD_TX_SIZE < (Serialize.transaction tx).length))
    (doS 100 REJECT_INVALID "bad-txns-oversize"))
  let _ ← (outputLoop tx).total tx.vout 0
  judged (reject (decide ¬(tx.vin.map CTxIn.prevout).Nodup)
    (doS 100 REJECT_INVALID "bad-txns-inputs-duplicate"))
  let size := (tx.vin.head?.map fun txin => txin.scriptSig.length).getD 0
  if tx.isCoinBase then
    judged (reject (decide (size < 2) || decide (150 < size))
      (doS 100 REJECT_INVALID "bad-cb-length"))
  else if tx.isV5CoinStake then
    judged (reject (decide (100 < size)) (doS 100 REJECT_INVALID "bad-cs-length"))
  else
    judged (reject (tx.vin.any fun txin => txin.prevout.isNull)
      (doS 10 REJECT_INVALID "bad-txns-prevout-null"))

/-- The loop of `CTransaction::GetValueOut`. The sum that the second test looks at is the one
the loop goes on with. -/
def valueOutLoop : GuardedSum SumStop CTxOut where
  value := CTxOut.nValue
  representable := isInt64
  admits := fun txout => refuseIf (txout.nValue < 0)
    (.runtimeError "CTransaction::GetValueOut() : value out of range : less than 0")
  accepts := fun txout reached => refuseIf (reached < reached - txout.nValue)
    (.runtimeError "CTransaction::GetValueOut() : value out of range : wraps the int64_t boundary")
  overflow := .overflow

/-- `CTransaction::GetValueOut`. -/
def getValueOut (tx : CTransaction) : Except SumStop CAmount := valueOutLoop.total tx.vout 0

/-- An output that a coinbase or a coinstake made can be spent at a height. -/
def matured (view : CCoinsViewCache) (nSpendHeight : Int) (txin : CTxIn) : Bool :=
  let coins := view.coins txin.prevout.hash
  !((coins.fCoinBase || coins.fCoinStake) && decide (nSpendHeight - coins.nHeight < nMaturity))

def valueOf (view : CCoinsViewCache) (txin : CTxIn) : CAmount := (view.getOutputFor txin).nValue

/-- The loop of `CheckInputs` over the inputs. -/
def inputLoop (view : CCoinsViewCache) (nSpendHeight : Int) : GuardedSum SumStop CTxIn where
  value := valueOf view
  representable := isInt64
  admits := fun txin => judged do
    reject (!matured view nSpendHeight txin)
      (invalid REJECT_INVALID "bad-txns-premature-spend-of-coinbase")
  accepts := fun txin nValueIn => judged do
    reject (!moneyRange (valueOf view txin) || !moneyRange nValueIn)
      (doS 100 REJECT_INVALID "bad-txns-inputvalues-outofrange")
  overflow := .overflow

/-- The part of `CheckInputs` about the fee. `nFees` is zero in front of it. -/
def checkFee (tx : CTransaction) (nValueIn : CAmount) : Except SumStop Unit := do
  let nValueOut ← getValueOut tx
  judged (reject (decide (nValueIn < nValueOut)) (doS 100 REJECT_INVALID "bad-txns-in-belowout"))
  refuseIf (isInt64 (nValueIn - nValueOut) = false) .overflow
  let nTxFee := nValueIn - nValueOut
  judged (reject (decide (nTxFee < 0)) (doS 100 REJECT_INVALID "bad-txns-fee-negative"))
  judged (reject (!moneyRange nTxFee) (doS 100 REJECT_INVALID "bad-txns-fee-outofrange"))

/-- `CheckInputs`, with the verdict of the script checks. -/
def checkInputs (mapBlockIndex : BlockMap) (scripts : Verdict Unit) (view : CCoinsViewCache)
    (tx : CTransaction) : Except SumStop Unit :=
  if tx.hasInputs then do
    judged (reject (!view.haveInputs tx) (invalid 0 ""))
    let pindexPrev ← (mapBlockIndex view.hashBlock).elim (.error .endIterator) .ok
    let nValueIn ← (inputLoop view (pindexPrev.nHeight + 1)).total tx.vin 0
    (if tx.isCoinStake then .ok () else checkFee tx nValueIn)
    judged scripts
  else .ok ()

/-! ## The money range -/

theorem moneyRange_iff {nValue : CAmount} :
    moneyRange nValue = true ↔ 0 ≤ nValue ∧ nValue ≤ nMaxMoneyOut := by
  rw [moneyRange, and_eq_true, decide_eq_true_eq, decide_eq_true_eq]

theorem isInt64_of_le (supply : nMaxMoneyOut ≤ 43199500 * COIN) {first second : CAmount}
    (first_nonneg : 0 ≤ first) (second_nonneg : 0 ≤ second) (first_le : first ≤ nMaxMoneyOut)
    (second_le : second ≤ nMaxMoneyOut) : isInt64 (first + second) = true := by
  have large : (43199500 * COIN : Int) + 43199500 * COIN ≤ INT64_MAX := by decide
  have low : INT64_MIN ≤ 0 := by decide
  exact isInt64_iff.mpr ⟨low.trans (Int.add_nonneg first_nonneg second_nonneg),
    (Int.add_le_add (first_le.trans supply) (second_le.trans supply)).trans large⟩

theorem isInt64_of_moneyRange (supply : nMaxMoneyOut ≤ 43199500 * COIN) {nValue : CAmount}
    (ranged : moneyRange nValue = true) : isInt64 nValue = true := by
  obtain ⟨nonneg, le⟩ := moneyRange_iff.mp ranged
  have large : (43199500 * COIN : Int) ≤ INT64_MAX := by decide
  have low : INT64_MIN ≤ 0 := by decide
  exact isInt64_iff.mpr ⟨low.trans nonneg, (le.trans supply).trans large⟩

/-! ## The outputs -/

theorem outputLoop_admits {tx : CTransaction} {txout : CTxOut}
    (admitted : (outputLoop tx).admits txout = .ok ()) :
    0 ≤ txout.nValue ∧ txout.nValue ≤ nMaxMoneyOut := by
  obtain ⟨_, _, checks⟩ := Verdict.bind_eq_ok.mp (judged_eq_ok.mp admitted)
  obtain ⟨_, signed, sized⟩ := Verdict.bind_eq_ok.mp checks
  exact ⟨Int.not_lt.mp (of_decide_eq_false (reject_eq_ok.mp signed)),
    Int.not_lt.mp (of_decide_eq_false (reject_eq_ok.mp sized))⟩

theorem outputLoop_sum_range (capped : 0 ≤ nMaxMoneyOut) {tx : CTransaction}
    {outputs : List CTxOut} (all : (outputLoop tx).AllPass 0 outputs) :
    moneyRange ((outputLoop tx).sum outputs) = true := by
  rcases outputs.eq_nil_or_concat' with rfl | ⟨before, txout, rfl⟩
  · exact moneyRange_iff.mpr ⟨le_rfl, capped⟩
  · have last := judged_reject_eq_ok.mp (all before txout [] rfl).accepted
    rwa [Int.zero_add, not_eq_false', ← Int.add_zero ((outputLoop tx).value txout),
      ← GuardedSum.sum_nil, ← GuardedSum.sum_cons, ← GuardedSum.sum_append] at last

theorem outputLoop_not_overflows (capped : 0 ≤ nMaxMoneyOut)
    (supply : nMaxMoneyOut ≤ 43199500 * COIN) (tx : CTransaction) :
    ¬ (outputLoop tx).Overflows 0 tx.vout := by
  refine GuardedSum.not_overflows fun before txout all admitted => ?_
  obtain ⟨sum_nonneg, sum_le⟩ := moneyRange_iff.mp (outputLoop_sum_range capped all)
  obtain ⟨nonneg, le⟩ := outputLoop_admits admitted
  rw [Int.zero_add]
  exact isInt64_of_le supply sum_nonneg nonneg sum_le le

theorem checkTransaction_ne_overflow (capped : 0 ≤ nMaxMoneyOut)
    (supply : nMaxMoneyOut ≤ 43199500 * COIN) (tx : CTransaction) :
    checkTransaction tx ≠ .error .overflow := by
  intro stopped
  obtain ⟨_, stopped⟩ := reject_bind_eq_overflow.mp stopped
  obtain ⟨_, stopped⟩ := reject_bind_eq_overflow.mp stopped
  obtain ⟨_, stopped⟩ := reject_bind_eq_overflow.mp stopped
  rcases Outcome.bind_eq_error.mp stopped with stopped | ⟨_, _, stopped⟩
  · refine outputLoop_not_overflows capped supply tx ((GuardedSum.total_eq_overflow ?_ ?_).mp stopped)
    · exact fun _ => judged_ne_overflow
    · exact fun _ _ => judged_ne_overflow
  · obtain ⟨_, stopped⟩ := reject_bind_eq_overflow.mp stopped
    dsimp only at stopped
    split at stopped
    · exact judged_ne_overflow stopped
    · split at stopped
      · exact judged_ne_overflow stopped
      · exact judged_ne_overflow stopped

theorem checkTransaction_ok {tx : CTransaction} (accepted : checkTransaction tx = .ok ()) :
    (tx.vin.map CTxIn.prevout).Nodup ∧ (outputLoop tx).AllPass 0 tx.vout := by
  obtain ⟨_, _, checks⟩ := Outcome.bind_eq_ok.mp accepted
  obtain ⟨_, _, checks⟩ := Outcome.bind_eq_ok.mp checks
  obtain ⟨_, _, checks⟩ := Outcome.bind_eq_ok.mp checks
  obtain ⟨_, summed, checks⟩ := Outcome.bind_eq_ok.mp checks
  obtain ⟨_, distinct, _⟩ := Outcome.bind_eq_ok.mp checks
  exact ⟨not_not.mp (of_decide_eq_false (judged_reject_eq_ok.mp distinct)),
    (GuardedSum.total_eq_ok.mp summed).1⟩

/-! ## `GetValueOut` -/

/-- The sum of the outputs in front of the first negative one. -/
def leadingValue (outputs : List CTxOut) : Int :=
  ((outputs.takeWhile fun txout => decide (0 ≤ txout.nValue)).map CTxOut.nValue).sum

omit [ChainParams] in
theorem leadingValue_nonneg (outputs : List CTxOut) : 0 ≤ leadingValue outputs := by
  refine sum_nonneg fun value member => ?_
  obtain ⟨txout, leading, rfl⟩ := mem_map.mp member
  exact of_decide_eq_true
    (mem_takeWhile_imp (p := fun txout : CTxOut => decide (0 ≤ txout.nValue)) leading)

omit [ChainParams] in
theorem leadingValue_cons {txout : CTxOut} (nonneg : 0 ≤ txout.nValue) (rest : List CTxOut) :
    leadingValue (txout :: rest) = txout.nValue + leadingValue rest := by
  have leads : decide (0 ≤ txout.nValue) = true := decide_eq_true nonneg
  rw [leadingValue, takeWhile_cons, if_pos leads, map_cons, List.sum_cons]
  rfl

variable {start nSpendHeight : Int}

omit [ChainParams] in
theorem valueOutLoop_passes {txout : CTxOut} :
    valueOutLoop.Passes start txout ↔
      0 ≤ txout.nValue ∧ isInt64 (start + txout.nValue) = true := by
  constructor
  · rintro ⟨admitted, fits, -⟩
    exact ⟨Int.not_lt.mp (refuseIf_eq_ok.mp admitted), fits⟩
  · rintro ⟨nonneg, fits⟩
    refine ⟨refuseIf_eq_ok.mpr (Int.not_lt.mpr nonneg), fits, refuseIf_eq_ok.mpr ?_⟩
    exact Int.not_lt.mpr (Int.sub_le_self _ nonneg)

omit [ChainParams] in
theorem valueOutLoop_overflows {outputs : List CTxOut} (start_nonneg : 0 ≤ start)
    (start_le : start ≤ INT64_MAX) :
    valueOutLoop.Overflows start outputs ↔ INT64_MAX < start + leadingValue outputs := by
  induction outputs generalizing start with
  | nil =>
    refine iff_of_false GuardedSum.not_overflows_nil (Int.not_lt.mpr ?_)
    rwa [leadingValue, takeWhile_nil, map_nil, List.sum_nil, Int.add_zero]
  | cons txout rest ih =>
    rw [GuardedSum.overflows_cons]
    by_cases nonneg : 0 ≤ txout.nValue
    · have reached_nonneg : 0 ≤ start + txout.nValue := Int.add_nonneg start_nonneg nonneg
      have low : INT64_MIN ≤ 0 := by decide
      have admitted : valueOutLoop.admits txout = .ok () :=
        refuseIf_eq_ok.mpr (Int.not_lt.mpr nonneg)
      rw [leadingValue_cons nonneg, ← Int.add_assoc]
      by_cases fits : start + txout.nValue ≤ INT64_MAX
      · have representable := isInt64_iff.mpr ⟨low.trans reached_nonneg, fits⟩
        rw [← ih reached_nonneg fits]
        constructor
        · rintro ⟨-, outside | ⟨-, later⟩⟩
          · exact nomatch representable.symm.trans outside
          · exact later
        · exact fun later =>
            ⟨admitted, .inr ⟨valueOutLoop_passes.mpr ⟨nonneg, representable⟩, later⟩⟩
      · refine iff_of_true ⟨admitted, .inl (eq_false_iff.mpr fun inside => ?_)⟩ ?_
        · exact fits (isInt64_iff.mp inside).2
        · exact (Int.not_le.mp fits).trans_le (Int.le_add_of_nonneg_right (leadingValue_nonneg _))
    · refine iff_of_false (fun overflows => ?_) (Int.not_lt.mpr ?_)
      · exact nonneg (Int.not_lt.mp (refuseIf_eq_ok.mp overflows.1))
      · have stops : ¬ decide (0 ≤ txout.nValue) = true := fun leads =>
          nonneg (of_decide_eq_true leads)
        rwa [leadingValue, takeWhile_cons, if_neg stops, map_nil, List.sum_nil,
          Int.add_zero]

omit [ChainParams] in
theorem getValueOut_ok {tx : CTransaction} {nValueOut : CAmount}
    (returned : getValueOut tx = .ok nValueOut) :
    nValueOut = tx.getValueOut ∧ 0 ≤ nValueOut ∧ nValueOut ≤ INT64_MAX := by
  obtain ⟨all, same⟩ := GuardedSum.total_eq_ok.mp returned
  rw [Int.zero_add] at same
  have exact_sum : valueOutLoop.sum tx.vout = tx.getValueOut := rfl
  refine ⟨same.trans exact_sum, ?_⟩
  rw [same]
  rcases tx.vout.eq_nil_or_concat' with empty | ⟨before, txout, outputs⟩
  · rw [empty]
    exact ⟨le_rfl, by decide⟩
  · constructor
    · refine sum_nonneg fun value member => ?_
      obtain ⟨earlier, within, rfl⟩ := mem_map.mp member
      obtain ⟨front, back, split⟩ := append_of_mem within
      exact (valueOutLoop_passes.mp (all front earlier back split)).1
    · have fits := (isInt64_iff.mp (valueOutLoop_passes.mp (all before txout [] outputs)).2).2
      rw [Int.zero_add] at fits
      rw [outputs, GuardedSum.sum_append, GuardedSum.sum_cons, GuardedSum.sum_nil, Int.add_zero]
      exact fits

/-! ## The inputs -/

/-- An input spends a mature output of an allowed value. -/
def Spendable (view : CCoinsViewCache) (nSpendHeight : Int) (txin : CTxIn) : Prop :=
  matured view nSpendHeight txin = true ∧ moneyRange (valueOf view txin) = true

def valueOfAll (view : CCoinsViewCache) (inputs : List CTxIn) : CAmount :=
  (inputs.map (valueOf view)).sum

theorem inputLoop_admits {view : CCoinsViewCache} {txin : CTxIn} :
    (inputLoop view nSpendHeight).admits txin = .ok () ↔ matured view nSpendHeight txin = true := by
  change judged (reject _ _) = _ ↔ _
  rw [judged_reject_eq_ok, not_eq_false']

theorem inputLoop_passes (supply : nMaxMoneyOut ≤ 43199500 * COIN) {view : CCoinsViewCache}
    {txin : CTxIn} :
    (inputLoop view nSpendHeight).Passes start txin ↔
      Spendable view nSpendHeight txin ∧ moneyRange (start + valueOf view txin) = true := by
  have accepts (reached : Int) : (inputLoop view nSpendHeight).accepts txin reached = .ok () ↔
      moneyRange (valueOf view txin) = true ∧ moneyRange reached = true := by
    change judged (reject _ _) = _ ↔ _
    rw [judged_reject_eq_ok, or_eq_false_iff, not_eq_false', not_eq_false']
  constructor
  · rintro ⟨admitted, -, accepted⟩
    obtain ⟨ranged, reached⟩ := (accepts _).mp accepted
    exact ⟨⟨inputLoop_admits.mp admitted, ranged⟩, reached⟩
  · rintro ⟨⟨mature, ranged⟩, reached⟩
    exact ⟨inputLoop_admits.mpr mature, isInt64_of_moneyRange supply reached,
      (accepts _).mpr ⟨ranged, reached⟩⟩

theorem inputLoop_allPass (supply : nMaxMoneyOut ≤ 43199500 * COIN) {view : CCoinsViewCache}
    {inputs : List CTxIn} (started : moneyRange start = true) :
    (inputLoop view nSpendHeight).AllPass start inputs ↔
      (∀ txin ∈ inputs, Spendable view nSpendHeight txin) ∧
        moneyRange (start + valueOfAll view inputs) = true := by
  induction inputs generalizing start with
  | nil =>
    have nothing : valueOfAll view [] = 0 := rfl
    rw [nothing, Int.add_zero]
    exact iff_of_true GuardedSum.allPass_nil ⟨fun _ member => (nomatch member), started⟩
  | cons txin rest ih =>
    have value_cons : start + valueOfAll view (txin :: rest) =
        start + valueOf view txin + valueOfAll view rest := by
      rw [valueOfAll, map_cons, List.sum_cons, Int.add_assoc]
      rfl
    rw [GuardedSum.allPass_cons, inputLoop_passes supply, forall_mem_cons, value_cons]
    constructor
    · rintro ⟨⟨first, reached⟩, others⟩
      obtain ⟨spendable, ranged⟩ := (ih reached).mp others
      exact ⟨⟨first, spendable⟩, ranged⟩
    · rintro ⟨⟨first, spendable⟩, ranged⟩
      have rest_nonneg : 0 ≤ valueOfAll view rest := by
        refine sum_nonneg fun value member => ?_
        obtain ⟨later, within, rfl⟩ := mem_map.mp member
        exact (moneyRange_iff.mp (spendable later within).2).1
      have reached : moneyRange (start + valueOf view txin) = true := moneyRange_iff.mpr
        ⟨Int.add_nonneg (moneyRange_iff.mp started).1 (moneyRange_iff.mp first.2).1,
          (Int.le_add_of_nonneg_right rest_nonneg).trans (moneyRange_iff.mp ranged).2⟩
      exact ⟨⟨first, reached⟩, (ih reached).mpr ⟨spendable, ranged⟩⟩

/-! ## `CheckInputs` -/

/-- The values are looked at: the transaction spends outputs, they are there, and the parent of the
block is known. -/
structure Reached (mapBlockIndex : BlockMap) (view : CCoinsViewCache) (tx : CTransaction)
    (pindexPrev : CBlockIndex) : Prop where
  spends : tx.hasInputs = true
  available : view.haveInputs tx = true
  parent : mapBlockIndex view.hashBlock = some pindexPrev

/-- No sum of values overflows. -/
structure SumsFit (mapBlockIndex : BlockMap) (view : CCoinsViewCache) (tx : CTransaction) :
    Prop where
  /-- the value of a mature output fits behind inputs of allowed values -/
  inputs : ∀ pindexPrev, Reached mapBlockIndex view tx pindexPrev →
    ∀ before txin after, tx.vin = before ++ txin :: after →
      (∀ earlier ∈ before, Spendable view (pindexPrev.nHeight + 1) earlier) →
      moneyRange (valueOfAll view before) = true →
      matured view (pindexPrev.nHeight + 1) txin = true →
        isInt64 (valueOfAll view before + valueOf view txin) = true
  /-- the outputs fit where `GetValueOut` adds them -/
  outputs : ∀ pindexPrev, Reached mapBlockIndex view tx pindexPrev →
    (∀ txin ∈ tx.vin, Spendable view (pindexPrev.nHeight + 1) txin) →
    moneyRange (valueOfAll view tx.vin) = true → tx.isCoinStake = false →
      leadingValue tx.vout ≤ INT64_MAX

variable {mapBlockIndex : BlockMap} {scripts : Verdict Unit} {view : CCoinsViewCache}
  {tx : CTransaction}

theorem checkFee_eq_overflow (supply : nMaxMoneyOut ≤ 43199500 * COIN) {nValueIn : CAmount}
    (ranged : moneyRange nValueIn = true) :
    checkFee tx nValueIn = .error .overflow ↔ INT64_MAX < leadingValue tx.vout := by
  have outputs : getValueOut tx = .error .overflow ↔ INT64_MAX < leadingValue tx.vout := by
    have added : valueOutLoop.Overflows 0 tx.vout ↔ INT64_MAX < 0 + leadingValue tx.vout :=
      valueOutLoop_overflows le_rfl (by decide)
    rw [Int.zero_add] at added
    rw [← added]
    refine GuardedSum.total_eq_overflow (fun txout stopped => ?_) fun txout reached stopped => ?_
    · exact nomatch (refuseIf_eq_error.mp stopped).2
    · exact nomatch (refuseIf_eq_error.mp stopped).2
  rw [← outputs, checkFee, Outcome.bind_eq_error]
  refine or_iff_left ?_
  rintro ⟨nValueOut, returned, stopped⟩
  obtain ⟨_, nonneg, le⟩ := getValueOut_ok returned
  obtain ⟨enough, stopped⟩ := reject_bind_eq_overflow.mp stopped
  have above : nValueOut ≤ nValueIn := Int.not_lt.mp (of_decide_eq_false enough)
  obtain ⟨in_nonneg, in_le⟩ := isInt64_iff.mp (isInt64_of_moneyRange supply ranged)
  rcases Outcome.bind_eq_error.mp stopped with outside | ⟨_, _, stopped⟩
  · refine nomatch (refuseIf_eq_error.mp outside).1.symm.trans (isInt64_iff.mpr ⟨?_, ?_⟩)
    · have low : INT64_MIN ≤ 0 := by decide
      exact low.trans (Int.sub_nonneg_of_le above)
    · exact (Int.sub_le_self _ nonneg).trans in_le
  · obtain ⟨_, stopped⟩ := reject_bind_eq_overflow.mp stopped
    exact judged_ne_overflow stopped

theorem checkInputs_of_reached {pindexPrev : CBlockIndex}
    (reached : Reached mapBlockIndex view tx pindexPrev) :
    checkInputs mapBlockIndex scripts view tx = (do
      let nValueIn ← (inputLoop view (pindexPrev.nHeight + 1)).total tx.vin 0
      (if tx.isCoinStake then .ok () else checkFee tx nValueIn)
      judged scripts) := by
  unfold checkInputs
  rw [if_pos reached.spends, reached.available, reached.parent]
  rfl

theorem reached_of_overflow (stopped : checkInputs mapBlockIndex scripts view tx =
    .error .overflow) : ∃ pindexPrev, Reached mapBlockIndex view tx pindexPrev := by
  unfold checkInputs at stopped
  split at stopped
  · rename_i spends
    obtain ⟨available, stopped⟩ := reject_bind_eq_overflow.mp stopped
    rw [not_eq_false'] at available
    cases parent : mapBlockIndex view.hashBlock with
    | none =>
      rw [parent] at stopped
      exact nomatch Except.error.inj stopped
    | some pindexPrev => exact ⟨pindexPrev, spends, available, parent⟩
  · exact nomatch stopped

theorem checkInputs_eq_overflow (capped : 0 ≤ nMaxMoneyOut)
    (supply : nMaxMoneyOut ≤ 43199500 * COIN) {pindexPrev : CBlockIndex}
    (reached : Reached mapBlockIndex view tx pindexPrev) :
    checkInputs mapBlockIndex scripts view tx = .error .overflow ↔
      (inputLoop view (pindexPrev.nHeight + 1)).Overflows 0 tx.vin ∨
        (inputLoop view (pindexPrev.nHeight + 1)).AllPass 0 tx.vin ∧ tx.isCoinStake = false ∧
          INT64_MAX < leadingValue tx.vout := by
  have loop : (inputLoop view (pindexPrev.nHeight + 1)).total tx.vin 0 = .error .overflow ↔
      (inputLoop view (pindexPrev.nHeight + 1)).Overflows 0 tx.vin :=
    GuardedSum.total_eq_overflow (fun _ => judged_ne_overflow) fun _ _ => judged_ne_overflow
  have nothing : moneyRange 0 = true := moneyRange_iff.mpr ⟨le_rfl, capped⟩
  rw [checkInputs_of_reached reached, Outcome.bind_eq_error, loop]
  refine or_congr_right ?_
  constructor
  · rintro ⟨nValueIn, returned, stopped⟩
    obtain ⟨all, same⟩ := GuardedSum.total_eq_ok.mp returned
    have ranged : moneyRange nValueIn = true := by
      rw [same]
      exact ((inputLoop_allPass supply nothing).mp all).2
    rcases Outcome.bind_eq_error.mp stopped with stopped | ⟨_, _, stopped⟩
    · split at stopped
      · exact nomatch stopped
      · rename_i spent
        exact ⟨all, not_eq_true _ ▸ spent, (checkFee_eq_overflow supply ranged).mp stopped⟩
    · exact absurd stopped judged_ne_overflow
  · rintro ⟨all, spent, outside⟩
    have ranged := ((inputLoop_allPass supply nothing).mp all).2
    refine ⟨_, GuardedSum.total_eq_ok.mpr ⟨all, rfl⟩, Outcome.bind_eq_error.mpr (.inl ?_)⟩
    rw [spent]
    exact (checkFee_eq_overflow supply ranged).mpr outside

theorem checkInputs_ne_overflow (capped : 0 ≤ nMaxMoneyOut)
    (supply : nMaxMoneyOut ≤ 43199500 * COIN) :
    checkInputs mapBlockIndex scripts view tx ≠ .error .overflow ↔
      SumsFit mapBlockIndex view tx := by
  have nothing : moneyRange 0 = true := moneyRange_iff.mpr ⟨le_rfl, capped⟩
  have together (pindexPrev : CBlockIndex) (inputs : List CTxIn) :
      (inputLoop view (pindexPrev.nHeight + 1)).AllPass 0 inputs ↔
        (∀ txin ∈ inputs, Spendable view (pindexPrev.nHeight + 1) txin) ∧
          moneyRange (valueOfAll view inputs) = true := by
    rw [inputLoop_allPass supply nothing, Int.zero_add]
  constructor
  · intro flows
    refine ⟨fun pindexPrev reached before txin after split earlier ranged mature => ?_,
      fun pindexPrev reached spendable ranged spent => ?_⟩
    · refine not_eq_false _ ▸ fun outside => flows ?_
      refine (checkInputs_eq_overflow capped supply reached).mpr (.inl ?_)
      refine ⟨before, txin, after, split, (together pindexPrev before).mpr ⟨earlier, ranged⟩,
        inputLoop_admits.mpr mature, ?_⟩
      rw [Int.zero_add]
      exact outside
    · refine Int.not_lt.mp fun outside => flows ?_
      exact (checkInputs_eq_overflow capped supply reached).mpr
        (.inr ⟨(together pindexPrev tx.vin).mpr ⟨spendable, ranged⟩, spent, outside⟩)
  · intro fits stopped
    obtain ⟨pindexPrev, reached⟩ := reached_of_overflow stopped
    rcases (checkInputs_eq_overflow capped supply reached).mp stopped with
      ⟨before, txin, after, split, all, admitted, outside⟩ | ⟨all, spent, outside⟩
    · obtain ⟨earlier, ranged⟩ := (together pindexPrev before).mp all
      rw [Int.zero_add] at outside
      exact nomatch outside.symm.trans (fits.inputs pindexPrev reached before txin after split
        earlier ranged (inputLoop_admits.mp admitted))
    · obtain ⟨spendable, ranged⟩ := (together pindexPrev tx.vin).mp all
      exact absurd outside (Int.not_lt.mpr (fits.outputs pindexPrev reached spendable ranged spent))

end Amounts

/-! ## What a transaction spends and pays

A transaction that both `CheckTransaction` and `CheckInputs` accept spends different outpoints, and
one that is neither a coinbase nor a coinstake is worth at least its outputs. The sums are computed
without overflow exactly under `SumsFit`.
-/

namespace Amounts

open Verdict

section

variable [ChainParams] {mapBlockIndex : BlockMap} {scripts : Verdict Unit} {view : CCoinsViewCache}
  {tx : CTransaction}

def valueAt (view : CCoinsViewCache) (prevout : COutPoint) : CAmount :=
  (((view.coins prevout.hash).vout[prevout.n]?).getD .null).nValue

/-- The value of the outpoints that a transaction spends, each of them once. -/
def spentValue (view : CCoinsViewCache) (tx : CTransaction) : CAmount :=
  ∑ prevout ∈ (tx.vin.map CTxIn.prevout).toFinset, valueAt view prevout

/-- The sums of the two functions are as they should be. -/
structure SumsSound (mapBlockIndex : BlockMap) (scripts : Verdict Unit) (view : CCoinsViewCache)
    (tx : CTransaction) : Prop where
  outputs : checkTransaction tx ≠ .error .overflow
  inputs : checkInputs mapBlockIndex scripts view tx ≠ .error .overflow
  /-- the sum of the inputs is that of the outpoints, each of them once -/
  once : checkTransaction tx = .ok () → ∀ nSpendHeight nValueIn,
    (inputLoop view nSpendHeight).total tx.vin 0 = .ok nValueIn →
      (tx.vin.map CTxIn.prevout).Nodup ∧ nValueIn = spentValue view tx
  conserved : checkTransaction tx = .ok () →
    checkInputs mapBlockIndex scripts view tx = .ok () →
    tx.isCoinBase = false → tx.isCoinStake = false →
      tx.getValueOut ≤ spentValue view tx ∧ moneyRange (spentValue view tx - tx.getValueOut) = true

omit [ChainParams] in
theorem spentValue_eq (distinct : (tx.vin.map CTxIn.prevout).Nodup) :
    spentValue view tx = valueOfAll view tx.vin := by
  rw [spentValue, sum_toFinset _ distinct, map_map]
  rfl

theorem checkFee_ok {nValueIn : CAmount} (accepted : checkFee tx nValueIn = .ok ()) :
    tx.getValueOut ≤ nValueIn ∧ moneyRange (nValueIn - tx.getValueOut) = true := by
  obtain ⟨nValueOut, returned, checks⟩ := Outcome.bind_eq_ok.mp accepted
  obtain ⟨rfl, -, -⟩ := getValueOut_ok returned
  obtain ⟨_, enough, checks⟩ := Outcome.bind_eq_ok.mp checks
  obtain ⟨_, _, checks⟩ := Outcome.bind_eq_ok.mp checks
  obtain ⟨_, _, ranged⟩ := Outcome.bind_eq_ok.mp checks
  rw [judged_reject_eq_ok, not_eq_false'] at ranged
  exact ⟨Int.not_lt.mp (of_decide_eq_false (judged_reject_eq_ok.mp enough)), ranged⟩

theorem checkInputs_conserves (spends : tx.hasInputs = true) (ordinary : tx.isCoinStake = false)
    (accepted : checkInputs mapBlockIndex scripts view tx = .ok ()) :
    tx.getValueOut ≤ valueOfAll view tx.vin ∧
      moneyRange (valueOfAll view tx.vin - tx.getValueOut) = true := by
  unfold checkInputs at accepted
  rw [if_pos spends] at accepted
  obtain ⟨_, _, checks⟩ := Outcome.bind_eq_ok.mp accepted
  obtain ⟨pindexPrev, _, checks⟩ := Outcome.bind_eq_ok.mp checks
  obtain ⟨nValueIn, summed, checks⟩ := Outcome.bind_eq_ok.mp checks
  obtain ⟨_, paid, _⟩ := Outcome.bind_eq_ok.mp checks
  rw [ordinary] at paid
  obtain ⟨-, same⟩ := GuardedSum.total_eq_ok.mp summed
  rw [Int.zero_add] at same
  have exact_sum : nValueIn = valueOfAll view tx.vin := same
  rw [← exact_sum]
  exact checkFee_ok paid

/-- The sums are as they should be exactly when those that are reached are of the type. -/
theorem sumsSound_iff (capped : 0 ≤ nMaxMoneyOut) (supply : nMaxMoneyOut ≤ 43199500 * COIN)
    (mapBlockIndex : BlockMap) (scripts : Verdict Unit) (view : CCoinsViewCache)
    (tx : CTransaction) :
    SumsSound mapBlockIndex scripts view tx ↔ SumsFit mapBlockIndex view tx := by
  refine ⟨fun sound => (checkInputs_ne_overflow capped supply).mp sound.inputs, fun fits => ?_⟩
  refine
    { outputs := checkTransaction_ne_overflow capped supply tx
      inputs := (checkInputs_ne_overflow capped supply).mpr fits
      once := fun accepted nSpendHeight nValueIn summed => ?_
      conserved := fun accepted passed mined staked => ?_ }
  · obtain ⟨distinct, -⟩ := checkTransaction_ok accepted
    obtain ⟨-, same⟩ := GuardedSum.total_eq_ok.mp summed
    rw [Int.zero_add] at same
    exact ⟨distinct, same.trans (spentValue_eq distinct).symm⟩
  · rw [spentValue_eq (checkTransaction_ok accepted).1]
    have legacy : tx.isV5CoinStake = false := (or_eq_false_iff.mp staked).2
    refine checkInputs_conserves ?_ staked passed
    rw [CTransaction.hasInputs, mined, legacy]
    rfl

end

/-! ## An overflow -/

def spendBoth : CTransaction where
  nVersion := 1
  nLockTime := 0
  vin := [{ prevout := ⟨1, 0⟩, scriptSig := [] }, { prevout := ⟨1, 1⟩, scriptSig := [] }]
  vout := [{ nValue := 1, scriptPubKey := [0x51] }]

/-- A view with an output of the smallest and one of the largest value. -/
def largeCoins : CCoinsViewCache where
  coins := fun txid => if txid = 1 then
      { vout := [{ nValue := 1, scriptPubKey := [] }, { nValue := INT64_MAX, scriptPubKey := [] }] }
    else {}
  hashBlock := 2

def largeCoinsIndex : BlockMap := fun hash => if hash = 2 then some { nHeight := 10 } else none

theorem sumsSound_iff_large :
    @SumsSound mainParams largeCoinsIndex (.ok ()) largeCoins spendBoth ↔
      @SumsFit mainParams largeCoinsIndex largeCoins spendBoth :=
  @sumsSound_iff mainParams (by decide) (by decide) _ _ _ _

example : @checkTransaction mainParams spendBoth = .ok () := by decide +kernel

/-- The view holds an output of value `INT64_MAX`, and the sum leaves the type before the loop looks
at the value. -/
theorem not_sumsSound : ¬ ∀ params mapBlockIndex scripts view tx,
    @SumsSound params mapBlockIndex scripts view tx := by
  intro all
  have flows := @SumsSound.inputs mainParams _ _ _ _
    (all mainParams largeCoinsIndex (.ok ()) largeCoins spendBoth)
  exact flows (by decide)

end Amounts

end Agouti
