import Agouti.Consensus.MoneySupply
import Agouti.Library.RunningTotal
import Agouti.Masternode.GetBudget

/-! # The payments of a valid finalized budget

`CFinalizedBudget::IsValid` compares the total payout with the budget of the superblock, but looks at
no single amount. The payments of an accepted budget are within the budget, one by one and in total,
and their running total does not overflow, exactly when none of them is negative and none is above
a hundredth of the largest 64-bit amount (`validPayout_bounded_iff`).
-/

namespace Agouti

open List

/-- Why a finalized budget is not valid: the texts that `strError` is set to. -/
inductive FinalizedBudgetError where
  /-- "Invalid BlockStart" -/
  | blockStart
  /-- "Invalid BlockEnd" -/
  | blockEnd
  /-- "Invalid budget payments count (too many)" -/
  | tooMany
  /-- "Invalid Budget Name" -/
  | name
  /-- "Budget … Invalid BlockStart == 0" -/
  | blockStartZero
  /-- "Budget … Invalid FeeTx == 0" -/
  | feeTx
  /-- "Budget … Invalid Payout (more than max)" -/
  | payout
  /-- "Budget … Invalid Collateral : " and the text of `IsBudgetCollateralValid` -/
  | collateral (strError2 : List UInt8)
  /-- "Budget … contains vetoed proposal …" -/
  | vetoed (nProposalHash : Uint256)
  deriving DecidableEq, Repr

theorem pass_check {Error : Type} {fails : Prop} [Decidable fails] {error : Error}
    {others : Except Error Unit} (valid : (if fails then .error error else others) = .ok ()) :
    ¬ fails ∧ others = .ok () := by
  split at valid
  · contradiction
  · rename_i passed
    exact ⟨passed, valid⟩

namespace CFinalizedBudgetBroadcast

/-- `CFinalizedBudget::GetBlockEnd`. -/
def getBlockEnd (budget : CFinalizedBudgetBroadcast) : Int :=
  budget.nBlockStart + (budget.vecBudgetPayments.length - 1)

/-- `CFinalizedBudget::GetTotalPayout`: a running total in 64 bits. -/
def getTotalPayout (budget : CFinalizedBudgetBroadcast) : CAmount :=
  RunningTotal.runningTotal (2 ^ 63) (budget.vecBudgetPayments.map CTxBudgetPayment.nAmount)

def vetoedPayment [ChainParams] (data : LocalData) (budget : CFinalizedBudgetBroadcast) :
    Option CTxBudgetPayment :=
  (budget.vecBudgetPayments.zipIdx.find? fun (payment, i) =>
    data.isVetoed payment.nProposalHash (budget.nBlockStart + i)).map Prod.fst

variable [ChainParams] [Crypto]

/-- `CFinalizedBudget::IsValid`, where `collateralError` stands for `IsBudgetCollateralValid`: the text
that it sets when the collateral is not valid. -/
def isValid (view : BudgetView) (collateralError : Uint256 → Uint256 → Option (List UInt8))
    (fCheckCollateral : Bool) (budget : CFinalizedBudgetBroadcast) :
    Except FinalizedBudgetError Unit :=
  if budget.nBlockStart.tmod ChainParams.nBudgetPaymentCycleBlocks ≠ 0 then .error .blockStart
  else if 100 < budget.getBlockEnd - budget.nBlockStart then .error .blockEnd
  else if 100 < budget.vecBudgetPayments.length then .error .tooMany
  else if budget.strBudgetName = [] then .error .name
  else if budget.nBlockStart = 0 then .error .blockStartZero
  else if budget.nFeeTXHash = 0 then .error .feeTx
  else if view.getTotalBudget budget.nBlockStart < budget.getTotalPayout then .error .payout
  else
    match if fCheckCollateral then collateralError budget.nFeeTXHash (BudgetItem.getHash budget)
      else none with
    | some strError2 => .error (.collateral strError2)
    | none =>
      match budget.vetoedPayment view.data with
      | some payment => .error (.vetoed payment.nProposalHash)
      | none => .ok ()

/-- What a valid budget has passed of the checks that limit its payout. -/
structure Accepted (view : BudgetView) (budget : CFinalizedBudgetBroadcast) : Prop where
  count : budget.vecBudgetPayments.length ≤ 100
  start : budget.nBlockStart ≠ 0
  payout : budget.getTotalPayout ≤ view.getTotalBudget budget.nBlockStart

variable {view : BudgetView} {collateralError : Uint256 → Uint256 → Option (List UInt8)}
  {fCheckCollateral : Bool} {budget : CFinalizedBudgetBroadcast}

theorem accepted_of_isValid
    (valid : budget.isValid view collateralError fCheckCollateral = .ok ()) :
    budget.Accepted view := by
  unfold isValid at valid
  obtain ⟨-, valid⟩ := pass_check valid
  obtain ⟨-, valid⟩ := pass_check valid
  obtain ⟨few, valid⟩ := pass_check valid
  obtain ⟨-, valid⟩ := pass_check valid
  obtain ⟨start, valid⟩ := pass_check valid
  obtain ⟨-, valid⟩ := pass_check valid
  obtain ⟨within, -⟩ := pass_check valid
  exact ⟨not_lt.mp few, start, not_lt.mp within⟩

end CFinalizedBudgetBroadcast

/-- A hundredth of the largest amount. -/
def hundredth : CAmount := (2 ^ 63 - 1) / 100

/-- No payment, partial sum or total is out of bounds. -/
structure PayoutBounded [ChainParams] (view : BudgetView) (budget : CFinalizedBudgetBroadcast) :
    Prop where
  each : ∀ payment ∈ budget.vecBudgetPayments,
    0 ≤ payment.nAmount ∧ payment.nAmount ≤ view.getTotalBudget budget.nBlockStart
  total : (budget.vecBudgetPayments.map CTxBudgetPayment.nAmount).sum ≤
    view.getTotalBudget budget.nBlockStart
  running : ∀ first, first <+: budget.vecBudgetPayments.map CTxBudgetPayment.nAmount →
    RunningTotal.Inside (2 ^ 63) first.sum

theorem blockSubsidy_le {nHeight : Int} (later : nHeight ≠ 0) :
    blockSubsidy nHeight ≤ 150000000 := by
  unfold blockSubsidy
  rw [if_neg later]
  split_ifs <;> decide

section

variable [ChainParams]

theorem getTotalBudget_perBlock (view : BudgetView) (nHeight : Int) :
    ∃ perBlock : Int, 0 ≤ perBlock ∧ perBlock ≤ blockSubsidy nHeight / 10 ∧
      view.getTotalBudget nHeight = perBlock * ChainParams.nBudgetPaymentCycleBlocks := by
  have subsidy := (getBlockValue_le view.node.tipMoneySupply nHeight).1
  have nonneg := getBlockValue_nonneg view.node.tipMoneySupply nHeight
  unfold BudgetView.getTotalBudget
  split
  · exact ⟨0, le_rfl, Int.ediv_nonneg (nonneg.trans subsidy) (by decide), (zero_mul _).symm⟩
  · simp only
    generalize getBlockValue view.node.tipMoneySupply nHeight = nSubsidy at subsidy nonneg
    refine ⟨_, ?_, ?_, rfl⟩
    · apply mul_nonneg
      · exact Int.tdiv_nonneg nonneg (by decide)
      · split <;> decide
    · have hundred : 0 ≤ nSubsidy.tdiv 100 ∧ nSubsidy.tdiv 100 * 10 ≤ blockSubsidy nHeight / 10 := by
        rw [Int.tdiv_eq_ediv_of_nonneg nonneg]
        refine ⟨Int.ediv_nonneg nonneg (by decide), Int.le_ediv_of_mul_le (by decide) ?_⟩
        have whole := Int.ediv_mul_le nSubsidy (b := 100) (by decide)
        linarith
      split
      · exact hundred.2
      · linarith [hundred.1, hundred.2]

theorem getTotalBudget_le (cycle : ChainParams.nBudgetPaymentCycleBlocks < 2 ^ 31)
    (view : BudgetView) {nHeight : Int} (later : nHeight ≠ 0) :
    view.getTotalBudget nHeight ≤ hundredth := by
  obtain ⟨perBlock, nonneg, part, same⟩ := getTotalBudget_perBlock view nHeight
  have tenth : blockSubsidy nHeight / 10 ≤ 15000000 :=
    Int.ediv_le_of_le_mul (by decide) (blockSubsidy_le later)
  rw [same]
  calc perBlock * ChainParams.nBudgetPaymentCycleBlocks
      ≤ perBlock * 2 ^ 31 := mul_le_mul_of_nonneg_left cycle.le nonneg
    _ ≤ 15000000 * 2 ^ 31 := mul_le_mul_of_nonneg_right (part.trans tenth) (by decide)
    _ ≤ hundredth := by decide

variable [Crypto]

/-- **When the payments of a valid finalized budget are within the budget.** The payments of a
finalized budget that `IsValid` accepts lie between 0 and the budget of the superblock, sum up to at
most that budget, and are summed up without overflow, if and only if none is negative and none is
above a hundredth of the largest amount. -/
theorem validPayout_bounded_iff (cycle : ChainParams.nBudgetPaymentCycleBlocks < 2 ^ 31)
    (view : BudgetView) (collateralError : Uint256 → Uint256 → Option (List UInt8))
    (fCheckCollateral : Bool) (budget : CFinalizedBudgetBroadcast)
    (valid : budget.isValid view collateralError fCheckCollateral = .ok ()) :
    PayoutBounded view budget ↔
      ∀ payment ∈ budget.vecBudgetPayments, 0 ≤ payment.nAmount ∧ payment.nAmount ≤ hundredth := by
  have accepted := CFinalizedBudgetBroadcast.accepted_of_isValid valid
  have small := getTotalBudget_le cycle view accepted.start
  constructor
  · intro bounded payment member
    obtain ⟨nonneg, within⟩ := bounded.each payment member
    exact ⟨nonneg, within.trans small⟩
  · intro amounts
    have nonneg : ∀ amount ∈ budget.vecBudgetPayments.map CTxBudgetPayment.nAmount,
        0 ≤ amount := by
      intro amount member
      obtain ⟨payment, listed, rfl⟩ := mem_map.mp member
      exact (amounts payment listed).1
    have running : ∀ first, first <+: budget.vecBudgetPayments.map CTxBudgetPayment.nAmount →
        RunningTotal.Inside (2 ^ 63) first.sum := by
      intro first ahead
      have limited : ∀ amount ∈ budget.vecBudgetPayments.map CTxBudgetPayment.nAmount,
          amount ≤ hundredth := by
        intro amount member
        obtain ⟨payment, listed, rfl⟩ := mem_map.mp member
        exact (amounts payment listed).2
      refine RunningTotal.inside_of_small nonneg limited ?_ ahead
      · have few := accepted.count
        rw [length_map]
        have room : ((budget.vecBudgetPayments.length : Nat) : Int) * hundredth ≤ 100 * hundredth :=
          mul_le_mul_of_nonneg_right (by exact_mod_cast few) (by decide)
        exact lt_of_le_of_lt room (by decide)
    -- without overflow the total that was compared is the exact one
    have total : (budget.vecBudgetPayments.map CTxBudgetPayment.nAmount).sum ≤
        view.getTotalBudget budget.nBlockStart := by
      have payout := accepted.payout
      unfold CFinalizedBudgetBroadcast.getTotalPayout at payout
      rwa [RunningTotal.runningTotal_eq_sum running] at payout
    refine ⟨fun payment member => ⟨(amounts payment member).1, ?_⟩, total, running⟩
    exact (RunningTotal.le_sum nonneg (mem_map_of_mem member)).trans total

end

/-- A finalized budget for the superblock after the main network's block 2678012. -/
def SignedPayouts.budget (amounts : List CAmount) : CFinalizedBudgetBroadcast where
  strBudgetName := [66]
  nBlockStart := 2678013
  vecBudgetPayments := amounts.map fun nAmount => ⟨1, [0x51], nAmount⟩
  nFeeTXHash := 7

section

attribute [local instance] VetoedPayment.params

local instance SignedPayouts.instCrypto : Crypto := checksumCrypto

open SignedPayouts

open TwoFees

/-- A payment above the budget is accepted beside a payment below zero, and four payments that are
half of all amounts add up to nothing. -/
theorem signedPayouts_accepted :
    (budget [1000 * COIN, -950 * COIN]).isValid view (fun _ _ => none) true = .ok () ∧
      (budget (List.replicate 4 (2 ^ 62))).isValid view (fun _ _ => none) true = .ok () ∧
      ¬ PayoutBounded view (budget [1000 * COIN, -950 * COIN]) ∧
      ¬ PayoutBounded view (budget (List.replicate 4 (2 ^ 62))) := by
  refine ⟨by decide +kernel, by decide +kernel, fun bounded => ?_, fun bounded => ?_⟩
  · have nonneg := (bounded.each _ (mem_cons_of_mem _ (mem_singleton_self _))).1
    exact absurd nonneg (by decide)
  · have small := bounded.total
    revert small
    decide +kernel

theorem validPayout_bounded_onePayment :
    PayoutBounded view (budget [30 * COIN]) :=
  (validPayout_bounded_iff (by decide) view (fun _ _ => none) true (budget [30 * COIN])
    (by decide +kernel)).mpr (by decide +kernel)

end

end Agouti
