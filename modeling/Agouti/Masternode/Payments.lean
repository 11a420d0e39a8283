import Agouti.Chain.Node

/-! # Block rewards and payees

`GetBlockValue` and `GetMasternodePayment` of `main.cpp`, the payee checks of
`masternode-payments.cpp` and the finalized budgets of `masternode-budget.cpp`.
-/

namespace Agouti

def MNPAYMENTS_SIGNATURES_REQUIRED : Int := 6

variable [ChainParams]

/-- The subsidy schedule of `GetBlockValue`. -/
def blockSubsidy (nHeight : Int) : CAmount :=
  if nHeight = 0 then 1809759 * COIN
  else if nHeight < 44641 then COIN * 3 / 2
  else if nHeight < 570241 then COIN
  else if nHeight < 1095840 then COIN / 2
  else if nHeight < 1621440 then COIN / 4
  else COIN / 8

/-- `GetBlockValue`, for the money supply of the tip. -/
def getBlockValue (nMoneySupply : CAmount) (nHeight : Int) : CAmount :=
  let nSubsidy := blockSubsidy nHeight
  let nSubsidy := if nMaxMoneyOut ≤ nMoneySupply + nSubsidy then nMaxMoneyOut - nMoneySupply
    else nSubsidy
  if nMaxMoneyOut ≤ nMoneySupply then 0 else nSubsidy

def getMasternodePayment (nHeight : Int) (blockValue : CAmount) : CAmount :=
  if nHeight < 101 then 0 else blockValue.tdiv 2

/-- The money supply of the tip, which `GetBlockValue` reads. -/
def Node.tipMoneySupply (node : Node) : CAmount := (node.tip.map CBlockIndex.nMoneySupply).getD 0

/-- The height that a block on top of `hashPrevBlock` has for the masternode
checks; `0` when the parent is unknown. -/
def Node.heightOnTopOf (node : Node) (hashPrevBlock : Uint256) : Int :=
  match node.tip with
  | none => 0
  | some pindexPrev =>
    if pindexPrev.getBlockHash = hashPrevBlock then pindexPrev.nHeight + 1
    else ((node.mapBlockIndex hashPrevBlock).map fun prev => prev.nHeight + 1).getD 0

namespace CFinalizedBudget

def getBlockEnd (budget : CFinalizedBudget) : Int :=
  budget.nBlockStart + (budget.vecBudgetPayments.length - 1)

/-- The height lies between `GetBlockStart()` and `GetBlockEnd()`. -/
def covers (budget : CFinalizedBudget) (nBlockHeight : Int) : Bool :=
  decide (budget.nBlockStart ≤ nBlockHeight) && decide (nBlockHeight ≤ budget.getBlockEnd)

def payment (budget : CFinalizedBudget) (nBlockHeight : Int) : Option CTxBudgetPayment :=
  let nCurrentBudgetPayment := nBlockHeight - budget.nBlockStart
  if nCurrentBudgetPayment < 0 then none
  else budget.vecBudgetPayments[nCurrentBudgetPayment.toNat]?

end CFinalizedBudget

namespace LocalData

/-- `CBudgetManager::IsVetoedNoLock`. -/
def isVetoed (data : LocalData) (nProposalHash : Uint256) (nHeight : Int) : Bool :=
  decide (ChainParams.nVetoForkHeight ≤ nHeight) &&
    data.mapSeenVetoVotes.any fun vote => vote.nProposalHash == nProposalHash && vote.fValid

/-- `CBudgetManager::FinalizedBudgetPaymentVetoedNoLock`. -/
def paymentVetoed (data : LocalData) (budget : CFinalizedBudget) (nBlockHeight : Int) : Bool :=
  ((budget.payment nBlockHeight).map fun payment =>
    data.isVetoed payment.nProposalHash nBlockHeight).getD false

/-- The conditions the loops over `mapFinalizedBudgets` put on a budget, besides
its vote count. -/
def eligible (data : LocalData) (nBlockHeight : Int) (budget : CFinalizedBudget) : Bool :=
  budget.fValid && budget.covers nBlockHeight && !data.paymentVetoed budget nBlockHeight

def highestCount (data : LocalData) (nBlockHeight start : Int) : Int :=
  data.mapFinalizedBudgets.foldl (fun nHighestCount budget =>
    if nHighestCount < budget.voteCount ∧ data.eligible nBlockHeight budget then budget.voteCount
    else nHighestCount) start

/-- `CBudgetManager::IsBudgetPaymentBlock`. -/
def isBudgetPaymentBlock (data : LocalData) (nBlockHeight : Int) : Bool :=
  decide ((data.nEnabled / 20 : Nat) < data.highestCount nBlockHeight (-1))

/-- `CFinalizedBudget::IsTransactionValid`. -/
def budgetPaid (data : LocalData) (budget : CFinalizedBudget) (txNew : CTransaction)
    (nBlockHeight : Int) : Bool :=
  match budget.payment nBlockHeight with
  | none => false
  | some payment =>
    !data.isVetoed payment.nProposalHash nBlockHeight &&
      txNew.vout.any fun out =>
        payment.payee == out.scriptPubKey && payment.nAmount == out.nValue

/-- The second loop of `CBudgetManager::IsTransactionValid`. At a vetoed budget
with enough votes the loop goes on without advancing its iterator and never
returns; the model returns nothing. -/
def anyBudgetPaid (data : LocalData) (txNew : CTransaction) (nBlockHeight threshold : Int) :
    List CFinalizedBudget → Option Bool
  | [] => some false
  | budget :: rest =>
    if threshold < budget.voteCount ∧ budget.fValid ∧ budget.covers nBlockHeight then
      if data.paymentVetoed budget nBlockHeight then none
      else if data.budgetPaid budget txNew nBlockHeight then some true
      else data.anyBudgetPaid txNew nBlockHeight threshold rest
    else data.anyBudgetPaid txNew nBlockHeight threshold rest

/-- `CBudgetManager::IsTransactionValid`. -/
def budgetTransactionValid (data : LocalData) (txNew : CTransaction) (nBlockHeight : Int) :
    Option Bool :=
  let nHighestCount := data.highestCount nBlockHeight 0
  if nHighestCount = 0 then some false
  else if nHighestCount < (data.nEnabled / 20 : Nat) then some false
  else
    data.anyBudgetPaid txNew nBlockHeight (nHighestCount - (data.nEnabled / 10 : Nat))
      data.mapFinalizedBudgets

/-- The highest vote count of the payees that have enough votes. -/
def maxSignatures (vecPayments : List CMasternodePayee) : Int :=
  vecPayments.foldl (fun nMaxSignatures payee =>
    if nMaxSignatures ≤ payee.nVotes ∧ MNPAYMENTS_SIGNATURES_REQUIRED ≤ payee.nVotes then
      payee.nVotes
    else nMaxSignatures) 0

/-- `CMasternodeBlockPayees::IsTransactionValid`. -/
def payeesPaid (nMoneySupply : CAmount) (vecPayments : List CMasternodePayee)
    (txNew : CTransaction) (nBlockHeight : Int) : Bool :=
  let requiredMasternodePayment :=
    getMasternodePayment nBlockHeight (getBlockValue nMoneySupply nBlockHeight)
  decide (maxSignatures vecPayments < MNPAYMENTS_SIGNATURES_REQUIRED) ||
    vecPayments.any fun payee =>
      decide (MNPAYMENTS_SIGNATURES_REQUIRED ≤ payee.nVotes) &&
        txNew.vout.any fun out =>
          payee.scriptPubKey == out.scriptPubKey && decide (requiredMasternodePayment ≤ out.nValue)

/-- `CMasternodePayments::IsTransactionValid`. -/
def masternodePaid (data : LocalData) (nMoneySupply : CAmount) (txNew : CTransaction)
    (nBlockHeight : Int) : Bool :=
  match data.mapMasternodeBlocks nBlockHeight with
  | none => true
  | some vecPayments => payeesPaid nMoneySupply vecPayments txNew nBlockHeight

/-- `IsBlockPayeeValid`; nothing when it never returns. -/
def isBlockPayeeValid (data : LocalData) (nMoneySupply : CAmount) (block : CBlock)
    (nBlockHeight : Int) : Option Bool :=
  if !data.fSynced then some true
  else
    match if nLastPOWBlock < nBlockHeight then block.vtx[1]? else block.vtx[0]? with
    | none => some false
    | some txNew =>
      if data.isSporkActive .SPORK_13_ENABLE_SUPERBLOCKS &&
          data.isBudgetPaymentBlock nBlockHeight then
        (data.budgetTransactionValid txNew nBlockHeight).map fun valid =>
          valid || !data.isSporkActive .SPORK_9_MASTERNODE_BUDGET_ENFORCEMENT
      else
        some (data.masternodePaid nMoneySupply txNew nBlockHeight ||
          !data.isSporkActive .SPORK_8_MASTERNODE_PAYMENT_ENFORCEMENT)

def isBlockValueValid (data : LocalData) (node : Node) (block : CBlock)
    (nExpectedValue nMinted : CAmount) : Bool :=
  match node.tip with
  | none => true
  | some _ =>
    let nHeight := node.heightOnTopOf block.hashPrevBlock
    if !data.fSynced then
      if nStakePointerForkHeight ≤ nHeight then decide (nMinted ≤ nExpectedValue)
      else decide (nHeight.tmod ChainParams.nBudgetPaymentCycleBlocks < 100) ||
        decide (nMinted ≤ nExpectedValue)
    else if !data.isSporkActive .SPORK_13_ENABLE_SUPERBLOCKS then
      decide (nMinted ≤ nExpectedValue)
    else data.isBudgetPaymentBlock nHeight || decide (nMinted ≤ nExpectedValue)

end LocalData

end Agouti
