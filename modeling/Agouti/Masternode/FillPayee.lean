import Agouti.Library.Leader
import Agouti.Masternode.Payments

/-! # Filling in the payees of a new block

`FillBlockPayee` of `masternode-payments.cpp` completes the coinbase or the coinstake of a new
block: `CBudgetManager::FillBlockPayee` with the payment of the finalized budget with the most
votes, `CMasternodePayments::FillBlockPayee` with that of the masternode with the most votes.
-/

namespace Agouti

open List Option

/-- `vout.resize(n)`; a new output is null. -/
def resizeOutputs (vout : List CTxOut) (n : Nat) : List CTxOut :=
  (vout ++ List.replicate (n - vout.length) CTxOut.null).take n

/-- `vout[i].scriptPubKey = payee` and `vout[i].nValue = nAmount`. -/
def setOutput (vout : List CTxOut) (i : Nat) (payee : CScript) (nAmount : CAmount) : List CTxOut :=
  vout.modify i fun out => { out with scriptPubKey := payee, nValue := nAmount }

theorem setOutput_resize (vout : List CTxOut) (payee : CScript) (nAmount : CAmount) :
    setOutput (resizeOutputs vout (vout.length + 1)) vout.length payee nAmount =
      vout ++ [{ nValue := nAmount, scriptPubKey := payee }] := by
  have grown : resizeOutputs vout (vout.length + 1) = vout ++ [CTxOut.null] := by
    rw [resizeOutputs, Nat.add_sub_cancel_left, replicate_one]
    exact take_of_length_le (by simp)
  rw [setOutput, grown, modify_eq_take_cons_drop (by simp)]
  simp [CTxOut.null]

theorem setOutput_resize_two (vout : List CTxOut) (payee : CScript) (nAmount : CAmount) :
    ∃ last : CTxOut, setOutput (resizeOutputs vout 2) 1 payee nAmount =
      resizeOutputs vout 1 ++ [{ last with nValue := nAmount, scriptPubKey := payee }] := by
  match vout with
  | [] => exact ⟨CTxOut.null, rfl⟩
  | [first] => exact ⟨CTxOut.null, rfl⟩
  | first :: second :: rest => exact ⟨second, rfl⟩

/-- The loop of `CMasternodeBlockPayees::GetPayee`: the highest number of votes and the
payee. -/
def scanPayees (vecPayments : List CMasternodePayee) : Int × CScript :=
  vecPayments.foldl (fun best p =>
    if best.1 < p.nVotes then (p.nVotes, p.scriptPubKey) else best) (-1, [])

/-- `CMasternodeBlockPayees::GetPayee`. -/
def getPayee (vecPayments : List CMasternodePayee) : Option CScript :=
  let (nVotes, payee) := scanPayees vecPayments
  if -1 < nVotes then some payee else none

variable [ChainParams]

namespace LocalData

/-- The loop of `CBudgetManager::FillBlockPayee`: the highest count, the payee and the amount
of its budget. -/
def scanPayments (data : LocalData) (nBlockHeight : Int) : Int × CScript × CAmount :=
  data.mapFinalizedBudgets.foldl (fun best budget =>
    if best.1 < budget.voteCount ∧ data.eligible nBlockHeight budget then
      -- `GetPayeeAndAmount` leaves payee and amount alone where it returns false
      match budget.payment nBlockHeight with
      | some payment => ((budget.voteCount : Int), payment.payee, payment.nAmount)
      | none => best
    else best) (0, [], 0)

/-- `CBudgetManager::FillBlockPayee`; the fees are not read. -/
def fillBudgetPayee (data : LocalData) (node : Node) (txNew : CTransaction)
    (fProofOfStake : Bool) : CTransaction :=
  match node.tip with
  | none => txNew
  | some pindexPrev =>
    let (nHighestCount, payee, nAmount) := data.scanPayments (pindexPrev.nHeight + 1)
    let blockValue := getBlockValue node.tipMoneySupply pindexPrev.nHeight
    if fProofOfStake then
      if 0 < nHighestCount then
        let i := txNew.vout.length
        { txNew with vout := setOutput (resizeOutputs txNew.vout (i + 1)) i payee nAmount }
      else txNew
    else
      let vout := txNew.vout.modify 0 fun out => { out with nValue := blockValue }
      if 0 < nHighestCount then
        { txNew with vout := setOutput (resizeOutputs vout 2) 1 payee nAmount }
      else { txNew with vout := vout }

/-- `CMasternodePayments::GetBlockPayee`. -/
def getBlockPayee (data : LocalData) (nBlockHeight : Int) : Option CScript :=
  (data.mapMasternodeBlocks nBlockHeight).bind getPayee

/-- `CMasternodePayments::FillBlockPayee`; the fees are not read. -/
def fillMasternodePayee (data : LocalData) (node : Node) (txNew : CTransaction)
    (fProofOfStake : Bool) : CTransaction :=
  match node.tip with
  | none => txNew
  | some pindexPrev =>
    let nBlockHeight := pindexPrev.nHeight + 1
    let nCalcHeight := if nStakePointerForkHeight ≤ nBlockHeight then nBlockHeight
      else pindexPrev.nHeight
    let blockValue := getBlockValue node.tipMoneySupply nCalcHeight
    let masternodePayment := getMasternodePayment nCalcHeight blockValue
    -- without votes the masternode that is next in the queue is paid
    match (data.getBlockPayee nBlockHeight).orElse fun _ => data.winningNode with
    | some payee =>
      if fProofOfStake then
        let i := txNew.vout.length
        let vout := setOutput (resizeOutputs txNew.vout (i + 1)) i payee masternodePayment
        { txNew with
          vout := vout.modify (i - 1) fun out =>
            { out with nValue := out.nValue - masternodePayment } }
      else
        let vout := setOutput (resizeOutputs txNew.vout 2) 1 payee masternodePayment
        { txNew with
          vout := vout.modify 0 fun out =>
            { out with nValue := blockValue - masternodePayment } }
    | none =>
      if fProofOfStake then txNew
      else
        { txNew with
          vout := txNew.vout.modify 0 fun out =>
            { out with nValue := blockValue - masternodePayment } }

def fillBlockPayee (data : LocalData) (node : Node) (txNew : CTransaction)
    (fProofOfStake : Bool) : CTransaction :=
  match node.tip with
  | none => txNew
  | some pindexPrev =>
    if data.isSporkActive .SPORK_13_ENABLE_SUPERBLOCKS &&
        data.isBudgetPaymentBlock (pindexPrev.nHeight + 1) then
      data.fillBudgetPayee node txNew fProofOfStake
    else data.fillMasternodePayee node txNew fProofOfStake

end LocalData

/-! ## Both loops find the first entry with the most votes -/

def scanVotes (vecPayments : List CMasternodePayee) : Int × Option CMasternodePayee :=
  Leader.scan CMasternodePayee.nVotes (fun _ => true) (-1) vecPayments

omit [ChainParams] in
theorem scanVotes_cases (vecPayments : List CMasternodePayee) :
    (scanVotes vecPayments = (-1, none) ∧ ∀ payee ∈ vecPayments, payee.nVotes ≤ -1) ∨
      ∃ winner ∈ vecPayments, scanVotes vecPayments = (winner.nVotes, some winner) ∧
        -1 < winner.nVotes ∧ ∀ payee ∈ vecPayments, payee.nVotes ≤ winner.nVotes := by
  unfold scanVotes
  rcases Leader.scan_cases (-1) vecPayments with ⟨nobody, bounded⟩ | ⟨winner, found, votes, leads⟩
  · exact .inl ⟨nobody, fun payee member => bounded payee member rfl⟩
  · exact .inr ⟨winner, leads.mem, found, votes, fun payee member =>
      leads.highest payee member rfl⟩

omit [ChainParams] in
theorem scanPayees_eq (vecPayments : List CMasternodePayee) :
    scanPayees vecPayments = ((scanVotes vecPayments).1,
      ((scanVotes vecPayments).2.map CMasternodePayee.scriptPubKey).getD []) := by
  let keep (best : Int × Option CMasternodePayee) : Int × CScript :=
    (best.1, (best.2.map CMasternodePayee.scriptPubKey).getD [])
  have folded : vecPayments.foldl (fun best p =>
      if best.1 < p.nVotes then (p.nVotes, p.scriptPubKey) else best) (keep (-1, none)) =
        keep (scanVotes vecPayments) := by
    apply foldl_hom keep
    intro best p
    unfold Leader.step
    by_cases more : best.1 < p.nVotes
    · rw [if_pos more, if_pos ⟨more, rfl⟩]
      rfl
    · rw [if_neg more, if_neg fun both => more both.1]
  exact folded

omit [ChainParams] in
theorem CFinalizedBudget.payment_of_covers {budget : CFinalizedBudget} {nBlockHeight : Int}
    (covers : budget.covers nBlockHeight = true) :
    ∃ payment, budget.payment nBlockHeight = some payment := by
  simp only [CFinalizedBudget.covers, Bool.and_eq_true, decide_eq_true_eq] at covers
  unfold CFinalizedBudget.getBlockEnd at covers
  unfold CFinalizedBudget.payment
  have started : ¬ nBlockHeight - budget.nBlockStart < 0 := by omega
  simp only [if_neg started]
  have inside : (nBlockHeight - budget.nBlockStart).toNat < budget.vecBudgetPayments.length := by
    omega
  exact ⟨_, List.getElem?_eq_getElem inside⟩

namespace LocalData

variable {data : LocalData} {nBlockHeight : Int}

theorem eligible_covers {budget : CFinalizedBudget}
    (may : data.eligible nBlockHeight budget = true) : budget.covers nBlockHeight = true := by
  simp only [eligible, Bool.and_eq_true] at may
  exact may.1.2

/-- The budget leads in votes among those for the height. -/
def Leading (data : LocalData) (nBlockHeight : Int) (budget : CFinalizedBudget) : Prop :=
  Leader.Leads (fun budget : CFinalizedBudget => (budget.voteCount : Int))
    (data.eligible nBlockHeight) data.mapFinalizedBudgets budget

def scanBudgetVotes (data : LocalData) (nBlockHeight start : Int) : Int × Option CFinalizedBudget :=
  Leader.scan (fun budget : CFinalizedBudget => (budget.voteCount : Int))
    (data.eligible nBlockHeight) start data.mapFinalizedBudgets

theorem scanBudgetVotes_cases (data : LocalData) (nBlockHeight start : Int) :
    (data.scanBudgetVotes nBlockHeight start = (start, none) ∧
        ∀ budget ∈ data.mapFinalizedBudgets, data.eligible nBlockHeight budget = true →
          (budget.voteCount : Int) ≤ start) ∨
      ∃ leader : CFinalizedBudget,
        data.scanBudgetVotes nBlockHeight start = ((leader.voteCount : Int), some leader) ∧
          start < leader.voteCount ∧ data.Leading nBlockHeight leader :=
  Leader.scan_cases start data.mapFinalizedBudgets

theorem highestCount_eq (start : Int) :
    data.highestCount nBlockHeight start = (data.scanBudgetVotes nBlockHeight start).1 :=
  (Leader.scan_fst start data.mapFinalizedBudgets).symm

theorem scanPayments_eq :
    data.scanPayments nBlockHeight =
      let best := data.scanBudgetVotes nBlockHeight 0
      let payment := best.2.bind fun budget => budget.payment nBlockHeight
      (best.1, (payment.map CTxBudgetPayment.payee).getD [],
        (payment.map CTxBudgetPayment.nAmount).getD 0) := by
  let keep (best : Int × Option CFinalizedBudget) : Int × CScript × CAmount :=
    let payment := best.2.bind fun budget => budget.payment nBlockHeight
    (best.1, (payment.map CTxBudgetPayment.payee).getD [],
      (payment.map CTxBudgetPayment.nAmount).getD 0)
  have folded : data.mapFinalizedBudgets.foldl (fun best budget =>
      if best.1 < budget.voteCount ∧ data.eligible nBlockHeight budget then
        match budget.payment nBlockHeight with
        | some payment => ((budget.voteCount : Int), payment.payee, payment.nAmount)
        | none => best
      else best) (keep (0, none)) = keep (data.scanBudgetVotes nBlockHeight 0) := by
    apply foldl_hom keep
    intro best budget
    unfold Leader.step
    by_cases more : best.1 < budget.voteCount ∧ data.eligible nBlockHeight budget = true
    · obtain ⟨payment, paid⟩ := CFinalizedBudget.payment_of_covers (eligible_covers more.2)
      rw [if_pos more, if_pos (show (keep best).1 < _ ∧ _ from more)]
      simp only [keep, paid, bind_some, map_some, getD_some]
    · rw [if_neg more, if_neg (show ¬ ((keep best).1 < _ ∧ _) from more)]
  exact folded

end LocalData

end Agouti
