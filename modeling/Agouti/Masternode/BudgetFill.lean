import Agouti.Masternode.BudgetLoop
import Agouti.Masternode.FillPayee

/-! # Whether a new block pays a budget that is valid

`CBudgetManager::FillBlockPayee` pays the budget that leads. `CBudgetManager::IsTransactionValid`
asks for a payment of a budget with *more* votes than the highest count less a tenth of the
masternodes, which the leading budget has only where there are ten masternodes or more; and it
never comes past a vetoed budget. The filled transaction is valid exactly when there are ten
masternodes and a paid budget comes before any vetoed one (`filledBudget_valid_iff`).
-/

namespace Agouti

open List

namespace LocalData

section

variable [ChainParams] {data : LocalData} {txNew : CTransaction} {nBlockHeight threshold : Int}

theorem anyBudgetPaid_true {it : List CFinalizedBudget} :
    data.anyBudgetPaid txNew nBlockHeight threshold it = some true ↔
      ∃ before budget after, it = before ++ budget :: after ∧
        budget.Counted nBlockHeight threshold ∧
        data.budgetPaid budget txNew nBlockHeight = true ∧
        ∀ other ∈ before, other.Counted nBlockHeight threshold →
          data.paymentVetoed other nBlockHeight = false := by
  induction it with
  | nil =>
    refine iff_of_false (by simp [anyBudgetPaid]) ?_
    rintro ⟨before, budget, after, list, _⟩
    exact absurd list (by simp)
  | cons first rest ih =>
    -- a first budget that does not stop the loop stands before the paid one
    have later : data.budgetPaid first txNew nBlockHeight = false ∨
          ¬ first.Counted nBlockHeight threshold →
        (first.Counted nBlockHeight threshold →
          data.paymentVetoed first nBlockHeight = false) →
        ((∃ before budget after, rest = before ++ budget :: after ∧
            budget.Counted nBlockHeight threshold ∧
            data.budgetPaid budget txNew nBlockHeight = true ∧
            ∀ other ∈ before, other.Counted nBlockHeight threshold →
              data.paymentVetoed other nBlockHeight = false) ↔
          ∃ before budget after, first :: rest = before ++ budget :: after ∧
            budget.Counted nBlockHeight threshold ∧
            data.budgetPaid budget txNew nBlockHeight = true ∧
            ∀ other ∈ before, other.Counted nBlockHeight threshold →
              data.paymentVetoed other nBlockHeight = false) := by
      intro passes unvetoed
      constructor
      · rintro ⟨before, budget, after, rfl, counted, paid, clear⟩
        refine ⟨first :: before, budget, after, rfl, counted, paid, ?_⟩
        intro other member
        rcases mem_cons.mp member with rfl | inside
        · exact unvetoed
        · exact clear other inside
      · rintro ⟨before, budget, after, list, counted, paid, clear⟩
        cases before with
        | nil =>
          obtain ⟨rfl, _⟩ := List.cons.inj list
          rcases passes with unpaid | uncounted
          · rw [unpaid] at paid
            contradiction
          · exact absurd counted uncounted
        | cons head before =>
          obtain ⟨rfl, rfl⟩ := List.cons.inj list
          exact ⟨before, budget, after, rfl, counted, paid, fun other member =>
            clear other (mem_cons_of_mem _ member)⟩
    unfold anyBudgetPaid
    by_cases counted : threshold < first.voteCount ∧ first.fValid ∧ first.covers nBlockHeight
    · rw [if_pos counted]
      by_cases vetoed : data.paymentVetoed first nBlockHeight = true
      · rw [if_pos vetoed]
        refine iff_of_false (by simp) ?_
        rintro ⟨before, budget, after, list, _, paid, clear⟩
        cases before with
        | nil =>
          obtain ⟨rfl, _⟩ := List.cons.inj list
          rw [budgetPaid] at paid
          unfold paymentVetoed at vetoed
          split at paid
          · contradiction
          · rename_i payment found
            simp only [found, Option.map_some, Option.getD_some] at vetoed
            rw [vetoed] at paid
            exact absurd paid Bool.false_ne_true
        | cons head before =>
          obtain ⟨rfl, _⟩ := List.cons.inj list
          have clean := clear first mem_cons_self counted
          rw [clean] at vetoed
          contradiction
      · rw [if_neg vetoed]
        by_cases paid : data.budgetPaid first txNew nBlockHeight = true
        · rw [if_pos paid]
          refine iff_of_true rfl ⟨[], first, rest, rfl, counted, paid, ?_⟩
          exact fun other absent => absurd absent not_mem_nil
        · rw [if_neg paid, ih]
          exact later (.inl (by simpa using paid)) fun _ => by simpa using vetoed
    · rw [if_neg counted, ih]
      exact later (.inr counted) fun here => absurd here counted

/-- A budget has a payment at the height that an output makes: the one that is added for the
leading budget or one that is already there. -/
def Repaid (nBlockHeight : Int) (leader : CFinalizedBudget) (vout : List CTxOut)
    (budget : CFinalizedBudget) : Prop :=
  ∃ payment, budget.payment nBlockHeight = some payment ∧
    ((∃ leading, leader.payment nBlockHeight = some leading ∧
        payment.payee = leading.payee ∧ payment.nAmount = leading.nAmount) ∨
      ∃ out ∈ vout, payment.payee = out.scriptPubKey ∧ payment.nAmount = out.nValue)

/-- In the order of the finalized budgets, a paid one with enough votes comes before any vetoed
one with enough votes. -/
def PaidBeforeVeto (data : LocalData) (vout : List CTxOut) (nBlockHeight : Int) : Prop :=
  ∃ leader, data.Leading nBlockHeight leader ∧
    ∃ before budget after, data.mapFinalizedBudgets = before ++ budget :: after ∧
      budget.Counted nBlockHeight (leader.voteCount - (data.nEnabled / 10 : Nat)) ∧
      data.paymentVetoed budget nBlockHeight = false ∧
      Repaid nBlockHeight leader vout budget ∧
      ∀ other ∈ before,
        other.Counted nBlockHeight (leader.voteCount - (data.nEnabled / 10 : Nat)) →
          data.paymentVetoed other nBlockHeight = false

/-- The outputs that `CBudgetManager::FillBlockPayee` leaves in front of the payment: those of a
coinstake, or the first one of a coinbase with the whole subsidy. -/
def keptOutputs (node : Node) (pindexPrev : CBlockIndex) (txNew : CTransaction)
    (fProofOfStake : Bool) : List CTxOut :=
  if fProofOfStake then txNew.vout
  else
    resizeOutputs (txNew.vout.modify 0 fun out =>
      { out with nValue := getBlockValue node.tipMoneySupply pindexPrev.nHeight }) 1

theorem leading_of_paymentBlock (block : data.isBudgetPaymentBlock nBlockHeight = true) :
    ∃ leader, data.Leading nBlockHeight leader ∧ 0 < leader.voteCount ∧
      (data.nEnabled / 20 : Nat) < leader.voteCount ∧
      data.scanBudgetVotes nBlockHeight 0 = ((leader.voteCount : Int), some leader) := by
  rw [isBudgetPaymentBlock, decide_eq_true_eq, highestCount_eq] at block
  rcases data.scanBudgetVotes_cases nBlockHeight (-1) with
    ⟨nobody, _⟩ | ⟨leader, found, _, leads⟩
  · rw [nobody] at block
    omega
  · rw [found] at block
    have votes : data.nEnabled / 20 < leader.voteCount := Int.ofNat_lt.mp block
    have positive : 0 < leader.voteCount := by omega
    refine ⟨leader, leads, positive, votes, ?_⟩
    rcases data.scanBudgetVotes_cases nBlockHeight 0 with
      ⟨_, bounded⟩ | ⟨other, again, _, leads_too⟩
    · have low := bounded leader leads.mem leads.may
      omega
    · rw [again, leads_too.unique leads]

theorem fillBudgetPayee_coinstake {node : Node} {pindexPrev : CBlockIndex}
    (tip : node.tip = some pindexPrev) {nHighestCount : Int} {payee : CScript} {nAmount : CAmount}
    (scanned : data.scanPayments (pindexPrev.nHeight + 1) = (nHighestCount, payee, nAmount))
    (votes : 0 < nHighestCount) :
    data.fillBudgetPayee node txNew true =
      { txNew with vout := txNew.vout ++ [{ nValue := nAmount, scriptPubKey := payee }] } := by
  simp only [fillBudgetPayee, tip, scanned, if_pos votes, if_true, setOutput_resize]

theorem fillBudgetPayee_vout {node : Node} {pindexPrev : CBlockIndex}
    (tip : node.tip = some pindexPrev) (fProofOfStake : Bool) {leader : CFinalizedBudget}
    {payment : CTxBudgetPayment} (votes : 0 < leader.voteCount)
    (found : data.scanBudgetVotes (pindexPrev.nHeight + 1) 0 =
      ((leader.voteCount : Int), some leader))
    (paid : leader.payment (pindexPrev.nHeight + 1) = some payment) :
    ∃ out : CTxOut, out.scriptPubKey = payment.payee ∧ out.nValue = payment.nAmount ∧
      (data.fillBudgetPayee node txNew fProofOfStake).vout =
        keptOutputs node pindexPrev txNew fProofOfStake ++ [out] := by
  have scanned : data.scanPayments (pindexPrev.nHeight + 1) =
      ((leader.voteCount : Int), payment.payee, payment.nAmount) := by
    rw [scanPayments_eq, found]
    simp only [Option.bind_some, paid, Option.map_some, Option.getD_some]
  have positive : (0 : Int) < leader.voteCount := by omega
  cases fProofOfStake with
  | true =>
    refine ⟨{ nValue := payment.nAmount, scriptPubKey := payment.payee }, rfl, rfl, ?_⟩
    rw [fillBudgetPayee_coinstake tip scanned positive, keptOutputs, if_pos rfl]
  | false =>
    simp only [fillBudgetPayee, tip, scanned, if_pos positive, keptOutputs]
    obtain ⟨last, set⟩ := setOutput_resize_two (txNew.vout.modify 0 fun out =>
      { out with nValue := getBlockValue node.tipMoneySupply pindexPrev.nHeight })
      payment.payee payment.nAmount
    exact ⟨_, rfl, rfl, set⟩

theorem budgetPaid_filled {filled : CTransaction} {kept : List CTxOut} {out : CTxOut}
    {leader budget : CFinalizedBudget} {leading : CTxBudgetPayment}
    (vout : filled.vout = kept ++ [out]) (payee : out.scriptPubKey = leading.payee)
    (amount : out.nValue = leading.nAmount)
    (paid : leader.payment nBlockHeight = some leading) :
    data.budgetPaid budget filled nBlockHeight = true ↔
      data.paymentVetoed budget nBlockHeight = false ∧
        Repaid nBlockHeight leader kept budget := by
  unfold budgetPaid paymentVetoed Repaid
  cases found : budget.payment nBlockHeight with
  | none => simp
  | some payment =>
    simp only [vout, paid, Option.map_some, Option.getD_some, Option.some.injEq, exists_eq_left',
      any_append, any_cons, any_nil, Bool.or_false, Bool.and_eq_true,
      Bool.not_eq_true', Bool.or_eq_true, any_eq_true, beq_iff_eq, payee, amount]
    constructor
    · intro ⟨unvetoed, made⟩
      exact ⟨unvetoed, made.symm⟩
    · intro ⟨unvetoed, made⟩
      exact ⟨unvetoed, made.symm⟩

end

end LocalData

open LocalData

section

variable [ChainParams]

/-- **When a new block pays a valid budget.** In a budget payment block, the transaction that
`CBudgetManager::FillBlockPayee` completes passes `CBudgetManager::IsTransactionValid` if and
only if there are ten enabled masternodes or more and a paid budget comes before any vetoed
one. -/
theorem filledBudget_valid_iff (data : LocalData) (node : Node) (pindexPrev : CBlockIndex)
    (tip : node.tip = some pindexPrev) (txNew : CTransaction) (fProofOfStake : Bool)
    (block : data.isBudgetPaymentBlock (pindexPrev.nHeight + 1) = true) :
    data.budgetTransactionValid (data.fillBudgetPayee node txNew fProofOfStake)
        (pindexPrev.nHeight + 1) = some true ↔
      10 ≤ data.nEnabled ∧
        data.PaidBeforeVeto (keptOutputs node pindexPrev txNew fProofOfStake)
          (pindexPrev.nHeight + 1) := by
  obtain ⟨leader, leads, positive, votes, found⟩ := leading_of_paymentBlock block
  obtain ⟨leading, paid⟩ := CFinalizedBudget.payment_of_covers (eligible_covers leads.may)
  obtain ⟨out, payee, amount, vout⟩ :=
    fillBudgetPayee_vout tip fProofOfStake positive found paid
  generalize data.fillBudgetPayee node txNew fProofOfStake = filled at vout
  generalize keptOutputs node pindexPrev txNew fProofOfStake = kept at vout
  have highest : data.highestCount (pindexPrev.nHeight + 1) 0 = leader.voteCount := by
    rw [highestCount_eq, found]
  have some_votes : ¬ (leader.voteCount : Int) = 0 := by omega
  have enough : ¬ (leader.voteCount : Int) < (data.nEnabled / 20 : Nat) := by omega
  have loops : data.budgetTransactionValid filled (pindexPrev.nHeight + 1) =
      data.anyBudgetPaid filled (pindexPrev.nHeight + 1)
        (leader.voteCount - (data.nEnabled / 10 : Nat)) data.mapFinalizedBudgets := by
    simp only [budgetTransactionValid, highest, if_neg some_votes, if_neg enough]
  rw [loops, anyBudgetPaid_true]
  constructor
  · rintro ⟨before, budget, after, list, counted, made, clear⟩
    obtain ⟨unvetoed, repaid⟩ := (budgetPaid_filled vout payee amount paid).mp made
    refine ⟨?_, leader, leads, before, budget, after, list, counted, unvetoed, repaid, clear⟩
    -- a budget with no more votes than the leader is below the threshold
    have may : data.eligible (pindexPrev.nHeight + 1) budget = true := by
      simp only [eligible, counted.2.1, counted.2.2, unvetoed, Bool.not_false, Bool.and_self]
    have member : budget ∈ data.mapFinalizedBudgets := by
      rw [list]
      exact mem_append_right before mem_cons_self
    have bounded : (budget.voteCount : Int) ≤ leader.voteCount := leads.highest budget member may
    have above := counted.1
    omega
  · rintro ⟨_, other, leads_too, before, budget, after, list, counted, unvetoed, repaid, clear⟩
    obtain rfl := leads_too.unique leads
    exact ⟨before, budget, after, list, counted,
      (budgetPaid_filled vout payee amount paid).mpr ⟨unvetoed, repaid⟩, clear⟩

end

namespace FewMasternodes

/-! The main network on top of height 2678012, below the first superblock of a cycle. There are
five enabled masternodes, and three of them have voted for the only finalized budget. -/

def entry (n : Nat) : CBlockIndex :=
  { phashBlock := some (BitVec.ofNat 256 n),
    pprev := if n = 0 then none else some (BitVec.ofNat 256 (n - 1)), nHeight := n }

def node : Node where
  mapBlockIndex hash := if hash.toNat ≤ 2678012 then some (entry hash.toNat) else none
  vChain := (List.range 2678013).map (BitVec.ofNat 256)
  diskBlocks _ := none
  diskUndo _ := none
  pcoinsTip := ⟨fun _ => {}, BitVec.ofNat 256 2678012⟩
  mapProofOfStake := []
  setStakeSeen := []
  mapUsedStakePointers _ := none
  setBlockIndexCandidates := []
  mapBlocksUnlinked := []
  nBlockSequenceId := 1

def budget : CFinalizedBudget :=
  { fValid := true, nBlockStart := 2678013, voteCount := 3,
    vecBudgetPayments := [⟨1, [0x51], 500000000⟩] }

/-- The masternodes and the budget, with this many masternodes enabled. -/
def data (nEnabled : Nat) : LocalData :=
  { VetoedPayment.data with
    nEnabled := nEnabled, mapFinalizedBudgets := [budget], mapSeenVetoVotes := [] }

def coinstake : CTransaction :=
  { nVersion := 1, vin := [{ prevout := .null, scriptSig := [0xc0] }],
    vout := [.empty, { nValue := 12500000, scriptPubKey := [0x52] }], nLockTime := 0 }

theorem tip : node.tip = some (entry 2678012) := by
  rw [Node.tip, node, List.getLast?_map, List.getLast?_range]
  rfl

end FewMasternodes

attribute [local instance] VetoedPayment.params

theorem FewMasternodes.scanned (nEnabled : Nat) :
    (data nEnabled).scanPayments ((entry 2678012).nHeight + 1) = (3, [0x51], 500000000) := by
  have same : (data nEnabled).scanPayments ((entry 2678012).nHeight + 1) =
      (data 0).scanPayments ((entry 2678012).nHeight + 1) := rfl
  rw [same]
  decide +kernel

theorem FewMasternodes.filled (nEnabled : Nat) :
    (data nEnabled).fillBudgetPayee node coinstake true =
      { coinstake with
        vout := coinstake.vout ++ [{ nValue := 500000000, scriptPubKey := [0x51] }] } :=
  fillBudgetPayee_coinstake tip (scanned nEnabled) (by decide)

open FewMasternodes

theorem filledBudget_valid_fewMasternodes :
    (data 20).budgetTransactionValid
        ((data 20).fillBudgetPayee node coinstake true)
        2678013 = some true := by
  refine (filledBudget_valid_iff (data 20) node
    (entry 2678012) tip coinstake true
    (by decide)).mpr ⟨by decide, budget, ?_, [], budget, [], rfl,
      ⟨by decide, rfl, by decide⟩, by decide, ?_, ?_⟩
  · refine ⟨⟨[], [], rfl, ?_⟩, by decide, ?_⟩
    · exact fun other absent => absurd absent not_mem_nil
    · intro other member _
      obtain rfl := mem_singleton.mp member
      exact le_rfl
  · exact ⟨_, rfl, .inl ⟨_, rfl, rfl, rfl⟩⟩
  · exact fun other absent => absurd absent not_mem_nil

/-- With five masternodes the coinstake that the node fills in does not pass its own check. -/
theorem fewMasternodes_rejected :
    (data 5).isBudgetPaymentBlock 2678013 = true ∧
      (data 5).budgetTransactionValid
        ((data 5).fillBudgetPayee node coinstake true)
        2678013 = some false := by
  rw [filled]
  decide

end Agouti
