import Agouti.Consensus.MoneySupply
import Agouti.Consensus.UniqueIds
import Agouti.Masternode.FillPayee

/-! # Whether a new block pays the masternode that is asked for

`CMasternodePayments::FillBlockPayee` pays the payee with the most votes half of the subsidy, out
of the reward that `CWallet::CreateCoinStakeV5` gives to the staker. The payee checks ask for the
same amount to any payee with six votes, and the value check compares the mint of the block with
the same subsidy: from the fork on both sides take the height of the new block. So the block that
a node creates passes its own checks (`createdBlock_agrees`).
-/

namespace Agouti

open Verdict List Option

section

variable [ChainParams]

/-- A height at which version 5 blocks are made: behind the fork and the proof of work. -/
def V5Height (nHeight : Int) : Prop := nStakePointerForkHeight ≤ nHeight ∧ nLastPOWBlock < nHeight

/-- On the networks the fork comes after the proof of work. -/
example (nHeight : Int) : @V5Height mainParams nHeight ↔ 2675000 ≤ nHeight := by
  constructor
  · exact And.left
  · intro high
    exact ⟨high, lt_of_lt_of_le (by decide) high⟩

example (nHeight : Int) (hashGenesisBlock : Uint256) :
    @V5Height (regTestParams hashGenesisBlock) nHeight ↔ 101 ≤ nHeight := by
  constructor
  · exact And.left
  · intro high
    exact ⟨high, lt_of_lt_of_le (show (100 : Int) < 101 by decide) high⟩

/-- The coinstake that `CWallet::CreateCoinStakeV5` gives to `FillBlockPayee`. -/
def coinStakeV5 (node : Node) (nNewHeight : Int) (scriptPubKeyOut : CScript) : CTransaction where
  nVersion := 1
  vin := [vinMarker nNewHeight]
  vout := [.empty,
    { nValue := getBlockValue node.tipMoneySupply nNewHeight, scriptPubKey := scriptPubKeyOut }]
  nLockTime := 0

/-- The transactions of the block that `CreateNewBlock` makes on top of the tip: an empty
coinbase, the coinstake, and transactions of the memory pool. -/
structure CreatedOn (data : LocalData) (node : Node) (pindexPrev : CBlockIndex) (block : CBlock) :
    Prop where
  vtx : ∃ coinbase scriptPubKeyOut rest,
    block.vtx = coinbase :: data.fillBlockPayee node
      (coinStakeV5 node (pindexPrev.nHeight + 1) scriptPubKeyOut) true :: rest ∧
    coinbase.isCoinBase = true ∧ coinbase.vout = [.empty] ∧
    ∀ tx ∈ rest, tx.isCoinBase = false ∧ tx.isCoinStake = false ∧ tx.containsZerocoins = false

/-! ## The payee -/

omit [ChainParams] in
theorem LocalData.exists_votes_of_maxSignatures {vecPayments : List CMasternodePayee}
    (enough : MNPAYMENTS_SIGNATURES_REQUIRED ≤ LocalData.maxSignatures vecPayments) :
    ∃ payee ∈ vecPayments, MNPAYMENTS_SIGNATURES_REQUIRED ≤ payee.nVotes := by
  have general : ∀ start : Int, start < MNPAYMENTS_SIGNATURES_REQUIRED →
      MNPAYMENTS_SIGNATURES_REQUIRED ≤ vecPayments.foldl (fun nMaxSignatures payee =>
        if nMaxSignatures ≤ payee.nVotes ∧ MNPAYMENTS_SIGNATURES_REQUIRED ≤ payee.nVotes then
          payee.nVotes
        else nMaxSignatures) start →
      ∃ payee ∈ vecPayments, MNPAYMENTS_SIGNATURES_REQUIRED ≤ payee.nVotes := by
    clear enough
    induction vecPayments with
    | nil => exact fun start low high => absurd low (Int.not_lt.mpr high)
    | cons payee rest ih =>
      intro start low high
      rw [foldl_cons] at high
      by_cases votes : MNPAYMENTS_SIGNATURES_REQUIRED ≤ payee.nVotes
      · exact ⟨payee, mem_cons_self, votes⟩
      · rw [if_neg fun both => votes both.2] at high
        obtain ⟨other, member, enough⟩ := ih start low high
        exact ⟨other, mem_cons_of_mem _ member, enough⟩
  exact general 0 (by decide) enough

omit [ChainParams] in
theorem getPayee_votes {vecPayments : List CMasternodePayee} {payee : CMasternodePayee}
    (member : payee ∈ vecPayments) (enough : MNPAYMENTS_SIGNATURES_REQUIRED ≤ payee.nVotes) :
    ∃ winner ∈ vecPayments, MNPAYMENTS_SIGNATURES_REQUIRED ≤ winner.nVotes ∧
      getPayee vecPayments = some winner.scriptPubKey := by
  have required : MNPAYMENTS_SIGNATURES_REQUIRED = 6 := rfl
  unfold getPayee
  rw [scanPayees_eq]
  rcases scanVotes_cases vecPayments with ⟨_, bounded⟩ | ⟨winner, wins, found, positive, highest⟩
  · have low := bounded payee member
    omega
  · refine ⟨winner, wins, le_trans enough (highest payee member), ?_⟩
    rw [found]
    exact if_pos positive

namespace LocalData

variable (data : LocalData) {node : Node} {pindexPrev : CBlockIndex} {txNew : CTransaction}

def payMasternode (vout : List CTxOut) (last : CTxOut) (payee : CScript) (payment : CAmount) :
    List CTxOut :=
  vout ++ [{ last with nValue := last.nValue - payment },
    { nValue := payment, scriptPubKey := payee }]

variable {vout : List CTxOut}

theorem fillMasternodePayee_coinstake (tip : node.tip = some pindexPrev)
    (fork : nStakePointerForkHeight ≤ pindexPrev.nHeight + 1) {last : CTxOut}
    (outputs : txNew.vout = vout ++ [last]) :
    data.fillMasternodePayee node txNew true =
      match (data.getBlockPayee (pindexPrev.nHeight + 1)).orElse fun _ => data.winningNode with
      | some payee =>
        { txNew with
          vout := payMasternode vout last payee
            (getMasternodePayment (pindexPrev.nHeight + 1)
              (getBlockValue node.tipMoneySupply (pindexPrev.nHeight + 1))) }
      | none => txNew := by
  simp only [fillMasternodePayee, tip, if_pos fork]
  cases (data.getBlockPayee (pindexPrev.nHeight + 1)).orElse fun _ => data.winningNode with
  | none => rfl
  | some payee =>
    simp only [if_true, setOutput_resize, outputs, payMasternode, append_assoc]
    rw [modify_eq_take_cons_drop (by simp)]
    simp

/-- The payee check accepts the coinstake, whoever has how many votes. -/
theorem masternodePaid_filled (tip : node.tip = some pindexPrev)
    (fork : nStakePointerForkHeight ≤ pindexPrev.nHeight + 1) {last : CTxOut}
    (outputs : txNew.vout = vout ++ [last]) :
    data.masternodePaid node.tipMoneySupply (data.fillMasternodePayee node txNew true)
      (pindexPrev.nHeight + 1) = true := by
  unfold masternodePaid
  split
  · rfl
  · rename_i vecPayments votes
    unfold payeesPaid
    simp only [Bool.or_eq_true, decide_eq_true_eq]
    by_cases few : maxSignatures vecPayments < MNPAYMENTS_SIGNATURES_REQUIRED
    · exact .inl few
    · obtain ⟨payee, member, enough⟩ := exists_votes_of_maxSignatures (Int.not_lt.mp few)
      obtain ⟨winner, wins, winner_votes, found⟩ := getPayee_votes member enough
      have paid : data.getBlockPayee (pindexPrev.nHeight + 1) = some winner.scriptPubKey := by
        rw [getBlockPayee, votes, bind_some, found]
      refine .inr (any_eq_true.mpr ⟨winner, wins, ?_⟩)
      rw [fillMasternodePayee_coinstake data tip fork outputs, paid]
      simp only [orElse_some, payMasternode, any_append, any_cons, BEq.rfl,
        le_refl, decide_true, Bool.and_self, Bool.true_or, Bool.or_true, Bool.and_true,
        decide_eq_true_eq]
      exact winner_votes

/-- The payment is moved, not made: the coinstake pays out what it did before. -/
theorem getValueOut_filled (tip : node.tip = some pindexPrev)
    (fork : nStakePointerForkHeight ≤ pindexPrev.nHeight + 1) {last : CTxOut}
    (outputs : txNew.vout = vout ++ [last]) :
    (data.fillMasternodePayee node txNew true).getValueOut = txNew.getValueOut := by
  rw [fillMasternodePayee_coinstake data tip fork outputs]
  cases (data.getBlockPayee (pindexPrev.nHeight + 1)).orElse fun _ => data.winningNode with
  | none => rfl
  | some payee =>
    simp only [CTransaction.getValueOut, payMasternode, outputs, map_append, map_cons,
      map_nil, List.sum_append, List.sum_cons, List.sum_nil]
    ring

end LocalData

/-! ## The value -/

variable [Crypto]

/-- The mint that `ConnectBlock` computes from its sums. -/
def ConnectTotals.minted (totals : ConnectTotals) : CAmount :=
  totals.nValueOut - totals.nValueIn + totals.nFees

variable {mapBlockIndex : BlockMap} {strict checks : Bool} {flags : Nat}
  {view after : CCoinsViewCache} {tx : CTransaction} {totals result : ConnectTotals}
  {rest : List CTransaction} {vtxundo : List (List CTxInUndo)}

theorem tallyInputs_pool (notCoinBase : tx.isCoinBase = false)
    (notCoinStake : tx.isCoinStake = false) (noZerocoins : tx.containsZerocoins = false)
    (tallied : tallyInputs mapBlockIndex strict checks flags view tx totals = .ok result) :
    result.minted = totals.minted - tx.getValueOut := by
  simp only [CTransaction.containsZerocoins, Bool.or_eq_false_iff] at noZerocoins
  simp only [CTransaction.isCoinStake, Bool.or_eq_false_iff] at notCoinStake
  have spends : tx.hasInputs = true := by
    rw [CTransaction.hasInputs, notCoinBase, notCoinStake.2]
    rfl
  have legacy : tx.isCoinStake = false := by
    rw [CTransaction.isCoinStake, notCoinStake.1, notCoinStake.2]
    rfl
  simp only [tallyInputs, noZerocoins.1, Bool.false_eq_true, if_false, spends, if_true,
    bind_eq_ok, legacy] at tallied
  obtain ⟨_, _, _, _, _, _, last⟩ := tallied
  obtain rfl := Except.ok.inj last
  simp only [ConnectTotals.minted]
  ring

theorem tallyInputs_minting (noSpend : tx.isZerocoinSpend = false) (noInputs : tx.hasInputs = false)
    (tallied : tallyInputs mapBlockIndex strict checks flags view tx totals = .ok result) :
    result = totals := by
  simp only [tallyInputs, noSpend, noInputs, Bool.false_eq_true, if_false, Except.ok.injEq]
    at tallied
  exact tallied.symm

theorem connectTransactions_cons {nHeight : Int}
    (connected : connectTransactions mapBlockIndex nHeight strict checks flags (tx :: rest) view
      totals = .ok (after, vtxundo, result)) :
    ∃ counted tallied next undo,
      counted.minted = totals.minted ∧
      tallyInputs mapBlockIndex strict checks flags view tx counted = .ok tallied ∧
      connectTransactions mapBlockIndex nHeight strict checks flags rest next
        { tallied with nValueOut := tallied.nValueOut + tx.getValueOut } =
          .ok (after, undo, result) := by
  simp only [connectTransactions, bind_eq_ok] at connected
  obtain ⟨_, _, _, _, tallied, sums, ⟨next, _⟩, _, ⟨_, undo, _⟩, others, last⟩ := connected
  simp only [Except.ok.injEq, Prod.mk.injEq] at last
  obtain ⟨rfl, _, rfl⟩ := last
  exact ⟨{ totals with nSigOps := totals.nSigOps + tx.getLegacySigOpCount }, tallied, next, undo,
    rfl, sums, others⟩

theorem connectTransactions_pool {nHeight : Int}
    (pool : ∀ tx ∈ rest, tx.isCoinBase = false ∧ tx.isCoinStake = false ∧
      tx.containsZerocoins = false)
    (connected : connectTransactions mapBlockIndex nHeight strict checks flags rest view totals =
      .ok (after, vtxundo, result)) : result.minted = totals.minted := by
  induction rest generalizing view vtxundo totals with
  | nil =>
    simp only [connectTransactions, Except.ok.injEq, Prod.mk.injEq] at connected
    rw [connected.2.2]
  | cons tx rest ih =>
    obtain ⟨counted, tallied, next, undo, same, sums, others⟩ :=
      connectTransactions_cons connected
    obtain ⟨notCoinBase, notCoinStake, noZerocoins⟩ := pool tx mem_cons_self
    have spent := tallyInputs_pool notCoinBase notCoinStake noZerocoins sums
    rw [ih (fun other member => pool other (mem_cons_of_mem _ member)) others]
    simp only [ConnectTotals.minted] at spent same ⊢
    linarith

theorem connectTransactions_minted {nHeight : Int} {coinbase coinstake : CTransaction}
    (isCoinBase : coinbase.isCoinBase = true) (isV5CoinStake : coinstake.isV5CoinStake = true)
    (noSpend : coinstake.isZerocoinSpend = false)
    (pool : ∀ tx ∈ rest, tx.isCoinBase = false ∧ tx.isCoinStake = false ∧
      tx.containsZerocoins = false)
    (connected : connectTransactions mapBlockIndex nHeight strict checks flags
      (coinbase :: coinstake :: rest) view {} = .ok (after, vtxundo, result)) :
    result.minted = coinbase.getValueOut + coinstake.getValueOut := by
  have coinbase_inputs : coinbase.hasInputs = false := by
    rw [CTransaction.hasInputs, isCoinBase]
    rfl
  have coinbase_spend : coinbase.isZerocoinSpend = false := by
    simp only [CTransaction.isCoinBase, CTransaction.containsZerocoins, Bool.and_eq_true,
      Bool.not_eq_true', Bool.or_eq_false_iff] at isCoinBase
    exact isCoinBase.2.1
  have coinstake_inputs : coinstake.hasInputs = false := by
    rw [CTransaction.hasInputs, isV5CoinStake, Bool.not_true, Bool.and_false]
  obtain ⟨counted, tallied, next, undo, same, sums, others⟩ := connectTransactions_cons connected
  obtain rfl := tallyInputs_minting coinbase_spend coinbase_inputs sums
  obtain ⟨counted', tallied', next', undo', same', sums', others'⟩ :=
    connectTransactions_cons others
  obtain rfl := tallyInputs_minting noSpend coinstake_inputs sums'
  rw [connectTransactions_pool pool others']
  simp only [ConnectTotals.minted] at same same' ⊢
  linarith

/-! ## The created block -/

section

variable (data : LocalData) {node : Node} {pindexPrev : CBlockIndex}

omit [Crypto] in
theorem fillMasternodePayee_isV5CoinStake (tip : node.tip = some pindexPrev)
    (fork : nStakePointerForkHeight ≤ pindexPrev.nHeight + 1) (scriptPubKeyOut : CScript) :
    (data.fillMasternodePayee node (coinStakeV5 node (pindexPrev.nHeight + 1) scriptPubKeyOut)
        true).isV5CoinStake = true ∧
      (data.fillMasternodePayee node (coinStakeV5 node (pindexPrev.nHeight + 1) scriptPubKeyOut)
        true).isZerocoinSpend = false := by
  have outputs : (coinStakeV5 node (pindexPrev.nHeight + 1) scriptPubKeyOut).vout = [CTxOut.empty] ++
      [{ nValue := getBlockValue node.tipMoneySupply (pindexPrev.nHeight + 1),
         scriptPubKey := scriptPubKeyOut }] := rfl
  rw [LocalData.fillMasternodePayee_coinstake data tip fork outputs]
  cases (data.getBlockPayee (pindexPrev.nHeight + 1)).orElse fun _ => data.winningNode with
  | none => exact ⟨rfl, rfl⟩
  | some payee => exact ⟨rfl, rfl⟩

/-- **Creator and validator agree on masternode payments.** A block whose coinstake was filled in
by `CMasternodePayments::FillBlockPayee` at the tip, for any votes, passes the payee checks of a
node with the same tip, and if its transactions connect, its mint passes the value check. -/
theorem createdBlock_agrees (data : LocalData) (node later : Node) (pindexPrev : CBlockIndex)
    (tip : node.tip = some pindexPrev) (sameTip : later.tip = some pindexPrev)
    (height : V5Height (pindexPrev.nHeight + 1)) (block : CBlock)
    (created : CreatedOn data node pindexPrev block)
    (masternodes : (data.isSporkActive .SPORK_13_ENABLE_SUPERBLOCKS &&
      data.isBudgetPaymentBlock (pindexPrev.nHeight + 1)) = false) :
    (∃ txNew, block.vtx[1]? = some txNew ∧
        data.masternodePaid later.tipMoneySupply txNew (pindexPrev.nHeight + 1) = true) ∧
      data.isBlockPayeeValid later.tipMoneySupply block (pindexPrev.nHeight + 1) = some true ∧
      ∀ pindex view fScriptChecks coins undo totals, pindex.nHeight = pindexPrev.nHeight + 1 →
        later.mapBlockIndex.prev pindex = some pindexPrev →
        applyTransactions later fScriptChecks block pindex view = .ok (coins, undo, totals) →
        data.isBlockValueValid later block (nExpectedMint later block pindex pindexPrev totals)
          (later.withSupply pindex totals).nMint = true := by
  obtain ⟨fork, stakes⟩ := height
  obtain ⟨coinbase, scriptPubKeyOut, rest, vtx, isCoinBase, empty, pool⟩ := created.vtx
  have supply : later.tipMoneySupply = node.tipMoneySupply := by
    rw [Node.tipMoneySupply, Node.tipMoneySupply, tip, sameTip]
  have outputs : (coinStakeV5 node (pindexPrev.nHeight + 1) scriptPubKeyOut).vout = [CTxOut.empty] ++
      [{ nValue := getBlockValue node.tipMoneySupply (pindexPrev.nHeight + 1),
         scriptPubKey := scriptPubKeyOut }] := rfl
  have filled : data.fillBlockPayee node (coinStakeV5 node (pindexPrev.nHeight + 1) scriptPubKeyOut)
      true = data.fillMasternodePayee node
        (coinStakeV5 node (pindexPrev.nHeight + 1) scriptPubKeyOut) true := by
    simp only [LocalData.fillBlockPayee, tip, masternodes, Bool.false_eq_true, if_false]
  rw [filled] at vtx
  have paid := LocalData.masternodePaid_filled data tip fork outputs
  have value := LocalData.getValueOut_filled data tip fork outputs
  obtain ⟨isV5CoinStake, noSpend⟩ :=
    fillMasternodePayee_isV5CoinStake data tip fork scriptPubKeyOut
  obtain ⟨txNew, fills⟩ : ∃ txNew, txNew = data.fillMasternodePayee node
    (coinStakeV5 node (pindexPrev.nHeight + 1) scriptPubKeyOut) true := ⟨_, rfl⟩
  rw [← fills] at vtx paid value isV5CoinStake noSpend
  have second : block.vtx[1]? = some txNew := by
    rw [vtx]
    rfl
  rw [supply]
  refine ⟨⟨txNew, second, paid⟩, ?_, ?_⟩
  · unfold LocalData.isBlockPayeeValid
    split
    · rfl
    · simp only [second, masternodes, Bool.false_eq_true, if_false, paid, Bool.true_or]
  · intro pindex view fScriptChecks coins undo totals same parent connected
    simp only [applyTransactions, bind_eq_ok] at connected
    obtain ⟨_, _, _, _, _, _, _, _, connected⟩ := connected
    rw [vtx] at connected
    have minted := connectTransactions_minted isCoinBase isV5CoinStake noSpend pool connected
    have staked : block.isProofOfWork = false := by
      simp only [CBlock.isProofOfWork, CBlock.isProofOfStake, second, map_some,
        getD_some, CTransaction.isCoinStake, isV5CoinStake, Bool.or_true, Bool.not_true]
    have expected : nExpectedMint later block pindex pindexPrev totals =
        getBlockValue node.tipMoneySupply (pindexPrev.nHeight + 1) := by
      rw [nExpectedMint, same, if_pos fork, staked, supply]
      exact Int.add_zero _
    have mint : (later.withSupply pindex totals).nMint =
        getBlockValue node.tipMoneySupply (pindexPrev.nHeight + 1) := by
      have emptied : coinbase.getValueOut = 0 := by
        rw [CTransaction.getValueOut, empty]
        rfl
      have reward : (coinStakeV5 node (pindexPrev.nHeight + 1) scriptPubKeyOut).getValueOut =
          getBlockValue node.tipMoneySupply (pindexPrev.nHeight + 1) := by
        simp only [CTransaction.getValueOut, coinStakeV5, CTxOut.empty, map_cons,
          map_nil, List.sum_cons, List.sum_nil, Int.zero_add, Int.add_zero]
      rw [emptied, value, reward, Int.zero_add] at minted
      rw [← minted]
      simp only [Node.withSupply, ConnectTotals.minted]
      ring
    rw [isBlockValueValid_eq, expected, mint, decide_eq_true le_rfl, Bool.or_true]

end

end

namespace TiedPayees

/-! The regression test chain with a stake block at its tip, and two payees with six votes each
for the next height. -/

open StakedTip

def votes : List CMasternodePayee := [⟨[0x51], 6⟩, ⟨[0x52], 6⟩]

def data : LocalData :=
  { StakedTip.data with
    isSporkActive := fun _ => true, fSynced := true,
    mapMasternodeBlocks := fun nHeight => if nHeight = 102 then some votes else none }

/-- The block that the node creates at height 102, without transactions of the memory pool. -/
def block [ChainParams] : CBlock :=
  { nVersion := 5, hashPrevBlock := tipHash, hashMerkleRoot := 0, nTime := 1400061200,
    nBits := 0x1e00ffff, nNonce := 0,
    vtx := [coinbase 102 [.empty],
      data.fillBlockPayee node (coinStakeV5 node (tipIndex.nHeight + 1) [0x53]) true] }

/-- The entry with which `TestBlockValidity` connects the block. -/
def pindex [ChainParams] : CBlockIndex :=
  { CBlockIndex.ofBlock block with pprev := some tipHash, nHeight := 102 }

end TiedPayees

attribute [local instance] StakedTip.params StakedTip.instCrypto

theorem TiedPayees.connects : (applyTransactions StakedTip.node true block pindex
    StakedTip.coins).toOption.isSome = true := by
  decide +kernel

theorem createdBlock_agrees_tiedPayees :
    TiedPayees.data.isBlockPayeeValid StakedTip.node.tipMoneySupply TiedPayees.block 102 =
        some true ∧
      ∃ coins undo totals, applyTransactions StakedTip.node true TiedPayees.block
          TiedPayees.pindex StakedTip.coins = .ok (coins, undo, totals) ∧
        TiedPayees.data.isBlockValueValid StakedTip.node TiedPayees.block
          (nExpectedMint StakedTip.node TiedPayees.block TiedPayees.pindex StakedTip.tipIndex totals)
          (StakedTip.node.withSupply TiedPayees.pindex totals).nMint = true := by
  have agrees := createdBlock_agrees TiedPayees.data StakedTip.node StakedTip.node
    StakedTip.tipIndex (by decide +kernel) (by decide +kernel) ⟨by decide, by decide⟩
    TiedPayees.block ⟨_, [0x53], [], rfl, by decide, rfl, fun tx absent => by contradiction⟩
    (by decide)
  obtain ⟨⟨coins, undo, totals⟩, connected⟩ := isSome_iff_exists.mp TiedPayees.connects
  rw [toOption_eq_some] at connected
  exact ⟨agrees.2.1, coins, undo, totals, connected,
    agrees.2.2 _ _ _ _ _ _ rfl (by decide +kernel) connected⟩

end Agouti
