import Agouti.Validation.Ledger

/-! # Checks on the block and checks on what the node knows

The checks of a block fall into two groups: those that the block and the coins of its
ancestors decide (`Formed`, `FormedAt`, `Connectable`), and those that read the
clock, the transaction locks, the payees, the budgets and the synchronization state
(`LocalBlock`, `LocalBody`, `LocalConnect`). A block is accepted when it passes both.
-/

namespace Agouti

open Verdict

variable [ChainParams] [Crypto]

/-- `CheckBlock` without its local checks. -/
structure Formed (block : CBlock) : Prop where
  header : checkBlockHeader block.nBits true = .ok ()
  merkleRoot : checkMerkleRoot block = .ok ()
  size : block.vtx.length ≤ MAX_BLOCK_SIZE_CURRENT ∧
    block.serialize.length ≤ MAX_BLOCK_SIZE_CURRENT
  transactions : ∃ coinbase others, block.vtx = coinbase :: others ∧
    coinbase.isCoinBase = true ∧ ∀ tx ∈ others, tx.isCoinBase = false
  form : block.isProofOfStake = true → checkProofOfStakeForm block = .ok ()
  checked : checkTransactions block.vtx = .ok ()
  sigOps : (block.vtx.map CTransaction.getLegacySigOpCount).sum ≤ MAX_BLOCK_SIGOPS_CURRENT

/-- The local checks of `CheckBlock`. -/
structure LocalBlock (data : LocalData) (node : Node) (block : CBlock) : Prop where
  time : block.getBlockTime ≤ data.adjustedTime + futureDrift block
  locks : data.isSporkActive .SPORK_3_SWIFTTX_BLOCK_FILTERING = true →
    conflictsWithLock data block = false
  payee : checkPayee data node block = .ok ()

variable {data : LocalData} {node : Node} {block : CBlock} {pindex : CBlockIndex}

theorem checked_iff :
    Checked data node block true true ↔ Formed block ∧ LocalBlock data node block := by
  constructor
  · intro passed
    exact ⟨⟨passed.header, passed.merkleRoot rfl, passed.size, passed.transactions, passed.form,
      passed.checked, passed.sigOps⟩, ⟨passed.time, passed.locks, passed.payee⟩⟩
  · rintro ⟨formed, known⟩
    exact ⟨formed.header, known.time, fun _ => formed.merkleRoot, formed.size, formed.transactions,
      formed.form, known.locks, known.payee, formed.checked, formed.sigOps⟩

/-- Every transaction is final. -/
def FinalAt (chainHeight adjustedTime : Int) (block : CBlock) (nHeight : Int) : Prop :=
  ∀ tx ∈ block.vtx, isFinalTx chainHeight adjustedTime tx nHeight block.getBlockTime = true

/-- `CheckBlock` and `ContextualCheckBlock` on a height, without their local checks. The
clock only counts for the transactions of a block without a time. -/
structure FormedAt (block : CBlock) (nHeight : Int) : Prop extends Formed block where
  final : ∃ chainHeight adjustedTime, FinalAt chainHeight adjustedTime block nHeight
  pointer : block.isProofOfStake = true → nStakePointerForkHeight ≤ nHeight →
    checkStakePointerForm block = .ok ()

/-- The local checks of `CheckBlock` and `ContextualCheckBlock` on a height. -/
structure LocalBody (data : LocalData) (node : Node) (block : CBlock) (nHeight : Int) : Prop
    extends LocalBlock data node block where
  final : FinalAt node.height data.adjustedTime block nHeight
  drift : block.isProofOfStake = true → nStakePointerForkHeight ≤ nHeight →
    block.getBlockTime ≤ data.adjustedTime + 60

theorem checkBody_ok {nHeight : Int}
    (height : ((node.mapBlockIndex.prev pindex).map fun prev => prev.nHeight + 1).getD 0 = nHeight) :
    checkBody data node block pindex = .ok () ↔
      FormedAt block nHeight ∧ LocalBody data node block nHeight := by
  simp only [checkBody, contextualCheckBlock, height, bind_eq_ok, checkBlock_ok, checked_iff,
    reject_eq_ok, whenever_eq_ok, Bool.and_eq_true, Bool.and_eq_false_imp, decide_eq_true_eq,
    decide_eq_false_iff_not, not_lt, List.any_eq_false, Bool.not_eq_true', Bool.not_eq_false]
  constructor
  · rintro ⟨_, ⟨formed, known⟩, _, final, _, pointer, drift⟩
    exact ⟨⟨formed, ⟨node.height, data.adjustedTime, final⟩, fun staked fork => pointer ⟨staked, fork⟩⟩,
      ⟨known, final, fun staked fork => drift ⟨staked, fork⟩⟩⟩
  · rintro ⟨formed, known⟩
    exact ⟨(), ⟨formed.toFormed, known.toLocalBlock⟩, (), known.final, (),
      fun both => formed.pointer both.1 both.2, fun both => known.drift both.1 both.2⟩

def LocalData.permissive (adjustedTime nHeight : Int) : LocalData where
  adjustedTime := adjustedTime
  fInitialBlockDownload := true
  isSporkActive spork := spork == .SPORK_13_ENABLE_SUPERBLOCKS
  mapLockedInputs _ := none
  fSynced := true
  nEnabled := 0
  mapMasternodeBlocks _ := none
  mapFinalizedBudgets := [⟨true, nHeight, [⟨0, [], 0⟩], 1⟩]
  mapSeenVetoVotes := []
  winningNode := none
  fCheckpoints := false
  maxreorg := none
  nRand := 0

/-- `ConnectBlock` on top of a ledger, without its local checks. -/
structure Connectable (ledger : Ledger) (block : CBlock) (pindex : CBlockIndex) : Prop
    extends Formed block where
  genesis : block.getHash = ChainParams.hashGenesisBlock →
    pindex.pprev.getD 0 = ledger.coins.hashBlock
  applied : block.getHash ≠ ChainParams.hashGenesisBlock → ∃ coins vtxundo totals,
    applyTransactions ledger.node true block pindex ledger.coins = .ok (coins, vtxundo, totals) ∧
      totals.fScripts = true
  pointer : block.getHash ≠ ChainParams.hashGenesisBlock → isV5Stake block pindex = true →
    ledger.used (stakePointerHash block.stakePointer.outpoint) = none

/-- The reward check of `ConnectBlock` for the totals of a block. -/
def rewardValid (data : LocalData) (node : Node) (block : CBlock) (pindex : CBlockIndex)
    (totals : ConnectTotals) : Bool :=
  let pindex := node.withSupply pindex totals
  let node := node.storeIndex pindex
  ((node.mapBlockIndex.prev pindex).map fun pprev =>
    data.isBlockValueValid node block (nExpectedMint node block pindex pprev totals)
      pindex.nMint).getD false

/-- The local checks of `ConnectBlock`: those of `CheckBlock`, and the reward of a block
whose transactions can be applied. -/
structure LocalConnect (data : LocalData) (node : Node) (fScriptChecks : Bool) (block : CBlock)
    (pindex : CBlockIndex) : Prop extends LocalBlock data node block where
  reward : block.getHash ≠ ChainParams.hashGenesisBlock → ∀ coins vtxundo totals,
    applyTransactions node fScriptChecks block pindex node.pcoinsTip =
      .ok (coins, vtxundo, totals) → rewardValid data node block pindex totals = true

/-- The node is as the ledger describes it, for connecting a block on top: the coins, the
height and the record of the pointer of the block. -/
structure Node.Meets (node : Node) (ledger : Ledger) (block : CBlock) (pindex : CBlockIndex) : Prop
    extends node.OnLedger ledger where
  recorded : isV5Stake block pindex = true →
    ((node.mapUsedStakePointers (stakePointerHash block.stakePointer.outpoint)).isSome =
      (ledger.used (stakePointerHash block.stakePointer.outpoint)).isSome)

omit [Crypto] in
theorem connectReward_ok {totals : ConnectTotals} :
    connectReward data (node.storeIndex (node.withSupply pindex totals)) block
        (node.withSupply pindex totals) totals = .ok () ↔
      rewardValid data node block pindex totals = true ∧ totals.fScripts = true := by
  simp only [connectReward, rewardValid, bind_eq_ok, demand_eq_ok, reject_eq_ok,
    Bool.not_eq_false']
  constructor
  · rintro ⟨pprev, found, _, value, scripts⟩
    rw [found]
    exact ⟨value, scripts⟩
  · rintro ⟨value, scripts⟩
    cases found : (node.storeIndex (node.withSupply pindex totals)).mapBlockIndex.prev
        (node.withSupply pindex totals) with
    | none => simp [found] at value
    | some pprev =>
      rw [found] at value
      exact ⟨pprev, rfl, (), value, scripts⟩

theorem recordPointer_isOk :
    (∃ after, node.recordPointer block pindex = .ok after) ↔
      (isV5Stake block pindex = true →
        (node.mapUsedStakePointers (stakePointerHash block.stakePointer.outpoint)).isSome =
          false) := by
  unfold Node.recordPointer
  cases v5 : isV5Stake block pindex with
  | false => simp
  | true =>
    simp only [Bool.not_true, Bool.false_eq_true, ↓reduceIte, forall_const]
    cases (node.mapUsedStakePointers (stakePointerHash block.stakePointer.outpoint)).isSome with
    | true => simp
    | false => simp

theorem connectFinish_isOk (holds : node.Holds pindex) {view : CCoinsViewCache}
    {vtxundo : List (List CTxInUndo)} {totals : ConnectTotals} :
    (∃ accepted, (connectFinish data node block pindex false view vtxundo totals).verdict =
        .ok accepted) ↔
      (rewardValid data node block pindex totals = true ∧ totals.fScripts = true) ∧
      (isV5Stake block pindex = true →
        (node.mapUsedStakePointers (stakePointerHash block.stakePointer.outpoint)).isSome =
          false) := by
  have holdsSupply : node.Holds (node.withSupply pindex totals) := holds.congr rfl
  have stored := Node.storeIndex_same holdsSupply
  obtain ⟨wrote, fixed⟩ := Node.writeUndo_same (holdsSupply.after stored.toSameEntries) vtxundo
  have undone := stored.trans wrote
  have height := congrArg IndexCore.nHeight (CBlockIndex.core_of_fixed fixed)
  have v5 : isV5Stake block _ = isV5Stake block pindex := isV5Stake_congr block height
  rw [← connectReward_ok, ← v5, ← undone.used, ← recordPointer_isOk]
  unfold connectFinish
  simp only [Bool.false_eq_true, ↓reduceIte]
  cases connectReward data (node.storeIndex (node.withSupply pindex totals)) block
      (node.withSupply pindex totals) totals with
  | error state => simp
  | ok _ =>
    simp only [true_and]
    constructor
    · rintro ⟨accepted, passed⟩
      split at passed
      · contradiction
      · exact ⟨_, ‹_›⟩
    · rintro ⟨after, recorded⟩
      rw [recorded]
      exact ⟨_, rfl⟩

/-- **The verdict of `ConnectBlock`.** On a node that the ledger describes a block is
accepted when it fulfils the checks on the ledger and passes the local ones. -/
theorem Connectable.accepted {fScriptChecks : Bool} {ledger : Ledger}
    (connectable : Connectable ledger block pindex) (meets : node.Meets ledger block pindex)
    (holds : node.Holds pindex) (known : LocalConnect data node fScriptChecks block pindex) :
    ∃ accepted, (connectBlock data node fScriptChecks block pindex node.pcoinsTip false).verdict =
      .ok accepted := by
  have checked : checkBlock data node block (!false) (!false) = .ok () :=
    checkBlock_ok.mpr (checked_iff.mpr ⟨connectable.toFormed, known.toLocalBlock⟩)
  by_cases genesis : block.getHash = ChainParams.hashGenesisBlock
  · rw [connectBlock, if_pos genesis]
    refine ⟨(node.pcoinsTip.setBestBlock pindex.getBlockHash, none), ?_⟩
    simp only [bind_eq_ok, checked, reject_eq_ok, bne_eq_false_iff_eq, meets.coins.hashBlock,
      connectable.genesis genesis, exists_const, true_and]
  · rw [connectBlock, if_neg genesis]
    obtain ⟨_, _, _, applied, scripts⟩ := connectable.applied genesis
    have place : pindex.SamePlace pindex := ⟨rfl, rfl, rfl, rfl⟩
    obtain ⟨coins, vtxundo, totals, appliedHere, _, agrees⟩ :=
      applyTransactions_same meets.coins.symm meets.top.symm place true fScriptChecks applied
    have connected : connectCoins data node fScriptChecks block pindex node.pcoinsTip false =
        .ok (coins, vtxundo, totals) := by
      rw [connectCoins, checked]
      exact appliedHere
    rw [connected]
    refine (connectFinish_isOk holds).mpr ⟨⟨?_, agrees.scripts rfl scripts⟩, fun v5 => ?_⟩
    · exact known.reward genesis _ _ _ appliedHere
    · rw [meets.recorded v5, connectable.pointer genesis v5]
      rfl

theorem connectable_of_accepted {ledger : Ledger} (meets : node.Meets ledger block pindex)
    (holds : node.Holds pindex) {accepted : CCoinsViewCache × Option (List (List CTxInUndo))}
    (passed : (connectBlock data node true block pindex node.pcoinsTip false).verdict =
      .ok accepted) : Connectable ledger block pindex := by
  by_cases genesis : block.getHash = ChainParams.hashGenesisBlock
  · rw [connectBlock, if_pos genesis] at passed
    simp only [bind_eq_ok, reject_eq_ok, bne_eq_false_iff_eq] at passed
    obtain ⟨_, checked, _, parent, _⟩ := passed
    exact ⟨(checked_iff.mp (checkBlock_ok.mp checked)).1,
      fun _ => parent.trans meets.coins.hashBlock, fun other => absurd genesis other,
      fun other => absurd genesis other⟩
  · rw [connectBlock, if_neg genesis] at passed
    split at passed
    · contradiction
    · rename_i coins vtxundo totals connected
      simp only [connectCoins, bind_eq_ok] at connected
      obtain ⟨_, checked, applied⟩ := connected
      have place : pindex.SamePlace pindex := ⟨rfl, rfl, rfl, rfl⟩
      obtain ⟨final, records, totalsB, appliedB, _, agrees⟩ :=
        applyTransactions_same meets.coins meets.top place true true applied
      obtain ⟨⟨_, scripts⟩, free⟩ := (connectFinish_isOk holds).mp ⟨accepted, passed⟩
      refine ⟨(checked_iff.mp (checkBlock_ok.mp checked)).1, fun same => absurd same genesis,
        fun _ => ⟨final, records, totalsB, appliedB, agrees.scripts rfl scripts⟩, fun _ v5 => ?_⟩
      have unrecorded := meets.recorded v5
      rw [free v5] at unrecorded
      exact Option.isNone_iff_eq_none.mp (by rw [← Option.not_isSome, ← unrecorded]; rfl)

end Agouti
