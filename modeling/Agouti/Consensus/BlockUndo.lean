import Agouti.Coins.Undo
import Agouti.Validation.Connect

/-! # What disconnecting a block restores

A connected block is disconnected with the undo data that connecting it wrote.
The undo data of the last output of a transaction carries the coinstake flag of
its entry, but `DisconnectBlock` does not restore the flag. The view before the
block comes back exactly when the block spends no coinstake entry completely and
overwrites no entry with unspent outputs (`disconnectBlock_restores_iff`); BIP30
excludes the second for every block but two.
-/

namespace Agouti

open Verdict

/-- A view as the chain state builds it: the genesis block adds no coins, so every
entry with unspent outputs is from a height above zero. -/
structure MinedView extends CCoinsViewCache where
  mined : ∀ txid, (coins txid).isPruned = false → (coins txid).nHeight ≠ 0

section

variable [ChainParams] [Crypto]

variable {fScriptChecks : Bool} {vtxundo : List (List CTxInUndo)} {pindex : CBlockIndex}
  {after : CCoinsViewCache}

theorem connectTransactions_updates {mapBlockIndex : BlockMap} {nHeight : Int}
    {fStrictPayToScriptHash : Bool} {flags : Nat} {vtx : List CTransaction}
    {view final : CCoinsViewCache} {totals finalTotals : ConnectTotals}
    (connected : connectTransactions mapBlockIndex nHeight fStrictPayToScriptHash fScriptChecks flags
      vtx view totals = .ok (final, vtxundo, finalTotals)) :
    Updates nHeight vtx view final vtxundo := by
  induction vtx generalizing view vtxundo totals with
  | nil =>
    simp only [connectTransactions, Except.ok.injEq, Prod.mk.injEq] at connected
    obtain ⟨rfl, rfl, rfl⟩ := connected
    exact .nil view
  | cons tx rest ih =>
    simp only [connectTransactions, bind_eq_ok, demand_eq_ok] at connected
    obtain ⟨_, _, _, _, tallied, _, ⟨middle, txundo⟩, updated, ⟨_, others, _⟩, connected, same⟩ :=
      connected
    simp only [Except.ok.injEq, Prod.mk.injEq] at same
    obtain ⟨rfl, rfl, rfl⟩ := same
    exact .cons updated (ih connected)

theorem Accepted.updates {data : LocalData} {node : Node} {block : CBlock}
    {before : CCoinsViewCache}
    (accepted : Accepted data node fScriptChecks block pindex before after vtxundo) :
    pindex.pprev = some before.hashBlock ∧
      ∃ coins, Updates pindex.nHeight block.vtx before coins ([] :: vtxundo) ∧
        after = coins.setBestBlock pindex.getBlockHash := by
  obtain ⟨coins, undo, totals, connected, rewarded, rfl, rfl⟩ := accepted.coins
  simp only [connectCoins, applyTransactions, bind_eq_ok, reject_eq_ok, checkBlock_ok] at connected
  obtain ⟨_, checked, _, parent, _, _, _, _, _, _, connected⟩ := connected
  simp only [connectReward, bind_eq_ok, demand_eq_ok, BlockMap.prev, Node.withSupply_pprev,
    Option.bind_eq_some_iff] at rewarded
  obtain ⟨_, ⟨hashPrev, pprev, _⟩, _⟩ := rewarded
  have best : hashPrev = before.hashBlock := by simpa [pprev] using parent
  refine ⟨best ▸ pprev, coins, ?_, rfl⟩
  have updates := connectTransactions_updates connected
  obtain ⟨coinbase, others, list, isCoinBase, _⟩ := checked.transactions
  rw [list] at updates ⊢
  cases updates with
  | cons updated rest =>
    have none : coinbase.hasInputs = false := by simp [CTransaction.hasInputs, isCoinBase]
    simp only [updateCoins, none, Bool.false_eq_true, ↓reduceIte, Option.map_some,
      Option.some.injEq, Prod.mk.injEq] at updated
    obtain ⟨rfl, rfl⟩ := updated
    exact .cons (by simp [updateCoins, none]) rest

/-- The changes that the block makes to the entry of one transaction hash. -/
def CBlock.eventsOf (block : CBlock) (nHeight : Int) (txid : Uint256) : List CoinEvent :=
  coinLog.eventsAt txid (blockEvents nHeight block.vtx)

/-- The block overwrites no entry with unspent outputs and does not spend a
coinstake entry completely. -/
structure KeepsStakeFlags (block : CBlock) (nHeight : Int) (view : CCoinsViewCache) : Prop where
  overwritten : ∀ txid, (view.coins txid).isPruned = false →
    overwrites (block.eventsOf nHeight txid) = true →
      (view.coins txid).coveredBy (spentFirst (block.eventsOf nHeight txid)) = true
  staked : ∀ txid, (view.coins txid).isPruned = false → (view.coins txid).fCoinStake = true →
    (view.coins txid).coveredBy (spentFirst (block.eventsOf nHeight txid)) = false

/-- Disconnecting the block from the view `after` succeeds and gives back the coins
of the view `before` on top of the parent. -/
def Restores (block : CBlock) (pindex : CBlockIndex) (vtxundo : List (List CTxInUndo))
    (after before : CCoinsViewCache) : Prop :=
  ∃ restored fClean, disconnectCoins block pindex vtxundo after = some (restored, fClean) ∧
    restored.Same before ∧ pindex.pprev = some restored.hashBlock

theorem Accepted.disconnects {data : LocalData} {node : Node} {block : CBlock}
    {before : CCoinsViewCache}
    (accepted : Accepted data node fScriptChecks block pindex before after vtxundo) :
    ∃ restored fClean, disconnectCoins block pindex vtxundo after = some (restored, fClean) ∧
      restored.hashBlock = before.hashBlock ∧ pindex.pprev = some before.hashBlock ∧
      ∀ txid, ∃ final records,
        coinLog.runEntry (block.eventsOf pindex.nHeight txid) (before.coins txid) =
          some (final, records) ∧
        restored.coins txid = coinLog.rewindEntry records final := by
  obtain ⟨parent, coins, updates, rfl⟩ := accepted.updates
  obtain ⟨records, ran, _, length, rewinds⟩ := updates.run
  obtain ⟨fClean, disconnected⟩ := rewinds (coins.setBestBlock pindex.getBlockHash) true
  refine ⟨⟨coinLog.rewind records coins.coins, before.hashBlock⟩, fClean, ?_, rfl, parent,
    fun txid => ?_⟩
  · have counted : vtxundo.length + 1 = block.vtx.length := by simpa using length
    simp only [disconnectCoins, CCoinsViewCache.setBestBlock, guard, ↓reduceIte, counted]
    simp only [CCoinsViewCache.setBestBlock] at disconnected
    simp only [disconnected, parent, Option.bind_eq_bind, Option.pure_def, Option.bind_some]
  · exact ⟨_, _, coinLog.run_entry ran txid, coinLog.rewind_entry records coins.coins txid⟩

theorem Accepted.restores_iff {data : LocalData} {node : Node} {block : CBlock} {view : MinedView}
    (accepted : Accepted data node fScriptChecks block pindex view.toCCoinsViewCache after vtxundo) :
    Restores block pindex vtxundo after view.toCCoinsViewCache ↔
      KeepsStakeFlags block pindex.nHeight view.toCCoinsViewCache := by
  obtain ⟨restored, fClean, disconnected, best, parent, entries⟩ := accepted.disconnects
  have entry : ∀ txid, (restored.coins txid).Same (view.coins txid) ↔
      ((view.coins txid).isPruned = false →
        (overwrites (block.eventsOf pindex.nHeight txid) = true →
          (view.coins txid).coveredBy (spentFirst (block.eventsOf pindex.nHeight txid)) = true) ∧
        ((view.coins txid).fCoinStake = true →
          (view.coins txid).coveredBy (spentFirst (block.eventsOf pindex.nHeight txid)) =
            false)) := by
    intro txid
    obtain ⟨final, records, ran, rewound⟩ := entries txid
    rw [rewound]
    exact rewindEntry_same ran (view.mined txid)
  constructor
  · rintro ⟨result, _, again, same, _⟩
    rw [disconnected] at again
    obtain ⟨rfl, _⟩ := Prod.mk.inj (Option.some.inj again)
    exact ⟨fun txid live => ((entry txid).mp (same.coins txid) live).1,
      fun txid live => ((entry txid).mp (same.coins txid) live).2⟩
  · intro keeps
    refine ⟨restored, fClean, disconnected, ⟨fun txid => ?_, best⟩, best ▸ parent⟩
    exact (entry txid).mpr fun live => ⟨keeps.overwritten txid live, keeps.staked txid live⟩

/-- **When disconnecting a block restores the view.** For every accepted block,
disconnecting it with its undo data gives back the view before it, with the
parent as best block, exactly when the block overwrites no unspent output and
spends no coinstake entry completely. -/
theorem disconnectBlock_restores_iff {data : LocalData} {node : Node} {fScriptChecks : Bool}
    {block : CBlock} {pindex : CBlockIndex} {view : MinedView} {after : CCoinsViewCache}
    {vtxundo : List (List CTxInUndo)}
    (accepted : (connectBlock data node fScriptChecks block pindex view.toCCoinsViewCache
      false).verdict = .ok (after, some vtxundo)) :
    Restores block pindex vtxundo after view.toCCoinsViewCache ↔
      KeepsStakeFlags block pindex.nHeight view.toCCoinsViewCache :=
  (connectBlock_accepted accepted).restores_iff

end

namespace StakeSpend

/-! A block of the regression test network that spends a mature coinstake
completely. -/

/-- The chain below the block: block `n` has the hash `n`, up to height 116. -/
def chain : Node where
  mapBlockIndex hash :=
    if hash.toNat ≤ 116 then
      some { phashBlock := some hash, pprev := if hash = 0 then none else some (hash - 1),
             nHeight := hash.toNat, nTime := 1400000000 + 600 * hash.toNat }
    else none
  vChain := (List.range 117).map (BitVec.ofNat 256)
  diskBlocks _ := none
  diskUndo _ := none
  pcoinsTip := ⟨fun _ => {}, 116⟩
  mapProofOfStake := []
  setStakeSeen := []
  mapUsedStakePointers _ := none
  setBlockIndexCandidates := []
  mapBlocksUnlinked := []
  nBlockSequenceId := 0

def data : LocalData where
  adjustedTime := 1400070200
  fInitialBlockDownload := false
  isSporkActive _ := false
  mapLockedInputs _ := none
  fSynced := false
  nEnabled := 0
  mapMasternodeBlocks _ := none
  mapFinalizedBudgets := []
  mapSeenVetoVotes := []
  winningNode := none
  fCheckpoints := true
  maxreorg := none
  nRand := 0

def coinstake : CCoins :=
  { fCoinStake := true, vout := [.null, { nValue := 10, scriptPubKey := [0x51] }], nHeight := 101,
    nVersion := 1 }

def view : MinedView where
  coins txid := if txid = 7 then coinstake else {}
  hashBlock := 116
  mined txid live := by
    by_cases here : txid = 7
    · simp [here, coinstake]
    · rw [if_neg here] at live
      contradiction

/-- The transactions: an empty coinbase, a coinstake and the spend. -/
def vtx : List CTransaction :=
  [{ nVersion := 1, vin := [{ prevout := .null, scriptSig := [0x51, 0x51] }],
     vout := [.empty], nLockTime := 0 },
   { nVersion := 1, vin := [{ prevout := .null, scriptSig := [CScript.OP_PROOFOFSTAKE] }],
     vout := [.empty, { nValue := 1, scriptPubKey := [0x51] }], nLockTime := 0 },
   { nVersion := 1, vin := [{ prevout := ⟨7, 1⟩, scriptSig := [] }],
     vout := [{ nValue := 5, scriptPubKey := [0x51] }], nLockTime := 0 }]

def block : CBlock :=
  let body : CBlock :=
    { nVersion := 5, hashPrevBlock := 116, hashMerkleRoot := 0, nTime := 1400070200,
      nBits := 0x1e00ffff, nNonce := 0, vtx := vtx, vchBlockSig := [1],
      stakePointer := { StakePointer.null with hashBlock := 90, txid := 3, nPos := 1 } }
  { body with hashMerkleRoot := (@CBlock.buildMerkleTree checksumCrypto body).1 }

def pindex : CBlockIndex :=
  { CBlockIndex.ofBlock block with
    phashBlock := some (@CBlock.getHash checksumCrypto block), pprev := some 116, nHeight := 117 }

end StakeSpend

section

local instance : ChainParams := regTestParams 0
local instance : Crypto := checksumCrypto

open StakeSpend

theorem StakeSpend.connects : ∃ after vtxundo,
    (connectBlock data chain true block pindex
      view.toCCoinsViewCache false).verdict = .ok (after, some vtxundo) := by
  apply ConnectResult.accepted_of_blockundo
  decide +kernel

/-- The coinstake entry that the block spends comes back without its flag. -/
theorem stakeSpend_not_restored : ∃ after vtxundo,
    (connectBlock data chain true block pindex
      view.toCCoinsViewCache false).verdict = .ok (after, some vtxundo) ∧
    ¬Restores block pindex vtxundo after
      view.toCCoinsViewCache := by
  obtain ⟨after, vtxundo, accepted⟩ := connects
  refine ⟨after, vtxundo, accepted, ?_⟩
  rw [(connectBlock_accepted accepted).restores_iff]
  intro keeps
  have staked := keeps.staked 7 (by decide) (by decide)
  have spent : (view.coins 7).coveredBy
      (spentFirst (block.eventsOf pindex.nHeight 7)) = true := by
    decide +kernel
  exact absurd (spent.symm.trans staked) (by decide)

theorem disconnectBlock_restores_iff_stakeSpend : ∃ after vtxundo,
    Restores block pindex vtxundo after view.toCCoinsViewCache ↔
      KeepsStakeFlags block pindex.nHeight
        view.toCCoinsViewCache := by
  obtain ⟨after, vtxundo, accepted⟩ := connects
  exact ⟨after, vtxundo, disconnectBlock_restores_iff accepted⟩

end

end Agouti
