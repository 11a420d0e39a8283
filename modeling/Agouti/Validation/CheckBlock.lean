import Agouti.Masternode.Payments
import Agouti.Validation.Transaction

/-! # Checks of a block

`CheckBlockHeader`, `CheckBlock`, `ContextualCheckBlockHeader` and
`ContextualCheckBlock` of `main.cpp`, in the order of their statements. The node
is read for the parent of the block and the active chain, the local data for the
clock, the transaction locks and the payees.
-/

namespace Agouti

def MAX_BLOCK_SIZE_CURRENT : Nat := 2000000
def MAX_BLOCK_SIGOPS_CURRENT : Nat := 2000000 / 50
def MAX_TX_SIGOPS_CURRENT : Nat := MAX_BLOCK_SIGOPS_CURRENT / 5

/-- `CheckProofOfWork`: the range of the target; the hash is not compared. -/
def checkProofOfWork [ChainParams] (nBits : Nat) : Bool :=
  let bnTarget := Uint256.setCompact nBits
  ChainParams.fSkipProofOfWorkCheck ||
    !(Uint256.compactNegative nBits || bnTarget == 0 || Uint256.compactOverflow nBits ||
      decide (ChainParams.bnProofOfWorkLimit < bnTarget))

namespace Checkpoints

variable [ChainParams]

def checkBlock (data : LocalData) (nHeight : Int) (hash : Uint256) : Bool :=
  !data.fCheckpoints ||
    ((ChainParams.mapCheckpoints.find? fun checkpoint => checkpoint.1 == nHeight).map fun checkpoint =>
      hash == checkpoint.2).getD true

def getLastCheckpoint (data : LocalData) (node : Node) : Option CBlockIndex :=
  if !data.fCheckpoints then none
  else ChainParams.mapCheckpoints.reverse.findSome? fun checkpoint =>
    node.mapBlockIndex checkpoint.2

end Checkpoints

namespace Verdict

variable [ChainParams]

def checkBlockHeader (nBits : Nat) (fCheckPOW : Bool) : Verdict Unit :=
  reject (fCheckPOW && !checkProofOfWork nBits) (doS 50 REJECT_INVALID "high-hash")

/-- The proof-of-stake form of `CheckBlock`: an empty coinbase, a coinstake in the
second place and none behind it. -/
def checkProofOfStakeForm (block : CBlock) : Verdict Unit := do
  reject ((block.vtx.head?.map fun coinbase => coinbase.vout.length != 1 ||
    !(coinbase.vout.head?.map CTxOut.isEmpty).getD false).getD true) (doS 100 0 "")
  reject (!block.isProofOfStake) (doS 100 0 "")
  reject ((block.vtx.drop 2).any CTransaction.isCoinStake) (doS 100 0 "")

variable [Crypto]

/-- The merkle root checks of `CheckBlock`. -/
def checkMerkleRoot (block : CBlock) : Verdict Unit := do
  let (hashMerkleRoot2, mutated) := block.buildMerkleTree
  reject (block.hashMerkleRoot != hashMerkleRoot2) (corrupt 100 REJECT_INVALID "bad-txnmrklroot")
  reject mutated (corrupt 100 REJECT_INVALID "bad-txns-duplicate")

/-- A transaction of the block spends an outpoint that is locked for another
transaction. -/
def conflictsWithLock (data : LocalData) (block : CBlock) : Bool :=
  block.vtx.any fun tx => !tx.isCoinBase && tx.vin.any fun txin =>
    ((data.mapLockedInputs txin.prevout).map fun locked => locked != tx.getHash).getD false

/-- The payee check of `CheckBlock`, skipped without a tip, for a block without a
known parent and during the initial download. A check that never returns is no
verdict on the block. -/
def checkPayee (data : LocalData) (node : Node) (block : CBlock) : Verdict Unit :=
  let nHeight := node.heightOnTopOf block.hashPrevBlock
  whenever (nHeight != 0 && !data.fInitialBlockDownload) do
    let valid ← demand (data.isBlockPayeeValid node.tipMoneySupply block nHeight)
      (failure.error "")
    reject (!valid) (doS 0 REJECT_INVALID "bad-cb-payee")

/-- `CheckTransaction` for every transaction of a block. -/
def checkTransactions : List CTransaction → Verdict Unit
  | [] => .ok ()
  | tx :: rest => do
      checkTransaction tx
      checkTransactions rest

/-- The bound that `CheckBlock` puts on the time of a block. -/
def futureDrift (block : CBlock) : Int := if block.isProofOfStake then 180 else 7200

def checkBlock (data : LocalData) (node : Node) (block : CBlock)
    (fCheckPOW fCheckMerkleRoot : Bool) : Verdict Unit := do
  (checkBlockHeader block.nBits fCheckPOW).mapError fun state =>
    state.doS 100 REJECT_INVALID "bad-header" true
  reject (decide (data.adjustedTime + futureDrift block < block.getBlockTime))
    (invalid REJECT_INVALID "time-too-new")
  whenever fCheckMerkleRoot (checkMerkleRoot block)
  reject (block.vtx == [] || decide (MAX_BLOCK_SIZE_CURRENT < block.vtx.length) ||
    decide (MAX_BLOCK_SIZE_CURRENT < block.serialize.length))
    (doS 100 REJECT_INVALID "bad-blk-length")
  reject (!(block.vtx.head?.map CTransaction.isCoinBase).getD false)
    (doS 100 REJECT_INVALID "bad-cb-missing")
  reject (block.vtx.tail.any CTransaction.isCoinBase) (doS 100 REJECT_INVALID "bad-cb-multiple")
  whenever block.isProofOfStake (checkProofOfStakeForm block)
  reject (data.isSporkActive .SPORK_3_SWIFTTX_BLOCK_FILTERING && conflictsWithLock data block)
    (doS 0 REJECT_INVALID "conflicting-tx-ix")
  checkPayee data node block
  checkTransactions block.vtx
  reject (decide (MAX_BLOCK_SIGOPS_CURRENT < (block.vtx.map CTransaction.getLegacySigOpCount).sum))
    (corrupt 100 REJECT_INVALID "bad-blk-sigops")

/-- What a block that passes `CheckBlock` fulfils. -/
structure Checked (data : LocalData) (node : Node) (block : CBlock)
    (fCheckPOW fCheckMerkleRoot : Bool) : Prop where
  header : checkBlockHeader block.nBits fCheckPOW = .ok ()
  time : block.getBlockTime ≤ data.adjustedTime + futureDrift block
  merkleRoot : fCheckMerkleRoot = true → checkMerkleRoot block = .ok ()
  size : block.vtx.length ≤ MAX_BLOCK_SIZE_CURRENT ∧
    block.serialize.length ≤ MAX_BLOCK_SIZE_CURRENT
  transactions : ∃ coinbase others, block.vtx = coinbase :: others ∧
    coinbase.isCoinBase = true ∧ ∀ tx ∈ others, tx.isCoinBase = false
  form : block.isProofOfStake = true → checkProofOfStakeForm block = .ok ()
  locks : data.isSporkActive .SPORK_3_SWIFTTX_BLOCK_FILTERING = true →
    conflictsWithLock data block = false
  payee : checkPayee data node block = .ok ()
  checked : checkTransactions block.vtx = .ok ()
  sigOps : (block.vtx.map CTransaction.getLegacySigOpCount).sum ≤ MAX_BLOCK_SIGOPS_CURRENT

theorem checkBlock_ok {data : LocalData} {node : Node} {block : CBlock}
    {fCheckPOW fCheckMerkleRoot : Bool} {result : Unit} :
    checkBlock data node block fCheckPOW fCheckMerkleRoot = .ok result ↔
      Checked data node block fCheckPOW fCheckMerkleRoot := by
  simp only [checkBlock, bind_eq_ok, mapError_eq_ok, reject_eq_ok, whenever_eq_ok,
    decide_eq_false_iff_not, not_lt, Bool.or_eq_false_iff, beq_eq_false_iff_ne, Bool.not_eq_false',
    Bool.and_eq_false_imp]
  constructor
  · rintro ⟨_, header, _, time, _, root, _, ⟨⟨filled, count⟩, size⟩, _, coinbase, _, others, _, form,
      _, locks, _, payee, _, checked, sigOps⟩
    refine ⟨header, time, root, ⟨count, size⟩, ?_, form, locks, payee, checked, sigOps⟩
    cases list : block.vtx with
    | nil => exact absurd list filled
    | cons first rest =>
      rw [list] at coinbase others
      exact ⟨first, rest, rfl, coinbase, by simpa using others⟩
  · intro passed
    obtain ⟨first, rest, list, coinbase, others⟩ := passed.transactions
    refine ⟨(), passed.header, (), passed.time, (), passed.merkleRoot, (),
      ⟨⟨?_, passed.size.1⟩, passed.size.2⟩, (), ?_, (), ?_, (), passed.form, (), passed.locks, (),
      passed.payee, (), passed.checked, passed.sigOps⟩
    · rw [list]
      exact List.cons_ne_nil first rest
    · rw [list]
      exact coinbase
    · rw [list]
      simpa using others

/-- The reorganisation depth `ContextualCheckBlockHeader` allows at a height. -/
def maxReorgDepth (data : LocalData) (nHeight : Int) : Int :=
  let nMaxReorgDepth := data.maxreorg.getD nMaxReorganizationDepth
  if nStakePointerForkHeight ≤ nHeight then min nMaxReorgDepth nKernelModifierOffset
  else nMaxReorgDepth

/-- `ContextualCheckBlockHeader` for a block on top of `pindexPrev`. -/
def contextualCheckBlockHeader (data : LocalData) (node : Node) (block : CBlockHeader)
    (pindexPrev : Option CBlockIndex) : Verdict Unit :=
  let hash := block.getHash
  if hash = ChainParams.hashGenesisBlock then .ok ()
  else do
    let pindexPrev ← demand pindexPrev (failure.error "")
    let nHeight := pindexPrev.nHeight + 1
    reject (decide (maxReorgDepth data nHeight ≤ node.height - nHeight)) (doS 1 0 "")
    reject (decide ((block.nTime : Int) ≤ node.mapBlockIndex.getMedianTimePast pindexPrev))
      (invalid REJECT_INVALID "time-too-old")
    reject (!Checkpoints.checkBlock data nHeight hash)
      (doS 100 REJECT_CHECKPOINT "checkpoint mismatch")
    reject (((Checkpoints.getLastCheckpoint data node).map fun pcheckpoint =>
      decide (nHeight < pcheckpoint.nHeight)).getD false) (doS 0 0 "")

/-- The form `ContextualCheckBlock` requires of a proof-of-stake block from the
stake pointer fork on. -/
def checkStakePointerForm (block : CBlock) : Verdict Unit := do
  reject (decide (block.nVersion < 5)) (doS 100 REJECT_INVALID "bad-version-pos")
  reject (!block.hasV5CoinStake) (doS 100 REJECT_INVALID "bad-cs-v5-required")
  reject block.stakePointer.isNull (doS 100 REJECT_INVALID "bad-stakepointer-missing")

def contextualCheckBlock (data : LocalData) (node : Node) (block : CBlock)
    (pindexPrev : Option CBlockIndex) : Verdict Unit := do
  let nHeight := (pindexPrev.map fun prev => prev.nHeight + 1).getD 0
  reject (block.vtx.any fun tx =>
    !isFinalTx node.height data.adjustedTime tx nHeight block.getBlockTime)
    (doS 10 REJECT_INVALID "bad-txns-nonfinal")
  let fStakePointer := block.isProofOfStake && decide (nStakePointerForkHeight ≤ nHeight)
  whenever fStakePointer (checkStakePointerForm block)
  reject (fStakePointer && decide (data.adjustedTime + 60 < block.getBlockTime))
    (invalid REJECT_INVALID "time-too-new")

end Verdict

end Agouti
