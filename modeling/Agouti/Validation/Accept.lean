import Agouti.Validation.ChainState
import Agouti.Validation.StakePointer

/-! # Accepting headers and blocks

`AddToBlockIndex`, `ReceivedBlockTransactions`, `AcceptBlockHeader`, `AcceptBlock` and
`ProcessNewBlock` of `main.cpp`. A header alone is a block without transactions. Whether the body
could be written to disk is an argument.
-/

namespace Agouti

open Verdict

/-- `CBlockIndexWorkComparator`. -/
def CBlockIndex.worse (pa pb : CBlockIndex) : Bool :=
  if pa.nChainWork ≠ pb.nChainWork then decide (pa.nChainWork < pb.nChainWork)
  else if pa.nSequenceId ≠ pb.nSequenceId then decide (pb.nSequenceId < pa.nSequenceId)
  else decide (pb.getBlockHash < pa.getBlockHash)

namespace Node

/-- Insert an entry into `setBlockIndexCandidates` unless the tip is better. -/
def insertCandidate (node : Node) (pindex : CBlockIndex) : Node :=
  if (node.tip.map pindex.worse).getD false then node
  else
    { node with
      setBlockIndexCandidates := node.setBlockIndexCandidates.insert pindex.getBlockHash }

/-- Set `BLOCK_FAILED_VALID`. -/
def markFailed (node : Node) (hash : Uint256) : Node :=
  match node.mapBlockIndex hash with
  | none => node
  | some pindex =>
    node.setIndex hash { pindex with nStatus := { pindex.nStatus with failedValid := true } }

variable [Crypto]

/-- The entry that `AddToBlockIndex` creates. -/
def newIndex (node : Node) (block : CBlock) : CBlockIndex :=
  let pindexPrev := node.mapBlockIndex block.hashPrevBlock
  let pindexNew :=
    { CBlockIndex.ofBlock block with
      phashBlock := some block.getHash
      pprev := pindexPrev.map fun _ => block.hashPrevBlock
      nHeight := (pindexPrev.map fun (prev : CBlockIndex) => prev.nHeight + 1).getD 0
      hashProofOfStake :=
        if pindexPrev.isSome && block.isProofOfStake then
          (node.mapProofOfStake.lookup block.getHash).getD 0
        else 0 }
  let nChainWorkPrev := (pindexPrev.map CBlockIndex.nChainWork).getD 0
  { pindexNew with nChainWork := nChainWorkPrev + getBlockProof pindexNew }.raiseValidity
    BLOCK_VALID_TREE

def addToBlockIndex (node : Node) (block : CBlock) : Node :=
  if (node.mapBlockIndex block.getHash).isSome then node
  else
    let pindexNew := node.newIndex block
    { node.setIndex block.getHash pindexNew with
      setStakeSeen :=
        if pindexNew.isProofOfStake then
          node.setStakeSeen.insert (pindexNew.prevoutStake, pindexNew.nStakeTime)
        else node.setStakeSeen }

/-- The entry after `ReceivedBlockTransactions` has seen the body, without the
totals of the chain. -/
def receivedIndex (node : Node) (block : CBlock) (pindexNew : CBlockIndex) : CBlockIndex :=
  let pindexNew :=
    if block.isProofOfStake then
      { pindexNew with
        fProofOfStake := true
        prevoutStake := block.getProofOfStake.1
        nStakeTime := block.nTime
        hashProofOfStake :=
          if pindexNew.hashProofOfStake = 0 then
            (node.mapProofOfStake.lookup block.getHash).getD 0
          else pindexNew.hashProofOfStake }
    else pindexNew
  { pindexNew with
    nTx := block.vtx.length, nChainTx := 0,
    nStatus := { pindexNew.nStatus with haveData := true } }.raiseValidity BLOCK_VALID_TRANSACTIONS

/-- A block whose ancestors all have their transactions gets its totals and becomes a
candidate. -/
def linkBlock (node : Node) (hash : Uint256) (pindex : CBlockIndex) : Node :=
  let nChainTxPrev := ((node.mapBlockIndex.prev pindex).map CBlockIndex.nChainTx).getD 0
  let pindex :=
    { pindex with
      nChainTx := nChainTxPrev + pindex.nTx, nSequenceId := node.nBlockSequenceId }
  { node.setIndex hash pindex with nBlockSequenceId := node.nBlockSequenceId + 1 }
    |>.insertCandidate pindex

/-- The loop of `ReceivedBlockTransactions`: blocks whose ancestors all have their
transactions get their totals and become candidates. Every block in the queue but
the first one has left `mapBlocksUnlinked`, which bounds the number of rounds. -/
def linkBlocks : Nat → List Uint256 → Node → Node
  | 0, _, node => node
  | _, [], node => node
  | fuel + 1, hash :: queue, node =>
    match node.mapBlockIndex hash with
    | none => linkBlocks fuel queue node
    | some pindex =>
      let node := node.linkBlock hash pindex
      let (range, others) := node.mapBlocksUnlinked.partition fun link => link.1 == hash
      linkBlocks fuel (queue ++ range.map Prod.snd) { node with mapBlocksUnlinked := others }

def receivedBlockTransactions (node : Node) (block : CBlock) (pindexNew : CBlockIndex) : Node :=
  let pindexNew := node.receivedIndex block pindexNew
  let hash := pindexNew.getBlockHash
  let node :=
    { node.setIndex hash pindexNew with
      setStakeSeen :=
        if block.isProofOfStake then
          node.setStakeSeen.insert (pindexNew.prevoutStake, pindexNew.nStakeTime)
        else node.setStakeSeen }
  match pindexNew.pprev with
  | none => linkBlocks (node.mapBlocksUnlinked.length + 1) [hash] node
  | some hashPrev =>
    match node.mapBlockIndex hashPrev with
    | none => node
    | some prev =>
      if prev.nChainTx ≠ 0 then linkBlocks (node.mapBlocksUnlinked.length + 1) [hash] node
      else if prev.isValid BLOCK_VALID_TREE then
        { node with mapBlocksUnlinked := node.mapBlocksUnlinked ++ [(hashPrev, hash)] }
      else node

/-- `WriteBlockToDisk` and `ReceivedBlockTransactions`. -/
def storeBlock (node : Node) (block : CBlock) (pindex : CBlockIndex) : Node :=
  { node with
    diskBlocks := Function.update node.diskBlocks pindex.getBlockHash (some block) }
    |>.receivedBlockTransactions block pindex

end Node

namespace CBlock

/-- The key of the coinstake output that signs a block below version 5. A key hash
is read as a key and then is none. -/
def legacySigner (block : CBlock) : Option CPubKey :=
  ((block.vtx[1]?.bind fun coinstake => coinstake.vout[1]?).bind fun txout =>
    txout.scriptPubKey.solvePubKey <|> txout.scriptPubKey.solvePubKeyHash).map CPubKey.ofBytes

/-- `CBlock::CheckBlockSignature()`. -/
def checkOwnSignature [Crypto] (block : CBlock) : Bool :=
  if block.isProofOfWork then block.vchBlockSig == []
  else if 5 ≤ block.nVersion then block.checkBlockSignature block.stakePointer.pubKeyProofOfStake
  else (block.legacySigner.map block.checkBlockSignature).getD false

end CBlock

variable [ChainParams] [Crypto]

namespace Verdict

/-- The parent of a block in `AcceptBlock` and `AcceptBlockHeader`; none for the
genesis block. -/
def checkParent (node : Node) (block : CBlock) : Verdict (Option CBlockIndex) :=
  if block.getHash = ChainParams.hashGenesisBlock then .ok none
  else do
    let pindexPrev ← demand (node.mapBlockIndex block.hashPrevBlock) (doS 0 0 "bad-prevblk")
    reject pindexPrev.nStatus.failed (doS 100 REJECT_INVALID "bad-prevblk")
    .ok (some pindexPrev)

/-- The checks of `AcceptBlockHeader` for a header that is not known. -/
def checkNewHeader (data : LocalData) (node : Node) (block : CBlock) : Verdict Unit := do
  checkBlockHeader block.nBits false
  let pindexPrev ← checkParent node block
  contextualCheckBlockHeader data node block.toCBlockHeader pindexPrev

/-- The checks of `AcceptBlock` whose failure marks the block. -/
def checkBody (data : LocalData) (node : Node) (block : CBlock) (pindex : CBlockIndex) :
    Verdict Unit := do
  checkBlock data node block true true
  contextualCheckBlock data node block (node.mapBlockIndex.prev pindex)

end Verdict

def acceptBlockHeader (data : LocalData) (node : Node) (block : CBlock) :
    Node × Verdict CBlockIndex :=
  match node.mapBlockIndex block.getHash with
  | some pindex =>
    (node, if pindex.nStatus.failed then .error (invalid 0 "duplicate") else .ok pindex)
  | none =>
    match checkNewHeader data node block with
    | .error state => (node, .error state)
    | .ok () => (node.addToBlockIndex block, .ok (node.newIndex block))

/-- `CheckWork` as `AcceptBlock` calls it, not for the genesis block. -/
def acceptWork [Legacy] (data : LocalData) (node : Node) (block : CBlock)
    (pindexPrev : Option CBlockIndex) : Option Node :=
  match pindexPrev with
  | none => some node
  | some pindexPrev => checkWork data node block pindexPrev

/-- The part of `AcceptBlock` behind the header. -/
def acceptBody (data : LocalData) (node : Node) (block : CBlock) (pindex : CBlockIndex)
    (written : Bool) : Node × Verdict Unit :=
  if pindex.nStatus.haveData then (node, .ok ())
  else
    match checkBody data node block pindex with
    | .error state =>
      (if state.isInvalid && !state.corruptionPossible then node.markFailed pindex.getBlockHash
       else node, .error state)
    | .ok () =>
      if written then (node.storeBlock block pindex, .ok ())
      else (node, .error (failure.error "Failed to write block"))

/-- `AcceptBlock`. `written` is the outcome of `FindBlockPos` and
`WriteBlockToDisk`. -/
def acceptBlock [Legacy] (data : LocalData) (node : Node) (block : CBlock) (written : Bool) :
    Node × Verdict Unit :=
  match checkParent node block with
  | .error state => (node, .error state)
  | .ok pindexPrev =>
    match acceptWork data node block pindexPrev with
    | none => (node, .error failure)
    | some node =>
      match acceptBlockHeader data node block with
      | (node, .error state) => (node, .error state)
      | (node, .ok pindex) => acceptBody data node block pindex written

/-- The body of the block is stored. -/
def Node.haveBlockData (node : Node) (hash : Uint256) : Bool :=
  ((node.mapBlockIndex hash).map fun pindex => pindex.nStatus.haveData).getD false

/-- The duplicate check of `ProcessNewBlock`: the stake was seen before and the block
is not stored. -/
def isDuplicateStake (node : Node) (block : CBlock) : Bool :=
  block.isProofOfStake && node.setStakeSeen.elem block.getProofOfStake &&
    !node.haveBlockData block.getHash

/-- `ProcessNewBlock` up to `ActivateBestChain`. -/
def processNewBlock [Legacy] (data : LocalData) (node : Node) (block : CBlock)
    (fromPeer written : Bool) : Node × Bool :=
  if !(block.isProofOfStake && decide (5 ≤ block.nVersion)) && !block.checkOwnSignature then
    (node, false)
  else if isDuplicateStake node block then (node, false)
  else if decide (block.getHash ≠ ChainParams.hashGenesisBlock) && fromPeer &&
      (node.mapBlockIndex block.hashPrevBlock).isNone then (node, false)
  else
    match checkBlock data node block true true with
    | .error _ => (node, false)
    | .ok () =>
      let (node, verdict) := acceptBlock data node block written
      (node, verdict.toOption.isSome)

end Agouti
