import Agouti.Validation.Connect

/-! # Changing the active chain

`ConnectTip`, `DisconnectTip`, `TestBlockValidity`, `RebuildStakePointerCache` and
`CVerifyDB::VerifyDB` of `main.cpp`: every caller of `ConnectBlock` and `DisconnectBlock`.
`TestBlockValidity` and `VerifyDB` work on scratch views; the global state that `ConnectBlock` and
`DisconnectBlock` change is the live one all the same.
-/

namespace Agouti

open Verdict

namespace Node

/-- `chainActive.SetTip`, for an entry whose predecessors are on the chain. -/
def setTip (node : Node) (pindex : CBlockIndex) : Node :=
  { node with vChain := node.vChain.take pindex.nHeight.toNat ++ [pindex.getBlockHash] }

/-- `chainActive.SetTip(chainActive.Tip()->pprev)`. -/
def dropTip (node : Node) : Node := { node with vChain := node.vChain.dropLast }

/-- `InvalidBlockFound`, without the messages to the sender. -/
def invalidBlockFound (node : Node) (hash : Uint256) (state : CValidationState) : Node :=
  if state.corruptionPossible then node
  else
    match node.mapBlockIndex hash with
    | none => node
    | some pindex =>
      { node.setIndex hash
          { pindex with nStatus := { pindex.nStatus with failedValid := true } } with
        setBlockIndexCandidates := node.setBlockIndexCandidates.erase hash }

end Node

variable [ChainParams] [Crypto]

/-- `ConnectTip`. `flushed` is the outcome of `FlushStateToDisk`. -/
def connectTip (data : LocalData) (node : Node) (fScriptChecks : Bool) (pindexNew : CBlockIndex)
    (pblock : Option CBlock) (flushed : Bool) : Node × Verdict Unit :=
  match pblock <|> node.readBlockFromDisk pindexNew with
  | none => (node, .error (failure.error "Failed to read block"))
  | some block =>
    let result := connectBlock data node fScriptChecks block pindexNew node.pcoinsTip false
    match result.verdict with
    | .error state =>
      if state.isInvalid then
        (result.node.invalidBlockFound pindexNew.getBlockHash state, .error state)
      else (result.node, .error state)
    | .ok (view, _) =>
      let node := { result.node with pcoinsTip := view }
      if flushed then (node.setTip pindexNew, .ok ())
      else (node, .error (failure.error "Failed to write to block index"))

def disconnectTip (node : Node) (flushed : Bool) : Node × Bool :=
  match node.tip with
  | none => (node, false)
  | some pindexDelete =>
    match node.readBlockFromDisk pindexDelete with
    | none => (node, false)
    | some block =>
      match disconnectBlock node block pindexDelete node.pcoinsTip with
      | none => (node, false)
      | some (changed, view, fClean) =>
        if !fClean then (changed, false)
        else if flushed then ({ changed with pcoinsTip := view }.dropTip, true)
        else ({ changed with pcoinsTip := view }, false)

/-- `TestBlockValidity`, on top of the tip. -/
def testBlockValidity (data : LocalData) (node : Node) (fScriptChecks : Bool) (block : CBlock)
    (pindexPrev : CBlockIndex) (fCheckPOW fCheckMerkleRoot : Bool) : Node × Verdict Unit :=
  let checks := do
    contextualCheckBlockHeader data node block.toCBlockHeader (some pindexPrev)
    checkBlock data node block fCheckPOW fCheckMerkleRoot
    contextualCheckBlock data node block (some pindexPrev)
  match checks with
  | .error state => (node, .error state)
  | .ok () =>
    let indexDummy :=
      { CBlockIndex.ofBlock block with
        pprev := pindexPrev.phashBlock, nHeight := pindexPrev.nHeight + 1 }
    let result := connectBlock data node fScriptChecks block indexDummy node.pcoinsTip true
    (result.node, result.verdict.map fun _ => ())

/-- The record of an entry in `RebuildStakePointerCache`: the pointer hash and the
block hash of a version 5 proof-of-stake block. -/
def pointerRecord (node : Node) (pindex : CBlockIndex) : Option (Uint256 × Uint256) :=
  if decide (5 ≤ pindex.nVersion) && pindex.isProofOfStake then
    (node.readBlockFromDisk pindex).bind fun block =>
      if block.isProofOfStake && decide (5 ≤ block.nVersion) && !block.stakePointer.isNull then
        some (stakePointerHash block.stakePointer.outpoint, block.getHash)
      else none
  else none

def insertPointer (used : Uint256 → Option Uint256) :
    Option (Uint256 × Uint256) → Uint256 → Option Uint256
  | some (pointer, hash) => Function.update used pointer (some hash)
  | none => used

/-- The loop of `RebuildStakePointerCache`, from an entry down to `nStopHeight`. -/
def rebuildPointers (node : Node) (nStopHeight : Int) :
    Nat → Option CBlockIndex → (Uint256 → Option Uint256) → Uint256 → Option Uint256
  | 0, _, used => used
  | _, none, used => used
  | fuel + 1, some pindex, used =>
    if nStopHeight < pindex.nHeight then
      rebuildPointers node nStopHeight fuel (node.mapBlockIndex.prev pindex)
        (insertPointer used (pointerRecord node pindex))
    else used

/-- The height above which `RebuildStakePointerCache` scans. -/
def rebuildStopHeight (pindex : CBlockIndex) : Int :=
  max (pindex.nHeight - nStakePointerValidityPeriod) (nStakePointerForkHeight - 1)

def rebuildStakePointerCache (node : Node) : Node :=
  match node.tip with
  | none => { node with mapUsedStakePointers := fun _ => none }
  | some pindex =>
    { node with
      mapUsedStakePointers :=
        if pindex.nHeight < nStakePointerForkHeight then fun _ => none
        else
          rebuildPointers node (rebuildStopHeight pindex)
            (pindex.nHeight - rebuildStopHeight pindex).toNat (some pindex) fun _ => none }

/-- The arguments of `VerifyDB` and what it meets: whether the caches still have
room and whether a shutdown was requested, at the block of a height. -/
structure VerifyOptions where
  nCheckLevel : Int
  nCheckDepth : Int
  fScriptChecks : Bool
  fCacheRoom : Int → Bool
  fShutdownRequested : Int → Bool

/-- `nCheckLevel` after its bounds are applied. -/
def VerifyOptions.level (options : VerifyOptions) : Int := max 0 (min 4 options.nCheckLevel)

/-- `nCheckDepth` after its bounds are applied. -/
def VerifyOptions.depth (options : VerifyOptions) (node : Node) : Int :=
  let nCheckDepth := if options.nCheckDepth ≤ 0 then 1000000000 else options.nCheckDepth
  min nCheckDepth node.height

/-- The running state of `VerifyDB`: the global state, the scratch view, the height
of `pindexState` and whether `pindexFailure` is set. -/
structure VerifyState where
  node : Node
  coins : CCoinsViewCache
  stateHeight : Int
  fFailure : Bool

/-- The body of the first loop of `VerifyDB`: the new state, or the result with
which `VerifyDB` returns from here. -/
def verifyBlock (data : LocalData) (options : VerifyOptions) (pindex : CBlockIndex)
    (state : VerifyState) : VerifyState × Option Bool :=
  match state.node.readBlockFromDisk pindex with
  | none => (state, some false)
  | some block =>
    if decide (1 ≤ options.level) &&
        (checkBlock data state.node block true true).toOption.isNone then (state, some false)
    else if decide (2 ≤ options.level) && pindex.nStatus.haveUndo &&
        (state.node.diskUndo pindex.getBlockHash).isNone then (state, some false)
    else
      let stop := if options.fShutdownRequested pindex.nHeight then some true else none
      if decide (3 ≤ options.level) && pindex.nHeight == state.stateHeight &&
          options.fCacheRoom pindex.nHeight then
        match disconnectBlock state.node block pindex state.coins with
        | none => (state, some false)
        | some (node, coins, fClean) =>
          ({ node := node, coins := coins, stateHeight := pindex.nHeight - 1,
             fFailure := state.fFailure || !fClean }, stop)
      else (state, stop)

/-- The first loop of `VerifyDB`, from an entry down. -/
def verifyBack (data : LocalData) (options : VerifyOptions) (nStopHeight : Int) :
    Nat → Option CBlockIndex → VerifyState → VerifyState × Option Bool
  | 0, _, state => (state, none)
  | _, none, state => (state, none)
  | fuel + 1, some pindex, state =>
    if pindex.pprev.isNone || decide (pindex.nHeight < nStopHeight) then (state, none)
    else
      match verifyBlock data options pindex state with
      | (state, some result) => (state, some result)
      | (state, none) =>
        verifyBack data options nStopHeight fuel (state.node.mapBlockIndex.prev pindex) state

/-- The second loop of `VerifyDB`, over the hashes above `pindexState`. -/
def verifyForward (data : LocalData) (fScriptChecks : Bool) :
    List Uint256 → Node → CCoinsViewCache → Node × Bool
  | [], node, _ => (node, true)
  | hash :: rest, node, coins =>
    match (node.mapBlockIndex hash).bind fun pindex =>
      (node.readBlockFromDisk pindex).map fun block => (pindex, block) with
    | none => (node, false)
    | some (pindex, block) =>
      let result := connectBlock data node fScriptChecks block pindex coins false
      match result.verdict with
      | .error _ => (result.node, false)
      | .ok (coins, _) => verifyForward data fScriptChecks rest result.node coins

/-- The first loop of `VerifyDB` from the tip. -/
def verifyRollback (data : LocalData) (options : VerifyOptions) (node : Node)
    (coins : CCoinsViewCache) (pindex : CBlockIndex) : VerifyState × Option Bool :=
  verifyBack data options (node.height - options.depth node) node.vChain.length (some pindex)
    ⟨node, coins, pindex.nHeight, false⟩

/-- The second loop of `VerifyDB` from `pindexState` to the tip. -/
def verifyReplay (data : LocalData) (options : VerifyOptions) (node : Node) (state : VerifyState) :
    Node × Bool :=
  verifyForward data options.fScriptChecks (node.vChain.drop (state.stateHeight + 1).toNat)
    state.node state.coins

/-- `CVerifyDB::VerifyDB` on a scratch view over `coins`. -/
def verifyDB (data : LocalData) (options : VerifyOptions) (node : Node) (coins : CCoinsViewCache) :
    Node × Bool :=
  match node.tip with
  | none => (node, true)
  | some pindex =>
    if pindex.pprev.isNone then (node, true)
    else
      match verifyRollback data options node coins pindex with
      | (state, some result) => (state.node, result)
      | (state, none) =>
        if state.fFailure then (state.node, false)
        else if options.level < 4 then (state.node, true)
        else verifyReplay data options node state

end Agouti
