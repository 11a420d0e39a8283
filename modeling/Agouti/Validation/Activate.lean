import Agouti.Validation.Accept

/-! # Activating the best chain

`FindMostWorkChain`, `PruneBlockIndexCandidates`, `ActivateBestChainStep` and `ActivateBestChain` of
`main.cpp`. Every `ConnectTip` meets its own local data, and the outcomes of the flushes are
arguments.
-/

namespace Agouti

/-- What connecting and disconnecting blocks meets, by the hash of the block. -/
structure ActivateEnv where
  data : Uint256 → LocalData
  fScriptChecks : Uint256 → Bool
  flushed : Uint256 → Bool

namespace Node

def better (best : Option CBlockIndex) (pindex : CBlockIndex) : Option CBlockIndex :=
  match best with
  | none => some pindex
  | some other => if other.worse pindex then some pindex else some other

/-- `*setBlockIndexCandidates.rbegin()`. -/
def bestCandidate (node : Node) : Option CBlockIndex :=
  (node.setBlockIndexCandidates.filterMap node.mapBlockIndex).foldl better none

/-- The entries from a block down to the active chain, the fork not included. -/
def branch (node : Node) : Nat → Option CBlockIndex → List CBlockIndex
  | 0, _ => []
  | _, none => []
  | fuel + 1, some pindex =>
    if node.contains pindex then []
    else pindex :: branch node fuel (node.mapBlockIndex.prev pindex)

def branchOf (node : Node) (pindex : CBlockIndex) : List CBlockIndex :=
  node.branch (pindex.nHeight.toNat + 1) (some pindex)

/-- `CChain::FindFork`. -/
def findFork (node : Node) : Nat → Option CBlockIndex → Option CBlockIndex
  | 0, _ => none
  | _, none => none
  | fuel + 1, some pindex =>
    if node.contains pindex then some pindex
    else findFork node fuel (node.mapBlockIndex.prev pindex)

/-- The fork of the active chain and the branch of an entry. -/
def forkOf (node : Node) (pindex : CBlockIndex) : Option CBlockIndex :=
  node.findFork (pindex.nHeight.toNat + 1) (some pindex)

end Node

/-- `fFailedChain || fMissingData`. -/
def CBlockIndex.unusable (pindex : CBlockIndex) : Bool :=
  pindex.nStatus.failed || !pindex.nStatus.haveData

namespace Node

/-- One block above an unusable one leaves the candidates: it becomes a failed child,
or waits for the missing data. -/
def dropDescendant (fFailedChain : Bool) (node : Node) (pindexFailed : CBlockIndex) : Node :=
  let hash := pindexFailed.getBlockHash
  let node :=
    if fFailedChain then
      node.setIndex hash
        { pindexFailed with nStatus := { pindexFailed.nStatus with failedChild := true } }
    else
      { node with
        mapBlocksUnlinked := node.mapBlocksUnlinked ++ [(pindexFailed.pprev.getD 0, hash)] }
  { node with setBlockIndexCandidates := node.setBlockIndexCandidates.erase hash }

/-- `FindMostWorkChain`: the best candidate whose branch is usable. Every round
removes a candidate, which bounds the number of rounds. -/
def findMostWork : Nat → Node → Node × Option CBlockIndex
  | 0, node => (node, none)
  | fuel + 1, node =>
    match node.bestCandidate with
    | none => (node, none)
    | some pindexNew =>
      match (node.branchOf pindexNew).dropWhile fun pindex => !pindex.unusable with
      | [] => (node, some pindexNew)
      | pindexTest :: _ =>
        let above := (node.branchOf pindexNew).takeWhile fun pindex => !pindex.unusable
        let node := above.foldl (dropDescendant pindexTest.nStatus.failed) node
        findMostWork fuel { node with
          setBlockIndexCandidates :=
            node.setBlockIndexCandidates.erase pindexTest.getBlockHash }

def findMostWorkChain (node : Node) : Node × Option CBlockIndex :=
  findMostWork (node.setBlockIndexCandidates.length + 1) node

def pruneBlockIndexCandidates (node : Node) : Node :=
  match node.tip with
  | none => node
  | some tip =>
    { node with
      setBlockIndexCandidates := node.setBlockIndexCandidates.filter fun hash =>
        !((node.mapBlockIndex hash).map fun pindex => pindex.worse tip).getD false }

end Node

variable [ChainParams] [Crypto]

/-- The first loop of `ActivateBestChainStep`: disconnect down to the fork. -/
def disconnectToFork (env : ActivateEnv) (fork : Option Uint256) : Nat → Node → Node × Bool
  | 0, node => (node, true)
  | fuel + 1, node =>
    match node.vChain.getLast? with
    | none => (node, true)
    | some hash =>
      if fork = some hash then (node, true)
      else
        match disconnectTip node (env.flushed hash) with
        | (node, false) => (node, false)
        | (node, true) => disconnectToFork env fork fuel node

def Node.improved (node : Node) (pindexOldTip : Option CBlockIndex) : Bool :=
  match pindexOldTip, node.tip with
  | none, _ => true
  | some _, none => false
  | some old, some tip => decide (old.nChainWork < tip.nChainWork)

/-- The second loop of `ActivateBestChainStep`, over the blocks to connect. The result
is `false` after a system error. -/
def connectBranch (env : ActivateEnv) (pindexMostWork : CBlockIndex) (pblock : Option CBlock)
    (pindexOldTip : Option CBlockIndex) : List CBlockIndex → Node → Node × Bool
  | [], node => (node, true)
  | pindexConnect :: rest, node =>
    let hash := pindexConnect.getBlockHash
    let pindex := (node.mapBlockIndex hash).getD pindexConnect
    let given := if hash = pindexMostWork.getBlockHash then pblock else none
    match connectTip (env.data hash) node (env.fScriptChecks hash) pindex given
      (env.flushed hash) with
    | (node, .error state) => (node, state.isInvalid)
    | (node, .ok ()) =>
      let node := node.pruneBlockIndexCandidates
      if node.improved pindexOldTip then (node, true)
      else connectBranch env pindexMostWork pblock pindexOldTip rest node

def activateBestChainStep (env : ActivateEnv) (node : Node) (pindexMostWork : CBlockIndex)
    (pblock : Option CBlock) : Node × Bool :=
  let pindexOldTip := node.tip
  let fork := (node.forkOf pindexMostWork).map CBlockIndex.getBlockHash
  let path := (node.branchOf pindexMostWork).reverse
  match disconnectToFork env fork node.vChain.length node with
  | (node, false) => (node, false)
  | (node, true) => connectBranch env pindexMostWork pblock pindexOldTip path node

/-- One round of `ActivateBestChain`: the node, and the result when it is the last
round. -/
def activateRound (env : ActivateEnv) (pblock : Option CBlock) (node : Node) :
    Node × Option Bool :=
  match node.findMostWorkChain with
  | (node, none) => (node, some true)
  | (node, some pindexMostWork) =>
    if node.tip = some pindexMostWork then (node, some true)
    else
      let given := pblock.filter fun block => block.getHash == pindexMostWork.getBlockHash
      match activateBestChainStep env node pindexMostWork given with
      | (node, false) => (node, some false)
      | (node, true) =>
        if node.vChain.getLast? = some pindexMostWork.getBlockHash then (node, some true)
        else (node, none)

end Agouti
