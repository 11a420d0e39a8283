import Agouti.Validation.Accept
import Agouti.Validation.TxIndex

/-! # Stake modifiers

The stake modifier of `kernel.cpp`: 64 bits that blocks of the recent past contribute, computed
again at fixed intervals. `ComputeNextStakeModifier` reads the branch of the parent, which is the
list of its entries from the parent down to the genesis block (`StakedNode.lineage`);
`AddToBlockIndex` and `ReceivedBlockTransactions` set the stake fields of an entry. These fields are
kept beside the block index.
-/

namespace Agouti

/-- `MODIFIER_INTERVAL`; `MODIFIER_INTERVAL_TESTNET` is the same. -/
def MODIFIER_INTERVAL : Int := 60

def MODIFIER_INTERVAL_RATIO : Int := 3

/-- The fields of `CChainParams` that the stake modifier and the coin-age kernel read. -/
class StakeParams where
  nStakeMinAge : Nat
  nModifierUpdateBlock : Int

/-- Those of `CMainParams`. -/
@[reducible] def mainStakeParams : StakeParams where
  nStakeMinAge := 60 * 60
  nModifierUpdateBlock := 999999999

/-- The stake fields of `CBlockIndex`: two bits of `nFlags`, the modifier and its checksum. -/
structure StakeIndex where
  /-- `BLOCK_STAKE_ENTROPY` -/
  fStakeEntropy : Bool := false
  /-- `BLOCK_STAKE_MODIFIER`, read by `GeneratedStakeModifier()` -/
  fStakeModifier : Bool := false
  nStakeModifier : BitVec 64 := 0
  nStakeModifierChecksum : BitVec 32 := 0
  deriving DecidableEq, Repr

/-- An entry of the block index as `ComputeNextStakeModifier` reads it. -/
structure StakeEntry where
  hash : Uint256
  nHeight : Int
  nTime : Int
  fProofOfStake : Bool
  fStakeModifier : Bool
  nStakeModifier : BitVec 64
  deriving DecidableEq, Repr

/-- `GetStakeEntropyBit`: the lowest bit of the block hash. -/
def getStakeEntropyBit (hash : Uint256) : Bool := hash.getLsbD 0

/-- `GetLastStakeModifier`: the last modifier that was generated on a branch, and its time. -/
def getLastStakeModifier : List StakeEntry → Option (BitVec 64 × Int)
  | [] => none
  | pindex :: below =>
    if pindex.fStakeModifier then some (pindex.nStakeModifier, pindex.nTime)
    else getLastStakeModifier below

def getStakeModifierSelectionIntervalSection (nSection : Nat) : Int :=
  MODIFIER_INTERVAL * 63 / (63 + (63 - nSection) * ( MODIFIER_INTERVAL_RATIO - 1))

def getStakeModifierSelectionInterval : Int :=
  ((List.range 64).map getStakeModifierSelectionIntervalSection).sum

/-- The order of the pairs of time and hash by which the candidates are sorted. -/
def StakeEntry.before (a b : StakeEntry) : Bool :=
  decide (a.nTime < b.nTime) || (a.nTime == b.nTime && decide (a.hash ≤ b.hash))

section

variable [Crypto]

def selectionHash (fModifierV2 : Bool) (nStakeModifierPrev : BitVec 64) (pindex : StakeEntry) :
    Uint256 :=
  let hashProof := if !fModifierV2 && pindex.fProofOfStake then 0 else pindex.hash
  let hashSelection :=
    Hash (Serialize.uint256 hashProof ++ Serialize.le 8 nStakeModifierPrev.toNat)
  if pindex.fProofOfStake then hashSelection >>> 32 else hashSelection

/-- The loop of `SelectBlockFromCandidates` over the sorted candidates, with the best one so far
and its selection hash. -/
def selectCandidate (fModifierV2 : Bool) (mapSelectedBlocks : List Uint256)
    (nSelectionIntervalStop : Int) (nStakeModifierPrev : BitVec 64) :
    Option (StakeEntry × Uint256) → List StakeEntry → Option StakeEntry
  | best, [] => best.map Prod.fst
  | best, pindex :: rest =>
    if best.isSome && decide (nSelectionIntervalStop < pindex.nTime) then best.map Prod.fst
    else if pindex.hash ∈ mapSelectedBlocks then
      selectCandidate fModifierV2 mapSelectedBlocks nSelectionIntervalStop nStakeModifierPrev best
        rest
    else
      let hashSelection := selectionHash fModifierV2 nStakeModifierPrev pindex
      let better := (best.map fun (_, hashBest) => decide (hashSelection < hashBest)).getD true
      selectCandidate fModifierV2 mapSelectedBlocks nSelectionIntervalStop nStakeModifierPrev
        (if better then some (pindex, hashSelection) else best) rest

variable [StakeParams]

/-- `SelectBlockFromCandidates`. The first candidate decides about the version of the modifier. -/
def selectBlockFromCandidates (vSortedByTimestamp : List StakeEntry)
    (mapSelectedBlocks : List Uint256) (nSelectionIntervalStop : Int)
    (nStakeModifierPrev : BitVec 64) : Option StakeEntry :=
  let fModifierV2 := (vSortedByTimestamp.head?.map fun first =>
    decide (StakeParams.nModifierUpdateBlock ≤ first.nHeight)).getD false
  selectCandidate fModifierV2 mapSelectedBlocks nSelectionIntervalStop nStakeModifierPrev none
    vSortedByTimestamp

/-- The rounds of `ComputeNextStakeModifier` from `nRound` on: each selects a block, which
contributes its entropy bit. -/
def selectRounds (vSortedByTimestamp : List StakeEntry) (nStakeModifierPrev : BitVec 64) :
    Nat → Nat → Int → List Uint256 → BitVec 64 → Option (BitVec 64)
  | 0, _, _, _, nStakeModifierNew => some nStakeModifierNew
  | rounds + 1, nRound, nSelectionIntervalStop, mapSelectedBlocks, nStakeModifierNew => do
      let nSelectionIntervalStop :=
        nSelectionIntervalStop + getStakeModifierSelectionIntervalSection nRound
      let pindex ← selectBlockFromCandidates vSortedByTimestamp mapSelectedBlocks
        nSelectionIntervalStop nStakeModifierPrev
      let bit : BitVec 64 := if getStakeEntropyBit pindex.hash then 1 <<< nRound else 0
      selectRounds vSortedByTimestamp nStakeModifierPrev rounds (nRound + 1) nSelectionIntervalStop
        (pindex.hash :: mapSelectedBlocks) (nStakeModifierNew ||| bit)

def intervalStart (nTime : Int) : Int := nTime / MODIFIER_INTERVAL * MODIFIER_INTERVAL

/-- The candidates of `ComputeNextStakeModifier` on a branch, sorted. -/
def stakeCandidates (pindexPrev : StakeEntry) (branch : List StakeEntry) : List StakeEntry :=
  let nSelectionIntervalStart :=
    intervalStart pindexPrev.nTime - getStakeModifierSelectionInterval
  (branch.takeWhile fun pindex => decide (nSelectionIntervalStart ≤ pindex.nTime)).mergeSort
    StakeEntry.before

/-- `ComputeNextStakeModifier` on the branch of the parent, the parent first: the modifier and
whether it was generated, also where the function reports an error. `literal` is the address of the
string literal in `uint64_t("stakemodifier")`. -/
def computeNextStakeModifier (literal : BitVec 64) : List StakeEntry → BitVec 64 × Bool
  | [] => (0, true)
  | pindexPrev :: below =>
    let branch := pindexPrev :: below
    if pindexPrev.nHeight = 0 then (literal, true)
    else
      match getLastStakeModifier branch with
      | none => (0, false)
      | some (nStakeModifier, nModifierTime) =>
        if pindexPrev.nTime / MODIFIER_INTERVAL ≤ nModifierTime / MODIFIER_INTERVAL then
          (nStakeModifier, false)
        else
          let vSortedByTimestamp := stakeCandidates pindexPrev branch
          let nSelectionIntervalStart :=
            intervalStart pindexPrev.nTime - getStakeModifierSelectionInterval
          match selectRounds vSortedByTimestamp nStakeModifier
              (min 64 vSortedByTimestamp.length) 0 nSelectionIntervalStart [] 0 with
          | none => (nStakeModifier, false)
          | some nStakeModifierNew => (nStakeModifierNew, true)

end

/-- `nFlags` of an entry. -/
def stakeFlags (pindex : CBlockIndex) (stake : StakeIndex) : Nat :=
  (if pindex.fProofOfStake then 1 else 0) + (if stake.fStakeEntropy then 2 else 0) +
    (if stake.fStakeModifier then 4 else 0)

/-- `GetStakeModifierChecksum` of an entry with the given parent. -/
def getStakeModifierChecksum [Crypto] (prev : Option StakeIndex) (pindex : CBlockIndex)
    (stake : StakeIndex) : BitVec 32 :=
  let below := (prev.map fun prev => Serialize.le 4 prev.nStakeModifierChecksum.toNat).getD []
  (Hash (below ++ Serialize.le 4 (stakeFlags pindex stake) ++
    Serialize.uint256 pindex.hashProofOfStake ++
    Serialize.le 8 stake.nStakeModifier.toNat) >>> (256 - 32)).setWidth 32

/-- A node with the stake data of its index. -/
structure StakedNode extends IndexedNode where
  stakes : Uint256 → StakeIndex
  /-- the address of the string literal `"stakemodifier"` in this process -/
  literal : BitVec 64

namespace StakedNode

/-- What `ComputeNextStakeModifier` reads of an entry. -/
def entry (s : StakedNode) (pindex : CBlockIndex) : StakeEntry where
  hash := pindex.getBlockHash
  nHeight := pindex.nHeight
  nTime := pindex.getBlockTime
  fProofOfStake := pindex.isProofOfStake
  fStakeModifier := (s.stakes pindex.getBlockHash).fStakeModifier
  nStakeModifier := (s.stakes pindex.getBlockHash).nStakeModifier

/-- The entries from one entry down along `pprev`, at most `fuel` of them. -/
def walkBack (s : StakedNode) : Nat → Option CBlockIndex → List StakeEntry
  | 0, _ => []
  | _, none => []
  | fuel + 1, some pindex =>
    s.entry pindex :: s.walkBack fuel (s.node.mapBlockIndex.prev pindex)

def lineage (s : StakedNode) (pindex : CBlockIndex) : List StakeEntry :=
  s.walkBack (pindex.nHeight.toNat + 1) (some pindex)

variable [Crypto]

def addToBlockIndex (s : StakedNode) (block : CBlock) : StakedNode :=
  if (s.node.mapBlockIndex block.getHash).isSome then s
  else
    { s with
      node := s.node.addToBlockIndex block
      stakes := Function.update s.stakes block.getHash
        { fStakeEntropy := (s.node.mapBlockIndex block.hashPrevBlock).isSome &&
            getStakeEntropyBit block.getHash } }

variable [StakeParams]

/-- The stake fields of a block that is linked on top of its parent. -/
def nextStake (s : StakedNode) (prev pindex : CBlockIndex) : StakeIndex :=
  let (nStakeModifier, fGeneratedStakeModifier) :=
    computeNextStakeModifier s.literal (s.lineage prev)
  let stake :=
    { s.stakes pindex.getBlockHash with
      nStakeModifier := nStakeModifier, fStakeModifier := fGeneratedStakeModifier }
  { stake with
    nStakeModifierChecksum :=
      getStakeModifierChecksum (some (s.stakes prev.getBlockHash)) pindex stake }

/-- A block whose ancestors all have their transactions gets its stake fields, its totals and
becomes a candidate. -/
def linkBlock (s : StakedNode) (hash : Uint256) (pindex : CBlockIndex) : StakedNode :=
  { s with
    node := s.node.linkBlock hash pindex
    stakes :=
      match s.node.mapBlockIndex.prev pindex with
      | none => s.stakes
      | some prev => Function.update s.stakes hash (s.nextStake prev pindex) }

/-- The loop of `ReceivedBlockTransactions`. -/
def linkBlocks : Nat → List Uint256 → StakedNode → StakedNode
  | 0, _, s => s
  | _, [], s => s
  | fuel + 1, hash :: queue, s =>
    match s.node.mapBlockIndex hash with
    | none => linkBlocks fuel queue s
    | some pindex =>
      let s := s.linkBlock hash pindex
      let (range, others) := s.node.mapBlocksUnlinked.partition fun link => link.1 == hash
      linkBlocks fuel (queue ++ range.map Prod.snd)
        { s with node := { s.node with mapBlocksUnlinked := others } }

def receivedBlockTransactions (s : StakedNode) (block : CBlock) (pindexNew : CBlockIndex) :
    StakedNode :=
  let pindexNew := s.node.receivedIndex block pindexNew
  let hash := pindexNew.getBlockHash
  let node :=
    { s.node.setIndex hash pindexNew with
      setStakeSeen :=
        if block.isProofOfStake then
          s.node.setStakeSeen.insert (pindexNew.prevoutStake, pindexNew.nStakeTime)
        else s.node.setStakeSeen }
  let s := { s with node := node }
  match pindexNew.pprev with
  | none => linkBlocks (node.mapBlocksUnlinked.length + 1) [hash] s
  | some hashPrev =>
    match node.mapBlockIndex hashPrev with
    | none => s
    | some prev =>
      if prev.nChainTx ≠ 0 then linkBlocks (node.mapBlocksUnlinked.length + 1) [hash] s
      else if prev.isValid BLOCK_VALID_TREE then
        { s with node :=
            { node with mapBlocksUnlinked := node.mapBlocksUnlinked ++ [(hashPrev, hash)] } }
      else s

/-- `WriteBlockToDisk` and `ReceivedBlockTransactions`. -/
def storeBlock (s : StakedNode) (block : CBlock) (pindex : CBlockIndex) : StakedNode :=
  { s with
    node :=
      { s.node with
        diskBlocks := Function.update s.node.diskBlocks pindex.getBlockHash (some block) } }
    |>.receivedBlockTransactions block pindex

def receive (s : StakedNode) (block : CBlock) : StakedNode :=
  let s := s.addToBlockIndex block
  match s.node.mapBlockIndex block.getHash with
  | none => s
  | some pindex => s.storeBlock block pindex

/-! ### The node without the stake fields -/

omit [StakeParams] in
theorem addToBlockIndex_node (s : StakedNode) (block : CBlock) :
    (s.addToBlockIndex block).node = s.node.addToBlockIndex block := by
  unfold addToBlockIndex Node.addToBlockIndex
  split
  · rfl
  · rfl

theorem linkBlocks_node (fuel : Nat) (queue : List Uint256) (s : StakedNode) :
    (linkBlocks fuel queue s).node = Node.linkBlocks fuel queue s.node := by
  induction fuel generalizing queue s with
  | zero => rfl
  | succ fuel ih =>
    cases queue with
    | nil => rfl
    | cons hash queue =>
      simp only [linkBlocks, Node.linkBlocks]
      cases s.node.mapBlockIndex hash with
      | none => exact ih queue s
      | some pindex => exact ih _ _

theorem receivedBlockTransactions_node (s : StakedNode) (block : CBlock) (pindexNew : CBlockIndex) :
    (s.receivedBlockTransactions block pindexNew).node =
      s.node.receivedBlockTransactions block pindexNew := by
  unfold receivedBlockTransactions Node.receivedBlockTransactions
  simp only
  cases (s.node.receivedIndex block pindexNew).pprev with
  | none => exact linkBlocks_node _ _ _
  | some hashPrev =>
    simp only
    cases (s.node.setIndex (s.node.receivedIndex block pindexNew).getBlockHash
        (s.node.receivedIndex block pindexNew)).mapBlockIndex hashPrev with
    | none => rfl
    | some prev =>
      simp only
      by_cases linked : prev.nChainTx ≠ 0
      · rw [if_pos linked, if_pos linked]
        exact linkBlocks_node _ _ _
      · rw [if_neg linked, if_neg linked]
        by_cases valid : prev.isValid BLOCK_VALID_TREE = true
        · rw [if_pos valid, if_pos valid]
        · rw [if_neg valid, if_neg valid]

theorem storeBlock_node (s : StakedNode) (block : CBlock) (pindex : CBlockIndex) :
    (s.storeBlock block pindex).node = s.node.storeBlock block pindex :=
  receivedBlockTransactions_node _ _ _

end StakedNode

end Agouti
