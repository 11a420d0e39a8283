import Agouti.Primitives.Block
import Mathlib.Data.List.Sort

/-! # Entries of the block index

`CBlockIndex` of `chain.h`. Pointers to other entries are block hashes, looked up in the block
index; the status word is a record of its flags.
-/

namespace Agouti

/-- `enum BlockStatus`, the validity levels. -/
def BLOCK_VALID_TREE : Nat := 2
def BLOCK_VALID_TRANSACTIONS : Nat := 3
def BLOCK_VALID_SCRIPTS : Nat := 5

/-- `CBlockIndex::nStatus`: the validity level and the flags. -/
structure BlockStatus where
  valid : Nat := 0
  haveData : Bool := false
  haveUndo : Bool := false
  failedValid : Bool := false
  failedChild : Bool := false
  deriving DecidableEq, Repr

/-- `nStatus & BLOCK_FAILED_MASK`. -/
def BlockStatus.failed (status : BlockStatus) : Bool := status.failedValid || status.failedChild

/-- `CBlockIndex`; the default values are those of `SetNull`. -/
structure CBlockIndex where
  phashBlock : Option Uint256 := none
  pprev : Option Uint256 := none
  nHeight : Int := 0
  nChainWork : Uint256 := 0
  nTx : Nat := 0
  nChainTx : Nat := 0
  nStatus : BlockStatus := {}
  fProofOfStake : Bool := false
  prevoutStake : COutPoint := .null
  nStakeTime : Nat := 0
  hashProofOfStake : Uint256 := 0
  nMint : CAmount := 0
  nMoneySupply : CAmount := 0
  nVersion : Int := 0
  hashMerkleRoot : Uint256 := 0
  nTime : Nat := 0
  nBits : Nat := 0
  nNonce : Nat := 0
  nAccumulatorCheckpoint : Uint256 := 0
  nSequenceId : Nat := 0
  deriving DecidableEq, Repr

namespace CBlockIndex

/-- `CBlockIndex(const CBlock&)`. -/
def ofBlock (block : CBlock) : CBlockIndex :=
  { nVersion := block.nVersion, hashMerkleRoot := block.hashMerkleRoot, nTime := block.nTime,
    nBits := block.nBits, nNonce := block.nNonce,
    nAccumulatorCheckpoint := if 3 < block.nVersion then block.nAccumulatorCheckpoint else 0,
    fProofOfStake := block.isProofOfStake,
    prevoutStake := if block.isProofOfStake then block.getProofOfStake.1 else .null,
    nStakeTime := if block.isProofOfStake then block.nTime else 0 }

/-- `CBlockIndex::GetBlockHash`, for an entry that has one. -/
def getBlockHash (pindex : CBlockIndex) : Uint256 := pindex.phashBlock.getD 0

def getBlockTime (pindex : CBlockIndex) : Int := pindex.nTime

def isProofOfStake (pindex : CBlockIndex) : Bool := pindex.fProofOfStake

def isValid (pindex : CBlockIndex) (nUpTo : Nat) : Bool :=
  !pindex.nStatus.failed && decide (nUpTo ≤ pindex.nStatus.valid)

def raiseValidity (pindex : CBlockIndex) (nUpTo : Nat) : CBlockIndex :=
  if pindex.nStatus.failed then pindex
  else if pindex.nStatus.valid < nUpTo then
    { pindex with nStatus := { pindex.nStatus with valid := nUpTo } }
  else pindex

@[simp] theorem raiseValidity_phashBlock (pindex : CBlockIndex) (nUpTo : Nat) :
    (pindex.raiseValidity nUpTo).phashBlock = pindex.phashBlock := by
  unfold raiseValidity
  split
  · rfl
  · split <;> rfl

end CBlockIndex

/-- `mapBlockIndex`. -/
abbrev BlockMap := Uint256 → Option CBlockIndex

namespace BlockMap

/-- The entry `pindex->pprev` points to. -/
def prev (mapBlockIndex : BlockMap) (pindex : CBlockIndex) : Option CBlockIndex :=
  pindex.pprev.bind mapBlockIndex

/-- The entry `count` steps back. -/
def back (mapBlockIndex : BlockMap) : Nat → CBlockIndex → Option CBlockIndex
  | 0, pindex => some pindex
  | count + 1, pindex => (mapBlockIndex.prev pindex).bind (mapBlockIndex.back count)

/-- `CBlockIndex::GetAncestor`, along `pprev`. -/
def getAncestor (mapBlockIndex : BlockMap) (pindex : CBlockIndex) (height : Int) :
    Option CBlockIndex :=
  if pindex.nHeight < height ∨ height < 0 then none
  else mapBlockIndex.back (pindex.nHeight - height).toNat pindex

/-- The block times of an entry and its predecessors, at most `count` of them. -/
def pastTimes (mapBlockIndex : BlockMap) : Nat → Option CBlockIndex → List Int
  | 0, _ => []
  | _, none => []
  | count + 1, some pindex =>
    pindex.getBlockTime :: mapBlockIndex.pastTimes count (mapBlockIndex.prev pindex)

def getMedianTimePast (mapBlockIndex : BlockMap) (pindex : CBlockIndex) : Int :=
  let pmedian := (mapBlockIndex.pastTimes 11 (some pindex)).insertionSort (· ≤ ·)
  (pmedian[pmedian.length / 2]?).getD 0

end BlockMap

def getBlockProof (pindex : CBlockIndex) : Uint256 :=
  let bnTarget := Uint256.setCompact pindex.nBits
  if Uint256.compactNegative pindex.nBits || Uint256.compactOverflow pindex.nBits ||
      bnTarget == 0 then 0
  else ~~~bnTarget / (bnTarget + 1) + 1

end Agouti
