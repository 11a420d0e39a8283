import Agouti.Script.Standard
import Agouti.Validation.CheckBlock

/-! # Work and stake of a block

`CheckWork` of `main.cpp` with what it calls for blocks with a stake pointer: the
scan for used pointers, `CheckBlockProofPointer`, the kernel of `kernel.cpp` and
`CheckStake`. The difficulty of `pow.cpp` is a function of the parent chain. The
coin-age kernel of the blocks below the stake pointer fork and the comparison of
difficulties as floating point numbers enter through the class `Legacy`.
-/

namespace Agouti

def MASTERNODE_COLLATERAL : CAmount := 3000 * COIN

def MAX_MAPPROOFOFSTAKE_ENTRIES : Nat := 65536

/-- The rules of the blocks before the stake pointer fork. -/
class Legacy where
  /-- `CheckProofOfStake`: the kernel hash when the check passes -/
  checkProofOfStake : Node → CBlock → Int → Option Uint256
  /-- the comparison `abs(n1 - n2) > n1 * 0.5` of two difficulties fails -/
  bitsWithinHalf : Nat → Nat → Bool

/-- `~uint256(0) >> 24`. -/
def bnTargetLimit : Uint256 := ~~~(0 : Uint256) >>> 24

/-- A signed value in the place of a `uint32_t` factor. -/
def uint32Factor (value : Int) : Uint256 := BitVec.ofNat 256 (value % 2 ^ 32).toNat

/-- The retarget of `DarkGravityWave` above the last proof-of-work block. -/
def retargetProofOfStake [ChainParams] (nActualSpacing : Int) (pindexLast : CBlockIndex) : Nat :=
  if pindexLast.nHeight + 1 = nStakePointerForkHeight then bnTargetLimit.getCompact
  else
    let nTargetSpacing : Int := if 2565000 ≤ pindexLast.nHeight + 1 then 600 else 60
    let nActualSpacing := if nActualSpacing < 0 then 1 else nActualSpacing
    let nInterval := 2400 / nTargetSpacing
    let bnNew := Uint256.setCompact pindexLast.nBits *
      uint32Factor ((nInterval - 1) * nTargetSpacing + nActualSpacing + nActualSpacing)
    let bnNew := bnNew / BitVec.ofInt 256 ((nInterval + 1) * nTargetSpacing)
    if bnNew = 0 ∨ bnTargetLimit < bnNew then bnTargetLimit.getCompact else bnNew.getCompact

/-- The running values of the proof-of-work loop of `DarkGravityWave`. -/
structure GravityWave where
  countBlocks : Nat := 0
  pastDifficultyAverage : Uint256 := 0
  nActualTimespan : Int := 0
  lastBlockTime : Int := 0

def GravityWave.read (wave : GravityWave) (blockReading : CBlockIndex) : GravityWave :=
  let countBlocks := wave.countBlocks + 1
  let bnTarget := Uint256.setCompact blockReading.nBits
  { countBlocks := countBlocks,
    pastDifficultyAverage :=
      if countBlocks = 1 then bnTarget
      else (wave.pastDifficultyAverage * BitVec.ofNat 256 countBlocks + bnTarget) /
        BitVec.ofNat 256 (countBlocks + 1),
    nActualTimespan :=
      if 0 < wave.lastBlockTime then
        wave.nActualTimespan + (wave.lastBlockTime - blockReading.getBlockTime)
      else wave.nActualTimespan,
    lastBlockTime := blockReading.getBlockTime }

/-- The proof-of-work loop of `DarkGravityWave`, over at most `count` blocks. -/
def gravityLoop (mapBlockIndex : BlockMap) : Nat → Option CBlockIndex → GravityWave → GravityWave
  | 0, _, wave => wave
  | _, none, wave => wave
  | count + 1, some blockReading, wave =>
    if 0 < blockReading.nHeight then
      gravityLoop mapBlockIndex count (mapBlockIndex.prev blockReading) (wave.read blockReading)
    else wave

def darkGravityWave [ChainParams] (mapBlockIndex : BlockMap) (pindexLast : CBlockIndex) : Nat :=
  if pindexLast.nHeight = 0 ∨ pindexLast.nHeight < 24 then
    ChainParams.bnProofOfWorkLimit.getCompact
  else if nLastPOWBlock < pindexLast.nHeight then
    retargetProofOfStake (pindexLast.getBlockTime -
      ((mapBlockIndex.prev pindexLast).map CBlockIndex.getBlockTime).getD 0) pindexLast
  else
    let wave := gravityLoop mapBlockIndex 24 (some pindexLast) {}
    let nTargetTimespan : Int := wave.countBlocks * 60
    let nActualTimespan := max wave.nActualTimespan (nTargetTimespan / 3)
    let nActualTimespan := min nActualTimespan (nTargetTimespan * 3)
    let bnNew := wave.pastDifficultyAverage * uint32Factor nActualTimespan /
      BitVec.ofInt 256 nTargetTimespan
    if ChainParams.bnProofOfWorkLimit < bnNew then ChainParams.bnProofOfWorkLimit.getCompact
    else bnNew.getCompact

def getNextWorkRequired [ChainParams] (mapBlockIndex : BlockMap) (pindexLast : CBlockIndex) : Nat :=
  darkGravityWave mapBlockIndex pindexLast

def bodyUsesPointer (node : Node) (pindex : CBlockIndex) (outpointPointer : COutPoint) : Bool :=
  ((node.readBlockFromDisk pindex).map fun block =>
    block.isProofOfStake && decide (5 ≤ block.nVersion) && !block.stakePointer.isNull &&
      block.stakePointer.outpoint == outpointPointer).getD false

def entryUsesPointer (node : Node) (pindex : CBlockIndex) (outpointPointer : COutPoint) : Bool :=
  pindex.isProofOfStake && decide (5 ≤ pindex.nVersion) &&
    (pindex.prevoutStake == outpointPointer ||
      (pindex.prevoutStake.isNull && bodyUsesPointer node pindex outpointPointer))

/-- The loop of `IsStakePointerUsed`, from an entry down to `nStopHeight`; `fuel`
bounds the number of entries. -/
def scanPointers (node : Node) (outpointPointer : COutPoint) (nStopHeight : Int) :
    Nat → Option CBlockIndex → Bool
  | 0, _ => false
  | _, none => false
  | fuel + 1, some pindex =>
    decide (nStopHeight ≤ pindex.nHeight) &&
      (entryUsesPointer node pindex outpointPointer ||
        scanPointers node outpointPointer nStopHeight fuel (node.mapBlockIndex.prev pindex))

section

variable [ChainParams]

/-- The lowest height that `IsStakePointerUsed` scans on top of a parent. -/
def pointerStopHeight (pindexPrev : CBlockIndex) : Int :=
  max nStakePointerForkHeight (pindexPrev.nHeight - nStakePointerValidityPeriod + 1)

def isStakePointerUsed (node : Node) (pindexPrev : CBlockIndex) (outpointPointer : COutPoint) :
    Bool :=
  scanPointers node outpointPointer (pointerStopHeight pindexPrev)
    (pindexPrev.nHeight - pointerStopHeight pindexPrev + 1).toNat (some pindexPrev)

end

variable [ChainParams] [Crypto]

def CBlock.findTransaction (block : CBlock) (txid : Uint256) : Option CTransaction :=
  block.vtx.find? fun tx => tx.getHash == txid

/-- The collateral key owns the output: steps 7 to 9 of `CheckBlockProofPointer`. -/
def ownsPointerOutput (pointer : StakePointer) (tx : CTransaction) : Bool :=
  match tx.vout[pointer.nPos]? with
  | none => false
  | some txout =>
    pointer.pubKeyCollateral.isCompressed &&
      extractKeyID txout.scriptPubKey == some pointer.pubKeyCollateral.getID

/-- `CheckBlockProofPointer`: the signing key and the outpoint. -/
def checkBlockProofPointer (node : Node) (pindexPrev : CBlockIndex) (nNewHeight : Int)
    (block : CBlock) : Option (CPubKey × COutPoint) := do
  let pointer := block.stakePointer
  let pindexFrom ← node.mapBlockIndex pointer.hashBlock
  guard (node.contains pindexFrom)
  guard (nNewHeight - nStakePointerValidityPeriod ≤ pindexFrom.nHeight)
  guard (pindexFrom.nHeight ≤ nNewHeight - nMaxReorganizationDepth)
  guard (!isStakePointerUsed node pindexPrev pointer.outpoint)
  let blockFrom ← node.readBlockFromDisk pindexFrom
  let tx ← blockFrom.findTransaction pointer.txid
  guard (ownsPointerOutput pointer tx)
  guard (pointer.pubKeyProofOfStake.same pointer.pubKeyCollateral ||
    pointer.verifyCollateralSignOver)
  pure (pointer.pubKeyProofOfStake, pointer.outpoint)

open Serialize

/-- The bytes that `CheckStakePointerKernelHash` hashes. -/
def kernelBytes (outpoint : COutPoint) (stakeModifier : Uint256) (pindexFrom : CBlockIndex)
    (nTimeStake : Nat) : List UInt8 :=
  uint256 outpoint.hash ++ le 4 outpoint.n ++ uint256 stakeModifier ++
    leInt 8 pindexFrom.getBlockTime ++ le 4 nTimeStake

/-- The target test of `CheckStakePointerKernelHash`. -/
def stakeTargetMet (nBits : Nat) (hashProofOfStake : Uint256) : Bool :=
  decide (hashProofOfStake / BitVec.ofInt 256 (MASTERNODE_COLLATERAL / 100) <
    Uint256.setCompact nBits)

/-- `CheckStakePointerKernelHash`: the kernel hash, when it meets the target. -/
def checkStakePointerKernelHash (data : LocalData) (mapBlockIndex : BlockMap) (nBits : Nat)
    (outpoint : COutPoint) (pindexFrom pindexPrev : CBlockIndex) (nTimeStake : Nat) :
    Option Uint256 := do
  let pindexModifier ←
    mapBlockIndex.getAncestor pindexPrev (pindexPrev.nHeight - nKernelModifierOffset)
  guard (mapBlockIndex.getMedianTimePast pindexPrev < (nTimeStake : Int))
  guard ((nTimeStake : Int) ≤ data.adjustedTime + 60)
  let hashProofOfStake :=
    Hash (kernelBytes outpoint pindexModifier.getBlockHash pindexFrom nTimeStake)
  guard (stakeTargetMet nBits hashProofOfStake)
  pure hashProofOfStake

/-- The first output of the coinbase has no value. -/
def CBlock.coinbaseEmpty (block : CBlock) : Bool :=
  ((block.vtx.head?.bind fun coinbase => coinbase.vout.head?).map fun txout =>
    txout.nValue == 0).getD false

/-- `CheckStake`: the kernel hash of an accepted block. -/
def checkStake (data : LocalData) (node : Node) (pindexPrev : CBlockIndex) (block : CBlock) :
    Option Uint256 := do
  guard block.isProofOfStake
  guard (5 ≤ block.nVersion)
  guard block.hasV5CoinStake
  guard (!block.stakePointer.isNull)
  guard block.coinbaseEmpty
  let (pubkeyMasternode, outpointStakePointer) ←
    checkBlockProofPointer node pindexPrev (pindexPrev.nHeight + 1) block
  guard (block.checkBlockSignature pubkeyMasternode)
  let pindexFrom ← node.mapBlockIndex block.stakePointer.hashBlock
  checkStakePointerKernelHash data node.mapBlockIndex block.nBits outpointStakePointer pindexFrom
    pindexPrev block.nTime

/-- The insertion of a kernel hash into the bounded map `mapProofOfStake`. -/
def Node.recordProofOfStake (node : Node) (nRand : Nat) (hash hashProofOfStake : Uint256) : Node :=
  if (node.mapProofOfStake.lookup hash).isSome then node
  else
    let entries :=
      if MAX_MAPPROOFOFSTAKE_ENTRIES ≤ node.mapProofOfStake.length then
        node.mapProofOfStake.eraseIdx (nRand % node.mapProofOfStake.length)
      else node.mapProofOfStake
    { node with mapProofOfStake := (hash, hashProofOfStake) :: entries }

/-- `CheckWork`: the node with the kernel hash recorded, when the block passes. -/
def checkWork [Legacy] (data : LocalData) (node : Node) (block : CBlock)
    (pindexPrev : CBlockIndex) : Option Node :=
  let nHeight := pindexPrev.nHeight + 1
  let nBitsRequired := getNextWorkRequired node.mapBlockIndex pindexPrev
  if block.isProofOfWork && decide (nHeight ≤ 68589) then
    if Legacy.bitsWithinHalf block.nBits nBitsRequired then some node else none
  else if block.nBits ≠ nBitsRequired then none
  else if !block.isProofOfStake then some node
  else if nStakePointerForkHeight ≤ nHeight then
    (checkStake data node pindexPrev block).map fun hashProofOfStake =>
      node.recordProofOfStake data.nRand block.getHash hashProofOfStake
  else if (node.mapProofOfStake.lookup block.getHash).isSome then some node
  else
    (Legacy.checkProofOfStake node block nHeight).map fun hashProofOfStake =>
      node.recordProofOfStake data.nRand block.getHash hashProofOfStake

end Agouti
