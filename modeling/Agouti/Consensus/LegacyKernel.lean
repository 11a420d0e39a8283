import Agouti.Consensus.StakeModifier

/-! # The coin-age kernel

`CheckProofOfStake` of `kernel.cpp`, the rule for proof-of-stake blocks below the stake pointer
fork, with `GetKernelStakeModifier`, which searches the stake modifier on the active chain, forward
from the staked block.
-/

namespace Agouti

def STAKE_WEIGHT_CAP : CAmount := 50000 * COIN

/-- `STANDARD_SCRIPT_VERIFY_FLAGS`: P2SH, DERSIG, STRICTENC, MINIMALDATA, NULLDUMMY and
DISCOURAGE_UPGRADABLE_NOPS. -/
def STANDARD_SCRIPT_VERIFY_FLAGS : Nat := 1 + 4 + 2 + 64 + 16 + 128

open Serialize

def stakeHash [Crypto] (nTimeTx : Nat) (nStakeModifier : BitVec 64) (prevout : COutPoint)
    (nTimeBlockFrom : Nat) : Uint256 :=
  Hash (le 8 nStakeModifier.toNat ++ le 4 nTimeBlockFrom ++
    le 4 prevout.n ++ uint256 prevout.hash ++ le 4 nTimeTx)

def stakeTargetHit [ChainParams] (hashProofOfStake : Uint256) (nValueIn : CAmount)
    (bnTargetPerCoinDay : Uint256) (nHeight : Int) : Bool :=
  let nEffectiveValue :=
    if nStakePointerForkHeight ≤ nHeight ∧ STAKE_WEIGHT_CAP < nValueIn then STAKE_WEIGHT_CAP
    else nValueIn
  let bnCoinDayWeight : Uint256 := (BitVec.ofInt 64 nEffectiveValue).setWidth 256 / 100
  decide (hashProofOfStake < bnCoinDayWeight * bnTargetPerCoinDay)

/-- The results of `GetKernelStakeModifier`. -/
structure KernelModifier where
  nStakeModifier : BitVec 64
  nStakeModifierHeight : Int
  nStakeModifierTime : Int
  deriving DecidableEq, Repr

/-- The variables of the loop of `GetKernelStakeModifier`. -/
structure KernelWalk where
  pindex : CBlockIndex
  nStakeModifierHeight : Int
  nStakeModifierTime : Int

def KernelWalk.start (pindexFrom : CBlockIndex) : KernelWalk :=
  ⟨pindexFrom, pindexFrom.nHeight, pindexFrom.getBlockTime⟩

namespace StakedNode

/-- `chainActive[nHeight]`. -/
def activeEntry (s : StakedNode) (nHeight : Int) : Option CBlockIndex :=
  (s.node.active nHeight).bind s.node.mapBlockIndex

def walkOn (s : StakedNode) (walk : KernelWalk) (pindexNext : CBlockIndex) : KernelWalk :=
  if (s.stakes pindexNext.getBlockHash).fStakeModifier then
    ⟨pindexNext, pindexNext.nHeight, pindexNext.getBlockTime⟩
  else { walk with pindex := pindexNext }

/-- The loop of `GetKernelStakeModifier`, at most `fuel` rounds. -/
def modifierLoop (s : StakedNode) (nTimeStop : Int) :
    Nat → Option CBlockIndex → KernelWalk → KernelWalk
  | 0, _, walk => walk
  | fuel + 1, pindexNext, walk =>
    if walk.nStakeModifierTime < nTimeStop then
      match pindexNext with
      | none => walk
      | some next =>
        s.modifierLoop nTimeStop fuel (s.activeEntry (next.nHeight + 1)) (s.walkOn walk next)
    else walk

def searchResult (s : StakedNode) (walk : KernelWalk) : KernelModifier :=
  ⟨(s.stakes walk.pindex.getBlockHash).nStakeModifier, walk.nStakeModifierHeight,
    walk.nStakeModifierTime⟩

/-- `GetKernelStakeModifier`. A chain has at most as many blocks above the staked one as it has
blocks. -/
def getKernelStakeModifier (s : StakedNode) (hashBlockFrom : Uint256) : Option KernelModifier := do
  let pindexFrom ← s.node.mapBlockIndex hashBlockFrom
  pure (s.searchResult (s.modifierLoop
    (pindexFrom.getBlockTime + getStakeModifierSelectionInterval) s.node.vChain.length
    (s.activeEntry (pindexFrom.nHeight + 1)) (.start pindexFrom)))

variable [ChainParams] [Crypto] [StakeParams]

/-- `CheckStakeKernelHashImpl` with `fCheck`: the kernel hash when it meets the target. -/
def checkStakeKernelHash (s : StakedNode) (nBits : Nat) (hashBlockFrom : Uint256)
    (nTimeBlockFrom : Nat) (nValueIn : CAmount) (prevout : COutPoint) (nTimeTx : Nat)
    (nHeight : Int) : Option Uint256 := do
  guard (nTimeBlockFrom ≤ nTimeTx)
  guard ((nTimeBlockFrom + StakeParams.nStakeMinAge) % 2 ^ 32 ≤ nTimeTx)
  let modifier ← s.getKernelStakeModifier hashBlockFrom
  let hashProofOfStake := stakeHash nTimeTx modifier.nStakeModifier prevout nTimeBlockFrom
  guard (stakeTargetHit hashProofOfStake nValueIn (Uint256.setCompact nBits) nHeight)
  pure hashProofOfStake

/-- `CheckProofOfStake`: the kernel hash of an accepted block. -/
def checkProofOfStake (s : StakedNode) (mempool : Uint256 → Option CTransaction) (block : CBlock)
    (nHeight : Int) : Option Uint256 := do
  let tx ← block.vtx[1]?
  guard tx.isCoinStake
  let txin ← tx.vin.head?
  let (txPrev, hashBlock) ← s.getTransaction mempool txin.prevout.hash true
  let txout ← txPrev.vout[txin.prevout.n]?
  guard (Crypto.verifyScript txin.scriptSig txout.scriptPubKey STANDARD_SCRIPT_VERIFY_FLAGS tx 0)
  let pindex ← s.node.mapBlockIndex (hashBlock.getD 0)
  s.checkStakeKernelHash block.nBits pindex.getBlockHash pindex.nTime txout.nValue txin.prevout
    block.nTime nHeight

end StakedNode

end Agouti
