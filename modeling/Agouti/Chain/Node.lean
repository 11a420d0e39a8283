import Agouti.Chain.BlockIndex
import Agouti.Coins.View

/-! # The state of a node

The global variables of `main.cpp` that validation reads and writes (`Node`), and
the data a node holds apart from its blocks and that changes on its own
(`LocalData`): its clock, its sporks, the transaction locks, the masternode
winner votes and the budgets.
-/

namespace Agouti

/-- The global state of `main.cpp`. -/
structure Node where
  mapBlockIndex : BlockMap
  /-- `chainActive`: block hashes by height -/
  vChain : List Uint256
  /-- the block bodies that `ReadBlockFromDisk` reads -/
  diskBlocks : Uint256 → Option CBlock
  /-- the undo data that `ReadFromDisk` reads -/
  diskUndo : Uint256 → Option (List (List CTxInUndo))
  pcoinsTip : CCoinsViewCache
  mapProofOfStake : List (Uint256 × Uint256)
  setStakeSeen : List (COutPoint × Nat)
  mapUsedStakePointers : Uint256 → Option Uint256
  setBlockIndexCandidates : List Uint256
  mapBlocksUnlinked : List (Uint256 × Uint256)
  nBlockSequenceId : Nat

namespace Node

/-- `chainActive.Tip()`. -/
def tip (node : Node) : Option CBlockIndex := node.vChain.getLast?.bind node.mapBlockIndex

/-- `chainActive.Height()`. -/
def height (node : Node) : Int := node.vChain.length - 1

/-- `chainActive[nHeight]`. -/
def active (node : Node) (nHeight : Int) : Option Uint256 :=
  if nHeight < 0 then none else node.vChain[nHeight.toNat]?

/-- `chainActive.Contains(pindex)`. -/
def contains (node : Node) (pindex : CBlockIndex) : Bool :=
  node.active pindex.nHeight == some pindex.getBlockHash

/-- `ReadBlockFromDisk(block, pindex)`: the body stored for an entry that has
data. -/
def readBlockFromDisk (node : Node) (pindex : CBlockIndex) : Option CBlock :=
  if pindex.nStatus.haveData then node.diskBlocks pindex.getBlockHash else none

def setIndex (node : Node) (hash : Uint256) (pindex : CBlockIndex) : Node :=
  { node with mapBlockIndex := Function.update node.mapBlockIndex hash (some pindex) }

end Node

/-- The sporks that block validation asks for. -/
inductive Spork
  | SPORK_3_SWIFTTX_BLOCK_FILTERING
  | SPORK_8_MASTERNODE_PAYMENT_ENFORCEMENT
  | SPORK_9_MASTERNODE_BUDGET_ENFORCEMENT
  | SPORK_13_ENABLE_SUPERBLOCKS
  deriving DecidableEq, Repr

/-- A payee and its votes. -/
structure CMasternodePayee where
  scriptPubKey : CScript
  nVotes : Int
  deriving DecidableEq, Repr

/-- A payment of a finalized budget. -/
structure CTxBudgetPayment where
  nProposalHash : Uint256
  payee : CScript
  nAmount : CAmount
  deriving DecidableEq, Repr

/-- `CFinalizedBudget`; of `mapVotes` only the size is read. -/
structure CFinalizedBudget where
  fValid : Bool
  nBlockStart : Int
  vecBudgetPayments : List CTxBudgetPayment
  voteCount : Nat
  deriving DecidableEq, Repr

/-- `CVetoVote`, the fields that `HasVetoVoteForProposalNoLock` reads. -/
structure CVetoVote where
  nProposalHash : Uint256
  fValid : Bool
  deriving DecidableEq, Repr

/-- What a node knows apart from its blocks. -/
structure LocalData where
  /-- `GetAdjustedTime()` -/
  adjustedTime : Int
  /-- `IsInitialBlockDownload()` -/
  fInitialBlockDownload : Bool
  /-- `IsSporkActive` -/
  isSporkActive : Spork → Bool
  mapLockedInputs : COutPoint → Option Uint256
  /-- `masternodeSync.IsSynced()` -/
  fSynced : Bool
  /-- `mnodeman.CountEnabled(ActiveProtocol())` -/
  nEnabled : Nat
  /-- `masternodePayments.mapMasternodeBlocks`, the payees of a height -/
  mapMasternodeBlocks : Int → Option (List CMasternodePayee)
  /-- `budget.mapFinalizedBudgets`, in the order of its keys -/
  mapFinalizedBudgets : List CFinalizedBudget
  /-- `budget.mapSeenVetoVotes` -/
  mapSeenVetoVotes : List CVetoVote
  /-- the payee of `mnodeman.GetCurrentMasterNode(1)` -/
  winningNode : Option CScript
  /-- `Checkpoints::fEnabled` -/
  fCheckpoints : Bool
  /-- `GetArg("-maxreorg", ...)`, when it is set -/
  maxreorg : Option Int
  /-- `GetRand` -/
  nRand : Nat

end Agouti
