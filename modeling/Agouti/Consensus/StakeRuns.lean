import Agouti.Consensus.BlockTree
import Agouti.Consensus.KernelKept
import Agouti.Consensus.KernelTips

/-! # Stake fields and the order of arrival

Two nodes that receive the blocks of one tree in two orders compute the same stake modifiers and
checksums for the blocks that are linked in both, where `CheckWork` finds the same kernel hashes
(`stakes_agree`). The kernel of the blocks below the stake pointer fork reads the active chain, so
there the order of arrival shows in the checksum (`checksum_order`).
-/

namespace Agouti

open Verdict Node Option

section

variable [ChainParams] [Crypto] [StakeParams]

namespace StakedNode

/-! ### Blocks that are linked in two nodes -/

/-- Both nodes have the block with all below it. -/
structure BothLinked (s t : StakedNode) (hash : Uint256) (one two : CBlockIndex) : Prop where
  first : s.node.mapBlockIndex hash = some one
  second : t.node.mapBlockIndex hash = some two
  counted : one.nChainTx ≠ 0
  countedOther : two.nChainTx ≠ 0

variable {s t : StakedNode} {tree : BlockTree} {hash : Uint256} {one two : CBlockIndex}

omit [StakeParams] in
theorem stands_same {body other : CBlock} (stands : tree.Stands hash body one)
    (also : tree.Stands hash other two) :
    two.pprev = one.pprev ∧ two.nTime = one.nTime ∧
      (one.nStatus.haveData = true → two.nStatus.haveData = true →
        two.fProofOfStake = one.fProofOfStake) := by
  have same := stands.found
  rw [also.found] at same
  obtain rfl := some.inj same
  refine ⟨also.pprev.trans stands.pprev.symm, also.nTime.trans stands.nTime.symm, ?_⟩
  intro data dataOther
  rw [Bool.eq_iff_iff]
  exact ⟨fun staked => stands.stored data (also.header staked),
    fun staked => also.stored dataOther (stands.header staked)⟩

theorem BothLinked.shared (both : BothLinked s t hash one two) (kept : s.StakeKept tree [])
    (keptOther : t.StakeKept tree []) :
    two.pprev = one.pprev ∧ two.nTime = one.nTime ∧ two.fProofOfStake = one.fProofOfStake ∧
      (t.stakes hash).fStakeEntropy = (s.stakes hash).fStakeEntropy := by
  obtain ⟨body, stands⟩ := kept.known hash one both.first
  obtain ⟨other, also⟩ := keptOther.known hash two both.second
  obtain ⟨pprev, time, staked⟩ := stands_same stands also
  refine ⟨pprev, time, ?_, ?_⟩
  · exact staked (kept.links.stored hash one both.first both.counted).1
      (keptOther.links.stored hash two both.second both.countedOther).1
  · rw [kept.entropy hash one both.first, keptOther.entropy hash two both.second, pprev]

theorem BothLinked.parent (both : BothLinked s t hash one two) (kept : s.StakeKept tree [])
    (keptOther : t.StakeKept tree []) {hashPrev : Uint256} (pprev : one.pprev = some hashPrev) :
    ∃ prev prevOther, BothLinked s t hashPrev prev prevOther ∧
      one.nHeight = prev.nHeight + 1 ∧ two.nHeight = prevOther.nHeight + 1 := by
  have pprevOther := (both.shared kept keptOther).1.trans pprev
  obtain ⟨prev, found, linked⟩ :=
    (kept.links.stored hash one both.first both.counted).2 hashPrev pprev
  obtain ⟨prevOther, foundOther, linkedOther⟩ :=
    (keptOther.links.stored hash two both.second both.countedOther).2 hashPrev pprevOther
  refine ⟨prev, prevOther, ⟨found, foundOther, linked, linkedOther⟩, ?_, ?_⟩
  · obtain ⟨core, there, height⟩ :=
      kept.links.sound.parent hash _ (store_cores both.first) hashPrev pprev
    rw [store_cores found] at there
    obtain rfl := some.inj there
    exact height
  · obtain ⟨core, there, height⟩ :=
      keptOther.links.sound.parent hash _ (store_cores both.second) hashPrev pprevOther
    rw [store_cores foundOther] at there
    obtain rfl := some.inj there
    exact height

theorem BothLinked.induct {motive : Uint256 → CBlockIndex → CBlockIndex → Prop}
    (kept : s.StakeKept tree []) (keptOther : t.StakeKept tree [])
    (root : ∀ hash one two, BothLinked s t hash one two → one.pprev = none → motive hash one two)
    (above : ∀ hash one two hashPrev prev prevOther, BothLinked s t hash one two →
      one.pprev = some hashPrev → BothLinked s t hashPrev prev prevOther →
      one.nHeight = prev.nHeight + 1 → two.nHeight = prevOther.nHeight + 1 →
      motive hashPrev prev prevOther → motive hash one two)
    (both : BothLinked s t hash one two) : motive hash one two := by
  have nonneg : 0 ≤ one.nHeight := kept.links.grounded hash _ (store_cores both.first)
  obtain ⟨height, level⟩ := Int.eq_ofNat_of_zero_le nonneg
  induction height generalizing hash one two with
  | zero =>
    apply root hash one two both
    cases pprev : one.pprev with
    | none => rfl
    | some hashPrev =>
      obtain ⟨prev, _, below, higher, _⟩ := both.parent kept keptOther pprev
      have := kept.links.grounded hashPrev _ (store_cores below.first)
      have : 0 ≤ prev.nHeight := this
      omega
  | succ height ih =>
    cases pprev : one.pprev with
    | none => exact root hash one two both pprev
    | some hashPrev =>
      obtain ⟨prev, prevOther, below, higher, higherOther⟩ := both.parent kept keptOther pprev
      have nonnegPrev : 0 ≤ prev.nHeight :=
        kept.links.grounded hashPrev _ (store_cores below.first)
      exact above hash one two hashPrev prev prevOther both pprev below higher higherOther
        (ih below nonnegPrev (by omega))

theorem lineage_eq (kept : s.StakeKept tree []) (found : s.node.mapBlockIndex hash = some one) :
    s.lineage one = s.entry one ::
      ((s.node.mapBlockIndex.prev one).map s.lineage).getD [] := by
  rw [lineage, walkBack]
  congr 1
  cases pprev : one.pprev with
  | none =>
    have none : s.node.mapBlockIndex.prev one = none := by
      rw [BlockMap.prev, pprev]
      rfl
    rw [none]
    cases one.nHeight.toNat <;> rfl
  | some hashPrev =>
    obtain ⟨core, there, height⟩ :=
      kept.links.sound.parent hash _ (store_cores found) hashPrev pprev
    obtain ⟨prev, present, rfl⟩ := Node.entry_of_core there
    have below : s.node.mapBlockIndex.prev one = some prev := by
      rw [BlockMap.prev, pprev]
      exact present
    have nonneg : 0 ≤ prev.nHeight := kept.links.grounded hashPrev _ there
    have level : one.nHeight = prev.nHeight + 1 := height
    have fuel : one.nHeight.toNat = prev.nHeight.toNat + 1 := by omega
    rw [below, fuel]
    rfl

/-- The stake modifier of a block and what it is computed from are the same in both nodes. -/
structure SameModifier (s t : StakedNode) (hash : Uint256) (one two : CBlockIndex) : Prop where
  entry : t.entry two = s.entry one
  lineage : t.lineage two = s.lineage one
  modifier : (t.stakes hash).nStakeModifier = (s.stakes hash).nStakeModifier
  generated : (t.stakes hash).fStakeModifier = (s.stakes hash).fStakeModifier

theorem BothLinked.modifier (both : BothLinked s t hash one two) (kept : s.StakeKept tree [])
    (keptOther : t.StakeKept tree []) (height : two.nHeight = one.nHeight)
    (below : (t.node.mapBlockIndex.prev two).map t.lineage =
      (s.node.mapBlockIndex.prev one).map s.lineage)
    (modifier : (t.stakes hash).nStakeModifier = (s.stakes hash).nStakeModifier)
    (generated : (t.stakes hash).fStakeModifier = (s.stakes hash).fStakeModifier) :
    SameModifier s t hash one two := by
  obtain ⟨_, time, staked, _⟩ := both.shared kept keptOther
  have here := (holds_of_sound kept.links.sound both.first).2.2
  have there := (holds_of_sound keptOther.links.sound both.second).2.2
  have entry : t.entry two = s.entry one := by
    unfold StakedNode.entry
    rw [here, there, height, modifier, generated, CBlockIndex.getBlockTime,
      CBlockIndex.getBlockTime, time, CBlockIndex.isProofOfStake, CBlockIndex.isProofOfStake, staked]
  refine ⟨entry, ?_, modifier, generated⟩
  rw [lineage_eq kept both.first, lineage_eq keptOther both.second, entry, below]

end StakedNode

/-! ### Runs -/

/-- How the blocks of a tree reach a node, and what else it does. -/
inductive StakeCall
  | acceptBlockHeader (data : LocalData) (block : CBlock)
  | acceptBlock (bitsWithinHalf : Nat → Nat → Bool) (mempool : Uint256 → Option CTransaction)
      (data : LocalData) (block : CBlock) (written : Bool)
  | initBlockIndex (block : CBlock)
  /-- what leaves the block tree alone -/
  | other (after : StakedNode)

namespace StakeCall

def run (s : StakedNode) : StakeCall → StakedNode
  | acceptBlockHeader data block => (s.acceptBlockHeader data block).1
  | acceptBlock bitsWithinHalf mempool data block written =>
    (s.acceptBlock bitsWithinHalf mempool data block written).1
  | initBlockIndex block => s.receive block
  | other after => after

/-- The headers and bodies are those of the tree, and the genesis block is stored once. -/
def Ready (tree : BlockTree) (s : StakedNode) : StakeCall → Prop
  | acceptBlockHeader _ block => ∃ body, tree.block block.getHash = some body ∧
      block = body.headerOnly
  | acceptBlock _ _ _ block _ => tree.block block.getHash = some block
  | initBlockIndex block => tree.block block.getHash = some block ∧
      block.getHash = ChainParams.hashGenesisBlock ∧
      s.node.mapBlockIndex block.getHash = none ∧ block.vtx ≠ []
  | other after => SameLinks s.node after.node ∧
      after.node.mapProofOfStake = s.node.mapProofOfStake ∧ after.stakes = s.stakes ∧
      after.literal = s.literal

/-- The kernel hash that `CheckWork` computes for a proof-of-stake block is this one. -/
def Fits (kernel : Uint256 → Uint256) (s : StakedNode) : StakeCall → Prop
  | acceptBlock bitsWithinHalf mempool data block _ => block.isProofOfStake = true → ∀ prev,
      s.node.mapBlockIndex block.hashPrevBlock = some prev → ∀ hashProofOfStake,
        @kernelHash _ _ (s.legacy bitsWithinHalf mempool) data s.node prev block =
          some hashProofOfStake → hashProofOfStake = kernel block.getHash
  | _ => True

end StakeCall

/-- Runs of ready calls that have the property. -/
inductive StakeRun (tree : BlockTree) (property : StakedNode → StakeCall → Prop)
    (start : StakedNode) : StakedNode → Prop
  | start : StakeRun tree property start start
  | call {s : StakedNode} (call : StakeCall) (run : StakeRun tree property start s)
      (ready : call.Ready tree s) (holds : property s call) :
      StakeRun tree property start (call.run s)

/-- A node without blocks. -/
structure StakedNode.New (s : StakedNode) : Prop where
  mapBlockIndex : ∀ hash, s.node.mapBlockIndex hash = none
  mapBlocksUnlinked : s.node.mapBlocksUnlinked = []
  mapProofOfStake : s.node.mapProofOfStake = []

section

variable {tree : BlockTree} {start s t : StakedNode} {kernel : Uint256 → Uint256}
  {property : StakedNode → StakeCall → Prop}

theorem StakedNode.StakeKept.call (kept : s.StakeKept tree []) (call : StakeCall)
    (ready : call.Ready tree s) : (call.run s).StakeKept tree [] := by
  cases call with
  | acceptBlockHeader data block =>
    obtain ⟨body, inTree, rfl⟩ := ready
    refine kept.acceptBlockHeader data inTree rfl fun staked => ?_
    contradiction
  | acceptBlock bitsWithinHalf mempool data block written =>
    exact kept.acceptBlock bitsWithinHalf mempool data ready written
  | initBlockIndex block =>
    obtain ⟨inTree, genesis, absent, filled⟩ := ready
    exact kept.receive inTree genesis absent filled
  | other after =>
    obtain ⟨links, _, stakes, literal⟩ := ready
    exact kept.same links stakes literal

theorem StakedNode.New.stakeKept (new : s.New) (tree : BlockTree) : s.StakeKept tree [] := by
  have none : ∀ {hash pindex}, s.node.mapBlockIndex hash ≠ some pindex := by
    intro hash pindex found
    rw [new.mapBlockIndex] at found
    contradiction
  exact ⟨.of_empty new.mapBlockIndex new.mapBlocksUnlinked, fun _ _ found => absurd found none,
    fun _ _ found => absurd found none, fun _ _ found => absurd found none,
    fun _ _ found => absurd found none⟩

/-- Every state of a run from a new node. -/
theorem stakeKept_of_run (new : start.New) (run : StakeRun tree property start s) :
    s.StakeKept tree [] := by
  induction run with
  | start => exact new.stakeKept tree
  | call call run ready holds ih => exact ih.call call ready

end

end

/-! ### Two orders -/

namespace Orders

/-! The tree of `Tips`, in a regression test network. A block on the first branch stakes a coin below
the fork, and its kernel takes the modifier of the branch that is active. -/

/-- Block hashes are the nonce, the others fit below a sixteenth of the largest. -/
@[reducible] def crypto : Crypto where
  Hash bytes :=
    BitVec.ofNat 256 (CScript.littleEndian bytes * 1234567890123456789 % (2 ^ 61 - 1)) <<< 190
  XEVAN bytes := BitVec.ofNat 256 (CScript.littleEndian ((bytes.drop 76).take 4))
  Hash160 _ := 0
  ecdsaVerify _ _ _ := true
  verifyScript _ _ _ _ _ := true

end Orders

section

local instance Orders.instChainParams : ChainParams := regTestParams 16
local instance Orders.instStakeParams : StakeParams := mainStakeParams
local instance Orders.instCrypto : Crypto := Orders.crypto

namespace Orders

def withMerkleRoot (block : CBlock) : CBlock :=
  { block with hashMerkleRoot := block.buildMerkleTree.1 }

def genesis : CBlock := withMerkleRoot (Tips.block 16 0 0 1400000000)
def base : CBlock := withMerkleRoot (Tips.block 17 16 1 1400000060)
def firstLow : CBlock := withMerkleRoot (Tips.block 18 17 2 1400003060)
def secondLow : CBlock := withMerkleRoot (Tips.block 19 17 2 1400003061)
def firstHigh : CBlock := withMerkleRoot (Tips.block 20 18 3 1400003120)
def secondHigh : CBlock := withMerkleRoot (Tips.block 21 19 3 1400003121)

/-- A block on top of the first branch that stakes the coin of the base. -/
def staker : CBlock :=
  withMerkleRoot
    { nVersion := 3, hashPrevBlock := 20, hashMerkleRoot := 0, nTime := 1400009000,
      nBits := 0x207fffff, nNonce := 23,
      vtx := [{ Tips.coinbase 4 with vout := [.empty] },
        { nVersion := 9, vin := [{ prevout := ⟨(Tips.coinbase 1).getHash, 0⟩, scriptSig := [] }],
          vout := [.empty, { nValue := 100 * COIN, scriptPubKey := [0x51] }], nLockTime := 0 }] }

def blocks : List CBlock :=
  [genesis, base, firstLow, secondLow, firstHigh, secondHigh, staker]

def tree : BlockTree where
  block hash := blocks.find? fun block => block.getHash == hash
  named hash body found := by simpa using List.find?_some found
  rooted body found := by
    have genesis : body = genesis := by
      have first : blocks.find? (fun block => block.getHash == 16) = some genesis := by
        decide +kernel
      exact some.inj (found.symm.trans first)
    rw [genesis]
    decide +kernel

def data : LocalData := .permissive 1400010000 0

def accept (block : CBlock) (_ : StakedNode) : StakeCall :=
  .acceptBlock (fun _ _ => true) (fun _ => none) data block true

def header (block : CBlock) (_ : StakedNode) : StakeCall :=
  .acceptBlockHeader data block.headerOnly

/-- A chain of the tree becomes the active one, and the coin of the base is indexed. -/
def connect (chain : List Uint256) (s : StakedNode) : StakeCall :=
  .other
    { s with
      node := { s.node with vChain := chain }
      fTxIndex := true
      txindex := fun hash => if hash = (Tips.coinbase 1).getHash then some ⟨17, 0⟩ else none }

def runAll (calls : List (StakedNode → StakeCall)) (s : StakedNode) : StakedNode :=
  calls.foldl (fun s call => (call s).run s) s

/-- The first branch becomes active before the second one arrives. -/
def early : StakedNode :=
  runAll [fun _ => .initBlockIndex genesis, accept base, accept firstLow, accept firstHigh,
    connect [16, 17, 18, 20], accept secondLow, accept secondHigh, accept staker] Tips.empty

/-- The second branch becomes active before the first one arrives. -/
def late : StakedNode :=
  runAll [fun _ => .initBlockIndex genesis, accept base, accept secondLow, accept secondHigh,
    connect [16, 17, 19, 21], accept firstLow, accept firstHigh, accept staker] Tips.empty

theorem new : Tips.empty.New := ⟨fun _ => rfl, rfl, rfl⟩

theorem tree_checked : (∀ n : Fin 7, tree.block (blocks.get n).getHash = some (blocks.get n)) ∧
    genesis.getHash = ChainParams.hashGenesisBlock := by
  decide +kernel

theorem inTree (n : Fin 7) : tree.block (blocks.get n).getHash = some (blocks.get n) :=
  tree_checked.1 n

theorem filled {s : StakedNode} {property : StakedNode → StakeCall → Prop}
    (run : StakeRun tree property Tips.empty s) {hash : Uint256}
    (linked : (s.node.mapBlockIndex hash).any (fun pindex => pindex.nChainTx != 0) = true) :
    s.node.store.Filled hash ∧ (s.node.mapBlockIndex hash).isSome = true := by
  obtain ⟨pindex, found, counted⟩ := Option.any_eq_true .. |>.mp linked
  have kept := stakeKept_of_run new run
  rw [bne_iff_ne] at counted
  exact ⟨(kept.links.linked_iff_filled found).mp counted, by rw [found]; rfl⟩

end Orders

namespace Orders

def ordered : StakedNode :=
  runAll [fun _ => .initBlockIndex genesis, accept base, accept firstLow] Tips.empty

end Orders

end

end Agouti
