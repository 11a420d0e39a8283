import Agouti.Consensus.StakeKept

/-! # The kernel hashes of the block index

`CheckWork` puts the kernel hash of a proof-of-stake block on record, and `AddToBlockIndex` and
`ReceivedBlockTransactions` take it from there. When `CheckWork` computes the same kernel hash for
a block whenever it is asked, this is the one in the block index (`Node.HashKept`).
-/

namespace Agouti

open Verdict Node List Function Option

variable [ChainParams] [Crypto]

namespace Node

/-- The recorded kernel hashes are those of `kernel`. -/
structure HashKept (kernel : Uint256 → Uint256) (node : Node) : Prop where
  recorded : ∀ pair ∈ node.mapProofOfStake, pair.2 = kernel pair.1
  hashes : ∀ hash pindex, node.mapBlockIndex hash = some pindex →
    hash ≠ ChainParams.hashGenesisBlock →
      pindex.hashProofOfStake = if pindex.fProofOfStake then kernel hash else 0

variable {node after : Node} {kernel : Uint256 → Uint256}

omit [Crypto] in
theorem HashKept.same (kept : node.HashKept kernel)
    (recorded : after.mapProofOfStake = node.mapProofOfStake)
    (entries : ∀ hash later, after.mapBlockIndex hash = some later → ∃ pindex,
      node.mapBlockIndex hash = some pindex ∧ later.hashProofOfStake = pindex.hashProofOfStake ∧
        later.fProofOfStake = pindex.fProofOfStake) : after.HashKept kernel := by
  refine ⟨recorded ▸ kept.recorded, fun hash later present other => ?_⟩
  obtain ⟨pindex, found, same, staked⟩ := entries hash later present
  rw [same, staked]
  exact kept.hashes hash pindex found other

omit [Crypto] in
theorem HashKept.links (kept : node.HashKept kernel) (same : SameLinks node after)
    (recorded : after.mapProofOfStake = node.mapProofOfStake) : after.HashKept kernel := by
  refine kept.same recorded fun hash later present => ?_
  obtain ⟨pindex, found, link⟩ := same.origin present
  exact ⟨pindex, found, link.field CBlockIndex.hashProofOfStake fun _ => rfl,
    link.field CBlockIndex.fProofOfStake fun _ => rfl⟩

omit [ChainParams] [Crypto] in
theorem linkBlocks_recorded (fuel : Nat) (queue : List Uint256) (node : Node) :
    (linkBlocks fuel queue node).mapProofOfStake = node.mapProofOfStake := by
  induction fuel generalizing queue node with
  | zero => rfl
  | succ fuel ih =>
    cases queue with
    | nil => rfl
    | cons hash queue =>
      unfold linkBlocks
      split
      · exact ih queue node
      · refine (ih _ _).trans ?_
        simp only [linkBlock, insertCandidate]
        split
        · rfl
        · rfl

omit [ChainParams] in
theorem storeBlock_recorded (node : Node) (block : CBlock) (pindex : CBlockIndex) :
    (node.storeBlock block pindex).mapProofOfStake = node.mapProofOfStake := by
  unfold storeBlock receivedBlockTransactions
  simp only
  split
  · exact linkBlocks_recorded _ _ _
  · split
    · rfl
    · split
      · exact linkBlocks_recorded _ _ _
      · split
        · rfl
        · rfl

omit [ChainParams] in
theorem receivedIndex_hashProofOfStake (node : Node) (block : CBlock) (pindex : CBlockIndex) :
    (node.receivedIndex block pindex).hashProofOfStake =
      if block.isProofOfStake = true ∧ pindex.hashProofOfStake = 0 then
        (node.mapProofOfStake.lookup block.getHash).getD 0
      else pindex.hashProofOfStake := by
  unfold receivedIndex
  rw [(CBlockIndex.raiseValidity_mark _ _).field CBlockIndex.hashProofOfStake fun _ => rfl]
  cases block.isProofOfStake with
  | false => rfl
  | true => simp

omit [ChainParams] in
theorem newIndex_hashProofOfStake (node : Node) (block : CBlock) :
    (node.newIndex block).hashProofOfStake =
      if (node.mapBlockIndex block.hashPrevBlock).isSome && block.isProofOfStake then
        (node.mapProofOfStake.lookup block.getHash).getD 0
      else 0 := by
  unfold newIndex
  exact (CBlockIndex.raiseValidity_mark _ _).field CBlockIndex.hashProofOfStake fun _ => rfl

/-- The kernel hash of a block is on record when its stake is looked up. -/
def KernelKnown (kernel : Uint256 → Uint256) (node : Node) (block : CBlock) : Prop :=
  block.isProofOfStake = true → block.getHash ≠ ChainParams.hashGenesisBlock →
    node.mapProofOfStake.lookup block.getHash = some (kernel block.getHash)

theorem HashKept.addToBlockIndex (kept : node.HashKept kernel) {block : CBlock}
    (known : KernelKnown kernel node block)
    (parent : block.getHash ≠ ChainParams.hashGenesisBlock →
      (node.mapBlockIndex block.hashPrevBlock).isSome = true) :
    (node.addToBlockIndex block).HashKept kernel := by
  cases found : node.mapBlockIndex block.getHash with
  | some pindex =>
    have same := addToBlockIndex_known found
    exact same.symm ▸ kept
  | none =>
    have index := addToBlockIndex_index found
    have recorded : (node.addToBlockIndex block).mapProofOfStake = node.mapProofOfStake := by
      simp [Node.addToBlockIndex, found, setIndex]
    refine ⟨recorded ▸ kept.recorded, fun hash later present other => ?_⟩
    rcases origin_update index hash later present with ⟨rfl, rfl⟩ | ⟨_, before⟩
    · have staked : (node.newIndex block).fProofOfStake = block.isProofOfStake :=
        congrArg IndexCore.fProofOfStake (newIndex_core node block)
      rw [newIndex_hashProofOfStake, staked, parent other, Bool.true_and]
      split
      · rename_i stake
        rw [known stake other, getD_some]
      · rfl
    · exact kept.hashes hash later before other

theorem HashKept.storeBlock (kept : node.HashKept kernel) {block : CBlock} {pindex : CBlockIndex}
    (known : KernelKnown kernel node block)
    (found : node.mapBlockIndex block.getHash = some pindex)
    (named : pindex.getBlockHash = block.getHash)
    (header : pindex.fProofOfStake = true → block.isProofOfStake = true) :
    (node.storeBlock block pindex).HashKept kernel := by
  refine ⟨storeBlock_recorded node block pindex ▸ kept.recorded, fun hash later present other => ?_⟩
  have same := (receivedBlockTransactions_entries { node with
    diskBlocks := Function.update node.diskBlocks pindex.getBlockHash (some block) }
      block pindex).1.entries hash
  have there : (({ node with
      diskBlocks := Function.update node.diskBlocks pindex.getBlockHash (some block) } :
        Node).receivedBlockTransactions block pindex).mapBlockIndex hash = some later := present
  rw [there, map_some] at same
  obtain ⟨before, foundBefore, fixed⟩ := map_eq_some_iff.mp same.symm
  have kernelSame : later.hashProofOfStake = before.hashProofOfStake :=
    (congrArg CBlockIndex.hashProofOfStake fixed).symm
  have stakedSame : later.fProofOfStake = before.fProofOfStake :=
    (congrArg CBlockIndex.fProofOfStake fixed).symm
  rw [kernelSame, stakedSame]
  simp only [setIndex, named] at foundBefore
  by_cases self : hash = block.getHash
  · subst self
    rw [update_self, some_inj] at foundBefore
    subst foundBefore
    have staked : ∀ base : Node, (base.receivedIndex block pindex).fProofOfStake =
        (block.isProofOfStake || pindex.fProofOfStake) := fun base =>
      congrArg IndexCore.fProofOfStake (receivedIndex_core base block pindex)
    have old := kept.hashes _ pindex found other
    rw [receivedIndex_hashProofOfStake, staked]
    cases stake : block.isProofOfStake with
    | false =>
      have unstaked : pindex.fProofOfStake = false := by
        rw [← Bool.not_eq_true]
        exact fun here => Bool.noConfusion (stake.symm.trans (header here))
      rw [unstaked] at old
      simp only [Bool.false_eq_true, false_and, if_false, unstaked, Bool.false_or]
      exact old
    | true =>
      simp only [true_and, Bool.true_or, if_true, known stake other, getD_some]
      split
      · rfl
      · rename_i set
        rw [old, ite_eq_right_iff, Classical.not_imp] at set
        rw [old, if_pos set.1]
  · rw [update_of_ne self] at foundBefore
    exact kept.hashes hash before foundBefore other

omit [Crypto] in
theorem HashKept.recordProofOfStake (kept : node.HashKept kernel) (nRand : Nat) {hash value : Uint256}
    (fits : value = kernel hash) : (node.recordProofOfStake nRand hash value).HashKept kernel := by
  unfold Node.recordProofOfStake
  split
  · exact kept
  · refine ⟨fun pair member => ?_, kept.hashes⟩
    rcases mem_cons.mp member with rfl | older
    · exact fits
    · split at older
      · exact kept.recorded pair (mem_of_mem_eraseIdx older)
      · exact kept.recorded pair older

theorem HashKept.acceptWork [Legacy] (kept : node.HashKept kernel) {data : LocalData}
    {block : CBlock} {pindexPrev : Option CBlockIndex}
    (parent : block.getHash ≠ ChainParams.hashGenesisBlock → pindexPrev.isSome = true)
    (fits : block.isProofOfStake = true → ∀ prev, pindexPrev = some prev →
      ∀ hashProofOfStake, kernelHash data node prev block = some hashProofOfStake →
        hashProofOfStake = kernel block.getHash) {worked : Node}
    (work : Agouti.acceptWork data node block pindexPrev = some worked) :
    worked.HashKept kernel ∧ KernelKnown kernel worked block := by
  have known : ∀ base : Node, base.HashKept kernel →
      (base.mapProofOfStake.lookup block.getHash).isSome = true → KernelKnown kernel base block := by
    intro base keptBase present _ _
    obtain ⟨value, found⟩ := isSome_iff_exists.mp present
    obtain ⟨before, behind, list, _⟩ := lookup_eq_some_iff.mp found
    have member : (block.getHash, value) ∈ base.mapProofOfStake := by
      rw [list]
      exact mem_append_right before mem_cons_self
    rw [found]
    exact congrArg some (keptBase.recorded _ member)
  rcases acceptWork_recorded work with ⟨rfl, recorded⟩ | ⟨prev, value, below, stake, computed, rfl⟩
  · refine ⟨kept, fun stake other => ?_⟩
    obtain ⟨prev, below⟩ := isSome_iff_exists.mp (parent other)
    exact known _ kept (recorded prev below stake) stake other
  · have keptWorked := kept.recordProofOfStake data.nRand (fits stake prev below value computed)
    refine ⟨keptWorked, known _ keptWorked ?_⟩
    unfold Node.recordProofOfStake
    split
    · assumption
    · rw [lookup_cons_self]
      rfl

end Node

namespace StakedNode

variable [StakeParams] {s : StakedNode} {tree : BlockTree} {kernel : Uint256 → Uint256}

variable {block : CBlock}

end StakedNode

end Agouti
