import Agouti.Consensus.StakeRewards
import Agouti.Validation.Reorganize

/-! # The branch of a stake pointer

`CheckBlockProofPointer` asks that the block of a stake pointer is on the active chain,
while the scan for used pointers and the kernel look at the branch of the parent. The named
block is an ancestor of the parent exactly when the two share a block at its height or
above it (`pointerBranch`); where every active chain shares a block with the branch
above the window of the pointer, the check does not depend on which of them is active.
-/

namespace Agouti

open List Option

namespace BlockStore

variable {store : BlockStore}

theorem Descends.height [Crypto] (sound : store.Sound) {hash ancestor : Uint256}
    {core lower : IndexCore} (descends : store.Descends hash ancestor)
    (found : store.cores hash = some core) (there : store.cores ancestor = some lower) :
    hash = ancestor ∨ lower.nHeight < core.nHeight := by
  induction descends using Relation.ReflTransGen.head_induction_on generalizing core with
  | refl => exact .inl rfl
  | head step rest ih =>
    obtain ⟨same, present, pprev⟩ := step
    rw [found] at present
    obtain rfl := some.inj present
    obtain ⟨prev, parent, height⟩ := sound.parent _ _ found _ pprev
    refine .inr ?_
    rcases ih parent with rfl | lower
    · rw [there] at parent
      obtain rfl := some.inj parent
      omega
    · omega

theorem Descends.unique [Crypto] (sound : store.Sound) {hash first second : Uint256}
    {a b : IndexCore} (descends : store.Descends hash first) (other : store.Descends hash second)
    (found : store.cores first = some a) (there : store.cores second = some b)
    (level : a.nHeight = b.nHeight) : first = second := by
  have parent : Relator.RightUnique fun hash hashPrev =>
      ∃ core, store.cores hash = some core ∧ core.pprev = some hashPrev := by
    rintro child one two ⟨core, here, pprev⟩ ⟨core', here', pprev'⟩
    rw [here] at here'
    obtain rfl := some.inj here'
    exact some.inj (pprev.symm.trans pprev')
  rcases Relation.ReflTransGen.total_of_right_unique parent descends other with down | down
  · rcases Descends.height sound down found there with same | lower
    · exact same
    · omega
  · rcases Descends.height sound down there found with same | lower
    · exact same.symm
    · omega

end BlockStore

namespace Node

def onChain (node : Node) (chain : List Uint256) : Node := { node with vChain := chain }

/-- A chain shares a block at the height or above it with the branch of an entry. -/
def Shares (node : Node) (chain : List Uint256) (pindexPrev : CBlockIndex) (nHeight : Int) :
    Prop :=
  ∃ (i : Nat) (hash : Uint256), chain[i]? = some hash ∧ nHeight ≤ i ∧
    node.store.Descends pindexPrev.getBlockHash hash

variable {node : Node} {chain : List Uint256} {pindexPrev pindexFrom : CBlockIndex}

theorem Shares.lower {nHeight lower : Int} (shares : node.Shares chain pindexPrev nHeight)
    (below : lower ≤ nHeight) : node.Shares chain pindexPrev lower := by
  obtain ⟨i, hash, place, above, descends⟩ := shares
  exact ⟨i, hash, place, below.trans above, descends⟩

theorem Shares.descends (path : node.store.Path chain) {place : Nat} {hashBlock : Uint256}
    (here : chain[place]? = some hashBlock) (shares : node.Shares chain pindexPrev place) :
    node.store.Descends pindexPrev.getBlockHash hashBlock := by
  obtain ⟨i, hash, there, above, descends⟩ := shares
  have last : (chain.take (i + 1)).getLast? = some hash := by
    rw [take_add_one, there, toList_some, List.getLast?_concat]
  refine descends.trans (((path.take (i + 1)).descends_iff last).mpr ?_)
  refine mem_of_getElem? (i := place) ?_
  rw [List.getElem?_take_of_lt (by omega)]
  exact here

section

variable [Crypto]

omit [Crypto] in
theorem descends_iff_shares (path : node.store.Path chain) {place : Nat} {hashBlock : Uint256}
    (here : chain[place]? = some hashBlock) :
    node.store.Descends pindexPrev.getBlockHash hashBlock ↔ node.Shares chain pindexPrev place :=
  ⟨fun descends => ⟨place, hashBlock, here, le_rfl, descends⟩,
    fun shares => shares.descends path here⟩

theorem Shares.contains (sound : node.store.Sound) (path : node.store.Path chain)
    {hashBlock : Uint256} (found : node.mapBlockIndex hashBlock = some pindexFrom)
    (nonneg : 0 ≤ pindexFrom.nHeight) (shares : node.Shares chain pindexPrev pindexFrom.nHeight)
    (descends : node.store.Descends pindexPrev.getBlockHash hashBlock) :
    chain[pindexFrom.nHeight.toNat]? = some hashBlock := by
  obtain ⟨i, hash, there, above, shared⟩ := shares
  have inside : pindexFrom.nHeight.toNat < chain.length := by
    have bound := (List.getElem?_eq_some_iff.mp there).1
    omega
  have here := List.getElem?_eq_getElem inside
  have low : node.Shares chain pindexPrev pindexFrom.nHeight.toNat :=
    ⟨i, hash, there, by omega, shared⟩
  obtain ⟨core, present, level, _⟩ := path.entry _ _ here
  have height : core.nHeight = pindexFrom.nHeight := by omega
  rw [here, BlockStore.Descends.unique sound (low.descends path here) descends present
    (store_cores found) height]

end

section

theorem scanPointers_onChain (outpoint : COutPoint) (nStopHeight : Int) (fuel : Nat)
    (pindex : Option CBlockIndex) :
    scanPointers (node.onChain chain) outpoint nStopHeight fuel pindex =
      scanPointers node outpoint nStopHeight fuel pindex := by
  induction fuel generalizing pindex with
  | zero => rfl
  | succ fuel ih =>
    cases pindex with
    | none => rfl
    | some pindex =>
      rw [scanPointers, scanPointers, ih]
      rfl

variable [ChainParams]

theorem isStakePointerUsed_onChain (outpoint : COutPoint) :
    isStakePointerUsed (node.onChain chain) pindexPrev outpoint =
      isStakePointerUsed node pindexPrev outpoint :=
  scanPointers_onChain ..

variable [Crypto]

/-- The lowest height at which a shared block makes the whole pointer window common. -/
def settledHeight (pindexPrev : CBlockIndex) : Int :=
  pindexPrev.nHeight + 1 - nMaxReorganizationDepth

omit [Crypto] in
theorem Shares.of_parent (path : node.store.Path chain)
    (found : node.mapBlockIndex pindexPrev.getBlockHash = some pindexPrev)
    (member : pindexPrev.getBlockHash ∈ chain) (deep : 1 ≤ nMaxReorganizationDepth) :
    node.Shares chain pindexPrev (settledHeight pindexPrev) := by
  obtain ⟨i, place⟩ := List.getElem?_of_mem member
  obtain ⟨core, present, height, _⟩ := path.entry i _ place
  rw [store_cores found] at present
  obtain rfl := some.inj present
  have level : pindexPrev.nHeight = i := height
  refine ⟨i, _, place, ?_, .refl⟩
  rw [settledHeight]
  omega

theorem checkBlockProofPointer_moves (sound : node.store.Sound) (grounded : node.store.Grounded)
    {other : List Uint256} (path : node.store.Path chain) (pathOther : node.store.Path other)
    (shares : node.Shares chain pindexPrev (settledHeight pindexPrev))
    (sharesOther : node.Shares other pindexPrev (settledHeight pindexPrev)) {block : CBlock}
    {result : CPubKey × COutPoint}
    (passed : checkBlockProofPointer (node.onChain chain) pindexPrev (pindexPrev.nHeight + 1)
      block = some result) :
    checkBlockProofPointer (node.onChain other) pindexPrev (pindexPrev.nHeight + 1) block =
      some result := by
  obtain ⟨⟨pindexFrom, blockFrom, tx, window, unused, read, named, owns⟩, keys, same⟩ :=
    checkBlockProofPointer_eq_some.mp passed
  have found : node.mapBlockIndex block.stakePointer.hashBlock = some pindexFrom := window.found
  have nonneg : 0 ≤ pindexFrom.nHeight := grounded _ _ (store_cores found)
  have hash : pindexFrom.getBlockHash = block.stakePointer.hashBlock := by
    have stored := sound.hash _ _ (store_cores found)
    exact congrArg (Option.getD · 0) stored
  have here := (contains_iff nonneg).mp window.active
  rw [hash] at here
  have height : ((pindexFrom.nHeight.toNat : Nat) : Int) = pindexFrom.nHeight :=
    Int.toNat_of_nonneg nonneg
  -- the named block is below what the first chain shares, hence below the parent
  have descends : node.store.Descends pindexPrev.getBlockHash block.stakePointer.hashBlock :=
    Shares.descends path here (shares.lower (height.symm ▸ window.settled))
  have there := (sharesOther.lower window.settled).contains sound pathOther found nonneg descends
  refine checkBlockProofPointer_eq_some.mpr ⟨⟨pindexFrom, blockFrom, tx,
    ⟨found, ?_, window.recent, window.settled⟩, ?_, read, named, owns⟩, keys, same⟩
  · apply (contains_iff nonneg).mpr
    rw [hash]
    exact there
  · rw [isStakePointerUsed_onChain] at unused ⊢
    exact unused

theorem checkBlockProofPointer_same (sound : node.store.Sound) (grounded : node.store.Grounded)
    {other : List Uint256} (path : node.store.Path chain) (pathOther : node.store.Path other)
    (shares : node.Shares chain pindexPrev (settledHeight pindexPrev))
    (sharesOther : node.Shares other pindexPrev (settledHeight pindexPrev)) (block : CBlock) :
    checkBlockProofPointer (node.onChain chain) pindexPrev (pindexPrev.nHeight + 1) block =
      checkBlockProofPointer (node.onChain other) pindexPrev (pindexPrev.nHeight + 1) block := by
  ext result
  constructor
  · exact checkBlockProofPointer_moves sound grounded path pathOther shares sharesOther
  · exact checkBlockProofPointer_moves sound grounded pathOther path sharesOther shares

end

end Node

section

variable [ChainParams] [Crypto]

theorem checkStake_onChain {node : Node} {chain other : List Uint256} {pindexPrev : CBlockIndex}
    {block : CBlock} (data : LocalData)
    (same : checkBlockProofPointer (node.onChain chain) pindexPrev (pindexPrev.nHeight + 1) block =
      checkBlockProofPointer (node.onChain other) pindexPrev (pindexPrev.nHeight + 1) block) :
    checkStake data (node.onChain chain) pindexPrev block =
      checkStake data (node.onChain other) pindexPrev block := by
  unfold checkStake
  rw [same]
  rfl

/-- **The branch of a stake pointer.** An accepted block names a block of the active chain;
it is an ancestor of the parent exactly when the active chain shares a block at its height
or above it with the branch of the parent, and so whenever it shares one that is above the
window. On all active chains that do so the verdict is the same, in particular on all that
contain the parent. -/
theorem pointerBranch {node : Node} {pindexPrev : CBlockIndex} (sound : node.store.Sound)
    (grounded : node.store.Grounded) :
    (∀ chain, node.store.Path chain → ∀ block result,
        checkBlockProofPointer (node.onChain chain) pindexPrev (pindexPrev.nHeight + 1) block =
          some result →
        ∃ place : Nat, chain[place]? = some block.stakePointer.hashBlock ∧
          (node.store.Descends pindexPrev.getBlockHash block.stakePointer.hashBlock ↔
            node.Shares chain pindexPrev place) ∧
          (node.Shares chain pindexPrev (Node.settledHeight pindexPrev) →
            node.store.Descends pindexPrev.getBlockHash block.stakePointer.hashBlock)) ∧
      (∀ chain other, node.store.Path chain → node.store.Path other →
        node.Shares chain pindexPrev (Node.settledHeight pindexPrev) →
        node.Shares other pindexPrev (Node.settledHeight pindexPrev) → ∀ data block,
          checkBlockProofPointer (node.onChain chain) pindexPrev (pindexPrev.nHeight + 1) block =
            checkBlockProofPointer (node.onChain other) pindexPrev (pindexPrev.nHeight + 1)
              block ∧
          checkStake data (node.onChain chain) pindexPrev block =
            checkStake data (node.onChain other) pindexPrev block) ∧
      (node.mapBlockIndex pindexPrev.getBlockHash = some pindexPrev →
        1 ≤ nMaxReorganizationDepth → ∀ chain, node.store.Path chain →
        pindexPrev.getBlockHash ∈ chain →
        node.Shares chain pindexPrev (Node.settledHeight pindexPrev)) := by
  refine ⟨?_, ?_, fun found deep chain path member =>
    Node.Shares.of_parent path found member deep⟩
  · intro chain path block result passed
    obtain ⟨⟨pindexFrom, _, _, window, _⟩, _⟩ := checkBlockProofPointer_eq_some.mp passed
    have found : node.mapBlockIndex block.stakePointer.hashBlock = some pindexFrom := window.found
    have nonneg : 0 ≤ pindexFrom.nHeight := grounded _ _ (Node.store_cores found)
    have here := (Node.contains_iff nonneg).mp window.active
    have hash : pindexFrom.getBlockHash = block.stakePointer.hashBlock :=
      congrArg (Option.getD · 0) (sound.hash _ _ (Node.store_cores found))
    rw [hash] at here
    have height : ((pindexFrom.nHeight.toNat : Nat) : Int) = pindexFrom.nHeight :=
      Int.toNat_of_nonneg nonneg
    refine ⟨pindexFrom.nHeight.toNat, here, Node.descends_iff_shares path here, ?_⟩
    intro shares
    exact Node.Shares.descends path here (shares.lower (height.symm ▸ window.settled))
  · intro chain other path pathOther shares sharesOther data block
    have same := Node.checkBlockProofPointer_same sound grounded path pathOther shares sharesOther
      block
    exact ⟨same, checkStake_onChain data same⟩

end

namespace SideBranch

/-! Beside the chain of `StakedTip`, a stored branch of proof of work that leaves it below
height 90. -/

/-- The block at height `n` of the branch. -/
def sideBlock (n : Nat) : CBlock :=
  StakedTip.withMerkleRoot
    { StakedTip.powBlock n with
      hashPrevBlock := BitVec.ofNat 256 (if n = 90 then 89 else 999 + n), nNonce := 1000 + n }

def sideIndex (n : Nat) : CBlockIndex :=
  { CBlockIndex.ofBlock (sideBlock n) with
    phashBlock := some (BitVec.ofNat 256 (1000 + n)),
    pprev := some (BitVec.ofNat 256 (if n = 90 then 89 else 999 + n)), nHeight := n, nTx := 1,
    nStatus := { valid := BLOCK_VALID_TRANSACTIONS, haveData := true } }

def onSide (hash : Uint256) : Bool := decide (1090 ≤ hash.toNat) && decide (hash.toNat ≤ 1100)

def node : Node :=
  { StakedTip.node with
    mapBlockIndex := fun hash =>
      if onSide hash then some (sideIndex (hash.toNat - 1000))
      else StakedTip.node.mapBlockIndex hash,
    diskBlocks := fun hash =>
      if onSide hash then some (sideBlock (hash.toNat - 1000))
      else StakedTip.node.diskBlocks hash }

def sideChain : List Uint256 :=
  (List.range 90).map (BitVec.ofNat 256) ++ (List.range 11).map fun n => BitVec.ofNat 256 (1090 + n)

/-- A block on top of the branch that names an output of block 90 of the other one. -/
def stakeBlock : CBlock :=
  stakingBlock 1100 90 StakedTip.minerOutput StakedTip.minerKey 1400060700 [1]

end SideBranch

section

local instance SideBranch.params : ChainParams := regTestParams 0
local instance SideBranch.instCrypto : Crypto := StakedTip.crypto

namespace SideBranch

variable {hash : Uint256}

theorem core_side (side : onSide hash = true) :
    node.store.cores hash = some (sideIndex (hash.toNat - 1000)).core :=
  Node.store_cores (if_pos side)

theorem core_main (main : onSide hash = false) :
    node.store.cores hash = StakedTip.node.store.cores hash := by
  simp [Node.store, node, main]

theorem onSide_iff :
    onSide hash = true ↔ 1090 ≤ hash.toNat ∧ hash.toNat ≤ 1100 := by
  simp only [onSide, Bool.and_eq_true, decide_eq_true_eq]

theorem core_low (low : hash.toNat ≤ 100) :
    node.store.cores hash = some (StakedTip.powIndex hash.toNat).core := by
  have main : onSide hash = false := by
    rw [← Bool.not_eq_true, onSide_iff]
    omega
  rw [core_main main, StakedTip.core_low low]

theorem side_parent {hashPrev : Uint256} (side : onSide hash = true)
    (pprev : (sideIndex (hash.toNat - 1000)).core.pprev = some hashPrev) :
    (hash.toNat = 1090 ∧ hashPrev.toNat = 89) ∨
      (onSide hashPrev = true ∧ hash.toNat = hashPrev.toNat + 1) := by
  simp only [sideIndex, CBlockIndex.core, some.injEq] at pprev
  subst pprev
  rw [onSide_iff] at side ⊢
  split
  · exact .inl ⟨by omega, by decide⟩
  · rw [BitVec.toNat_ofNat, Nat.mod_eq_of_lt (by omega)]
    exact .inr (by omega)

theorem side_sound : ∀ n ≤ 10, node.store.entrySound (BitVec.ofNat 256 (1090 + n)) = true := by
  decide +kernel

theorem main_sound (main : onSide hash = false) : node.store.entrySound hash = true := by
  have passed := StakedTip.entries_sound hash
  have bodies : node.store.bodies hash = StakedTip.node.store.bodies hash := by
    simp [Node.store, node, main]
  rw [BlockStore.entrySound] at passed ⊢
  rw [core_main main, bodies]
  cases found : StakedTip.node.store.cores hash with
  | none => rfl
  | some core =>
    rw [found, all_some] at passed
    rw [all_some]
    cases parent : core.pprev with
    | none => simpa only [parent] using passed
    | some hashPrev =>
      have prevMain : onSide hashPrev = false := by
        rw [← Bool.not_eq_true, onSide_iff]
        rcases StakedTip.core_cases found with ⟨low, rfl⟩ | ⟨_, _, rfl⟩
        · simp only [StakedTip.powIndex, CBlockIndex.core, ite_none_left_eq_some,
            some.injEq] at parent
          rw [← parent.2, StakedTip.toNat_ofNat (by omega)]
          omega
        · obtain rfl := some.inj parent
          decide
      simpa only [parent, core_main prevMain] using passed

theorem sound : node.store.Sound := by
  refine .of_check fun hash => ?_
  cases side : onSide hash with
  | true =>
    have here := onSide_iff.mp side
    have passed := side_sound (hash.toNat - 1090) (by omega)
    rw [show 1090 + (hash.toNat - 1090) = hash.toNat by omega] at passed
    simpa using passed
  | false => exact main_sound side

theorem grounded_main : StakedTip.node.store.Grounded := by
  intro hash core found
  rcases StakedTip.core_cases found with ⟨_, rfl⟩ | ⟨_, _, rfl⟩
  · exact Int.natCast_nonneg _
  · decide

theorem grounded : node.store.Grounded := by
  intro hash core found
  cases side : onSide hash with
  | true =>
    rw [core_side side] at found
    obtain rfl := some.inj found
    exact Int.natCast_nonneg _
  | false =>
    rw [core_main side] at found
    exact grounded_main _ _ found

theorem ancestors (descends : node.store.Descends 1100 hash) :
    onSide hash = true ∨ hash.toNat ≤ 89 := by
  induction descends with
  | refl => exact .inl (by decide)
  | @tail child hashPrev _ step ih =>
    obtain ⟨core, found, pprev⟩ := step
    rcases ih with side | low
    · rw [core_side side] at found
      obtain rfl := some.inj found
      rcases side_parent side pprev with ⟨_, low⟩ | ⟨sidePrev, _⟩
      · exact .inr low.le
      · exact .inl sidePrev
    · rw [core_low (by omega)] at found
      obtain rfl := some.inj found
      simp only [StakedTip.powIndex, CBlockIndex.core, ite_none_left_eq_some,
        some.injEq] at pprev
      obtain ⟨_, rfl⟩ := pprev
      rw [BitVec.toNat_ofNat]
      exact .inr (by omega)

end SideBranch

/-- A block on a side branch is accepted with a pointer into the active chain that is no
ancestor of it, and refused when its own branch is active. -/
theorem sidePointer_accepted :
    (SideBranch.node.store.Sound ∧ SideBranch.node.store.Grounded) ∧
      (checkBlockProofPointer SideBranch.node (SideBranch.sideIndex 100) 101
        SideBranch.stakeBlock).isSome = true ∧
      (checkStake StakedTip.data SideBranch.node (SideBranch.sideIndex 100)
        SideBranch.stakeBlock).isSome = true ∧
      ¬ SideBranch.node.store.Descends (SideBranch.sideIndex 100).getBlockHash
        SideBranch.stakeBlock.stakePointer.hashBlock ∧
      (checkStake StakedTip.data (SideBranch.node.onChain SideBranch.sideChain)
        (SideBranch.sideIndex 100) SideBranch.stakeBlock).isSome = false := by
  refine ⟨⟨SideBranch.sound, SideBranch.grounded⟩, by decide +kernel, by decide +kernel,
    fun descends => ?_, by decide +kernel⟩
  rcases SideBranch.ancestors descends with side | low
  · exact absurd side (by decide)
  · exact absurd low (by decide)

theorem pointerBranch_stakedTip :
    ∃ place : Nat,
      StakedTip.node.vChain[place]? = some StakedTip.minerBlock.stakePointer.hashBlock ∧
      StakedTip.node.store.Descends StakedTip.tipIndex.getBlockHash
        StakedTip.minerBlock.stakePointer.hashBlock := by
  have branch := @pointerBranch _ _ StakedTip.node StakedTip.tipIndex StakedTip.sound
    SideBranch.grounded_main
  have passed : (checkBlockProofPointer StakedTip.node StakedTip.tipIndex
      (StakedTip.tipIndex.nHeight + 1) StakedTip.minerBlock).isSome = true := by decide +kernel
  obtain ⟨result, passed⟩ := isSome_iff_exists.mp passed
  obtain ⟨place, here, _, descends⟩ := branch.1 _ StakedTip.kept.path _ _ passed
  refine ⟨place, here, descends (branch.2.2 ?_ (by decide) _ StakedTip.kept.path ?_)⟩
  · simp only [StakedTip.tipIndex, CBlockIndex.getBlockHash, getD_some, StakedTip.node,
      if_neg (Nat.not_le.mpr StakedTip.tipHash_high), ↓reduceIte]
  · exact mem_append_right _ (mem_singleton_self _)

end

end Agouti
