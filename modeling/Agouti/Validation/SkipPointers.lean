import Agouti.Chain.Ancestors
import Agouti.Validation.Frame
import Mathlib.Data.Int.Bitwise

/-! # The skip pointers of the block index

`BuildSkip` gives an entry that has a parent a pointer to its ancestor at `GetSkipHeight`, and
`CBlockIndex::GetAncestor` walks along these pointers and `pprev`. A walk finds the ancestor when
the entries above have the pointers that `BuildSkip` is meant to give (`SkipNode.getAncestor_eq`),
and so `BuildSkip` gives the next entry its pointer. In every block tree that grows by
`AddToBlockIndex`, or is linked in the order of the heights when it is loaded, `GetAncestor` is the
walk along `pprev` (`getAncestor_followsParents`).
-/

namespace Agouti

open List Function Option

def invertLowestOne (n : Int) : Int := Int.land n (n - 1)

def getSkipHeight (height : Int) : Int :=
  if height < 2 then 0
  else if Int.land height 1 ≠ 0 then invertLowestOne (invertLowestOne (height - 1)) + 1
  else invertLowestOne height

/-- The condition under which `GetAncestor` follows `pskip`. -/
def followsSkip (height heightWalk : Int) : Bool :=
  let heightSkip := getSkipHeight heightWalk
  let heightSkipPrev := getSkipHeight (heightWalk - 1)
  heightSkip == height || (decide (height < heightSkip) &&
    !(decide (heightSkipPrev < heightSkip - 2) && decide (height ≤ heightSkipPrev)))

theorem invertLowestOne_bounds {n : Int} (nonneg : 0 ≤ n) :
    0 ≤ invertLowestOne n ∧ invertLowestOne n ≤ n ∧ (0 < n → invertLowestOne n < n) := by
  obtain ⟨number, rfl⟩ := Int.eq_ofNat_of_zero_le nonneg
  cases number with
  | zero =>
    have value : invertLowestOne ((0 : Nat) : Int) = (Nat.ldiff 0 0 : Nat) := rfl
    rw [value, Nat.ldiff, Nat.bitwise_zero]
    simp
  | succ less =>
    have value : invertLowestOne ((less + 1 : Nat) : Int) = ((less + 1) &&& less : Nat) := by
      unfold invertLowestOne
      rw [Nat.cast_succ, add_sub_cancel_right]
      rfl
    have most : (less + 1) &&& less ≤ less := Nat.and_le_right
    rw [value]
    omega

theorem getSkipHeight_bounds (height : Int) (positive : 0 < height) :
    0 ≤ getSkipHeight height ∧ getSkipHeight height < height := by
  unfold getSkipHeight
  split
  · omega
  · split
    · obtain ⟨innerNonneg, -, innerLess⟩ := invertLowestOne_bounds (n := height - 1) (by omega)
      obtain ⟨nonneg, most, -⟩ := invertLowestOne_bounds innerNonneg
      have less := innerLess (by omega)
      omega
    · obtain ⟨nonneg, -, less⟩ := invertLowestOne_bounds positive.le
      exact ⟨nonneg, less positive⟩

theorem skipHeight_lower (height : Nat) (positive : 0 < height) :
    (getSkipHeight height).toNat < height := by
  have bounds := getSkipHeight_bounds height (by omega)
  omega

theorem followsSkip_above {height heightWalk : Int} (follow : followsSkip height heightWalk = true) :
    height ≤ getSkipHeight heightWalk := by
  unfold followsSkip at follow
  simp only [Bool.or_eq_true, beq_iff_eq, Bool.and_eq_true, decide_eq_true_eq] at follow
  rcases follow with same | ⟨below, -⟩
  · exact same.ge
  · exact below.le

/-- A node with the `pskip` of its entries. -/
structure SkipNode where
  node : Node
  pskip : Uint256 → Option Uint256

namespace SkipNode

/-- The pointer `pprev` of an entry. -/
def parent (s : SkipNode) : Uint256 → Option Uint256 := s.node.mapBlockIndex.parent

/-- `CBlockIndex::GetAncestor`. The pointer is null when the height is out of range. -/
def getAncestor (s : SkipNode) (hash : Uint256) (height : Int) : Option Uint256 :=
  (s.node.mapBlockIndex hash).bind fun pindex =>
    if pindex.nHeight < height ∨ height < 0 then none
    else SkipList.walk s.parent s.pskip (fun height => (getSkipHeight height).toNat)
      skipHeight_lower (fun height heightWalk => followsSkip height heightWalk) height.toNat
      pindex.nHeight.toNat hash

/-- `CBlockIndex::BuildSkip`. -/
def buildSkip (s : SkipNode) (hash : Uint256) : SkipNode :=
  match s.node.mapBlockIndex hash with
  | none => s
  | some pindex =>
    match pindex.pprev with
    | none => s
    | some pprev =>
      { s with
        pskip := Function.update s.pskip hash
          (s.getAncestor pprev (getSkipHeight pindex.nHeight)) }

/-- `AddToBlockIndex`; a new entry has no `pskip` before `BuildSkip`. -/
def addToBlockIndex [Crypto] (s : SkipNode) (block : CBlock) : SkipNode :=
  if (s.node.mapBlockIndex block.getHash).isSome then s
  else
    SkipNode.buildSkip
      ⟨s.node.addToBlockIndex block, Function.update s.pskip block.getHash none⟩ block.getHash

/-- The loop of `LoadBlockIndexDB` over `vSortedByHeight`. -/
def loadSkips (s : SkipNode) (vSortedByHeight : List Uint256) : SkipNode :=
  vSortedByHeight.foldl buildSkip s

/-- The skip pointer of an entry leads to its ancestor at the skip height. -/
def LinkedAt (s : SkipNode) (hash : Uint256) : Prop :=
  ∀ pindex, s.node.mapBlockIndex hash = some pindex → pindex.pprev.isSome →
    s.pskip hash = SkipList.climb s.parent
      (pindex.nHeight - getSkipHeight pindex.nHeight).toNat hash

variable {s : SkipNode} {hash : Uint256} {pindex : CBlockIndex}

theorem getAncestor_eq (tree : s.node.mapBlockIndex.Tree)
    (found : s.node.mapBlockIndex hash = some pindex)
    (linked : ∀ count above, SkipList.climb s.parent count hash = some above → s.LinkedAt above)
    {height : Int} (low : 0 ≤ height) (high : height ≤ pindex.nHeight) :
    s.getAncestor hash height = SkipList.climb s.parent (pindex.nHeight - height).toNat hash := by
  unfold getAncestor
  rw [found, bind_some, if_neg (by omega), SkipList.walk_eq_climb]
  · congr 1
    omega
  · intro count above inside climbs
    obtain ⟨entry, there, same⟩ := tree.climb_entry found climbs
    have higher : 0 < entry.nHeight := by omega
    have below : entry.pprev.isSome := by
      rw [isSome_iff_ne_none]
      intro root
      have ground := tree.root above entry there root
      omega
    rw [linked count above climbs entry there below]
    have heights : ((pindex.nHeight.toNat - count : Nat) : Int) = entry.nHeight := by omega
    have bounds := getSkipHeight_bounds entry.nHeight higher
    simp only [heights]
    congr 1
    omega
  · omega
  · intro heightWalk _ follow
    have above := followsSkip_above follow
    omega

theorem buildSkip_node (s : SkipNode) (hash : Uint256) : (s.buildSkip hash).node = s.node := by
  unfold buildSkip
  split
  · rfl
  · split <;> rfl

theorem linkedAt_buildSkip (tree : s.node.mapBlockIndex.Tree)
    (linked : ∀ count above, SkipList.climb s.parent (count + 1) hash = some above →
      s.LinkedAt above) : (s.buildSkip hash).LinkedAt hash := by
  intro pindex found below
  have same := s.buildSkip_node hash
  rw [same] at found
  obtain ⟨pprev, parent⟩ := isSome_iff_exists.mp below
  obtain ⟨prev, present, height⟩ := tree.parent hash pindex found pprev parent
  have up : s.parent hash = some pprev := by
    rw [SkipNode.parent, BlockMap.parent, found, bind_some, parent]
  have nonneg := tree.nonneg pprev prev present
  have bounds := getSkipHeight_bounds pindex.nHeight (by omega)
  have steps : (pindex.nHeight - getSkipHeight pindex.nHeight).toNat =
      (prev.nHeight - getSkipHeight pindex.nHeight).toNat + 1 := by omega
  have above : ∀ count above, SkipList.climb s.parent count pprev = some above →
      s.LinkedAt above := by
    intro count above climbs
    apply linked count above
    rw [SkipList.climb, up]
    exact climbs
  rw [SkipNode.parent, same, steps, SkipList.climb]
  change _ = (s.parent hash).bind (SkipList.climb s.parent _)
  rw [up, bind_some, ← getAncestor_eq tree present above bounds.1 (by omega)]
  unfold buildSkip
  rw [found]
  simp only [parent, update_self]

theorem linkedAt_buildSkip_other {other : Uint256} (apart : other ≠ hash)
    (linked : s.LinkedAt other) : (s.buildSkip hash).LinkedAt other := by
  unfold buildSkip
  split
  · exact linked
  · split
    · exact linked
    · intro pindex found below
      simp only [update_of_ne apart]
      exact linked pindex found below

theorem loadSkips_node (s : SkipNode) (vSortedByHeight : List Uint256) :
    (s.loadSkips vSortedByHeight).node = s.node := by
  induction vSortedByHeight generalizing s with
  | nil => rfl
  | cons first rest ih => exact (ih (s.buildSkip first)).trans (s.buildSkip_node first)

/-- A tree with all its skip pointers. -/
structure Sound (s : SkipNode) : Prop where
  tree : s.node.mapBlockIndex.Tree
  linked : ∀ hash, s.LinkedAt hash

/-- The block trees that grow by `AddToBlockIndex` and whose entries otherwise keep their places. -/
inductive Reached [Crypto] : SkipNode → Prop
  | empty (node : Node) (pskip : Uint256 → Option Uint256)
      (none : ∀ hash, node.mapBlockIndex hash = none) : Reached ⟨node, pskip⟩
  /-- the entries on disk are a forest, and are sorted by their heights -/
  | loaded (node : Node) (tree : node.mapBlockIndex.Tree) (vSortedByHeight : List Uint256)
      (all : ∀ hash, (node.mapBlockIndex hash).isSome → hash ∈ vSortedByHeight)
      (sorted : vSortedByHeight.Pairwise fun first second => ∀ lower higher,
        node.mapBlockIndex first = some lower → node.mapBlockIndex second = some higher →
          lower.nHeight ≤ higher.nHeight) :
      Reached (loadSkips ⟨node, fun _ => Option.none⟩ vSortedByHeight)
  | added {s : SkipNode} (reached : Reached s) (block : CBlock) : Reached (s.addToBlockIndex block)
  | updated {s : SkipNode} (reached : Reached s) (node : Node)
      (same : BlockMap.SameLinks s.node.mapBlockIndex node.mapBlockIndex) :
      Reached { s with node := node }

theorem linkedAt_root (root : ∀ pindex, s.node.mapBlockIndex hash = some pindex →
    pindex.pprev = none) : s.LinkedAt hash := by
  intro pindex found below
  rw [root pindex found] at below
  contradiction

theorem linked_loadSkips (tree : s.node.mapBlockIndex.Tree) (vSortedByHeight : List Uint256)
    (sorted : vSortedByHeight.Pairwise fun first second => ∀ lower higher,
      s.node.mapBlockIndex first = some lower → s.node.mapBlockIndex second = some higher →
        lower.nHeight ≤ higher.nHeight)
    (linked : ∀ hash, hash ∉ vSortedByHeight → s.LinkedAt hash) :
    ∀ hash, (s.loadSkips vSortedByHeight).LinkedAt hash := by
  induction vSortedByHeight generalizing s with
  | nil => exact fun hash => linked hash not_mem_nil
  | cons first rest ih =>
    obtain ⟨least, others⟩ := pairwise_cons.mp sorted
    have node := s.buildSkip_node first
    -- the ancestors are lower, so they are not among those that are left
    have here : (s.buildSkip first).LinkedAt first := by
      cases found : s.node.mapBlockIndex first with
      | none =>
        apply linkedAt_root
        intro pindex there
        rw [node, found] at there
        contradiction
      | some pindex =>
        apply linkedAt_buildSkip tree
        intro count above climbs
        obtain ⟨entry, there, height⟩ := tree.climb_entry found climbs
        apply linked
        intro member
        rcases mem_cons.mp member with same | later
        · rw [same, found, some.injEq] at there
          rw [there] at height
          push_cast at height
          omega
        · have order := least above later pindex entry found there
          push_cast at height
          omega
    refine ih (s := s.buildSkip first) (node ▸ tree) (by rwa [node]) ?_
    intro hash outside
    by_cases same : hash = first
    · exact same ▸ here
    · exact linkedAt_buildSkip_other same
        (linked hash fun member => outside ((mem_cons.mp member).resolve_left same))

theorem Sound.updated (sound : s.Sound) {node : Node}
    (same : BlockMap.SameLinks s.node.mapBlockIndex node.mapBlockIndex) :
    Sound { s with node := node } where
  tree := same.tree sound.tree
  linked hash := by
    intro pindex found below
    obtain ⟨entry, there, -, pprev, height⟩ := same.entry found
    rw [pprev] at below
    have linked := sound.linked hash entry there below
    unfold SkipNode.parent at linked ⊢
    rw [same.parent, height]
    exact linked

variable [Crypto] {block : CBlock}

theorem tree_addToBlockIndex {node : Node} (tree : node.mapBlockIndex.Tree)
    (absent : node.mapBlockIndex block.getHash = none) :
    (node.addToBlockIndex block).mapBlockIndex =
        Function.update node.mapBlockIndex block.getHash (some (node.newIndex block)) ∧
      (node.addToBlockIndex block).mapBlockIndex.Tree := by
  have index := Node.addToBlockIndex_index absent
  have known : ∀ hash pindex, node.mapBlockIndex hash = some pindex → hash ≠ block.getHash := by
    rintro hash pindex found rfl
    rw [absent] at found
    contradiction
  have links : (node.newIndex block).phashBlock = some block.getHash ∧
      (node.newIndex block).pprev =
        (node.mapBlockIndex block.hashPrevBlock).map (fun _ => block.hashPrevBlock) ∧
      (node.newIndex block).nHeight =
        ((node.mapBlockIndex block.hashPrevBlock).map fun prev => prev.nHeight + 1).getD 0 := by
    have core := Node.newIndex_core node block
    simp only [CBlockIndex.core, IndexCore.mk.injEq] at core
    exact ⟨core.1, core.2.1, core.2.2.1⟩
  obtain ⟨named, pprev, height⟩ := links
  refine ⟨index, ?_⟩
  rw [index]
  constructor
  · intro hash pindex found
    by_cases here : hash = block.getHash
    · rw [here, update_self, some.injEq] at found
      rw [here, ← found, named]
    · rw [update_of_ne here] at found
      exact tree.hash hash pindex found
  · intro hash pindex found hashPrev parent
    by_cases here : hash = block.getHash
    · rw [here, update_self, some.injEq] at found
      rw [← found, pprev, map_eq_some_iff] at parent
      obtain ⟨prev, present, rfl⟩ := parent
      refine ⟨prev, ?_, ?_⟩
      · rw [update_of_ne (known _ prev present)]
        exact present
      · rw [← found, height, present]
        rfl
    · rw [update_of_ne here] at found
      obtain ⟨prev, present, level⟩ := tree.parent hash pindex found hashPrev parent
      refine ⟨prev, ?_, level⟩
      rw [update_of_ne (known _ prev present)]
      exact present
  · intro hash pindex found root
    by_cases here : hash = block.getHash
    · rw [here, update_self, some.injEq] at found
      rw [← found, pprev, map_eq_none_iff] at root
      rw [← found, height, root]
      rfl
    · rw [update_of_ne here] at found
      exact tree.root hash pindex found root
  · intro hash pindex found
    by_cases here : hash = block.getHash
    · rw [here, update_self, some.injEq] at found
      rw [← found, height]
      cases present : node.mapBlockIndex block.hashPrevBlock with
      | none => exact le_rfl
      | some prev =>
        have nonneg := tree.nonneg _ prev present
        simp only [map_some, getD_some]
        omega
    · rw [update_of_ne here] at found
      exact tree.nonneg hash pindex found

theorem addToBlockIndex_index (absent : s.node.mapBlockIndex block.getHash = none) :
    (s.addToBlockIndex block).node.mapBlockIndex =
      Function.update s.node.mapBlockIndex block.getHash (some (s.node.newIndex block)) := by
  rw [SkipNode.addToBlockIndex, if_neg (by rw [absent]; exact Bool.false_ne_true), buildSkip_node,
    Node.addToBlockIndex_index absent]

/-- A new header. -/
theorem Sound.addToBlockIndex (sound : s.Sound) (block : CBlock) :
    (s.addToBlockIndex block).Sound := by
  unfold SkipNode.addToBlockIndex
  split
  · exact sound
  rename_i fresh
  have absent : s.node.mapBlockIndex block.getHash = none := by simpa using fresh
  obtain ⟨index, tree⟩ := tree_addToBlockIndex sound.tree absent
  -- no entry that was there leads to the new one
  have known : ∀ hash above, (s.node.mapBlockIndex hash).isSome → s.parent hash = some above →
      (s.node.mapBlockIndex above).isSome := by
    intro hash above present up
    exact (sound.tree.forest.parent hash above present up).1
  have apart : ∀ hash, (s.node.mapBlockIndex hash).isSome → hash ≠ block.getHash := by
    rintro hash present rfl
    rw [absent] at present
    contradiction
  let grown : SkipNode :=
    ⟨s.node.addToBlockIndex block, Function.update s.pskip block.getHash none⟩
  have parents : ∀ hash, (s.node.mapBlockIndex hash).isSome → grown.parent hash = s.parent hash := by
    intro hash present
    change (s.node.addToBlockIndex block).mapBlockIndex.parent hash = _
    rw [BlockMap.parent, index, update_of_ne (apart hash present)]
    rfl
  have old : ∀ hash, (s.node.mapBlockIndex hash).isSome → grown.LinkedAt hash := by
    intro hash present pindex found below
    have entry : s.node.mapBlockIndex hash = some pindex := by
      rwa [show grown.node.mapBlockIndex = _ from index,
        update_of_ne (apart hash present)] at found
    rw [SkipList.climb_congr known parents _ present]
    change Function.update s.pskip block.getHash none hash = _
    rw [update_of_ne (apart hash present)]
    exact sound.linked hash pindex entry below
  have linked : ∀ hash, (grown.buildSkip block.getHash).LinkedAt hash := by
    intro hash
    by_cases here : hash = block.getHash
    · subst here
      apply linkedAt_buildSkip tree
      intro count above climbs
      obtain ⟨pprev, up, rest⟩ := bind_eq_some_iff.mp climbs
      have present : (s.node.mapBlockIndex pprev).isSome := by
        have entry := bind_eq_some_iff.mp up
        obtain ⟨pindex, found, parent⟩ := entry
        rw [show grown.node.mapBlockIndex = _ from index, update_self,
          some.injEq] at found
        have core := congrArg IndexCore.pprev (Node.newIndex_core s.node block)
        rw [← found, show (s.node.newIndex block).pprev = _ from core,
          map_eq_some_iff] at parent
        obtain ⟨prev, there, rfl⟩ := parent
        rw [there]
        rfl
      apply old
      rw [SkipList.climb_congr known parents _ present] at rest
      exact SkipList.climb_closed known count present rest
    · apply linkedAt_buildSkip_other here
      cases present : s.node.mapBlockIndex hash with
      | some pindex => exact old hash (by rw [present]; rfl)
      | none =>
        apply linkedAt_root
        intro pindex found
        rw [show grown.node.mapBlockIndex = _ from index, update_of_ne here,
          present] at found
        contradiction
  exact ⟨by rw [buildSkip_node]; exact tree, linked⟩

theorem Reached.sound (reached : s.Reached) : s.Sound := by
  induction reached with
  | empty node pskip none =>
    have absent : ∀ hash pindex, node.mapBlockIndex hash ≠ some pindex := by
      intro hash pindex found
      rw [none hash] at found
      contradiction
    refine ⟨⟨?_, ?_, ?_, ?_⟩, fun hash => ?_⟩
    · exact fun hash pindex found => absurd found (absent hash pindex)
    · exact fun hash pindex found => absurd found (absent hash pindex)
    · exact fun hash pindex found => absurd found (absent hash pindex)
    · exact fun hash pindex found => absurd found (absent hash pindex)
    · exact linkedAt_root fun pindex found => absurd found (absent hash pindex)
  | loaded node tree vSortedByHeight all sorted =>
    have skips := linked_loadSkips (s := ⟨node, fun _ => none⟩) tree vSortedByHeight sorted (by
      intro hash outside
      apply linkedAt_root
      intro pindex found
      have present : (node.mapBlockIndex hash).isSome := by
        rw [show node.mapBlockIndex hash = some pindex from found]
        rfl
      exact absurd (all hash present) outside)
    exact ⟨by rw [loadSkips_node]; exact tree, skips⟩
  | added reached block ih => exact ih.addToBlockIndex block
  | updated reached node same ih => exact ih.updated same

end SkipNode

/-- **`GetAncestor` follows the parents.** In every block tree whose entries are linked by
`BuildSkip` when they are added or loaded, `GetAncestor` of an entry returns for each height from 0
up to its own the entry that is reached along `pprev` in as many steps as it is lower. -/
theorem getAncestor_followsParents [Crypto] {s : SkipNode} (reached : s.Reached) {hash : Uint256}
    {pindex : CBlockIndex} (found : s.node.mapBlockIndex hash = some pindex) {height : Int}
    (low : 0 ≤ height) (high : height ≤ pindex.nHeight) :
    ∃ ancestor entry, s.getAncestor hash height = some ancestor ∧
      s.node.mapBlockIndex ancestor = some entry ∧ entry.nHeight = height ∧
        s.node.mapBlockIndex.back (pindex.nHeight - height).toNat pindex = some entry := by
  have sound := reached.sound
  obtain ⟨ancestor, climbs⟩ := sound.tree.climb_exists found (pindex.nHeight - height).toNat
    (by omega)
  obtain ⟨entry, there, level⟩ := sound.tree.climb_entry found climbs
  refine ⟨ancestor, entry, ?_, there, by omega, ?_⟩
  · rw [SkipNode.getAncestor_eq sound.tree found (fun _ above _ => sound.linked above) low high]
    exact climbs
  · rw [sound.tree.back_eq found, climbs, bind_some, there]

namespace SkipChain

/-! A chain of a root and four blocks above it. -/

def node : Node where
  mapBlockIndex _ := none
  vChain := []
  diskBlocks _ := none
  diskUndo _ := none
  pcoinsTip := ⟨fun _ => {}, 0⟩
  mapProofOfStake := []
  setStakeSeen := []
  mapUsedStakePointers _ := none
  setBlockIndexCandidates := []
  mapBlocksUnlinked := []
  nBlockSequenceId := 1

def block (hashPrevBlock : Uint256) : CBlock where
  nVersion := 3
  hashPrevBlock := hashPrevBlock
  hashMerkleRoot := 0
  nTime := 0
  nBits := 0x1e0fffff
  nNonce := 0
  vtx := []

def blocks [Crypto] : Nat → CBlock
  | 0 => block 7
  | height + 1 => block (blocks height).getHash

def added [Crypto] : SkipNode :=
  ((((SkipNode.mk node fun _ => none).addToBlockIndex (blocks 0)).addToBlockIndex
    (blocks 1)).addToBlockIndex (blocks 2)).addToBlockIndex (blocks 3) |>.addToBlockIndex (blocks 4)

def tip [Crypto] : CBlockIndex := (added.node.mapBlockIndex (blocks 4).getHash).getD {}

end SkipChain

section

local instance SkipChain.instCrypto : Crypto := checksumCrypto

open SkipChain

theorem getAncestor_followsParents_chain :
    0 ≤ (1 : Int) ∧ 1 ≤ tip.nHeight ∧
      ∃ ancestor entry, added.getAncestor (blocks 4).getHash 1 = some ancestor ∧
        added.node.mapBlockIndex ancestor = some entry ∧ entry.nHeight = 1 ∧
          added.node.mapBlockIndex.back (tip.nHeight - 1).toNat tip = some entry := by
  have reached : added.Reached :=
    .added (.added (.added (.added (.added (.empty node _ fun _ => rfl) _) _) _) _) _
  have found : added.node.mapBlockIndex (blocks 4).getHash = some tip := by decide +kernel
  have inside : 1 ≤ tip.nHeight := by decide +kernel
  exact ⟨by decide, inside, getAncestor_followsParents reached found (by decide) inside⟩

end

end Agouti
