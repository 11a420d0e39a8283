import Agouti.Validation.SkipPointers

/-! # The vector of a chain

A `CChain` keeps the entries of a branch by their heights. `SetTip` writes the branch of a new tip
into the vector from the tip down, and stops at the first place that already has the entry it would
write. What is below that place is then right when the vector was the path of some entry before
(`CChain.setTip_eq`). From a vector that is a path, `Contains` tells the ancestors of the tip
(`CChain.OnPath.contains_iff`), `FindFork` the highest common ancestor of an entry and the tip
(`CChain.OnPath.findFork_eq`), and `LastCommonAncestor` that of two entries.
-/

namespace Agouti

open List

/-- The active chain as a vector. -/
structure CChain where
  vChain : List (Option Uint256)
deriving DecidableEq

namespace CChain

/-- `CChain::operator[]`. The pointer is null when there is no such height. -/
def atHeight (chain : CChain) (nHeight : Int) : Option Uint256 :=
  if nHeight < 0 ∨ (chain.vChain.length : Int) ≤ nHeight then none
  else (chain.vChain[nHeight.toNat]?).join

def genesis (chain : CChain) : Option Uint256 := chain.vChain.head?.join

def tip (chain : CChain) : Option Uint256 := chain.vChain.getLast?.join

def height (chain : CChain) : Int := chain.vChain.length - 1

/-- `CChain::Contains`, for the entry of a hash. -/
def contains (chain : CChain) (mapBlockIndex : BlockMap) (hash : Uint256) : Bool :=
  (mapBlockIndex hash).any fun pindex => chain.atHeight pindex.nHeight == some hash

/-- `vChain.resize`. -/
def resize (chain : CChain) (size : Nat) : CChain :=
  ⟨chain.vChain.take size ++ List.replicate (size - chain.vChain.length) none⟩

/-- One round of the loop of `CChain::SetTip`. -/
def setTipRound (mapBlockIndex : BlockMap) :
    CChain × Option Uint256 → CChain × Option Uint256 ⊕ CChain
  | (chain, none) => .inr chain
  | (chain, some hash) =>
    match mapBlockIndex hash with
    | none => .inr chain
    | some pindex =>
      if chain.vChain[pindex.nHeight.toNat]? = some (some hash) then .inr chain
      else .inl (⟨chain.vChain.set pindex.nHeight.toNat (some hash)⟩, pindex.pprev)

def setTip (mapBlockIndex : BlockMap) (chain : CChain) : Option Uint256 → Option CChain
  | none => some ⟨[]⟩
  | some hash => (mapBlockIndex hash).bind fun pindex =>
    Loop.run (setTipRound mapBlockIndex) (pindex.nHeight.toNat + 2)
      (chain.resize (pindex.nHeight.toNat + 1), some hash)

def findFork (s : SkipNode) (chain : CChain) (hash : Uint256) : Option (Option Uint256) :=
  (s.node.mapBlockIndex hash).bind fun pindex =>
    Loop.run (SkipList.descend s.parent (chain.contains s.node.mapBlockIndex))
      (pindex.nHeight.toNat + 2)
      (if chain.height < pindex.nHeight then s.getAncestor hash chain.height else some hash)

end CChain

/-- `LastCommonAncestor`. The assertion that both pointers are the same may fail. -/
def lastCommonAncestor (s : SkipNode) (pa pb : Uint256) : Option (Option Uint256) :=
  (s.node.mapBlockIndex pa).bind fun first => (s.node.mapBlockIndex pb).bind fun second =>
    (Loop.run (SkipList.meet s.parent) (min first.nHeight second.nHeight).toNat.succ.succ
      (if second.nHeight < first.nHeight then s.getAncestor pa second.nHeight else some pa,
        if first.nHeight < second.nHeight then s.getAncestor pb first.nHeight
        else some pb)).bind fun (pa, pb) => if pa = pb then some pa else none

/-- The hashes from the root of an entry down to it. -/
def BlockMap.path (mapBlockIndex : BlockMap) (hash : Uint256) : List Uint256 :=
  SkipList.lineage mapBlockIndex.parent (mapBlockIndex.level hash) hash

namespace CChain

/-- The vector is the path of an entry. -/
structure OnPath (mapBlockIndex : BlockMap) (chain : CChain) (tip : Uint256) : Prop where
  known : (mapBlockIndex tip).isSome
  path : chain.vChain = (mapBlockIndex.path tip).map some

/-- The vector has below each entry the path of the entry. -/
def Aligned (mapBlockIndex : BlockMap) (vChain : List (Option Uint256)) : Prop :=
  ∀ (place : Nat) (hash : Uint256), vChain[place]? = some (some hash) →
    (mapBlockIndex hash).isSome ∧ mapBlockIndex.level hash = place ∧
      vChain.take (place + 1) = (mapBlockIndex.path hash).map some

variable {mapBlockIndex : BlockMap} {chain : CChain} {tip hash : Uint256}

theorem aligned_nil : Aligned mapBlockIndex [] := by
  intro place hash found
  rw [List.getElem?_nil] at found
  contradiction

variable {vChain : List (Option Uint256)}

theorem Aligned.take (aligned : Aligned mapBlockIndex vChain)
    (size : Nat) : Aligned mapBlockIndex (vChain.take size) := by
  intro place hash found
  have inside : place < size := by
    by_contra outside
    rw [List.getElem?_take_eq_none (by omega)] at found
    contradiction
  rw [List.getElem?_take_of_lt inside] at found
  obtain ⟨known, level, path⟩ := aligned place hash found
  refine ⟨known, level, ?_⟩
  rw [take_take, min_eq_left (by omega), path]

theorem Aligned.append (aligned : Aligned mapBlockIndex vChain)
    (size : Nat) : Aligned mapBlockIndex (vChain ++ List.replicate size none) := by
  intro place hash found
  by_cases inside : place < vChain.length
  · rw [List.getElem?_append_left inside] at found
    obtain ⟨known, level, path⟩ := aligned place hash found
    refine ⟨known, level, ?_⟩
    rw [take_append_of_le_length (by omega), path]
  · rw [List.getElem?_append_right (by omega)] at found
    have null := eq_of_mem_replicate (mem_of_getElem? found)
    contradiction

theorem Aligned.resize (aligned : Aligned mapBlockIndex chain.vChain) (size : Nat) :
    Aligned mapBlockIndex (chain.resize size).vChain :=
  (aligned.take size).append _

theorem length_resize (chain : CChain) (size : Nat) : (chain.resize size).vChain.length = size := by
  rw [CChain.resize, length_append, length_take, length_replicate]
  omega

namespace OnPath

variable (tree : mapBlockIndex.Tree) (onPath : OnPath mapBlockIndex chain tip)
include tree onPath

theorem length_eq : chain.vChain.length = mapBlockIndex.level tip + 1 := by
  rw [onPath.path, length_map, BlockMap.path, tree.forest.length_lineage onPath.known le_rfl]

theorem getElem?_eq (place : Nat) (inside : place ≤ mapBlockIndex.level tip) :
    ∃ above, SkipList.climb mapBlockIndex.parent (mapBlockIndex.level tip - place) tip =
        some above ∧ chain.vChain[place]? = some (some above) := by
  obtain ⟨above, climbs⟩ := tree.forest.climb_exists onPath.known
    (Nat.sub_le (mapBlockIndex.level tip) place)
  refine ⟨above, climbs, ?_⟩
  rw [onPath.path, List.getElem?_map, BlockMap.path,
    tree.forest.lineage_getElem? onPath.known le_rfl inside, climbs, Option.map_some]

theorem aligned : Aligned mapBlockIndex chain.vChain := by
  intro place hash found
  have inside := (List.getElem?_eq_some_iff.mp found).1
  rw [onPath.length_eq tree] at inside
  obtain ⟨above, climbs, there⟩ := onPath.getElem?_eq tree place (Nat.le_of_lt_succ inside)
  rw [there, Option.some.injEq, Option.some.injEq] at found
  subst found
  have level := tree.forest.climb_height onPath.known climbs
  have same : mapBlockIndex.level above = place := by omega
  refine ⟨tree.forest.climb_known onPath.known climbs, same, ?_⟩
  rw [onPath.path, ← map_take, BlockMap.path, ← same,
    tree.forest.take_lineage onPath.known ⟨_, climbs⟩, BlockMap.path]

theorem height_eq : chain.height = mapBlockIndex.level tip := by
  rw [CChain.height, onPath.length_eq tree]
  omega

theorem atHeight_eq (nHeight : Int) (low : 0 ≤ nHeight) (high : nHeight ≤ mapBlockIndex.level tip) :
    chain.atHeight nHeight = SkipList.climb mapBlockIndex.parent
      (mapBlockIndex.level tip - nHeight.toNat) tip := by
  obtain ⟨above, climbs, found⟩ := onPath.getElem?_eq tree nHeight.toNat (by omega)
  have length := onPath.length_eq tree
  rw [CChain.atHeight, if_neg (by omega), found, climbs]
  rfl

theorem tip_eq : chain.tip = some tip := by
  rw [CChain.tip, onPath.path, List.getLast?_map]
  obtain ⟨root, ancestor, ground, -⟩ := tree.forest.exists_root onPath.known
  rw [BlockMap.path, (tree.forest.pathTo_lineage onPath.known ancestor ground).getLast]
  rfl

theorem genesis_eq {root : Uint256} (ancestor : SkipList.Ancestor mapBlockIndex.parent root tip)
    (ground : mapBlockIndex.level root = 0) : chain.genesis = some root := by
  rw [CChain.genesis, onPath.path, List.head?_map, BlockMap.path,
    (tree.forest.pathTo_lineage onPath.known ancestor ground).head]
  rfl

theorem contains_iff (known : (mapBlockIndex hash).isSome) :
    chain.contains mapBlockIndex hash = true ↔
      SkipList.Ancestor mapBlockIndex.parent hash tip := by
  obtain ⟨pindex, found⟩ := Option.isSome_iff_exists.mp known
  have height := tree.height_eq found
  rw [CChain.contains, found, Option.any_some, beq_iff_eq, ← height]
  constructor
  · intro here
    by_cases inside : mapBlockIndex.level hash ≤ mapBlockIndex.level tip
    · rw [onPath.atHeight_eq tree _ (by omega) (by omega)] at here
      exact ⟨_, here⟩
    · have length := onPath.length_eq tree
      rw [CChain.atHeight, if_pos (by omega)] at here
      contradiction
  · intro ancestor
    have low := tree.forest.height_le onPath.known ancestor
    rw [onPath.atHeight_eq tree _ (by omega) (by omega)]
    exact (tree.forest.ancestor_iff onPath.known).mp ancestor

end OnPath

theorem run_setTipRound (tree : mapBlockIndex.Tree) (known : (mapBlockIndex hash).isSome)
    (room : mapBlockIndex.level hash < vChain.length)
    (aligned : Aligned mapBlockIndex (vChain.take (mapBlockIndex.level hash + 1))) {fuel : Nat}
    (enough : mapBlockIndex.level hash + 1 < fuel) :
    Loop.run (setTipRound mapBlockIndex) fuel (⟨vChain⟩, some hash) =
      some ⟨(mapBlockIndex.path hash).map some ++ vChain.drop (mapBlockIndex.level hash + 1)⟩ := by
  induction fuel generalizing hash vChain with
  | zero => omega
  | succ fuel ih =>
    obtain ⟨pindex, found⟩ := Option.isSome_iff_exists.mp known
    have height : pindex.nHeight.toNat = mapBlockIndex.level hash :=
      (BlockMap.level_eq found).symm
    by_cases here : vChain[mapBlockIndex.level hash]? = some (some hash)
    · -- the entry is there already, and so is all that is below it
      have path := (aligned (mapBlockIndex.level hash) hash (by
        rw [List.getElem?_take_of_lt (by omega), here])).2.2
      rw [take_take, min_self] at path
      rw [Loop.run, setTipRound, found]
      simp only [height, here, ↓reduceIte]
      rw [← path, take_append_drop]
    · have step : Loop.run (setTipRound mapBlockIndex) (fuel + 1) (⟨vChain⟩, some hash) =
          Loop.run (setTipRound mapBlockIndex) fuel
            (⟨vChain.set (mapBlockIndex.level hash) (some hash)⟩,
              mapBlockIndex.parent hash) := by
        rw [Loop.run, setTipRound, found, BlockMap.parent_eq found]
        simp only [height, here, ↓reduceIte]
      have rest : (vChain.set (mapBlockIndex.level hash) (some hash)).drop
          (mapBlockIndex.level hash) = some hash :: vChain.drop (mapBlockIndex.level hash + 1) := by
        rw [drop_set, if_neg (lt_irrefl _), Nat.sub_self, drop_eq_getElem_cons room]
        rfl
      rw [step]
      cases parent : mapBlockIndex.parent hash with
      | none =>
        obtain ⟨less, rfl⟩ : ∃ less, fuel = less + 1 := ⟨fuel - 1, by omega⟩
        have ground := tree.forest.root hash known parent
        rw [BlockMap.path, tree.forest.lineage_root known parent]
        rw [ground, drop_zero] at rest
        rw [ground, rest]
        rfl
      | some above =>
        obtain ⟨knownAbove, higher⟩ := tree.forest.parent hash above known parent
        have low : mapBlockIndex.level above + 1 ≤ mapBlockIndex.level hash := by omega
        rw [ih knownAbove (by rw [length_set]; omega) (by
            rw [take_set_of_le low]
            have less := aligned.take (mapBlockIndex.level above + 1)
            rwa [take_take, min_eq_left (by omega)] at less) (by omega),
          ← higher, rest, BlockMap.path, BlockMap.path,
          tree.forest.lineage_parent known parent, map_append, append_assoc]
        rfl

theorem setTip_eq (tree : mapBlockIndex.Tree) (aligned : Aligned mapBlockIndex chain.vChain)
    (known : (mapBlockIndex hash).isSome) :
    chain.setTip mapBlockIndex (some hash) = some ⟨(mapBlockIndex.path hash).map some⟩ := by
  obtain ⟨pindex, found⟩ := Option.isSome_iff_exists.mp known
  have length := length_resize chain (mapBlockIndex.level hash + 1)
  rw [setTip, found, Option.bind_some, ← BlockMap.level_eq found, run_setTipRound tree known
    (by omega) ((aligned.resize _).take _) (by omega), drop_eq_nil_of_le (by omega),
    append_nil]

end CChain

namespace SkipNode.Sound

variable {s : SkipNode} (sound : s.Sound) {genesis : Uint256}
  (rooted : s.node.mapBlockIndex.Rooted genesis)
include sound

theorem getAncestor_eq {hash : Uint256} {pindex : CBlockIndex}
    (found : s.node.mapBlockIndex hash = some pindex) (height : Int) (low : 0 ≤ height)
    (high : height ≤ pindex.nHeight) : ∃ ancestor, s.getAncestor hash height = some ancestor ∧
      SkipList.Ancestor s.parent ancestor hash ∧
        (s.node.mapBlockIndex.level ancestor : Int) = height := by
  obtain ⟨ancestor, climbs⟩ := sound.tree.climb_exists found (pindex.nHeight - height).toNat
    (by omega)
  obtain ⟨entry, there, level⟩ := sound.tree.climb_entry found climbs
  have same := sound.tree.height_eq there
  refine ⟨ancestor, ?_, ⟨_, climbs⟩, by omega⟩
  rw [SkipNode.getAncestor_eq sound.tree found (fun _ above _ => sound.linked above) low high]
  exact climbs

include rooted

theorem findFork_eq {chain : CChain} {tip hash : Uint256}
    (onPath : chain.OnPath s.node.mapBlockIndex tip) (known : (s.node.mapBlockIndex hash).isSome) :
    ∃ fork, chain.findFork s hash = some (some fork) ∧
      SkipList.HighestCommon s.parent s.node.mapBlockIndex.level hash tip fork := by
  obtain ⟨pindex, found⟩ := Option.isSome_iff_exists.mp known
  have forest := sound.tree.forest
  have height := onPath.height_eq sound.tree
  have level := sound.tree.height_eq found
  -- the search begins at the ancestor that is not above the tip
  obtain ⟨start, begins, ancestor, low, common⟩ : ∃ start,
      (if chain.height < pindex.nHeight then s.getAncestor hash chain.height else some hash) =
        some start ∧ SkipList.Ancestor s.parent start hash ∧
      s.node.mapBlockIndex.level start ≤ s.node.mapBlockIndex.level hash ∧
      ∀ other, SkipList.Ancestor s.parent other hash → SkipList.Ancestor s.parent other tip →
        SkipList.Ancestor s.parent other start := by
    by_cases above : chain.height < pindex.nHeight
    · obtain ⟨start, finds, ancestor, same⟩ :=
        sound.getAncestor_eq found chain.height (by omega) (by omega)
      refine ⟨start, by rw [if_pos above, finds], ancestor, by omega, fun other ofHash ofTip => ?_⟩
      have lower := forest.height_le onPath.known ofTip
      exact forest.ancestor_of_le known ofHash ancestor (by omega)
    · exact ⟨hash, by rw [if_neg above], .refl _ _, le_rfl, fun other ofHash _ => ofHash⟩
  have knownStart := forest.known_of_ancestor known ancestor
  have inside : ∀ {other : Uint256}, (s.node.mapBlockIndex other).isSome →
      (chain.contains s.node.mapBlockIndex other = true ↔ SkipList.Ancestor s.parent other tip) :=
    fun known => onPath.contains_iff sound.tree known
  have run : chain.findFork s hash =
      Loop.run (SkipList.descend s.parent (chain.contains s.node.mapBlockIndex))
        (pindex.nHeight.toNat + 2) (some start) := by
    rw [CChain.findFork, found, Option.bind_some, begins]
  rw [run]
  rcases forest.descend_returns (chain.contains s.node.mapBlockIndex) knownStart
    (pindex.nHeight.toNat + 2) (by omega) with ⟨fork, ends, below, stops, highest⟩ | ⟨_, no⟩
  · have knownFork := forest.known_of_ancestor knownStart below
    refine ⟨fork, ends, below.trans ancestor, (inside knownFork).mp stops, ?_⟩
    intro other ofHash ofTip
    exact highest other (common other ofHash ofTip)
      ((inside (forest.known_of_ancestor known ofHash)).mpr ofTip)
  · -- the genesis block is on the chain
    have ofTip := (rooted.ancestor sound.tree onPath.known).1
    have ofStart := (rooted.ancestor sound.tree knownStart).1
    have outside := no genesis ofStart
    rw [(inside (forest.known_of_ancestor knownStart ofStart)).mpr ofTip] at outside
    contradiction

theorem lastCommonAncestor_eq {pa pb : Uint256} (knownFirst : (s.node.mapBlockIndex pa).isSome)
    (knownSecond : (s.node.mapBlockIndex pb).isSome) : ∃ above,
      lastCommonAncestor s pa pb = some (some above) ∧
        SkipList.HighestCommon s.parent s.node.mapBlockIndex.level pa pb above := by
  obtain ⟨first, foundFirst⟩ := Option.isSome_iff_exists.mp knownFirst
  obtain ⟨second, foundSecond⟩ := Option.isSome_iff_exists.mp knownSecond
  have forest := sound.tree.forest
  have levelFirst := sound.tree.height_eq foundFirst
  have levelSecond := sound.tree.height_eq foundSecond
  -- both searches begin at the lower one of the two heights
  obtain ⟨left, beginsLeft, ancestorLeft, sameLeft⟩ : ∃ left,
      (if second.nHeight < first.nHeight then s.getAncestor pa second.nHeight else some pa) =
        some left ∧ SkipList.Ancestor s.parent left pa ∧
        (s.node.mapBlockIndex.level left : Int) = min first.nHeight second.nHeight := by
    by_cases above : second.nHeight < first.nHeight
    · obtain ⟨left, finds, ancestor, same⟩ :=
        sound.getAncestor_eq foundFirst second.nHeight (by omega) above.le
      exact ⟨left, by rw [if_pos above, finds], ancestor, by omega⟩
    · exact ⟨pa, by rw [if_neg above], .refl _ _, by omega⟩
  obtain ⟨right, beginsRight, ancestorRight, sameRight⟩ : ∃ right,
      (if first.nHeight < second.nHeight then s.getAncestor pb first.nHeight else some pb) =
        some right ∧ SkipList.Ancestor s.parent right pb ∧
        (s.node.mapBlockIndex.level right : Int) = min first.nHeight second.nHeight := by
    by_cases above : first.nHeight < second.nHeight
    · obtain ⟨right, finds, ancestor, same⟩ :=
        sound.getAncestor_eq foundSecond first.nHeight (by omega) above.le
      exact ⟨right, by rw [if_pos above, finds], ancestor, by omega⟩
    · exact ⟨pb, by rw [if_neg above], .refl _ _, by omega⟩
  have knownLeft := forest.known_of_ancestor knownFirst ancestorLeft
  have knownRight := forest.known_of_ancestor knownSecond ancestorRight
  have common : ∀ other, SkipList.Ancestor s.parent other pa →
      SkipList.Ancestor s.parent other pb →
        SkipList.Ancestor s.parent other left ∧ SkipList.Ancestor s.parent other right := by
    intro other ofFirst ofSecond
    have lowFirst := forest.height_le knownFirst ofFirst
    have lowSecond := forest.height_le knownSecond ofSecond
    exact ⟨forest.ancestor_of_le knownFirst ofFirst ancestorLeft (by omega),
      forest.ancestor_of_le knownSecond ofSecond ancestorRight (by omega)⟩
  rw [lastCommonAncestor, foundFirst, Option.bind_some, foundSecond, Option.bind_some, beginsLeft,
    beginsRight]
  rcases forest.meet_returns knownLeft knownRight (by omega)
    (min first.nHeight second.nHeight).toNat.succ.succ (by omega) with
    ⟨above, ends, highest⟩ | ⟨_, no⟩
  · refine ⟨above, ?_, highest.ofFirst.trans ancestorLeft, highest.ofSecond.trans ancestorRight, ?_⟩
    · rw [show s.parent = s.node.mapBlockIndex.parent from rfl, ends]
      exact if_pos rfl
    · intro other ofFirst ofSecond
      exact highest.highest other (common other ofFirst ofSecond).1 (common other ofFirst ofSecond).2
  · exact absurd (rooted.ancestor sound.tree knownRight).1
      (no genesis (rooted.ancestor sound.tree knownLeft).1)

end SkipNode.Sound

end Agouti
