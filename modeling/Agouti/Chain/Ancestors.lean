import Agouti.Chain.BlockIndex
import Agouti.Library.Lineage

/-! # Ancestors in the block index

The entries of the block index are a forest: each one that has a parent is one higher than it, and
the others are at height 0 (`BlockMap.Tree`). So an entry has one ancestor at each height from 0 up
to its own, which is the one that `BlockMap.back` walks to along `pprev`.
-/

namespace Agouti

open Option

namespace BlockMap

/-- The pointer `pprev` of the entry of a hash. -/
def parent (mapBlockIndex : BlockMap) (hash : Uint256) : Option Uint256 :=
  (mapBlockIndex hash).bind CBlockIndex.pprev

/-- The entries are a forest, with their heights. -/
structure Tree (mapBlockIndex : BlockMap) : Prop where
  hash : ∀ hash pindex, mapBlockIndex hash = some pindex → pindex.phashBlock = some hash
  parent : ∀ hash pindex, mapBlockIndex hash = some pindex → ∀ hashPrev,
    pindex.pprev = some hashPrev → ∃ prev, mapBlockIndex hashPrev = some prev ∧
      pindex.nHeight = prev.nHeight + 1
  root : ∀ hash pindex, mapBlockIndex hash = some pindex → pindex.pprev = none →
    pindex.nHeight = 0
  nonneg : ∀ hash pindex, mapBlockIndex hash = some pindex → 0 ≤ pindex.nHeight

def level (mapBlockIndex : BlockMap) (hash : Uint256) : Nat :=
  ((mapBlockIndex hash).map fun pindex => pindex.nHeight.toNat).getD 0

theorem level_eq {mapBlockIndex : BlockMap} {hash : Uint256} {pindex : CBlockIndex}
    (found : mapBlockIndex hash = some pindex) : mapBlockIndex.level hash = pindex.nHeight.toNat := by
  rw [level, found]
  rfl

theorem parent_eq {mapBlockIndex : BlockMap} {hash : Uint256} {pindex : CBlockIndex}
    (found : mapBlockIndex hash = some pindex) : mapBlockIndex.parent hash = pindex.pprev := by
  rw [parent, found, bind_some]

namespace Tree

variable {mapBlockIndex : BlockMap} {hash above : Uint256} {pindex : CBlockIndex} {count : Nat}

theorem height_eq (tree : mapBlockIndex.Tree) (found : mapBlockIndex hash = some pindex) :
    (mapBlockIndex.level hash : Int) = pindex.nHeight := by
  rw [level_eq found, Int.toNat_of_nonneg (tree.nonneg hash pindex found)]

theorem forest (tree : mapBlockIndex.Tree) : SkipList.Forest mapBlockIndex.parent
    mapBlockIndex.level fun hash => (mapBlockIndex hash).isSome where
  parent hash above known up := by
    obtain ⟨pindex, found⟩ := isSome_iff_exists.mp known
    rw [parent_eq found] at up
    obtain ⟨prev, present, height⟩ := tree.parent hash pindex found above up
    have low := tree.height_eq found
    have high := tree.height_eq present
    exact ⟨by rw [present]; rfl, by omega⟩
  root hash known up := by
    obtain ⟨pindex, found⟩ := isSome_iff_exists.mp known
    rw [parent_eq found] at up
    have low := tree.height_eq found
    have ground := tree.root hash pindex found up
    omega

theorem climb_entry (tree : mapBlockIndex.Tree) (found : mapBlockIndex hash = some pindex)
    (climbs : SkipList.climb mapBlockIndex.parent count hash = some above) :
    ∃ entry, mapBlockIndex above = some entry ∧ entry.nHeight = pindex.nHeight - count := by
  have known : (mapBlockIndex hash).isSome := by rw [found]; rfl
  obtain ⟨entry, there⟩ :=
    isSome_iff_exists.mp (tree.forest.climb_known known climbs)
  have level := tree.forest.climb_height known climbs
  have low := tree.height_eq found
  have high := tree.height_eq there
  exact ⟨entry, there, by omega⟩

theorem climb_exists (tree : mapBlockIndex.Tree) (found : mapBlockIndex hash = some pindex)
    (count : Nat) (inside : (count : Int) ≤ pindex.nHeight) :
    ∃ above, SkipList.climb mapBlockIndex.parent count hash = some above := by
  have low := tree.height_eq found
  exact tree.forest.climb_exists (by rw [found]; rfl) (by omega)

theorem back_eq (tree : mapBlockIndex.Tree) (found : mapBlockIndex hash = some pindex)
    (count : Nat) : mapBlockIndex.back count pindex =
      (SkipList.climb mapBlockIndex.parent count hash).bind mapBlockIndex := by
  induction count generalizing hash pindex with
  | zero => exact found.symm
  | succ count ih =>
    rw [BlockMap.back, BlockMap.prev, SkipList.climb, BlockMap.parent, found, bind_some]
    cases pprev : pindex.pprev with
    | none => rfl
    | some hashPrev =>
      obtain ⟨prev, present, -⟩ := tree.parent hash pindex found hashPrev pprev
      rw [bind_some, bind_some, present, bind_some]
      exact ih present

end Tree

/-- Only the genesis block has no parent. -/
def Rooted (mapBlockIndex : BlockMap) (genesis : Uint256) : Prop :=
  ∀ hash pindex, mapBlockIndex hash = some pindex → pindex.pprev = none → hash = genesis

theorem Rooted.ancestor {mapBlockIndex : BlockMap} {genesis hash : Uint256}
    (rooted : mapBlockIndex.Rooted genesis) (tree : mapBlockIndex.Tree)
    (known : (mapBlockIndex hash).isSome) :
    SkipList.Ancestor mapBlockIndex.parent genesis hash ∧ mapBlockIndex.level genesis = 0 := by
  obtain ⟨root, ancestor, ground, parent⟩ := tree.forest.exists_root known
  obtain ⟨pindex, found⟩ :=
    isSome_iff_exists.mp (tree.forest.known_of_ancestor known ancestor)
  rw [parent_eq found] at parent
  have same := rooted root pindex found parent
  rw [← same]
  exact ⟨ancestor, ground⟩

/-- Two block indices have the same entries with the same parents and heights. -/
def SameLinks (before after : BlockMap) : Prop :=
  ∀ hash, (after hash).map (fun pindex => (pindex.phashBlock, pindex.pprev, pindex.nHeight)) =
    (before hash).map fun pindex => (pindex.phashBlock, pindex.pprev, pindex.nHeight)

section

variable {before after : BlockMap}

section

variable (same : SameLinks before after)

include same

theorem SameLinks.entry {hash : Uint256} {pindex : CBlockIndex}
    (found : after hash = some pindex) : ∃ entry, before hash = some entry ∧
      pindex.phashBlock = entry.phashBlock ∧ pindex.pprev = entry.pprev ∧
        pindex.nHeight = entry.nHeight := by
  have links := same hash
  rw [found, map_some, eq_comm, map_eq_some_iff] at links
  obtain ⟨entry, there, equal⟩ := links
  rw [Prod.mk.injEq, Prod.mk.injEq] at equal
  exact ⟨entry, there, equal.1.symm, equal.2.1.symm, equal.2.2.symm⟩

theorem SameLinks.symm : SameLinks after before := fun hash =>
  (same hash).symm

theorem SameLinks.parent : after.parent = before.parent := by
  funext hash
  have links := congrArg (fun link => link.bind fun entry => entry.2.1) (same hash)
  simp only [bind_map] at links
  exact links

theorem SameLinks.tree (tree : before.Tree) : after.Tree where
  hash hash pindex found := by
    obtain ⟨entry, there, known, -, -⟩ := same.entry found
    rw [known]
    exact tree.hash hash entry there
  parent hash pindex found hashPrev pprev := by
    obtain ⟨entry, there, -, parent, height⟩ := same.entry found
    obtain ⟨prev, present, above⟩ := tree.parent hash entry there hashPrev (parent ▸ pprev)
    obtain ⟨later, here, -, -, level⟩ := same.symm.entry present
    exact ⟨later, here, by omega⟩
  root hash pindex found pprev := by
    obtain ⟨entry, there, -, parent, height⟩ := same.entry found
    rw [height]
    exact tree.root hash entry there (parent ▸ pprev)
  nonneg hash pindex found := by
    obtain ⟨entry, there, -, -, height⟩ := same.entry found
    rw [height]
    exact tree.nonneg hash entry there

theorem SameLinks.rooted {genesis : Uint256}
    (rooted : before.Rooted genesis) : after.Rooted genesis := by
  intro hash pindex found pprev
  obtain ⟨entry, there, -, parent, -⟩ := same.entry found
  exact rooted hash entry there (parent ▸ pprev)

theorem SameLinks.known (hash : Uint256) :
    (after hash).isSome = (before hash).isSome := by
  have links := congrArg Option.isSome (same hash)
  rwa [isSome_map, isSome_map] at links

theorem SameLinks.level : after.level = before.level := by
  funext hash
  have links := congrArg (fun link => (link.map fun entry => entry.2.2.toNat).getD 0) (same hash)
  simp only [Option.map_map] at links
  exact links

end

end

end BlockMap

end Agouti
