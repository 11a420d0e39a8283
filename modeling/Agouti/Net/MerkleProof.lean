import Agouti.Net.MerkleBlock

/-! # What a partial Merkle tree proves

A peer chooses the number of transactions, the bits and the hashes of a `CPartialMerkleTree`. When
`ExtractMatches` returns the root of a block, the bits describe branches of the tree of that block,
but the number of transactions may be another one. The hashes are those of different transactions
of the block exactly if nothing is marked, or the tree has the height of the tree of the block and
the marked positions stand for different transactions (`extractMatches_authentic`).
-/

namespace Agouti

open List Serialize

open CBlock (merkleNode)
open Merkle PartialTree

/-- The positions that the bits mark below a node, and the bits behind. -/
def markedLeaves (nTransactions : Nat) : Nat → Nat → List Bool → List Nat × List Bool
  | _, _, [] => ([], [])
  | 0, pos, mark :: rest => (if mark then [pos] else [], rest)
  | _ + 1, _, false :: rest => ([], rest)
  | height + 1, pos, true :: rest =>
    let left := markedLeaves nTransactions height (2 * pos) rest
    if 2 * pos + 1 < calcTreeWidth nTransactions height then
      let right := markedLeaves nTransactions height (2 * pos + 1) left.2
      (left.1 ++ right.1, right.2)
    else left

namespace CPartialMerkleTree

variable (tree : CPartialMerkleTree)

def marked : List Nat :=
  (markedLeaves tree.nTransactions (treeHeight tree.nTransactions) 0 tree.vBits).1

variable [Crypto]

/-- The pairs that `TraverseAndExtract` hashes. -/
def traversePairs : Nat → Nat → Extraction → List (Uint256 × Uint256)
  | 0, _, _ => []
  | height + 1, pos, state =>
    match tree.vBits[state.nBitsUsed]? with
    | some true =>
      let used := { state with nBitsUsed := state.nBitsUsed + 1 }
      let left := tree.traverseAndExtract height (pos * 2) used
      if pos * 2 + 1 < calcTreeWidth tree.nTransactions height then
        let right := tree.traverseAndExtract height (pos * 2 + 1) left.2
        traversePairs height (pos * 2) used ++ traversePairs height (pos * 2 + 1) left.2 ++
          [(left.1, right.1)]
      else traversePairs height (pos * 2) used ++ [(left.1, left.1)]
    | _ => []

/-- The byte strings that `ExtractMatches` hashes. -/
def hashedStrings : List (List UInt8) :=
  (tree.traversePairs (treeHeight tree.nTransactions) 0 { fBad := tree.fBad }).map fun pair =>
    uint256 pair.1 ++ uint256 pair.2

/-- The tree gives the Merkle root of the block. -/
structure Passes (block : CBlock) : Prop where
  root : tree.extractMatches.1 = block.buildMerkleTree.1
  nonnull : tree.extractMatches.1 ≠ 0

/-- No two of the strings that are hashed collide. -/
def HashedApart (block : CBlock) : Prop :=
  Set.InjOn Hash {bytes | bytes ∈ block.hashedStrings ∨ bytes ∈ tree.hashedStrings}

/-- What is extracted are different transactions of the block, read within the arrays. -/
structure Authentic (block : CBlock) : Prop where
  listed : ∀ hash ∈ tree.extractMatches.2, hash ∈ block.vtx.map CTransaction.getHash
  once : tree.extractMatches.2.Nodup
  within : tree.traversed.2.Within tree

def standsFor (block : CBlock) (pos : Nat) : Option Uint256 :=
  (block.vtx.map CTransaction.getHash)[
    stands block.vtx.length (Nat.clog 2 block.vtx.length) 0 pos]?

/-- Nothing is marked; or the heights agree, and the positions stand for different transactions. -/
def Genuine (block : CBlock) : Prop :=
  tree.marked = [] ∨
    (treeHeight tree.nTransactions = Nat.clog 2 block.vtx.length ∧
      (tree.marked.map (standsFor block)).Nodup)

end CPartialMerkleTree

/-! ## The tree that was read -/

section

variable {tree : CPartialMerkleTree} {opened : PartialTree Uint256}

theorem markedLeaves_tree (few : Few tree.nTransactions) {height pos : Nat} (low : height ≤ 16)
    (shaped : opened.Shaped tree.nTransactions height pos) (rest : List Bool) :
    markedLeaves tree.nTransactions height pos (opened.bits ++ rest) =
      ((opened.marked height).map (pos * 2 ^ height + ·), rest) := by
  induction opened generalizing height pos rest with
  | closed hash => cases height <;> rfl
  | leaf hash =>
    cases height with
    | zero => simp [bits, markedLeaves, PartialTree.marked]
    | succ height => exact shaped.elim
  | single child ih =>
    cases height with
    | zero => exact shaped.elim
    | succ height =>
      obtain ⟨alone, below⟩ := shaped
      rw [bits, cons_append, markedLeaves, few.calcTreeWidth_eq (by omega), if_neg alone,
        ih (by omega) below, start_left]
      rfl
  | both left right ihLeft ihRight =>
    cases height with
    | zero => exact shaped.elim
    | succ height =>
      obtain ⟨two, belowLeft, belowRight⟩ := shaped
      have offsets : (fun offset => (2 * pos + 1) * 2 ^ height + offset) =
          (fun offset => pos * 2 ^ (height + 1) + offset) ∘ (2 ^ height + ·) := by
        funext offset
        rw [start_right, Function.comp_apply, Nat.add_assoc]
      rw [bits, cons_append, append_assoc, markedLeaves,
        few.calcTreeWidth_eq (by omega), if_pos two, ihLeft (by omega) belowLeft]
      simp only [ihRight (by omega) belowRight, PartialTree.marked, map_append,
        map_map, start_left, offsets, Nat.add_sub_cancel]

theorem length_marked {count height pos : Nat} (shaped : opened.Shaped count height pos) :
    (opened.marked height).length = opened.matched.length := by
  induction opened generalizing height pos with
  | closed hash => rfl
  | leaf hash => rfl
  | single child ih =>
    cases height with
    | zero => exact shaped.elim
    | succ height => exact ih shaped.2
  | both left right ihLeft ihRight =>
    cases height with
    | zero => exact shaped.elim
    | succ height =>
      rw [PartialTree.marked, matched, length_append, length_map, length_append,
        Nat.add_sub_cancel, ihLeft shaped.2.1, ihRight shaped.2.2]

variable [Crypto]

theorem traversePairs_tree (few : Few tree.nTransactions) {height pos : Nat} (low : height ≤ 16)
    (shaped : opened.Shaped tree.nTransactions height pos) (state : Extraction)
    (begins : state.Begins tree opened) :
    tree.traversePairs height pos state = opened.hashed merkleNode := by
  induction opened generalizing height pos state with
  | closed hash =>
    obtain ⟨⟨moreBits, bits⟩, -⟩ := begins
    have bit := (drop_cons bits).1
    cases height with
    | zero => rfl
    | succ height =>
      rw [CPartialMerkleTree.traversePairs, bit]
      rfl
  | leaf hash =>
    cases height with
    | zero => rfl
    | succ height => exact shaped.elim
  | single child ih =>
    cases height with
    | zero => exact shaped.elim
    | succ height =>
      obtain ⟨alone, below⟩ := shaped
      obtain ⟨bit, begins⟩ := begins.single
      have left := traverseAndExtract_tree few (by omega) below _ begins
      rw [CPartialMerkleTree.traversePairs, bit, few.calcTreeWidth_eq (by omega),
        Nat.mul_comm pos 2]
      simp only [alone, ↓reduceIte, left, ih (by omega) below _ begins,
        PartialTree.hashed]
  | both left right ihLeft ihRight =>
    cases height with
    | zero => exact shaped.elim
    | succ height =>
      obtain ⟨two, belowLeft, belowRight⟩ := shaped
      obtain ⟨bit, begins, after⟩ := begins.both
      have first := traverseAndExtract_tree few (by omega) belowLeft _ begins
      have second := traverseAndExtract_tree few (by omega) belowRight _ after
      rw [CPartialMerkleTree.traversePairs, bit, few.calcTreeWidth_eq (by omega),
        Nat.mul_comm pos 2]
      simp only [two, ↓reduceIte, first, second, ihLeft (by omega) belowLeft _ begins,
        ihRight (by omega) belowRight _ after, PartialTree.hashed]

namespace CPartialMerkleTree

/-- The extraction opens the proof as this tree. -/
structure ReadFor (tree : CPartialMerkleTree) (block : CBlock) (opened : PartialTree Uint256) :
    Prop where
  few : Few tree.nTransactions
  shaped : opened.Shaped tree.nTransactions (Nat.clog 2 tree.nTransactions) 0
  matched : tree.extractMatches.2 = opened.matched
  marked : tree.marked = opened.marked (Nat.clog 2 tree.nTransactions)
  hashed : ∀ pair ∈ opened.hashed merkleNode,
    uint256 pair.1 ++ uint256 pair.2 ∈ tree.hashedStrings
  root : (row merkleNode (block.vtx.map CTransaction.getHash)
    (Nat.clog 2 block.vtx.length))[0]? = some (opened.value merkleNode)

variable {block : CBlock}

theorem Passes.read (passes : tree.Passes block) : ∃ opened, tree.ReadFor block opened := by
  obtain ⟨opened, few, positive, shaped, ⟨padding, bits⟩, hashes, -, extracted⟩ :=
    extractMatches_tree passes.nonnull
  have listed := markedLeaves_tree few few.clog_le shaped padding
  have marked : tree.marked = opened.marked (Nat.clog 2 tree.nTransactions) := by
    have unshifted : (fun offset => 0 * 2 ^ Nat.clog 2 tree.nTransactions + offset) = id := by
      funext offset
      rw [Nat.zero_mul, Nat.zero_add]
      rfl
    rw [CPartialMerkleTree.marked, few.treeHeight_eq, bits, listed, unshifted, map_id]
  have pairs := traversePairs_tree few few.clog_le shaped { fBad := tree.fBad }
    ⟨⟨padding, by rw [drop_zero, bits]⟩, [], by rw [drop_zero, hashes, append_nil]⟩
  have root := passes.root
  have nonnull := passes.nonnull
  rw [root, CBlock.buildMerkleTree_eq] at nonnull
  rw [extracted, CBlock.buildMerkleTree_eq] at root
  have nonempty : block.vtx.map CTransaction.getHash ≠ [] := by
    intro none
    rw [none, Merkle.root] at nonnull
    exact nonnull rfl
  refine ⟨opened, few, shaped, congrArg Prod.snd extracted, marked, ?_, ?_⟩
  · intro pair member
    rw [hashedStrings, few.treeHeight_eq, pairs]
    exact mem_map_of_mem member
  · have top := root_eq_row merkleNode (block.vtx.map CTransaction.getHash) nonempty
    rw [length_map] at top
    obtain ⟨hash, found⟩ := root_isSome merkleNode nonempty
    rw [found, Option.getD_some] at root
    rw [← top, found]
    exact congrArg some root.symm

section

variable (apart : tree.HashedApart block) (read : tree.ReadFor block opened)

def hashedPairs (block : CBlock) (opened : PartialTree Uint256) : Set (Uint256 × Uint256) :=
  {pair | pair ∈ Merkle.hashed merkleNode (block.vtx.map CTransaction.getHash) ∨
    pair ∈ opened.hashed merkleNode}

include read in
theorem ReadFor.string {pair : Uint256 × Uint256} (member : pair ∈ hashedPairs block opened) :
    uint256 pair.1 ++ uint256 pair.2 ∈
      {bytes | bytes ∈ block.hashedStrings ∨ bytes ∈ tree.hashedStrings} := by
  rcases member with ofBlock | ofTree
  · exact .inl (mem_append_right _ (mem_map_of_mem ofBlock))
  · exact .inr (read.hashed pair ofTree)

include apart read in
theorem ReadFor.injective :
    Set.InjOn (fun pair : Uint256 × Uint256 => merkleNode pair.1 pair.2)
      (hashedPairs block opened) := by
  intro pair member other among same
  have bytes := apart (read.string member) (read.string among) same
  have sized : (uint256 pair.1).length = (uint256 other.1).length := by
    rw [uint256, uint256, length_le, length_le]
  obtain ⟨left, right⟩ := append_inj bytes sized
  exact Prod.ext (uint256_injective left) (uint256_injective right)

include apart read in
theorem ReadFor.not_node (sizes : ∀ tx ∈ block.vtx, (transaction tx).length ≠ 64)
    {hash : Uint256} (listed : hash ∈ block.vtx.map CTransaction.getHash)
    {pair : Uint256 × Uint256} (member : pair ∈ hashedPairs block opened) :
    hash ≠ merkleNode pair.1 pair.2 := by
  intro same
  obtain ⟨tx, among, rfl⟩ := mem_map.mp listed
  have bytes : transaction tx = uint256 pair.1 ++ uint256 pair.2 :=
    apart (.inl (mem_append_left _ (mem_map_of_mem among))) (read.string member) same
  have long := congrArg List.length bytes
  rw [length_append, uint256, uint256, length_le, length_le] at long
  exact sizes tx among long

omit read in
theorem rows_hashed (opened : PartialTree Uint256) {below : Nat}
    (lower : below < Nat.clog 2 block.vtx.length) :
    ∀ pair ∈ pairs (row merkleNode (block.vtx.map CTransaction.getHash) below),
      pair ∈ hashedPairs block opened := by
  intro pair member
  rw [← length_map CTransaction.getHash] at lower
  exact .inl (pairs_row_hashed merkleNode _ lower pair member)

end

section

variable (apart : tree.HashedApart block) (read : tree.ReadFor block opened)

include apart read in
theorem ReadFor.matched_stands
    (height : Nat.clog 2 tree.nTransactions = Nat.clog 2 block.vtx.length) :
    tree.extractMatches.2.map some = tree.marked.map (standsFor block) := by
  have shaped := read.shaped
  rw [read.matched, read.marked, height]
  rw [height] at shaped
  have leaves := matched_eq (read.injective apart) (fun below lower => rows_hashed opened lower)
    (fun pair member => .inr member) shaped read.root
  rwa [length_map] at leaves

include apart read in
theorem ReadFor.not_listed (sizes : ∀ tx ∈ block.vtx, (transaction tx).length ≠ 64)
    (height : Nat.clog 2 tree.nTransactions ≠ Nat.clog 2 block.vtx.length)
    (marks : tree.marked ≠ []) :
    ∃ hash ∈ tree.extractMatches.2, hash ∉ block.vtx.map CTransaction.getHash := by
  have nonempty : opened.matched ≠ [] := by
    have count := length_marked read.shaped
    rw [← read.marked] at count
    intro none
    rw [none, length_nil] at count
    exact marks (eq_nil_of_length_eq_zero count)
  have injective := read.injective apart
  rcases Nat.lt_or_gt_of_ne height with lower | higher
  · -- every opened leaf is a node of a higher row of the block
    obtain ⟨more, total⟩ := Nat.exists_eq_add_of_lt lower
    have root := read.root
    rw [total, Nat.add_assoc, ← row_add] at root
    have leaves := matched_eq injective (fun below less pair member => by
      rw [row_add] at member
      exact rows_hashed opened (by omega) pair member) (fun pair member => .inr member)
      read.shaped root
    obtain ⟨hash, member⟩ := exists_mem_of_ne_nil _ nonempty
    refine ⟨hash, read.matched ▸ member, fun listed => ?_⟩
    have found := mem_map_of_mem (f := some) member
    rw [leaves] at found
    obtain ⟨offset, -, place⟩ := mem_map.mp found
    have inRow := mem_of_getElem? place
    rw [row, level, mem_map] at inRow
    obtain ⟨pair, below, made⟩ := inRow
    exact read.not_node apart sizes listed (rows_hashed opened (by omega) pair below) made.symm
  · -- a leaf of the block is opened as a node
    obtain ⟨hash, listed, pair, hashed, made⟩ := leaf_hashed injective
      (fun below lower => rows_hashed opened lower) (fun pair member => .inr member) higher
      read.shaped nonempty read.root
    exact absurd made (read.not_node apart sizes listed (.inr hashed))

end

/-- **What a partial tree proves.** Of a tree that passes for a block, different transactions of the
block are extracted if the marked positions stand for different transactions in a tree of the
height of the block, or none is marked; and only then, unless a transaction is as long as two
hashes. -/
theorem extractMatches_authentic (passes : tree.Passes block) (apart : tree.HashedApart block) :
    (tree.Genuine block → tree.Authentic block) ∧
      ((∀ tx ∈ block.vtx, (transaction tx).length ≠ 64) →
        tree.Authentic block → tree.Genuine block) := by
  obtain ⟨opened, read⟩ := passes.read
  have within : tree.traversed.2.Within tree :=
    traverseAndExtract_within _ 0 _ ⟨Nat.zero_le _, Nat.zero_le _⟩
  have heights := read.few.treeHeight_eq
  constructor
  · intro genuine
    rcases genuine with none | ⟨height, distinct⟩
    · have empty : tree.extractMatches.2 = [] := by
        have count := length_marked read.shaped
        rw [← read.marked, none, length_nil] at count
        rw [read.matched]
        exact eq_nil_of_length_eq_zero count.symm
      refine ⟨?_, ?_, within⟩
      · rw [empty]
        exact fun hash member => absurd member not_mem_nil
      · rw [empty]
        exact nodup_nil
    · rw [heights] at height
      have leaves := read.matched_stands apart height
      refine ⟨fun hash member => ?_, ?_, within⟩
      · have found := mem_map_of_mem (f := some) member
        rw [leaves] at found
        obtain ⟨pos, -, place⟩ := mem_map.mp found
        exact mem_of_getElem? place
      · rw [← nodup_map_iff (Option.some_injective _), leaves]
        exact distinct
  · intro sizes authentic
    by_cases none : tree.marked = []
    · exact .inl none
    · by_cases height : Nat.clog 2 tree.nTransactions = Nat.clog 2 block.vtx.length
      · refine .inr ⟨heights.trans height, ?_⟩
        rw [← read.matched_stands apart height, nodup_map_iff (Option.some_injective _)]
        exact authentic.once
      · obtain ⟨hash, member, missing⟩ := read.not_listed apart sizes height none
        exact absurd (authentic.listed hash member) missing

end CPartialMerkleTree

end

/-! ## Forged trees -/

section

local instance forgedCrypto : Crypto := checksumCrypto

namespace ForgedTree

def block : CBlock := merkleBlock [lockTime 1, lockTime 2, lockTime 3]

def repeated : CPartialMerkleTree where
  nTransactions := 4
  vBits := List.replicate 8 true
  vHash := [(lockTime 1).getHash, (lockTime 2).getHash, (lockTime 3).getHash, (lockTime 3).getHash]
  fBad := false

def shallow : CPartialMerkleTree := ⟨1, List.replicate 8 true, [block.buildMerkleTree.1], false⟩

def honest : CPartialMerkleTree :=
  ⟨3, [true, false, true, true], [merkleNode (lockTime 1).getHash (lockTime 2).getHash,
    (lockTime 3).getHash], false⟩

theorem mem_hashedStrings {bytes : List UInt8} (member : bytes ∈ block.hashedStrings) :
    bytes ∈ lockTimeStrings := by
  simp only [CBlock.hashedStrings, block, merkleBlock, Merkle.hashed, Merkle.level, Merkle.pairs,
    map_cons, map_nil, cons_append, nil_append, append_nil,
    mem_cons, not_mem_nil, or_false] at member
  rcases member with rfl | rfl | rfl | rfl | rfl | rfl <;> decide +kernel

theorem hashedApart {tree : CPartialMerkleTree}
    (strings : tree.hashedStrings.all (fun bytes => decide (bytes ∈ lockTimeStrings)) = true) :
    tree.HashedApart block := by
  have collisionFree : ∀ bytes ∈ lockTimeStrings, ∀ other ∈ lockTimeStrings,
      Hash bytes = Hash other → bytes = other := by
    decide +kernel
  have known : ∀ bytes, bytes ∈ block.hashedStrings ∨ bytes ∈ tree.hashedStrings →
      bytes ∈ lockTimeStrings := by
    intro bytes member
    rcases member with ofBlock | ofTree
    · exact mem_hashedStrings ofBlock
    · exact decide_eq_true_eq.mp (all_eq_true.mp strings bytes ofTree)
  intro bytes member other among
  exact collisionFree bytes (known bytes member) other (known other among)

end ForgedTree

/-- A tree of four transactions passes for the block of three and gives one of them twice, and a
tree of one transaction passes and gives none of them. -/
theorem forgedTree_passes :
    (¬ ∀ (tree : CPartialMerkleTree) (block : CBlock), tree.Passes block → tree.HashedApart block →
      tree.extractMatches.2.Nodup) ∧
    ¬ ∀ (tree : CPartialMerkleTree) (block : CBlock), tree.Passes block → tree.HashedApart block →
      ∀ hash ∈ tree.extractMatches.2, hash ∈ block.vtx.map CTransaction.getHash := by
  constructor
  · intro promise
    have once := promise ForgedTree.repeated ForgedTree.block
      ⟨by decide +kernel, by decide +kernel⟩ (ForgedTree.hashedApart (by decide +kernel))
    revert once
    decide +kernel
  · intro promise
    have listed := promise ForgedTree.shallow ForgedTree.block
      ⟨by decide +kernel, by decide +kernel⟩ (ForgedTree.hashedApart (by decide +kernel))
    have checked : ForgedTree.shallow.extractMatches.2.all
        (fun hash => decide (hash ∈ ForgedTree.block.vtx.map CTransaction.getHash)) = true :=
      all_eq_true.mpr fun hash member => decide_eq_true (listed hash member)
    revert checked
    decide +kernel

/-- The tree of the block with one transaction marked. -/
theorem extractMatches_authentic_honest :
    (ForgedTree.honest.Genuine ForgedTree.block → ForgedTree.honest.Authentic ForgedTree.block) ∧
      ((∀ tx ∈ ForgedTree.block.vtx, (transaction tx).length ≠ 64) →
        ForgedTree.honest.Authentic ForgedTree.block →
          ForgedTree.honest.Genuine ForgedTree.block) :=
  CPartialMerkleTree.extractMatches_authentic ⟨by decide +kernel, by decide +kernel⟩
    (ForgedTree.hashedApart (by decide +kernel))

end

end Agouti
