import Agouti.Library.Merkle
import Agouti.Primitives.Deserialize

/-! # Merkle trees of blocks

`CBlock::BuildMerkleTree` keeps all levels in one array, and `GetMerkleBranch` reads
the siblings of a transaction from it. Over the array, the branch of every transaction
leads to the root, and two blocks with one root and different transactions are not both
free of the mutation flag (`merkle_branches_and_mutation`).
-/

namespace Agouti

open List Serialize

namespace CBlock

variable [Crypto]

def merkleNode (left right : Uint256) : Uint256 :=
  Hash (uint256 left ++ uint256 right)

/-- One turn of the inner loop of `BuildMerkleTree`: the array and the flag. -/
def merklePush (j nSize : Nat) (state : List Uint256 × Bool) (i : Nat) : List Uint256 × Bool :=
  let (vMerkleTree, mutated) := state
  let i2 := min (i + 1) (nSize - 1)
  let left := vMerkleTree.getD (j + i) 0
  let right := vMerkleTree.getD (j + i2) 0
  (vMerkleTree ++ [merkleNode left right],
    mutated || (i2 == i + 1 && i2 + 1 == nSize && left == right))

/-- The outer loop of `BuildMerkleTree`; `fuel` bounds the number of levels. -/
def merkleRows : Nat → Nat → Nat → List Uint256 × Bool → List Uint256 × Bool
  | 0, _, _, state => state
  | fuel + 1, j, nSize, state =>
    if nSize ≤ 1 then state
    else
      merkleRows fuel (j + nSize) ((nSize + 1) / 2)
        ((List.range' 0 ((nSize + 1) / 2) 2).foldl (merklePush j nSize) state)

/-- The array `vMerkleTree` after `BuildMerkleTree`, and the flag `*fMutated`. -/
def merkleTree (block : CBlock) : List Uint256 × Bool :=
  merkleRows block.vtx.length 0 block.vtx.length (block.vtx.map CTransaction.getHash, false)

/-- The loop of `GetMerkleBranch`; `fuel` bounds the number of levels. -/
def merkleSiblings (vMerkleTree : List Uint256) : Nat → Nat → Nat → Nat → List Uint256
  | 0, _, _, _ => []
  | fuel + 1, j, nSize, nIndex =>
    if nSize ≤ 1 then []
    else
      let i := min (nIndex ^^^ 1) (nSize - 1)
      vMerkleTree.getD (j + i) 0 ::
        merkleSiblings vMerkleTree fuel (j + nSize) ((nSize + 1) / 2) (nIndex / 2)

/-- `CBlock::GetMerkleBranch` of a block whose array is empty or built. -/
def getMerkleBranch (block : CBlock) (vMerkleTree : List Uint256) (nIndex : Nat) :
    List Uint256 :=
  let vMerkleTree := if vMerkleTree.isEmpty then block.merkleTree.1 else vMerkleTree
  merkleSiblings vMerkleTree block.vtx.length 0 block.vtx.length nIndex

/-- The loop of `CheckMerkleBranch`. -/
def merkleFold (hash : Uint256) : List Uint256 → Int → Uint256
  | [], _ => hash
  | other :: vMerkleBranch, nIndex =>
    merkleFold (if nIndex % 2 = 1 then merkleNode other hash else merkleNode hash other)
      vMerkleBranch (nIndex / 2)

def checkMerkleBranch (hash : Uint256) (vMerkleBranch : List Uint256) (nIndex : Int) : Uint256 :=
  if nIndex = -1 then 0 else merkleFold hash vMerkleBranch nIndex

/-! ## The levels -/

theorem merkleLevel_eq (hashes : List Uint256) :
    merkleLevel hashes = Merkle.level merkleNode hashes := by
  induction hashes using Merkle.pairs.induct with
  | case1 => rfl
  | case2 last => rfl
  | case3 left right rest ih =>
    rw [merkleLevel, ih]
    rfl

omit [Crypto] in
theorem merkleLevelMutated_eq (hashes : List Uint256) :
    merkleLevelMutated hashes = Merkle.doubled hashes := by
  rw [Bool.eq_iff_iff, Merkle.doubled_iff, merkleLevelMutated]
  simp only [Bool.and_eq_true, beq_iff_eq, bne_iff_ne]
  constructor
  · intro ⟨⟨even, same⟩, nonempty⟩
    have positive := length_pos_iff.mpr nonempty
    rw [List.getElem?_reverse (by omega), List.getElem?_reverse (by omega)] at same
    refine ⟨hashes.length - 2, by omega, by omega, ?_⟩
    rw [show hashes.length - 2 + 1 = hashes.length - 1 - 0 by omega, same]
    congr 1
  · intro ⟨index, even, last, same⟩
    refine ⟨⟨by omega, ?_⟩, fun none => ?_⟩
    · rw [List.getElem?_reverse (by omega), List.getElem?_reverse (by omega),
        show hashes.length - 1 - 0 = index + 1 by omega,
        show hashes.length - 1 - 1 = index by omega, same]
    · rw [none, length_nil] at last
      omega

theorem merkleClimb_eq (hashes : List Uint256) (fuel : Nat) (enough : hashes.length ≤ fuel) :
    merkleClimb fuel hashes =
      ((Merkle.root merkleNode hashes).getD 0, Merkle.mutated merkleNode hashes) := by
  induction hashes using Merkle.root.induct merkleNode generalizing fuel with
  | case1 => cases fuel <;> simp [merkleClimb, Merkle.root, Merkle.mutated]
  | case2 last => cases fuel <;> simp [merkleClimb, Merkle.root, Merkle.mutated]
  | case3 left right rest ih =>
    have shorter := Merkle.level_shorter merkleNode left right rest
    cases fuel with
    | zero => simp at enough
    | succ fuel =>
      rw [merkleClimb, if_neg (by simp), merkleLevel_eq, ih fuel (by omega),
        merkleLevelMutated_eq, Merkle.root, Merkle.mutated]

theorem buildMerkleTree_eq (block : CBlock) :
    block.buildMerkleTree =
      ((Merkle.root merkleNode (block.vtx.map CTransaction.getHash)).getD 0,
        Merkle.mutated merkleNode (block.vtx.map CTransaction.getHash)) :=
  merkleClimb_eq _ _ (length_map _).le

/-! ## The array -/

def rowHash (hashes : List Uint256) (i : Nat) : Uint256 :=
  merkleNode (hashes.getD i 0) (hashes.getD (min (i + 1) (hashes.length - 1)) 0)

omit [Crypto] in
/-- What a turn of the inner loop adds to the flag. -/
def rowFlag (hashes : List Uint256) (i : Nat) : Bool :=
  min (i + 1) (hashes.length - 1) == i + 1 &&
    min (i + 1) (hashes.length - 1) + 1 == hashes.length &&
    hashes.getD i 0 == hashes.getD (min (i + 1) (hashes.length - 1)) 0

omit [Crypto] in
theorem getD_behind (before hashes pushed : List Uint256) {i : Nat} (inside : i < hashes.length) :
    (before ++ hashes ++ pushed).getD (before.length + i) 0 = hashes.getD i 0 := by
  rw [append_assoc, getD_append_right _ _ _ _ (by omega), Nat.add_sub_cancel_left,
    getD_append _ _ _ _ inside]

/-- The turns of the inner loop read only the level they start from. -/
theorem foldl_merklePush (before hashes : List Uint256) (indices : List Nat)
    (inside : ∀ i ∈ indices, i < hashes.length) (pushed : List Uint256) (mutated : Bool) :
    indices.foldl (merklePush before.length hashes.length) (before ++ hashes ++ pushed, mutated) =
      (before ++ hashes ++ (pushed ++ indices.map (rowHash hashes)),
        mutated || indices.any (rowFlag hashes)) := by
  induction indices generalizing pushed mutated with
  | nil => simp
  | cons i indices ih =>
    have here := inside i mem_cons_self
    have turn : merklePush before.length hashes.length (before ++ hashes ++ pushed, mutated) i =
        (before ++ hashes ++ (pushed ++ [rowHash hashes i]), mutated || rowFlag hashes i) := by
      have other : min (i + 1) (hashes.length - 1) < hashes.length := by omega
      rw [← append_assoc]
      simp only [merklePush, getD_behind before hashes pushed here,
        getD_behind before hashes pushed other]
      rfl
    rw [foldl_cons, turn, ih fun j member => inside j (mem_cons_of_mem i member)]
    simp only [append_assoc, singleton_append, map_cons, any_cons,
      Bool.or_assoc]

theorem rowHash_level (hashes : List Uint256) :
    (List.range' 0 ((hashes.length + 1) / 2) 2).map (rowHash hashes) =
      Merkle.level merkleNode hashes := by
  apply ext_getElem?
  intro k
  rw [List.getElem?_map, Merkle.level, List.getElem?_map, Merkle.pairs_getElem?]
  by_cases inside : k < (hashes.length + 1) / 2
  · rw [List.getElem?_range' inside, List.getElem?_eq_getElem (by omega : 2 * k < hashes.length)]
    simp only [Nat.zero_add, Option.map_some, rowHash]
    rw [getD_eq_getElem _ _ (by omega : 2 * k < hashes.length)]
    by_cases last : 2 * k + 1 < hashes.length
    · rw [Nat.min_eq_left (by omega), List.getElem?_eq_getElem last, getD_eq_getElem _ _ last]
      rfl
    · rw [Nat.min_eq_right (by omega), List.getElem?_eq_none (by omega),
        getD_eq_getElem _ _ (by omega)]
      simp only [show hashes.length - 1 = 2 * k by omega]
      rfl
  · rw [List.getElem?_eq_none (by rw [length_range']; omega),
      List.getElem?_eq_none (by omega : hashes.length ≤ 2 * k)]
    rfl

omit [Crypto] in
theorem rowFlag_doubled (hashes : List Uint256) :
    (List.range' 0 ((hashes.length + 1) / 2) 2).any (rowFlag hashes) = Merkle.doubled hashes := by
  rw [Bool.eq_iff_iff, any_eq_true, Merkle.doubled_iff]
  simp only [mem_range', rowFlag, Bool.and_eq_true, beq_iff_eq]
  constructor
  · rintro ⟨i, ⟨k, below, rfl⟩, ⟨next, last⟩, same⟩
    rw [next] at last same
    refine ⟨0 + 2 * k, by omega, by omega, ?_⟩
    rw [getD_eq_getElem _ _ (by omega), getD_eq_getElem _ _ (by omega)] at same
    rw [List.getElem?_eq_getElem (by omega), List.getElem?_eq_getElem (by omega), same]
  · intro ⟨i, even, last, same⟩
    have next : min (i + 1) (hashes.length - 1) = i + 1 := Nat.min_eq_left (by omega)
    refine ⟨i, ⟨i / 2, by omega, by omega⟩, ⟨next, by omega⟩, ?_⟩
    rw [next, getD_eq_getElem?_getD, getD_eq_getElem?_getD, same]

/-- The outer loop appends the levels above the one it starts from. -/
theorem merkleRows_eq (hashes : List Uint256) (fuel : Nat) (enough : hashes.length ≤ fuel)
    (before : List Uint256) (mutated : Bool) :
    merkleRows fuel before.length hashes.length (before ++ hashes, mutated) =
      (before ++ Merkle.nodes merkleNode hashes, mutated || Merkle.mutated merkleNode hashes) := by
  induction hashes using Merkle.root.induct merkleNode generalizing fuel before mutated with
  | case1 => cases fuel <;> simp [merkleRows, Merkle.nodes, Merkle.mutated]
  | case2 last => cases fuel <;> simp [merkleRows, Merkle.nodes, Merkle.mutated]
  | case3 left right rest ih =>
    have shorter := Merkle.level_shorter merkleNode left right rest
    rw [Merkle.nodes, Merkle.mutated]
    generalize whole : left :: right :: rest = hashes at *
    have two : ¬hashes.length ≤ 1 := by
      rw [← whole]
      simp
    cases fuel with
    | zero => omega
    | succ fuel =>
      have row := foldl_merklePush before hashes (List.range' 0 ((hashes.length + 1) / 2) 2)
        (fun i member => by
          obtain ⟨k, below, rfl⟩ := mem_range'.mp member
          omega) [] mutated
      rw [append_nil, nil_append, rowHash_level, rowFlag_doubled] at row
      have above := ih fuel (by omega) (before ++ hashes) (mutated || Merkle.doubled hashes)
      rw [length_append, Merkle.length_level] at above
      rw [merkleRows, if_neg two, row, above, append_assoc, Bool.or_assoc]

/-- **The array holds the levels of the tree**, and its last entry is the root. -/
theorem merkleTree_eq (block : CBlock) :
    block.merkleTree =
      (Merkle.nodes merkleNode (block.vtx.map CTransaction.getHash), block.buildMerkleTree.2) := by
  have rows := merkleRows_eq (block.vtx.map CTransaction.getHash) block.vtx.length
    (length_map _).le [] false
  rw [nil_append, nil_append, length_map, Bool.false_or] at rows
  rw [merkleTree, buildMerkleTree_eq]
  exact rows

theorem merkleSiblings_eq (hashes : List Uint256) (fuel : Nat) (enough : hashes.length ≤ fuel)
    (before : List Uint256) (nIndex : Nat) :
    merkleSiblings (before ++ Merkle.nodes merkleNode hashes) fuel before.length hashes.length
      nIndex = Merkle.branch merkleNode hashes nIndex := by
  induction hashes using Merkle.root.induct merkleNode generalizing fuel before nIndex with
  | case1 => cases fuel <;> simp [merkleSiblings, Merkle.branch]
  | case2 last => cases fuel <;> simp [merkleSiblings, Merkle.branch]
  | case3 left right rest ih =>
    have shorter := Merkle.level_shorter merkleNode left right rest
    rw [Merkle.nodes, Merkle.branch]
    generalize whole : left :: right :: rest = hashes at *
    have two : ¬hashes.length ≤ 1 := by
      rw [← whole]
      simp
    cases fuel with
    | zero => omega
    | succ fuel =>
      have inside : min (nIndex ^^^ 1) (hashes.length - 1) < hashes.length := by omega
      have above := ih fuel (by omega) (before ++ hashes) (nIndex / 2)
      rw [length_append, Merkle.length_level, append_assoc] at above
      have beside : Merkle.sibling hashes nIndex =
          some (hashes.getD (min (nIndex ^^^ 1) (hashes.length - 1)) 0) := by
        rw [Merkle.sibling, List.getElem?_eq_getElem inside, getD_eq_getElem _ _ inside]
      rw [merkleSiblings, if_neg two, above, beside]
      simp only [← append_assoc, getD_behind before hashes _ inside]
      rfl

theorem merkleFold_eq (hash : Uint256) (vMerkleBranch : List Uint256) (nIndex : Nat) :
    merkleFold hash vMerkleBranch nIndex = Merkle.check merkleNode hash vMerkleBranch nIndex := by
  induction vMerkleBranch generalizing hash nIndex with
  | nil => rfl
  | cons other vMerkleBranch ih =>
    have half : (nIndex : Int) / 2 = ((nIndex / 2 : Nat) : Int) := rfl
    have odd : (nIndex : Int) % 2 = 1 ↔ nIndex % 2 = 1 := by omega
    rw [merkleFold, Merkle.check, half, ih]
    simp only [odd]

/-! ## Branches and roots -/

def hashedStrings (block : CBlock) : List (List UInt8) :=
  block.vtx.map transaction ++
    (Merkle.hashed merkleNode (block.vtx.map CTransaction.getHash)).map fun pair =>
      uint256 pair.1 ++ uint256 pair.2

def hashedPairs (first second : CBlock) : Set (Uint256 × Uint256) :=
  {pair | pair ∈ Merkle.hashed merkleNode (first.vtx.map CTransaction.getHash) ∨
    pair ∈ Merkle.hashed merkleNode (second.vtx.map CTransaction.getHash)}

/-- Nothing that is hashed for the two trees collides. -/
structure HashedApart (first second : CBlock) : Prop where
  /-- no two of the strings hashed for the trees have one hash -/
  injective : Set.InjOn Hash
    {bytes | bytes ∈ first.hashedStrings ∨ bytes ∈ second.hashedStrings}
  /-- no transaction has the hash of a pair -/
  leaves : ∀ tx, tx ∈ first.vtx ∨ tx ∈ second.vtx → ∀ pair ∈ hashedPairs first second,
    tx.getHash ≠ merkleNode pair.1 pair.2

theorem HashedApart.nodes {first second : CBlock} (apart : HashedApart first second) :
    Set.InjOn (fun pair : Uint256 × Uint256 => merkleNode pair.1 pair.2)
      (hashedPairs first second) := by
  have string : ∀ pair ∈ hashedPairs first second,
      uint256 pair.1 ++ uint256 pair.2 ∈
        {bytes | bytes ∈ first.hashedStrings ∨ bytes ∈ second.hashedStrings} := by
    intro pair member
    rcases member with left | right
    · exact .inl (mem_append_right _ (mem_map_of_mem left))
    · exact .inr (mem_append_right _ (mem_map_of_mem right))
  intro pair member other among same
  have bytes := apart.injective (string pair member) (string other among) same
  have sized : (uint256 pair.1).length = (uint256 other.1).length := by
    rw [uint256, uint256, length_le, length_le]
  obtain ⟨left, right⟩ := append_inj bytes sized
  exact Prod.ext (uint256_injective left) (uint256_injective right)

theorem HashedApart.transactions {first second : CBlock} (apart : HashedApart first second)
    (same : first.vtx.map CTransaction.getHash = second.vtx.map CTransaction.getHash) :
    first.vtx.map transaction = second.vtx.map transaction := by
  refine Merkle.eq_of_map_eq apart.injective ?_ ?_ ?_
  · intro bytes member
    exact .inl (mem_append_left _ member)
  · intro bytes member
    exact .inr (mem_append_left _ member)
  · rw [map_map, map_map]
    exact same

/-- **Branches and mutations.** The branch of every transaction leads to the root; and two
blocks with one root whose transactions are not the same, neither list being empty, are
not both free of the mutation flag. -/
theorem merkle_branches_and_mutation :
    (∀ (block : CBlock) (nIndex : Nat) (tx : CTransaction), block.vtx[nIndex]? = some tx →
      ∀ vMerkleTree, vMerkleTree = [] ∨ vMerkleTree = block.merkleTree.1 →
        checkMerkleBranch tx.getHash (block.getMerkleBranch vMerkleTree nIndex) nIndex =
          block.buildMerkleTree.1) ∧
    (∀ first second : CBlock, first.vtx ≠ [] → second.vtx ≠ [] → HashedApart first second →
      first.vtx.map transaction ≠ second.vtx.map transaction →
        first.buildMerkleTree.1 = second.buildMerkleTree.1 →
          first.buildMerkleTree.2 = true ∨ second.buildMerkleTree.2 = true) := by
  constructor
  · intro block nIndex tx found vMerkleTree known
    have array : (if vMerkleTree.isEmpty then block.merkleTree.1 else vMerkleTree) =
        Merkle.nodes merkleNode (block.vtx.map CTransaction.getHash) := by
      rw [merkleTree_eq] at known ⊢
      rcases known with rfl | rfl
      · rfl
      · exact ite_self _
    have leaf : (block.vtx.map CTransaction.getHash)[nIndex]? = some tx.getHash := by
      rw [List.getElem?_map, found]
      rfl
    have siblings := merkleSiblings_eq (block.vtx.map CTransaction.getHash) block.vtx.length
      (length_map _).le [] nIndex
    rw [nil_append, length_nil, length_map] at siblings
    have natural : (nIndex : Int) ≠ -1 := by omega
    rw [getMerkleBranch, array, siblings, checkMerkleBranch, if_neg natural, merkleFold_eq,
      buildMerkleTree_eq, Merkle.check_branch merkleNode _ nIndex _ leaf, Option.getD_some]
  · intro first second nonempty other apart different same
    rw [buildMerkleTree_eq, buildMerkleTree_eq] at same ⊢
    have leaves : first.vtx.map CTransaction.getHash ≠ [] := by
      rwa [Ne, map_eq_nil_iff]
    have others : second.vtx.map CTransaction.getHash ≠ [] := by
      rwa [Ne, map_eq_nil_iff]
    have roots : Merkle.root merkleNode (first.vtx.map CTransaction.getHash) =
        Merkle.root merkleNode (second.vtx.map CTransaction.getHash) := by
      obtain ⟨one, isOne⟩ := Merkle.root_isSome merkleNode leaves
      obtain ⟨two, isTwo⟩ := Merkle.root_isSome merkleNode others
      rw [isOne, isTwo] at same ⊢
      exact congrArg some same
    have outside : ∀ leaf, leaf ∈ first.vtx.map CTransaction.getHash ∨
        leaf ∈ second.vtx.map CTransaction.getHash → ∀ pair ∈ hashedPairs first second,
          leaf ≠ merkleNode pair.1 pair.2 := by
      intro leaf member pair hashed
      simp only [mem_map] at member
      rcases member with ⟨tx, member, rfl⟩ | ⟨tx, member, rfl⟩
      · exact apart.leaves tx (.inl member) pair hashed
      · exact apart.leaves tx (.inr member) pair hashed
    rcases Merkle.eq_or_mutated apart.nodes leaves others (fun pair => .inl) (fun pair => .inr)
      outside roots with equal | left | right
    · exact absurd (apart.transactions equal) different
    · exact .inl left
    · exact .inr right

end CBlock

def merkleBlock (vtx : List CTransaction) : CBlock :=
  { nVersion := 5, hashPrevBlock := 0, hashMerkleRoot := 0, nTime := 0, nBits := 0, nNonce := 0,
    vtx := vtx }

def lockTime (nLockTime : Nat) : CTransaction := ⟨1, [], [], nLockTime⟩

section

local instance merkleCrypto : Crypto := checksumCrypto

theorem hashed_single (tx : CTransaction) :
    CBlock.hashedStrings (merkleBlock [tx]) = [transaction tx] ∧
      Merkle.hashed CBlock.merkleNode ((merkleBlock [tx]).vtx.map CTransaction.getHash) = [] := by
  simp [CBlock.hashedStrings, merkleBlock, Merkle.hashed]

/-- A transaction whose hash is null has the root of no transactions, and no flag is
raised. -/
theorem merkle_mutation_empty :
    ¬(∀ first second : CBlock, CBlock.HashedApart first second →
      first.vtx.map transaction ≠ second.vtx.map transaction →
        first.buildMerkleTree.1 = second.buildMerkleTree.1 →
          first.buildMerkleTree.2 = true ∨ second.buildMerkleTree.2 = true) := by
  intro all
  have nothing : CBlock.hashedStrings (merkleBlock []) = [] ∧
      Merkle.hashed CBlock.merkleNode ((merkleBlock []).vtx.map CTransaction.getHash) = [] := by
    simp [CBlock.hashedStrings, merkleBlock, Merkle.hashed]
  have apart : CBlock.HashedApart (merkleBlock []) (merkleBlock [⟨0, [], [], 0⟩]) := by
    constructor
    · rw [nothing.1, (hashed_single _).1]
      simp
    · intro tx _ pair hashed
      rw [CBlock.hashedPairs, nothing.2, (hashed_single _).2] at hashed
      simp at hashed
  have flags := all _ _ apart (by decide) (by decide +kernel)
  revert flags
  decide +kernel

def lockTimeStrings : List (List UInt8) :=
  let one := (lockTime 1).getHash
  let two := (lockTime 2).getHash
  let three := (lockTime 3).getHash
  let pair := fun left right : Uint256 => uint256 left ++ uint256 right
  [transaction (lockTime 1), transaction (lockTime 2),
    transaction (lockTime 3), pair one two, pair three three,
    pair (CBlock.merkleNode one two) (CBlock.merkleNode three three)]

/-- With its last transaction repeated, a block of three keeps its root and is mutated. -/
theorem merkle_mutation_repeated :
    ((merkleBlock [lockTime 1, lockTime 2, lockTime 3]).buildMerkleTree.2 = true ∨
      (merkleBlock [lockTime 1, lockTime 2, lockTime 3, lockTime 3]).buildMerkleTree.2 = true) ∧
    CBlock.checkMerkleBranch (lockTime 3).getHash
        ((merkleBlock [lockTime 1, lockTime 2, lockTime 3]).getMerkleBranch [] 2) 2 =
      (merkleBlock [lockTime 1, lockTime 2, lockTime 3]).buildMerkleTree.1 := by
  have main := CBlock.merkle_branches_and_mutation
  refine ⟨?_, main.1 _ 2 (lockTime 3) rfl [] (.inl rfl)⟩
  have strings : ∀ bytes, bytes ∈ (merkleBlock [lockTime 1, lockTime 2, lockTime 3]).hashedStrings ∨
      bytes ∈ (merkleBlock [lockTime 1, lockTime 2, lockTime 3, lockTime 3]).hashedStrings →
        bytes ∈ lockTimeStrings := by
    intro bytes member
    simp only [CBlock.hashedStrings, merkleBlock, Merkle.hashed, Merkle.level, Merkle.pairs,
      map_cons, map_nil, cons_append, nil_append, append_nil,
      mem_cons, not_mem_nil, or_false] at member
    simp only [lockTimeStrings, mem_cons, not_mem_nil, or_false]
    tauto
  have collisionFree : ∀ bytes ∈ lockTimeStrings, ∀ other ∈ lockTimeStrings,
      Hash bytes = Hash other → bytes = other := by
    decide +kernel
  refine main.2 _ _ (by simp [merkleBlock]) (by simp [merkleBlock]) ⟨?_, ?_⟩ (by decide)
    (by decide +kernel)
  · intro bytes member other among
    exact collisionFree bytes (strings bytes member) other (strings other among)
  · intro tx member pair hashed same
    have written : transaction tx =
        uint256 pair.1 ++ uint256 pair.2 := by
      refine collisionFree _ (strings _ ?_) _ (strings _ ?_) same
      · rcases member with left | right
        · exact .inl (mem_append_left _ (mem_map_of_mem left))
        · exact .inr (mem_append_left _ (mem_map_of_mem right))
      · rcases hashed with left | right
        · exact .inl (mem_append_right _ (mem_map_of_mem left))
        · exact .inr (mem_append_right _ (mem_map_of_mem right))
    have short : (transaction tx).length = 10 := by
      simp only [merkleBlock, mem_cons, not_mem_nil, or_false] at member
      rcases member with (rfl | rfl | rfl) | rfl | rfl | rfl | rfl <;> decide +kernel
    have long : (uint256 pair.1 ++ uint256 pair.2).length = 32 + 32 := by
      rw [length_append, uint256, uint256, length_le, length_le]
    rw [← written, short] at long
    omega

end

end Agouti
