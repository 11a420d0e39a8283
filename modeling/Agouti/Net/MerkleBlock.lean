import Agouti.Library.PartialTree
import Agouti.Primitives.BlockCodec
import Agouti.Primitives.MerkleTree

/-! # Partial Merkle trees

`CPartialMerkleTree` of `merkleblock.h`: the tree of the transactions of a block with the
branches opened that lead to matched ones, as an array of bits and an array of hashes. Building
the tree writes `PartialTree.prune` (`ofMatches_eq`), and a traversal that does not fail has read
a tree of the shape that `nTransactions` gives (`exists_tree`). What was built, written and read
is extracted: the root and the matched transactions (`extractMatches_built`).
-/

namespace Agouti

open Option

open CBlock (merkleNode)

def maxBlockSizeCurrent : Nat := 2000000

/-- A proof for some of the transactions. -/
structure CPartialMerkleTree where
  nTransactions : Nat
  vBits : List Bool
  vHash : List Uint256
  fBad : Bool
  deriving DecidableEq

/-- What `TraverseAndExtract` changes. -/
structure Extraction where
  nBitsUsed : Nat := 0
  nHashUsed : Nat := 0
  vMatch : List Uint256 := []
  fBad : Bool
  deriving DecidableEq

/-- `CalcTreeWidth`, in 32 bits. -/
def calcTreeWidth (nTransactions height : Nat) : Nat :=
  (nTransactions + 2 ^ height - 1) % 2 ^ 32 / 2 ^ height

/-- The loop for the height of the tree; `fuel` bounds its turns. -/
def heightFrom (nTransactions : Nat) : Nat → Nat → Nat
  | 0, nHeight => nHeight
  | fuel + 1, nHeight =>
    if 1 < calcTreeWidth nTransactions nHeight then heightFrom nTransactions fuel (nHeight + 1)
    else nHeight

def treeHeight (nTransactions : Nat) : Nat := heightFrom nTransactions 32 0

section

variable [Crypto]

def calcHash (vTxid : List Uint256) : Nat → Nat → Uint256
  | 0, pos => vTxid.getD pos 0
  | height + 1, pos =>
    let left := calcHash vTxid height (pos * 2)
    let right :=
      if pos * 2 + 1 < calcTreeWidth vTxid.length height then calcHash vTxid height (pos * 2 + 1)
      else left
    merkleNode left right

/-- Whether a matched transaction is below a node. -/
def parentOfMatch (vMatch : List Bool) (nTransactions height pos : Nat) : Bool :=
  (List.range' (pos <<< height) (2 ^ height)).any fun p =>
    decide (p < nTransactions) && vMatch.getD p false

/-- `TraverseAndBuild`: the bits and the hashes that it appends. -/
def traverseAndBuild (vTxid : List Uint256) (vMatch : List Bool) :
    Nat → Nat → List Bool × List Uint256 → List Bool × List Uint256
  | 0, pos, (vBits, vHash) =>
    (vBits ++ [parentOfMatch vMatch vTxid.length 0 pos], vHash ++ [calcHash vTxid 0 pos])
  | height + 1, pos, (vBits, vHash) =>
    let fParentOfMatch := parentOfMatch vMatch vTxid.length (height + 1) pos
    if !fParentOfMatch then
      (vBits ++ [fParentOfMatch], vHash ++ [calcHash vTxid (height + 1) pos])
    else
      let left :=
        traverseAndBuild vTxid vMatch height (pos * 2) (vBits ++ [fParentOfMatch], vHash)
      if pos * 2 + 1 < calcTreeWidth vTxid.length height then
        traverseAndBuild vTxid vMatch height (pos * 2 + 1) left
      else left

namespace CPartialMerkleTree

/-- The constructor from the transactions and the mask. -/
def ofMatches (vTxid : List Uint256) (vMatch : List Bool) : CPartialMerkleTree :=
  let built := traverseAndBuild vTxid vMatch (treeHeight vTxid.length) 0 ([], [])
  ⟨vTxid.length, built.1, built.2, false⟩

variable (tree : CPartialMerkleTree)

def useHash (height : Nat) (fParentOfMatch : Bool) (state : Extraction) : Uint256 × Extraction :=
  match tree.vHash[state.nHashUsed]? with
  | none => (0, { state with fBad := true })
  | some hash =>
    (hash, { state with
      nHashUsed := state.nHashUsed + 1
      vMatch :=
        if height = 0 ∧ fParentOfMatch = true then state.vMatch ++ [hash] else state.vMatch })

def traverseAndExtract : Nat → Nat → Extraction → Uint256 × Extraction
  | 0, _, state =>
    match tree.vBits[state.nBitsUsed]? with
    | none => (0, { state with fBad := true })
    | some fParentOfMatch =>
      tree.useHash 0 fParentOfMatch { state with nBitsUsed := state.nBitsUsed + 1 }
  | height + 1, pos, state =>
    match tree.vBits[state.nBitsUsed]? with
    | none => (0, { state with fBad := true })
    | some false =>
      tree.useHash (height + 1) false { state with nBitsUsed := state.nBitsUsed + 1 }
    | some true =>
      let left := traverseAndExtract height (pos * 2)
        { state with nBitsUsed := state.nBitsUsed + 1 }
      if pos * 2 + 1 < calcTreeWidth tree.nTransactions height then
        let right := traverseAndExtract height (pos * 2 + 1) left.2
        (merkleNode left.1 right.1, right.2)
      else (merkleNode left.1 left.1, left.2)

/-- The traversal of `ExtractMatches`. -/
def traversed : Uint256 × Extraction :=
  tree.traverseAndExtract (treeHeight tree.nTransactions) 0 { fBad := tree.fBad }

/-- `ExtractMatches`: the root, or 0 after a failure, and `vMatch`. -/
def extractMatches : Uint256 × List Uint256 :=
  if tree.nTransactions = 0 then (0, [])
  else if maxBlockSizeCurrent / 60 < tree.nTransactions then (0, [])
  else if tree.nTransactions < tree.vHash.length then (0, [])
  else if tree.vBits.length < tree.vHash.length then (0, [])
  else
    let (hashMerkleRoot, state) := tree.traversed
    if state.fBad then (0, state.vMatch)
    else if (state.nBitsUsed + 7) / 8 ≠ (tree.vBits.length + 7) / 8 then (0, state.vMatch)
    else if state.nHashUsed ≠ tree.vHash.length then (0, state.vMatch)
    else (hashMerkleRoot, state.vMatch)

end CPartialMerkleTree

end

/-! ## The format -/

def packByte (vBits : List Bool) (first : Nat) : UInt8 :=
  (List.range 8).foldl
    (fun byte p => byte ||| ((vBits.getD (first + p) false).toUInt8 <<< p.toUInt8)) 0

def packBits (vBits : List Bool) : List UInt8 :=
  (List.range ((vBits.length + 7) / 8)).map fun byte => packByte vBits (8 * byte)

def unpackBits (vBytes : List UInt8) : List Bool :=
  (List.range (vBytes.length * 8)).map fun p =>
    decide (vBytes.getD (p / 8) 0 &&& (1 <<< (p % 8).toUInt8) ≠ 0)

/-- `CPartialMerkleTree`. -/
def Serialize.partialMerkleTree (tree : CPartialMerkleTree) : List UInt8 :=
  le 4 tree.nTransactions ++ vector uint256 tree.vHash ++ bytes (packBits tree.vBits)

/-- `CPartialMerkleTree`. -/
def Deserialize.partialMerkleTree : Reader UInt8 CPartialMerkleTree := do
  let nTransactions ← le 4
  let vHash ← vector uint256
  let vBytes ← bytes
  return ⟨nTransactions, unpackBits vBytes, vHash, false⟩

/-! ## Widths and heights -/

section

open Merkle PartialTree

/-- A tree has no more transactions than `ExtractMatches` allows. -/
def Few (nTransactions : Nat) : Prop := nTransactions ≤ maxBlockSizeCurrent / 60

variable {nTransactions height pos : Nat}

theorem Few.clog_le (few : Few nTransactions) : Nat.clog 2 nTransactions ≤ 16 := by
  refine Nat.clog_le_of_le_pow (le_trans few ?_)
  decide

theorem Few.calcTreeWidth_eq (few : Few nTransactions) (low : height ≤ 16) :
    calcTreeWidth nTransactions height = width nTransactions height := by
  have power : 2 ^ height ≤ 2 ^ 16 := Nat.pow_le_pow_right (by decide) low
  have bound : nTransactions ≤ 33333 := few
  have small : nTransactions + 2 ^ height - 1 < 2 ^ 32 := by omega
  rw [calcTreeWidth, Nat.mod_eq_of_lt small, width]

theorem one_lt_width : 1 < width nTransactions height ↔ height < Nat.clog 2 nTransactions := by
  rw [lt_width, Nat.one_mul, Nat.lt_clog_iff_pow_lt Nat.one_lt_two]

theorem Few.heightFrom_eq (few : Few nTransactions) (fuel : Nat)
    (low : height ≤ Nat.clog 2 nTransactions) (enough : Nat.clog 2 nTransactions ≤ height + fuel) :
    heightFrom nTransactions fuel height = Nat.clog 2 nTransactions := by
  induction fuel generalizing height with
  | zero =>
    rw [heightFrom]
    omega
  | succ fuel ih =>
    rw [heightFrom, few.calcTreeWidth_eq (low.trans few.clog_le)]
    split
    · rename_i wide
      exact ih (one_lt_width.mp wide) (by omega)
    · rename_i narrow
      rw [one_lt_width] at narrow
      omega

theorem Few.treeHeight_eq (few : Few nTransactions) :
    treeHeight nTransactions = Nat.clog 2 nTransactions := by
  have low := few.clog_le
  exact few.heightFrom_eq 32 (Nat.zero_le _) (by omega)

end

/-! ## Building a tree -/

section

open Merkle PartialTree

variable [Crypto] {vTxid : List Uint256} {vMatch : List Bool}

theorem calcHash_eq (few : Few vTxid.length) {height pos : Nat} (low : height ≤ 16)
    (inside : pos < width vTxid.length height) :
    calcHash vTxid height pos = (row merkleNode vTxid height).getD pos 0 := by
  induction height generalizing pos with
  | zero => rfl
  | succ height ih =>
    have within := left_lt_width inside
    have left := ih (by omega) within
    rw [← length_row merkleNode] at within
    have whole : (row merkleNode vTxid (height + 1)).getD pos 0 =
        ((row merkleNode vTxid height)[2 * pos]?.map fun left => merkleNode left
          (((row merkleNode vTxid height)[2 * pos + 1]?).getD left)).getD 0 := by
      rw [List.getD_eq_getElem?_getD, row_succ]
    rw [calcHash, few.calcTreeWidth_eq (by omega), Nat.mul_comm pos 2, left, whole,
      List.getElem?_eq_getElem within, List.getD_eq_getElem _ _ within]
    by_cases right : 2 * pos + 1 < width vTxid.length height
    · have present := right
      rw [← length_row merkleNode] at present
      simp only [right, ↓reduceIte, ih (by omega) right, map_some, getD_some,
        List.getElem?_eq_getElem present, List.getD_eq_getElem _ _ present]
    · have missing := right
      rw [← length_row merkleNode, not_lt] at missing
      simp only [right, ↓reduceIte, map_some, getD_some,
        List.getElem?_eq_none missing, getD_none]

omit [Crypto] in
theorem parentOfMatch_eq {height pos : Nat} :
    parentOfMatch vMatch vMatch.length height pos = (segment vMatch height pos).any id := by
  rw [Bool.eq_iff_iff, parentOfMatch, List.any_eq_true, List.any_eq_true]
  simp only [Bool.and_eq_true, decide_eq_true_eq, id_eq, Nat.shiftLeft_eq]
  constructor
  · rintro ⟨p, member, inside, matched⟩
    rw [List.mem_range'_1] at member
    refine ⟨true, ?_, rfl⟩
    rw [PartialTree.segment, List.mem_iff_getElem?]
    refine ⟨p - pos * 2 ^ height, ?_⟩
    rw [List.getElem?_take_of_lt (by omega), List.getElem?_drop, Nat.add_sub_cancel' member.1,
      List.getElem?_eq_getElem inside, ← List.getD_eq_getElem vMatch false inside, matched]
  · rintro ⟨_, member, rfl⟩
    rw [PartialTree.segment, List.mem_iff_getElem?] at member
    obtain ⟨offset, found⟩ := member
    have below : offset < 2 ^ height := by
      by_contra beyond
      have short := List.length_take_le (2 ^ height) (vMatch.drop (pos * 2 ^ height))
      rw [List.getElem?_eq_none (by omega)] at found
      contradiction
    rw [List.getElem?_take_of_lt below, List.getElem?_drop] at found
    obtain ⟨inside, -⟩ := List.getElem?_eq_some_iff.mp found
    refine ⟨pos * 2 ^ height + offset, ?_, inside, ?_⟩
    · rw [List.mem_range'_1]
      omega
    · rw [List.getD_eq_getElem?_getD, found, getD_some]

abbrev builtTree (vTxid : List Uint256) (vMatch : List Bool) : Nat → Nat → PartialTree Uint256 :=
  prune merkleNode vTxid vMatch 0

theorem traverseAndBuild_eq (few : Few vTxid.length) (sized : vMatch.length = vTxid.length)
    {height pos : Nat} (low : height ≤ 16) (inside : pos < width vTxid.length height)
    (vBits : List Bool) (vHash : List Uint256) :
    traverseAndBuild vTxid vMatch height pos (vBits, vHash) =
      (vBits ++ (builtTree vTxid vMatch height pos).bits,
        vHash ++ (builtTree vTxid vMatch height pos).hashes) := by
  induction height generalizing pos vBits vHash with
  | zero =>
    rw [traverseAndBuild, builtTree, prune, ← sized, parentOfMatch_eq]
    cases (segment vMatch 0 pos).any id with
    | false => rfl
    | true => rfl
  | succ height ih =>
    have hash := calcHash_eq few low inside
    rw [traverseAndBuild, builtTree, prune, hash, ← sized, parentOfMatch_eq, sized,
      few.calcTreeWidth_eq (by omega), Nat.mul_comm pos 2]
    cases (segment vMatch (height + 1) pos).any id with
    | false => rfl
    | true =>
      have left := ih (by omega) (left_lt_width inside) (vBits ++ [true]) vHash
      simp only [Bool.not_true, Bool.false_eq_true, ↓reduceIte, left]
      split
      · rename_i right
        rw [ih (by omega) right]
        simp only [bits, hashes, List.append_assoc, List.cons_append, List.nil_append]
      · simp only [bits, hashes, List.append_assoc, List.cons_append, List.nil_append]

theorem ofMatches_eq (few : Few vTxid.length) (sized : vMatch.length = vTxid.length)
    (nonempty : vTxid ≠ []) :
    CPartialMerkleTree.ofMatches vTxid vMatch = ⟨vTxid.length,
      (builtTree vTxid vMatch (Nat.clog 2 vTxid.length) 0).bits,
      (builtTree vTxid vMatch (Nat.clog 2 vTxid.length) 0).hashes, false⟩ := by
  have inside : 0 < width vTxid.length (Nat.clog 2 vTxid.length) := by
    rw [lt_width, Nat.zero_mul]
    exact List.length_pos_iff.mpr nonempty
  rw [CPartialMerkleTree.ofMatches, few.treeHeight_eq,
    traverseAndBuild_eq few sized few.clog_le inside]
  rfl

end

/-! ## Extracting matches -/

section

open Merkle PartialTree

theorem drop_cons {α : Type} {values rest : List α} {value : α} {index : Nat}
    (behind : values.drop index = value :: rest) :
    values[index]? = some value ∧ values.drop (index + 1) = rest := by
  constructor
  · have first : (values.drop index)[0]? = some value := by rw [behind, List.getElem?_cons_zero]
    rwa [List.getElem?_drop] at first
  · rw [← List.drop_drop, behind, List.drop_one, List.tail_cons]

theorem drop_append {α : Type} {values first rest : List α} {index : Nat}
    (behind : values.drop index = first ++ rest) : values.drop (index + first.length) = rest := by
  rw [← List.drop_drop, behind, List.drop_left]

theorem drop_of_getElem? {α : Type} {values : List α} {value : α} {index : Nat}
    (found : values[index]? = some value) :
    values.drop index = [value] ++ values.drop (index + 1) := by
  obtain ⟨inside, rfl⟩ := List.getElem?_eq_some_iff.mp found
  exact List.drop_eq_getElem_cons inside

variable {tree : CPartialMerkleTree} {opened : PartialTree Uint256}

namespace Extraction

def behind (state : Extraction) (opened : PartialTree Uint256) : Extraction where
  nBitsUsed := state.nBitsUsed + opened.bits.length
  nHashUsed := state.nHashUsed + opened.hashes.length
  vMatch := state.vMatch ++ opened.matched
  fBad := state.fBad

/-- The tree is what is still to be read of the arrays. -/
structure Begins (tree : CPartialMerkleTree) (state : Extraction)
    (opened : PartialTree Uint256) : Prop where
  vBits : ∃ rest, tree.vBits.drop state.nBitsUsed = opened.bits ++ rest
  vHash : ∃ rest, tree.vHash.drop state.nHashUsed = opened.hashes ++ rest

variable {state : Extraction} {left right child : PartialTree Uint256}

theorem Begins.single (begins : Begins tree state (single child)) :
    tree.vBits[state.nBitsUsed]? = some true ∧
      Begins tree { state with nBitsUsed := state.nBitsUsed + 1 } child := by
  obtain ⟨⟨moreBits, bits⟩, hashes⟩ := begins
  obtain ⟨bit, later⟩ := drop_cons bits
  exact ⟨bit, ⟨moreBits, later⟩, hashes⟩

theorem Begins.both (begins : Begins tree state (both left right)) :
    tree.vBits[state.nBitsUsed]? = some true ∧
      Begins tree { state with nBitsUsed := state.nBitsUsed + 1 } left ∧
      Begins tree (behind { state with nBitsUsed := state.nBitsUsed + 1 } left) right := by
  obtain ⟨⟨moreBits, bits⟩, moreHashes, hashes⟩ := begins
  obtain ⟨bit, behind⟩ := drop_cons bits
  have later := behind.trans (List.append_assoc left.bits right.bits moreBits)
  rw [PartialTree.hashes, List.append_assoc] at hashes
  exact ⟨bit, ⟨⟨_, later⟩, _, hashes⟩, ⟨_, drop_append later⟩, _, drop_append hashes⟩

end Extraction

open Extraction

variable [Crypto]

theorem traverseAndExtract_tree (few : Few tree.nTransactions) {height pos : Nat}
    (low : height ≤ 16) (shaped : opened.Shaped tree.nTransactions height pos)
    (state : Extraction) (begins : Begins tree state opened) :
    tree.traverseAndExtract height pos state =
      (opened.value merkleNode, state.behind opened) := by
  induction opened generalizing height pos state with
  | closed hash =>
    obtain ⟨⟨moreBits, bits⟩, moreHashes, hashes⟩ := begins
    have bit := (drop_cons bits).1
    have stored := (drop_cons hashes).1
    cases height <;> simp [CPartialMerkleTree.traverseAndExtract, CPartialMerkleTree.useHash, bit,
      stored, value, behind, PartialTree.bits, PartialTree.hashes, matched]
  | leaf hash =>
    cases height with
    | zero =>
      obtain ⟨⟨moreBits, bits⟩, moreHashes, hashes⟩ := begins
      have bit := (drop_cons bits).1
      have stored := (drop_cons hashes).1
      simp [CPartialMerkleTree.traverseAndExtract, CPartialMerkleTree.useHash, bit, stored,
        value, behind, PartialTree.bits, PartialTree.hashes, matched]
    | succ height => exact shaped.elim
  | single child ih =>
    cases height with
    | zero => exact shaped.elim
    | succ height =>
      obtain ⟨alone, below⟩ := shaped
      obtain ⟨bit, begins⟩ := begins.single
      have left := ih (by omega) below _ begins
      rw [CPartialMerkleTree.traverseAndExtract, bit, few.calcTreeWidth_eq (by omega),
        Nat.mul_comm pos 2]
      simp only [left, alone, ↓reduceIte]
      simp only [value, behind, PartialTree.bits, PartialTree.hashes, matched,
        List.length_cons, Nat.add_assoc, Nat.add_comm 1]
  | both left right ihLeft ihRight =>
    cases height with
    | zero => exact shaped.elim
    | succ height =>
      obtain ⟨two, belowLeft, belowRight⟩ := shaped
      obtain ⟨bit, begins, after⟩ := begins.both
      have first := ihLeft (by omega) belowLeft _ begins
      have second := ihRight (by omega) belowRight _ after
      rw [CPartialMerkleTree.traverseAndExtract, bit, few.calcTreeWidth_eq (by omega),
        Nat.mul_comm pos 2]
      simp only [first, two, ↓reduceIte, second]
      simp only [value, Extraction.behind, PartialTree.bits, PartialTree.hashes, matched,
        List.length_cons, List.length_append, List.append_assoc, Nat.add_assoc, Nat.add_comm 1]

variable {state : Extraction}

omit [Crypto] in
theorem useHash_bad (height : Nat) (fParentOfMatch : Bool)
    (bad : state.fBad = true) : (tree.useHash height fParentOfMatch state).2.fBad = true := by
  unfold CPartialMerkleTree.useHash
  split
  · rfl
  · exact bad

theorem traverseAndExtract_bad (height pos : Nat) (state : Extraction) (bad : state.fBad = true) :
    (tree.traverseAndExtract height pos state).2.fBad = true := by
  induction height generalizing pos state with
  | zero =>
    unfold CPartialMerkleTree.traverseAndExtract
    split
    · rfl
    · exact useHash_bad 0 _ bad
  | succ height ih =>
    unfold CPartialMerkleTree.traverseAndExtract
    split
    · rfl
    · exact useHash_bad (height + 1) false bad
    · have left := ih (pos * 2) { state with nBitsUsed := state.nBitsUsed + 1 } bad
      split
      · exact ih (pos * 2 + 1) _ left
      · exact left

omit [Crypto] in
theorem useHash_good {height : Nat} {fParentOfMatch : Bool}
    (good : (tree.useHash height fParentOfMatch state).2.fBad = false) :
    ∃ hash, tree.vHash[state.nHashUsed]? = some hash := by
  unfold CPartialMerkleTree.useHash at good
  cases stored : tree.vHash[state.nHashUsed]? with
  | none =>
    rw [stored] at good
    contradiction
  | some hash => exact ⟨hash, rfl⟩

/-- **A traversal that does not fail has read a tree.** -/
theorem exists_tree (few : Few tree.nTransactions) {height pos : Nat} (low : height ≤ 16)
    (state : Extraction) (good : (tree.traverseAndExtract height pos state).2.fBad = false) :
    ∃ opened : PartialTree Uint256, opened.Shaped tree.nTransactions height pos ∧
      Begins tree state opened := by
  induction height generalizing pos state with
  | zero =>
    unfold CPartialMerkleTree.traverseAndExtract at good
    cases bit : tree.vBits[state.nBitsUsed]? with
    | none =>
      rw [bit] at good
      contradiction
    | some fParentOfMatch =>
      rw [bit] at good
      obtain ⟨hash, stored⟩ := useHash_good good
      cases fParentOfMatch with
      | false =>
        exact ⟨closed hash, trivial, ⟨_, drop_of_getElem? bit⟩, _, drop_of_getElem? stored⟩
      | true =>
        exact ⟨leaf hash, trivial, ⟨_, drop_of_getElem? bit⟩, _, drop_of_getElem? stored⟩
  | succ height ih =>
    unfold CPartialMerkleTree.traverseAndExtract at good
    cases bit : tree.vBits[state.nBitsUsed]? with
    | none =>
      rw [bit] at good
      contradiction
    | some fParentOfMatch =>
      rw [bit] at good
      cases fParentOfMatch with
      | false =>
        obtain ⟨hash, stored⟩ := useHash_good good
        exact ⟨closed hash, trivial, ⟨_, drop_of_getElem? bit⟩, _, drop_of_getElem? stored⟩
      | true =>
        simp only [few.calcTreeWidth_eq (by omega : height ≤ 16), Nat.mul_comm pos 2] at good
        have fine : (tree.traverseAndExtract height (2 * pos)
            { state with nBitsUsed := state.nBitsUsed + 1 }).2.fBad = false := by
          cases first : (tree.traverseAndExtract height (2 * pos)
              { state with nBitsUsed := state.nBitsUsed + 1 }).2.fBad with
          | false => rfl
          | true =>
            split at good
            · rw [traverseAndExtract_bad height (2 * pos + 1) _ first] at good
              contradiction
            · rw [first] at good
              contradiction
        obtain ⟨left, shapedLeft, begins⟩ := ih (by omega) _ fine
        have first := traverseAndExtract_tree few (by omega) shapedLeft _ begins
        obtain ⟨⟨moreBits, bits⟩, moreHashes, hashes⟩ := begins
        have start := drop_of_getElem? bit
        by_cases two : 2 * pos + 1 < width tree.nTransactions height
        · rw [if_pos two, first] at good
          obtain ⟨right, shapedRight, ⟨restBits, laterBits⟩, restHashes, laterHashes⟩ :=
            ih (by omega) _ good
          refine ⟨both left right, ⟨two, shapedLeft, shapedRight⟩, ⟨restBits, ?_⟩,
            restHashes, ?_⟩
          · have middle : moreBits = right.bits ++ restBits :=
              (drop_append bits).symm.trans laterBits
            rw [start, bits, middle]
            simp only [PartialTree.bits, List.cons_append, List.nil_append, List.append_assoc]
          · have middle : moreHashes = right.hashes ++ restHashes :=
              (drop_append hashes).symm.trans laterHashes
            rw [hashes, middle, PartialTree.hashes, List.append_assoc]
        · refine ⟨single left, ⟨two, shapedLeft⟩, ⟨moreBits, ?_⟩, moreHashes, hashes⟩
          rw [start, bits]
          rfl

/-- The indices stay within the arrays. -/
def Extraction.Within (tree : CPartialMerkleTree) (state : Extraction) : Prop :=
  state.nBitsUsed ≤ tree.vBits.length ∧ state.nHashUsed ≤ tree.vHash.length

omit [Crypto] in
theorem useHash_within (height : Nat) (fParentOfMatch : Bool)
    (within : state.Within tree) : (tree.useHash height fParentOfMatch state).2.Within tree := by
  unfold CPartialMerkleTree.useHash
  split
  · exact within
  · rename_i hash stored
    exact ⟨within.1, (List.getElem?_eq_some_iff.mp stored).1⟩

omit [Crypto] in
theorem Extraction.Within.useBit (within : state.Within tree) {bit : Bool}
    (found : tree.vBits[state.nBitsUsed]? = some bit) :
    Extraction.Within tree { state with nBitsUsed := state.nBitsUsed + 1 } :=
  ⟨(List.getElem?_eq_some_iff.mp found).1, within.2⟩

theorem traverseAndExtract_within (height pos : Nat) (state : Extraction)
    (within : state.Within tree) : (tree.traverseAndExtract height pos state).2.Within tree := by
  induction height generalizing pos state with
  | zero =>
    unfold CPartialMerkleTree.traverseAndExtract
    split
    · exact within
    · rename_i bit found
      exact useHash_within 0 bit (within.useBit found)
  | succ height ih =>
    unfold CPartialMerkleTree.traverseAndExtract
    split
    · exact within
    · rename_i found
      exact useHash_within (height + 1) false (within.useBit found)
    · rename_i found
      have left := ih (pos * 2) _ (within.useBit found)
      split
      · exact ih (pos * 2 + 1) _ left
      · exact left

/-- **What `ExtractMatches` accepts is a tree**: its bits and all its hashes are in the arrays. -/
theorem extractMatches_tree (nonnull : tree.extractMatches.1 ≠ 0) :
    ∃ opened : PartialTree Uint256, Few tree.nTransactions ∧ 0 < tree.nTransactions ∧
      opened.Shaped tree.nTransactions (Nat.clog 2 tree.nTransactions) 0 ∧
      (∃ padding, tree.vBits = opened.bits ++ padding) ∧ tree.vHash = opened.hashes ∧
      tree.traversed = (opened.value merkleNode, Extraction.behind { fBad := false } opened) ∧
      tree.extractMatches = (opened.value merkleNode, opened.matched) := by
  unfold CPartialMerkleTree.extractMatches at nonnull ⊢
  by_cases none : tree.nTransactions = 0
  · rw [if_pos none] at nonnull
    exact absurd rfl nonnull
  rw [if_neg none] at nonnull ⊢
  by_cases many : maxBlockSizeCurrent / 60 < tree.nTransactions
  · rw [if_pos many] at nonnull
    exact absurd rfl nonnull
  rw [if_neg many] at nonnull ⊢
  by_cases long : tree.nTransactions < tree.vHash.length
  · rw [if_pos long] at nonnull
    exact absurd rfl nonnull
  rw [if_neg long] at nonnull ⊢
  by_cases short : tree.vBits.length < tree.vHash.length
  · rw [if_pos short] at nonnull
    exact absurd rfl nonnull
  rw [if_neg short] at nonnull ⊢
  cases bad : tree.traversed.2.fBad with
  | true =>
    simp only [bad, ↓reduceIte] at nonnull
    exact absurd rfl nonnull
  | false =>
    simp only [bad, Bool.false_eq_true, ↓reduceIte] at nonnull ⊢
    by_cases bits : (tree.traversed.2.nBitsUsed + 7) / 8 ≠ (tree.vBits.length + 7) / 8
    · rw [if_pos bits] at nonnull
      exact absurd rfl nonnull
    rw [if_neg bits] at nonnull ⊢
    by_cases hashes : tree.traversed.2.nHashUsed ≠ tree.vHash.length
    · rw [if_pos hashes] at nonnull
      exact absurd rfl nonnull
    rw [if_neg hashes]
    have few : Few tree.nTransactions := not_lt.mp many
    unfold CPartialMerkleTree.traversed at *
    rw [few.treeHeight_eq] at *
    obtain ⟨opened, shaped, begins⟩ := exists_tree few few.clog_le _ bad
    have read := traverseAndExtract_tree few few.clog_le shaped _ begins
    rw [read] at bad hashes ⊢
    obtain ⟨⟨padding, isBits⟩, rest, isHashes⟩ := begins
    rw [List.drop_zero] at isBits isHashes
    have all : rest = [] := by
      rw [not_not, isHashes, List.length_append] at hashes
      refine List.eq_nil_of_length_eq_zero ?_
      have used : (0 : Nat) + opened.hashes.length = opened.hashes.length + rest.length := hashes
      omega
    have start : tree.fBad = false := bad
    refine ⟨opened, few, Nat.pos_of_ne_zero none, shaped, ⟨padding, isBits⟩, ?_, ?_, ?_⟩
    · rw [isHashes, all, List.append_nil]
    · rw [start]
    · rfl

theorem extractMatches_eq (few : Few tree.nTransactions) (positive : 0 < tree.nTransactions)
    (shaped : opened.Shaped tree.nTransactions (Nat.clog 2 tree.nTransactions) 0)
    {padding : List Bool} (bits : tree.vBits = opened.bits ++ padding)
    (hashes : tree.vHash = opened.hashes) (good : tree.fBad = false)
    (padded : (opened.bits.length + 7) / 8 = (tree.vBits.length + 7) / 8) :
    tree.extractMatches = (opened.value merkleNode, opened.matched) := by
  have few' : ¬ maxBlockSizeCurrent / 60 < tree.nTransactions := not_lt.mpr few
  have inside : 0 < width tree.nTransactions (Nat.clog 2 tree.nTransactions) := by
    rw [lt_width, Nat.zero_mul]
    exact positive
  have short : ¬ tree.nTransactions < tree.vHash.length := by
    have most := shaped.hashes_le inside
    rw [hashes]
    unfold span at most
    omega
  have enough : ¬ tree.vBits.length < tree.vHash.length := by
    have most := opened.hashes_le_bits
    rw [hashes, bits, List.length_append]
    omega
  have read := traverseAndExtract_tree few few.clog_le shaped { fBad := tree.fBad }
    ⟨⟨padding, by rw [List.drop_zero, bits]⟩, [], by rw [List.drop_zero, hashes, List.append_nil]⟩
  rw [CPartialMerkleTree.extractMatches, if_neg positive.ne', if_neg few', if_neg short,
    if_neg enough, CPartialMerkleTree.traversed, few.treeHeight_eq, read]
  simp only [behind, good, Bool.false_eq_true, ↓reduceIte, Nat.zero_add, padded, hashes,
    ne_eq, not_true_eq_false, List.nil_append]

end

/-! ## Writing and reading -/

theorem bit_packByte (vBits : List Bool) (first : Nat) {p : Nat} (inside : p < 8) :
    decide (packByte vBits first &&& (1 <<< p.toUInt8) ≠ 0) = vBits.getD (first + p) false := by
  have all : ∀ b0 b1 b2 b3 b4 b5 b6 b7 : Bool, ∀ p : Fin 8,
      decide ([b0, b1, b2, b3, b4, b5, b6, b7].zipIdx.foldl
        (fun (byte : UInt8) bit => byte ||| (bit.1.toUInt8 <<< bit.2.toUInt8)) 0 &&&
          (1 <<< p.val.toUInt8) ≠ 0) = [b0, b1, b2, b3, b4, b5, b6, b7][p] := by
    decide +kernel
  have byte := all (vBits.getD first false) (vBits.getD (first + 1) false)
    (vBits.getD (first + 2) false) (vBits.getD (first + 3) false) (vBits.getD (first + 4) false)
    (vBits.getD (first + 5) false) (vBits.getD (first + 6) false) (vBits.getD (first + 7) false)
    ⟨p, inside⟩
  refine byte.trans ?_
  match p, inside with
  | 0, _ | 1, _ | 2, _ | 3, _ | 4, _ | 5, _ | 6, _ | 7, _ => rfl

theorem length_packBits (vBits : List Bool) : (packBits vBits).length = (vBits.length + 7) / 8 := by
  rw [packBits, List.length_map, List.length_range]

theorem length_unpackBits (vBytes : List UInt8) :
    (unpackBits vBytes).length = vBytes.length * 8 := by
  rw [unpackBits, List.length_map, List.length_range]

theorem unpackBits_packBits (vBits : List Bool) :
    unpackBits (packBits vBits) =
      vBits ++ List.replicate ((vBits.length + 7) / 8 * 8 - vBits.length) false := by
  refine List.ext_getElem ?_ fun p left right => ?_
  · rw [length_unpackBits, length_packBits, List.length_append, List.length_replicate]
    omega
  · rw [length_unpackBits, length_packBits] at left
    have byte : p / 8 < (packBits vBits).length := by
      rw [length_packBits]
      omega
    have bit := bit_packByte vBits (8 * (p / 8)) (Nat.mod_lt p (by decide))
    rw [Nat.div_add_mod] at bit
    simp only [unpackBits, List.getElem_map, List.getElem_range]
    rw [List.getD_eq_getElem _ _ byte]
    simp only [packBits, List.getElem_map, List.getElem_range]
    rw [bit]
    by_cases inside : p < vBits.length
    · rw [List.getD_eq_getElem _ _ inside, List.getElem_append_left inside]
    · rw [List.getD_eq_default _ _ (not_lt.mp inside), List.getElem_append_right (not_lt.mp inside),
        List.getElem_replicate]

open Serialize

theorem reads_partialMerkleTree (tree : CPartialMerkleTree) (count : tree.nTransactions < 2 ^ 32)
    (hashes : tree.vHash.length ≤ maxSize) (bits : (packBits tree.vBits).length ≤ maxSize) :
    Reader.Reads Deserialize.partialMerkleTree (partialMerkleTree tree)
      { tree with
        vBits := unpackBits (packBits tree.vBits)
        fBad := false } := by
  have vHash : Reader.Reads (Deserialize.vector Deserialize.uint256)
      (vector uint256 tree.vHash) (tree.vHash.map id) :=
    reads_vector tree.vHash hashes fun hash _ => reads_uint256 hash
  rw [List.map_id] at vHash
  unfold partialMerkleTree
  rw [List.append_assoc]
  exact (reads_uint32 count).bind (vHash.bind (reads_bytes bits).into)

section

open Merkle PartialTree

variable [Crypto]

def matchedTxids (vTxid : List Uint256) (vMatch : List Bool) : List Uint256 :=
  ((vTxid.zip vMatch).filter Prod.snd).map Prod.fst

/-- **Partial trees are extracted.** A tree that was built from transactions and a mask, written
and read, has the root of the transactions and the matched ones. -/
theorem extractMatches_built (vTxid : List Uint256) (vMatch : List Bool) (nonempty : vTxid ≠ [])
    (few : vTxid.length ≤ maxBlockSizeCurrent / 60) (sized : vMatch.length = vTxid.length) :
    ∃ received, Reader.Reads Deserialize.partialMerkleTree
        (partialMerkleTree (CPartialMerkleTree.ofMatches vTxid vMatch)) received ∧
      received.extractMatches =
        ((CBlock.merkleClimb vTxid.length vTxid).1, matchedTxids vTxid vMatch) ∧
      ∀ block : CBlock, block.vtx.map CTransaction.getHash = vTxid →
        received.extractMatches.1 = block.buildMerkleTree.1 := by
  have positive : 0 < vTxid.length := List.length_pos_iff.mpr nonempty
  have small : Few vTxid.length := few
  have top : 0 < width vTxid.length (Nat.clog 2 vTxid.length) := by
    rw [lt_width, Nat.zero_mul]
    exact positive
  have shaped : (builtTree vTxid vMatch (Nat.clog 2 vTxid.length) 0).Shaped vTxid.length
      (Nat.clog 2 vTxid.length) 0 := shaped_prune merkleNode vTxid vMatch 0 _ 0
  have built := ofMatches_eq small sized nonempty
  generalize opens : builtTree vTxid vMatch (Nat.clog 2 vTxid.length) 0 = opened at shaped built
  have limit : maxBlockSizeCurrent / 60 = 33333 := rfl
  have size : maxSize = 33554432 := rfl
  have hashes : opened.hashes.length ≤ 33333 := by
    have most := shaped.hashes_le top
    unfold span at most
    omega
  have bits : opened.bits.length ≤ 17 * 33333 :=
    calc opened.bits.length ≤ (Nat.clog 2 vTxid.length + 1) * opened.hashes.length := shaped.bits_le
      _ ≤ 17 * 33333 := Nat.mul_le_mul (Nat.succ_le_succ small.clog_le) hashes
  let written : CPartialMerkleTree := ⟨vTxid.length, opened.bits, opened.hashes, false⟩
  have packed : (packBits written.vBits).length ≤ maxSize := by
    have count : (packBits written.vBits).length = (opened.bits.length + 7) / 8 := length_packBits _
    omega
  have read := reads_partialMerkleTree written (lt_of_le_of_lt few (by decide))
    (hashes.trans (by decide)) packed
  have root : opened.value merkleNode = (CBlock.merkleClimb vTxid.length vTxid).1 := by
    rw [CBlock.merkleClimb_eq vTxid _ le_rfl, root_eq_row merkleNode vTxid nonempty, ← opens,
      value_prune merkleNode vTxid vMatch 0 top, List.getD_eq_getElem?_getD]
  have matches' : opened.matched = matchedTxids vTxid vMatch := by
    rw [← opens, matched_prune merkleNode vTxid vMatch 0 sized top, matchedTxids,
      PartialTree.segment, Nat.zero_mul, List.drop_zero, List.take_of_length_le]
    rw [List.length_zip, sized, Nat.min_self]
    exact Nat.le_pow_clog Nat.one_lt_two _
  have extracted : CPartialMerkleTree.extractMatches
      ⟨vTxid.length, unpackBits (packBits opened.bits), opened.hashes, false⟩ =
        (opened.value merkleNode, opened.matched) := by
    refine extractMatches_eq small positive shaped (unpackBits_packBits opened.bits) rfl rfl ?_
    simp only [length_unpackBits, length_packBits]
    omega
  rw [built]
  refine ⟨_, read, ?_⟩
  have result := extracted.trans (congrArg₂ Prod.mk root matches')
  refine ⟨result, fun block listed => (congrArg Prod.fst result).trans ?_⟩
  rw [CBlock.buildMerkleTree, listed, ← listed, List.length_map]

omit [Crypto] in
/-- Three transactions, the last one matched. -/
theorem extractMatches_built_three :
    let _ : Crypto := checksumCrypto
    ∃ received, Reader.Reads Deserialize.partialMerkleTree
        (partialMerkleTree
          (CPartialMerkleTree.ofMatches [1, 2, 3] [false, false, true])) received ∧
      received.extractMatches = ((CBlock.merkleClimb 3 [1, 2, 3]).1, [3]) ∧
      ∀ block : CBlock, block.vtx.map CTransaction.getHash = [1, 2, 3] →
        received.extractMatches.1 = block.buildMerkleTree.1 :=
  @extractMatches_built checksumCrypto [1, 2, 3] [false, false, true] (by decide) (by decide) rfl

end

end Agouti
