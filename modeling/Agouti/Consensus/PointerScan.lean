import Agouti.Consensus.PointerBranch

/-! # The scan for used stake pointers

`IsStakePointerUsed` scans the branch of the parent down to the validity period. A pointer
and the uses of its outpoint name blocks inside their own windows, so a use below the scan
names another block than the pointer: the scan reports a reuse exactly when there is one,
unless all uses are that old (`pointerScan_complete_iff`), and for that the transaction has
to be in two blocks of different heights.
-/

namespace Agouti

open Option

/-- The entry is on the branch that ends in `pindexPrev`. -/
def BlockMap.OnBranch (mapBlockIndex : BlockMap) (pindexPrev pindex : CBlockIndex) : Prop :=
  ∃ count, mapBlockIndex.back count pindexPrev = some pindex

namespace BlockMap.OnBranch

variable {mapBlockIndex : BlockMap} {pindexPrev pindex : CBlockIndex}

theorem refl (mapBlockIndex : BlockMap) (pindex : CBlockIndex) :
    mapBlockIndex.OnBranch pindex pindex := ⟨0, rfl⟩

theorem cases_prev (on : mapBlockIndex.OnBranch pindexPrev pindex) :
    pindex = pindexPrev ∨
      ∃ prev, mapBlockIndex.prev pindexPrev = some prev ∧
        mapBlockIndex.OnBranch prev pindex := by
  obtain ⟨count, back⟩ := on
  cases count with
  | zero => exact .inl (some.inj back).symm
  | succ count =>
    obtain ⟨prev, parent, back⟩ := bind_eq_some_iff.mp back
    exact .inr ⟨prev, parent, count, back⟩

theorem of_prev {prev : CBlockIndex} (parent : mapBlockIndex.prev pindexPrev = some prev)
    (on : mapBlockIndex.OnBranch prev pindex) : mapBlockIndex.OnBranch pindexPrev pindex := by
  obtain ⟨count, back⟩ := on
  exact ⟨count + 1, bind_eq_some_iff.mpr ⟨prev, parent, back⟩⟩

end BlockMap.OnBranch

/-- A block whose stake pointer names the output. -/
def CBlockIndex.UsesPointer (pindex : CBlockIndex) (outpoint : COutPoint) : Prop :=
  pindex.isProofOfStake = true ∧ 5 ≤ pindex.nVersion ∧ pindex.prevoutStake = outpoint

/-- A block of the branch uses the pointer. -/
def UsedOnBranch (node : Node) (pindexPrev : CBlockIndex) (outpoint : COutPoint) : Prop :=
  ∃ pindex, node.mapBlockIndex.OnBranch pindexPrev pindex ∧ pindex.UsesPointer outpoint

section

variable [ChainParams]

/-- The pointer is used on the branch, and only too far below to count. -/
def UsesExpired (node : Node) (pindexPrev : CBlockIndex) (outpoint : COutPoint) : Prop :=
  UsedOnBranch node pindexPrev outpoint ∧
    ∀ pindex, node.mapBlockIndex.OnBranch pindexPrev pindex → pindex.UsesPointer outpoint →
      pindex.nHeight < pindexPrev.nHeight + 1 - nStakePointerValidityPeriod

variable [Crypto]

/-- The entry stands for a block whose pointer `CheckBlockProofPointer` accepted on an
earlier state of the node, and records the outpoint. The check runs from the stake pointer
fork on. -/
structure PointerChecked (node : Node) (pindex : CBlockIndex) (block : CBlock) : Prop where
  fork : nStakePointerForkHeight ≤ pindex.nHeight
  recorded : pindex.prevoutStake = block.stakePointer.outpoint
  stored : ∀ body, node.readBlockFromDisk pindex = some body → body = block
  passed : ∃ past prev result, past.Grows node ∧ pindex.nHeight = prev.nHeight + 1 ∧
    checkBlockProofPointer past prev (prev.nHeight + 1) block = some result

/-- The pointers of the branch were checked. -/
def BranchChecked (node : Node) (pindexPrev : CBlockIndex) : Prop :=
  ∀ pindex, node.mapBlockIndex.OnBranch pindexPrev pindex → pindex.isProofOfStake = true →
    5 ≤ pindex.nVersion → ∃ block, PointerChecked node pindex block

namespace Node

variable {node : Node} {pindexPrev pindex : CBlockIndex} {outpoint : COutPoint}

omit [ChainParams] in
theorem prev_entry (sound : node.store.Sound)
    (found : node.mapBlockIndex pindex.getBlockHash = some pindex) {prev : CBlockIndex}
    (parent : node.mapBlockIndex.prev pindex = some prev) :
    pindex.nHeight = prev.nHeight + 1 ∧
      node.mapBlockIndex prev.getBlockHash = some prev := by
  obtain ⟨hashPrev, pprev, present⟩ := bind_eq_some_iff.mp parent
  obtain ⟨core, below, height⟩ := sound.parent _ _ (store_cores found) hashPrev pprev
  rw [store_cores present] at below
  obtain rfl := some.inj below
  have hash : prev.getBlockHash = hashPrev :=
    congrArg (Option.getD · 0) (sound.hash _ _ (store_cores present))
  rw [hash]
  exact ⟨height, present⟩

omit [ChainParams] in
theorem onBranch_height (sound : node.store.Sound)
    (found : node.mapBlockIndex pindexPrev.getBlockHash = some pindexPrev)
    (on : node.mapBlockIndex.OnBranch pindexPrev pindex) :
    pindex.nHeight ≤ pindexPrev.nHeight ∧
      node.mapBlockIndex pindex.getBlockHash = some pindex := by
  obtain ⟨count, back⟩ := on
  induction count generalizing pindexPrev with
  | zero =>
    obtain rfl := some.inj back
    exact ⟨le_rfl, found⟩
  | succ count ih =>
    obtain ⟨prev, parent, back⟩ := bind_eq_some_iff.mp back
    obtain ⟨height, present⟩ := prev_entry sound found parent
    obtain ⟨lower, here⟩ := ih present back
    exact ⟨by omega, here⟩

omit [ChainParams] in
theorem scanPointers_iff (sound : node.store.Sound) {nStopHeight : Int} {fuel : Nat}
    (found : node.mapBlockIndex pindex.getBlockHash = some pindex)
    (enough : pindex.nHeight - nStopHeight < fuel) :
    scanPointers node outpoint nStopHeight fuel (some pindex) = true ↔
      ∃ entry, node.mapBlockIndex.OnBranch pindex entry ∧ nStopHeight ≤ entry.nHeight ∧
        entryUsesPointer node entry outpoint = true := by
  induction fuel generalizing pindex with
  | zero =>
    constructor
    · intro never
      contradiction
    · rintro ⟨entry, on, above, _⟩
      have below := (onBranch_height sound found on).1
      omega
  | succ fuel ih =>
    rw [scanPointers, Bool.and_eq_true, Bool.or_eq_true, decide_eq_true_eq]
    cases parent : node.mapBlockIndex.prev pindex with
    | none =>
      have last : scanPointers node outpoint nStopHeight fuel none = false := by
        cases fuel <;> rfl
      rw [last]
      constructor
      · rintro ⟨above, uses | never⟩
        · exact ⟨pindex, .refl _ _, above, uses⟩
        · contradiction
      · rintro ⟨entry, on, above, uses⟩
        rcases on.cases_prev with rfl | ⟨prev, present, _⟩
        · exact ⟨above, .inl uses⟩
        · rw [parent] at present
          contradiction
    | some prev =>
      obtain ⟨height, present⟩ := prev_entry sound found parent
      rw [ih present (by omega)]
      constructor
      · rintro ⟨above, uses | ⟨entry, on, above, uses⟩⟩
        · exact ⟨pindex, .refl _ _, above, uses⟩
        · exact ⟨entry, on.of_prev parent, above, uses⟩
      · rintro ⟨entry, on, above, uses⟩
        have below := (onBranch_height sound found on).1
        refine ⟨by omega, ?_⟩
        rcases on.cases_prev with rfl | ⟨other, there, on⟩
        · exact .inl uses
        · rw [parent] at there
          obtain rfl := some.inj there
          exact .inr ⟨entry, on, above, uses⟩

theorem entryUsesPointer_iff (checked : BranchChecked node pindexPrev)
    (on : node.mapBlockIndex.OnBranch pindexPrev pindex) :
    entryUsesPointer node pindex outpoint = true ↔ pindex.UsesPointer outpoint := by
  simp only [entryUsesPointer, Bool.and_eq_true, Bool.or_eq_true, decide_eq_true_eq, beq_iff_eq,
    CBlockIndex.UsesPointer, and_assoc, and_congr_right_iff]
  intro stake version
  constructor
  · rintro (same | ⟨_, body⟩)
    · exact same
    · obtain ⟨block, checked⟩ := checked pindex on stake version
      unfold bodyUsesPointer at body
      cases read : node.readBlockFromDisk pindex with
      | none => simp [read] at body
      | some stored =>
        obtain rfl := checked.stored stored read
        simp only [read, map_some, getD_some, Bool.and_eq_true, beq_iff_eq] at body
        rw [checked.recorded]
        exact body.2
  · exact .inl

theorem isStakePointerUsed_iff (sound : node.store.Sound)
    (found : node.mapBlockIndex pindexPrev.getBlockHash = some pindexPrev)
    (checked : BranchChecked node pindexPrev) :
    isStakePointerUsed node pindexPrev outpoint = true ↔
      ∃ pindex, node.mapBlockIndex.OnBranch pindexPrev pindex ∧ pindex.UsesPointer outpoint ∧
        pindexPrev.nHeight + 1 - nStakePointerValidityPeriod ≤ pindex.nHeight := by
  rw [isStakePointerUsed, scanPointers_iff sound found (by omega)]
  constructor
  · rintro ⟨pindex, on, above, uses⟩
    rw [pointerStopHeight] at above
    exact ⟨pindex, on, (entryUsesPointer_iff checked on).mp uses, by omega⟩
  · rintro ⟨pindex, on, uses, recent⟩
    obtain ⟨block, stake⟩ := checked pindex on uses.1 uses.2.1
    have fork := stake.fork
    refine ⟨pindex, on, ?_, (entryUsesPointer_iff checked on).mpr uses⟩
    rw [pointerStopHeight]
    omega

end Node

theorem PointerChecked.named {node : Node} {pindex : CBlockIndex} (sound : node.store.Sound)
    {block : CBlock}
    (checked : PointerChecked node pindex block) :
    ∃ hashBlock pindexFrom blockFrom tx, node.mapBlockIndex hashBlock = some pindexFrom ∧
      pindexFrom.nHeight ≤ pindex.nHeight - nMaxReorganizationDepth ∧
      node.readBlockFromDisk pindexFrom = some blockFrom ∧
      blockFrom.findTransaction pindex.prevoutStake.hash = some tx := by
  obtain ⟨past, prev, result, grows, height, passed⟩ := checked.passed
  obtain ⟨⟨pindexFrom, blockFrom, tx, window, _, read, transaction, _⟩, _⟩ :=
    checkBlockProofPointer_eq_some.mp passed
  obtain ⟨later, found, place, stored⟩ := grows.entries _ _ window.found
  have hash : later.getBlockHash = block.stakePointer.hashBlock :=
    congrArg (Option.getD · 0) (sound.hash _ _ (Node.store_cores found))
  have data : pindexFrom.nStatus.haveData = true := by
    by_contra missing
    simp [Node.readBlockFromDisk, missing] at read
  refine ⟨_, later, blockFrom, tx, found, ?_, ?_, ?_⟩
  · have settled := window.settled
    rw [place.nHeight]
    omega
  · rw [Node.readBlockFromDisk, if_pos data] at read
    rw [Node.readBlockFromDisk, if_pos (stored data), hash, grows.bodies _ _ window.found data,
      ← read, CBlockIndex.getBlockHash, ← place.phashBlock]
    exact congrArg past.diskBlocks hash.symm
  · rw [checked.recorded]
    exact transaction

/-- **When the scan for used pointers is complete.** On a branch whose version 5 blocks
passed the pointer check, a reuse is reported exactly when there is one, except where all
uses of the outpoint are older than the validity period; then the transaction that a new
pointer names lies in a second block, below the one of the pointer. -/
theorem pointerScan_complete_iff {node : Node} {pindexPrev : CBlockIndex}
    (sound : node.store.Sound)
    (found : node.mapBlockIndex pindexPrev.getBlockHash = some pindexPrev)
    (checked : BranchChecked node pindexPrev) (outpoint : COutPoint) :
    ((isStakePointerUsed node pindexPrev outpoint = true ↔
        UsedOnBranch node pindexPrev outpoint) ↔ ¬ UsesExpired node pindexPrev outpoint) ∧
      (0 ≤ nMaxReorganizationDepth → UsesExpired node pindexPrev outpoint →
        ∀ hashBlock pindexFrom, InPointerWindow node pindexPrev hashBlock pindexFrom →
          ∃ hashOther pindexOther blockOther tx,
            node.mapBlockIndex hashOther = some pindexOther ∧
            pindexOther.nHeight < pindexFrom.nHeight ∧
            node.readBlockFromDisk pindexOther = some blockOther ∧
            blockOther.findTransaction outpoint.hash = some tx) := by
  refine ⟨?_, ?_⟩
  · rw [Node.isStakePointerUsed_iff sound found checked]
    constructor
    · rintro complete ⟨used, expired⟩
      obtain ⟨pindex, on, uses, recent⟩ := complete.mpr used
      have old := expired pindex on uses
      omega
    · intro fresh
      constructor
      · rintro ⟨pindex, on, uses, _⟩
        exact ⟨pindex, on, uses⟩
      · intro used
        by_contra none
        refine fresh ⟨used, fun pindex on uses => ?_⟩
        by_contra recent
        exact none ⟨pindex, on, uses, by omega⟩
  · rintro depth ⟨⟨pindex, on, uses⟩, expired⟩ hashBlock pindexFrom window
    obtain ⟨block, stake⟩ := checked pindex on uses.1 uses.2.1
    obtain ⟨hashOther, pindexOther, blockOther, tx, there, settled, read, transaction⟩ :=
      PointerChecked.named sound stake
    refine ⟨hashOther, pindexOther, blockOther, tx, there, ?_, read, ?_⟩
    · have old := expired pindex on uses
      have recent := window.recent
      omega
    · rw [← uses.2.2]
      exact transaction

end

namespace LongBranch

/-! A regression test chain of 162 blocks: proof of work up to height 100, then version 5
blocks. The blocks at heights 101 and 152 have the same coinstake. -/

/-- The hash of a transaction is its version. The hash of a block is read off its merkle
root, which is the hash of the coinbase. -/
def blockHash (bytes : List UInt8) : Uint256 :=
  BitVec.ofNat 256 (CScript.littleEndian ((bytes.drop 36).take 4) - 2000)

@[reducible] def crypto : Crypto where
  Hash bytes :=
    let version := CScript.littleEndian (bytes.take 4)
    if version = 5 then blockHash bytes else BitVec.ofNat 256 version
  XEVAN := blockHash
  Hash160 bytes := BitVec.ofNat 160 bytes.length
  ecdsaVerify _ _ _ := true
  verifyScript _ _ _ _ _ := true

def payment : CTxOut :=
  { nValue := 1, scriptPubKey := getScriptForKeyID (@CPubKey.getID crypto StakedTip.minerKey) }

def coinbase (n : Nat) (vout : List CTxOut) : CTransaction :=
  { nVersion := 2000 + n, vin := [{ prevout := .null, scriptSig := [UInt8.ofNat n, 0x51] }],
    vout := vout, nLockTime := 0 }

def coinstake (n : Nat) : CTransaction :=
  { nVersion := n, vin := [{ prevout := .null, scriptSig := [CScript.OP_PROOFOFSTAKE] }],
    vout := [.empty, payment, payment], nLockTime := 0 }

/-- The coinstake at height `n`, the one of height 101 again at height 152. -/
def tag (n : Nat) : Nat := if n = 152 then 101 else n

/-- The height that the pointer of the block at height `n` names. -/
def named (n : Nat) : Nat :=
  if n = 111 ∨ n = 141 then 101 else if n = 162 then 152 else n - 40

def pointer (n : Nat) : StakePointer where
  hashBlock := BitVec.ofNat 256 (named n)
  txid := BitVec.ofNat 256 (if named n ≤ 100 then 2000 + named n else tag (named n))
  nPos := if named n ≤ 100 then 0 else if n = 141 then 2 else 1
  pubKeyCollateral := StakedTip.minerKey
  pubKeyProofOfStake := StakedTip.minerKey
  vchSigCollateralSignOver := []

/-- The block at height `n`. -/
def block (n : Nat) : CBlock :=
  if n ≤ 100 then
    { nVersion := 3, hashPrevBlock := BitVec.ofNat 256 (n - 1),
      hashMerkleRoot := BitVec.ofNat 256 (2000 + n), nTime := 1400000000 + 600 * n,
      nBits := 0x207fffff, nNonce := 0, vtx := [coinbase n [payment]] }
  else
    { nVersion := 5, hashPrevBlock := BitVec.ofNat 256 (n - 1),
      hashMerkleRoot := BitVec.ofNat 256 (2000 + n), nTime := 1400000000 + 600 * n,
      nBits := 0x207fffff, nNonce := 0,
      vtx := [coinbase n [.empty], coinstake (tag n)], vchBlockSig := [1],
      stakePointer := pointer n }

def index (n : Nat) : CBlockIndex :=
  { CBlockIndex.ofBlock (block n) with
    phashBlock := some (BitVec.ofNat 256 n),
    pprev := if n = 0 then none else some (BitVec.ofNat 256 (n - 1)), nHeight := n, nTx := 1,
    nStatus := { valid := BLOCK_VALID_SCRIPTS, haveData := true, haveUndo := true } }

def node : Node :=
  { StakedTip.node with
    mapBlockIndex := fun hash => if hash.toNat ≤ 161 then some (index hash.toNat) else none,
    vChain := (List.range 162).map (BitVec.ofNat 256),
    diskBlocks := fun hash => if hash.toNat ≤ 161 then some (block hash.toNat) else none }

def past (n : Nat) : Node := node.onChain ((List.range (n + 1)).map (BitVec.ofNat 256))

end LongBranch

section

local instance LongBranch.params : ChainParams := regTestParams 0
local instance LongBranch.instCrypto : Crypto := LongBranch.crypto

namespace LongBranch

theorem pointer_passed : ∀ k < 61,
    (checkBlockProofPointer (past (100 + k)) (index (100 + k)) ((index (100 + k)).nHeight + 1)
      (block (101 + k))).isSome = true := by
  decide +kernel

variable {n : Nat}

theorem block_work (low : n ≤ 100) : (index n).isProofOfStake = false := by
  simp [index, CBlockIndex.ofBlock, block, low, CBlockIndex.isProofOfStake, CBlock.isProofOfStake]

theorem index_recorded (high : 100 < n) :
    (index n).prevoutStake = (block n).stakePointer.outpoint := by
  have stake : ¬ n ≤ 100 := by omega
  simp [index, CBlockIndex.ofBlock, block, stake, CBlock.isProofOfStake, CBlock.getProofOfStake,
    CTransaction.isCoinStake, show (coinstake (tag n)).isV5CoinStake = true from rfl]

theorem toNat_ofNat (low : n ≤ 161) : (BitVec.ofNat 256 n).toNat = n := by
  rw [BitVec.toNat_ofNat, Nat.mod_eq_of_lt (by omega)]

theorem entry (low : n ≤ 161) :
    node.mapBlockIndex (BitVec.ofNat 256 n) = some (index n) := by
  simp only [node, toNat_ofNat low, low, ↓reduceIte]

theorem entry_top : node.mapBlockIndex (index 161).getBlockHash = some (index 161) :=
  entry le_rfl

theorem entry_cases {hash : Uint256} {pindex : CBlockIndex}
    (found : node.mapBlockIndex hash = some pindex) :
    ∃ n ≤ 161, hash = BitVec.ofNat 256 n ∧ pindex = index n := by
  simp only [node, ite_none_right_eq_some, some.injEq] at found
  obtain ⟨low, rfl⟩ := found
  exact ⟨hash.toNat, low, by rw [BitVec.ofNat_toNat, BitVec.setWidth_eq], rfl⟩

theorem body (low : n ≤ 161) :
    node.store.bodies (BitVec.ofNat 256 n) = some (block n) := by
  simp only [Node.store, node, toNat_ofNat low, low, ↓reduceIte]

theorem entries_sound : ∀ n ≤ 161, node.store.entrySound (BitVec.ofNat 256 n) = true := by
  decide +kernel

theorem sound : node.store.Sound := by
  refine .of_check fun hash => ?_
  by_cases low : hash.toNat ≤ 161
  · simpa using entries_sound hash.toNat low
  · simp [BlockStore.entrySound, Node.store, node, low]

theorem checked : BranchChecked node (index 161) := by
  intro pindex on stake _
  obtain ⟨_, here⟩ := Node.onBranch_height sound entry_top on
  obtain ⟨n, low, hash, rfl⟩ := entry_cases here
  have high : 100 < n := by
    by_contra work
    rw [block_work (by omega)] at stake
    contradiction
  refine ⟨block n, ?_, index_recorded high, fun stored read => ?_, past (n - 1), index (n - 1),
    ?_⟩
  · change (101 : Int) ≤ n
    omega
  · have read : node.store.bodies (BitVec.ofNat 256 n) = some stored := read
    rw [body low] at read
    exact (some.inj read).symm
  · have passed := pointer_passed (n - 101) (by omega)
    rw [show 100 + (n - 101) = n - 1 by omega, show 101 + (n - 101) = n by omega] at passed
    obtain ⟨result, passed⟩ := isSome_iff_exists.mp passed
    have marks : (past (n - 1)).SameMarks node := .of_index rfl rfl
    refine ⟨result, marks.toGrows, ?_, passed⟩
    simp only [index]
    omega

theorem expired : UsesExpired node (index 161) (pointer 162).outpoint := by
  have first : (index 111).UsesPointer (pointer 162).outpoint :=
    ⟨by decide +kernel, by decide +kernel, by decide +kernel⟩
  refine ⟨⟨index 111, ⟨50, by decide +kernel⟩, first⟩, fun pindex on uses => ?_⟩
  obtain ⟨_, here⟩ := Node.onBranch_height sound entry_top on
  obtain ⟨n, low, _, rfl⟩ := entry_cases here
  have old : ∀ n < 162, (index n).prevoutStake = (pointer 162).outpoint → n < 112 := by
    decide +kernel
  have early := old n (by omega) uses.2.2
  change (n : Int) < 161 + 1 - 50
  omega

end LongBranch

open LongBranch

/-- A pointer to the second copy of the coinstake passes, although the outpoint was used. -/
theorem reusedPointer_passes :
    BranchChecked node (index 161) ∧
      (checkBlockProofPointer node (index 161) 162
        (block 162)).isSome = true ∧
      UsedOnBranch node (index 161)
        (block 162).stakePointer.outpoint ∧
      isStakePointerUsed node (index 161)
        (block 162).stakePointer.outpoint = false :=
  ⟨checked, by decide +kernel, expired.1, by decide +kernel⟩

theorem pointerScan_complete_iff_long :
    (isStakePointerUsed node (index 161)
          (pointer 162).outpoint = true ↔
        UsedOnBranch node (index 161) (pointer 162).outpoint) ↔
      ¬ UsesExpired node (index 161) (pointer 162).outpoint :=
  (pointerScan_complete_iff sound entry_top checked _).1

end

end Agouti
