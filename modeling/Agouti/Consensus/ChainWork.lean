import Agouti.Consensus.PointerRuns
import Agouti.Validation.Links

/-! # The work of a branch

`AddToBlockIndex` adds the proof of a header to the work of its parent, in 256 bits, and the
headers of a `headers` message are not asked for the target that their `nBits` encodes. The work
of every entry is the exact sum over its branch, and the comparator never prefers an ancestor
(`Node.WorkExact`), as long as every new header encodes a positive target and the sum of its
branch stays below `2 ^ 256` (`workExact_of_headerRun`). Two headers of target one break both
(`workExact_breaks`).
-/

namespace Agouti

open Function Option

/-- The proofs of a block and of all its ancestors add up to `total`. -/
inductive BlockMap.BranchWork (mapBlockIndex : BlockMap) : Uint256 → Nat → Prop
  | root {hash : Uint256} {pindex : CBlockIndex} (found : mapBlockIndex hash = some pindex)
      (first : pindex.pprev = none) :
      mapBlockIndex.BranchWork hash (getBlockProof pindex).toNat
  | child {hash hashPrev : Uint256} {pindex : CBlockIndex} {total : Nat}
      (found : mapBlockIndex hash = some pindex) (pprev : pindex.pprev = some hashPrev)
      (below : mapBlockIndex.BranchWork hashPrev total) :
      mapBlockIndex.BranchWork hash (total + (getBlockProof pindex).toNat)

/-- The work of the entries: it is the sum over the branch, without a wrap, grows from parent to
child, and no ancestor is preferred to its descendant. -/
structure Node.WorkExact (node : Node) : Prop where
  exact : ∀ hash pindex, node.mapBlockIndex hash = some pindex →
    node.mapBlockIndex.BranchWork hash pindex.nChainWork.toNat
  increases : ∀ hash pindex prev, node.mapBlockIndex hash = some pindex →
    node.mapBlockIndex.prev pindex = some prev → prev.nChainWork.toNat < pindex.nChainWork.toNat
  preferred : ∀ hash pindex count ancestor, node.mapBlockIndex hash = some pindex →
    node.mapBlockIndex.back (count + 1) pindex = some ancestor → ancestor.worse pindex = true

/-- The compact target is positive and fits. -/
structure CBlock.TargetPositive (block : CBlock) : Prop where
  sign : Uint256.compactNegative block.nBits = false
  fits : Uint256.compactOverflow block.nBits = false
  nonzero : Uint256.setCompact block.nBits ≠ 0

/-- A header on top of a known block encodes a positive target, and the expected number of
attempts at it fits on top of the work of the parent. -/
def WorkFits (node : Node) (block : CBlock) : Prop :=
  ∀ prev, node.mapBlockIndex block.hashPrevBlock = some prev → block.TargetPositive ∧
    prev.nChainWork.toNat + 2 ^ 256 / ((Uint256.setCompact block.nBits).toNat + 1) < 2 ^ 256

/-! ### The proof of one header -/

theorem setCompact_lt (nCompact : Nat) : (Uint256.setCompact nCompact).toNat + 1 < 2 ^ 256 := by
  unfold Uint256.setCompact
  simp only
  split
  · rename_i short
    have mantissa : Uint256.compactWord nCompact ≤ 0x007fffff := by
      unfold Uint256.compactWord
      rw [if_pos short, Nat.shiftRight_eq_div_pow]
      exact (Nat.div_le_self _ _).trans Nat.and_le_right
    rw [BitVec.toNat_ofNat]
    omega
  · rename_i long
    -- a shifted mantissa is even
    rw [BitVec.toNat_shiftLeft]
    have even : 2 ∣ ((BitVec.ofNat 256 (Uint256.compactWord nCompact)).toNat <<<
        (8 * (nCompact >>> 24 - 3))) % 2 ^ 256 := by
      rw [Nat.shiftLeft_eq]
      refine (Nat.dvd_mod_iff (by decide : 2 ∣ 2 ^ 256)).mpr (Nat.dvd_mul_left_of_dvd ?_ _)
      exact Nat.dvd_trans (by decide : 2 ∣ 2 ^ 1) (Nat.pow_dvd_pow 2 (by omega))
    have below := Nat.mod_lt (((BitVec.ofNat 256 (Uint256.compactWord nCompact)).toNat <<<
        (8 * (nCompact >>> 24 - 3)))) (by decide : 0 < 2 ^ 256)
    omega

/-- **`GetBlockProof` is `2 ** 256 / (target + 1)`** for a positive target. -/
theorem getBlockProof_toNat {pindex : CBlockIndex} {block : CBlock}
    (bits : pindex.nBits = block.nBits) (positive : block.TargetPositive) :
    (getBlockProof pindex).toNat =
        2 ^ 256 / ((Uint256.setCompact block.nBits).toNat + 1) ∧
      0 < (getBlockProof pindex).toNat := by
  have bound := setCompact_lt block.nBits
  unfold getBlockProof
  simp only [bits, positive.sign, positive.fits, Bool.false_or, beq_iff_eq, positive.nonzero,
    ↓reduceIte]
  have some : (Uint256.setCompact block.nBits).toNat ≠ 0 := by
    intro zero
    exact positive.nonzero (BitVec.eq_of_toNat_eq zero)
  generalize Uint256.setCompact block.nBits = target at bound some ⊢
  have next : (target + 1).toNat = target.toNat + 1 := by
    exact (BitVec.toNat_add target 1).trans (Nat.mod_eq_of_lt bound)
  have complement : (~~~target).toNat = 2 ^ 256 - (target.toNat + 1) := by
    rw [BitVec.toNat_not]
    omega
  have quotient : (2 ^ 256 - (target.toNat + 1)) / (target.toNat + 1) + 1 =
      2 ^ 256 / (target.toNat + 1) := (Nat.div_eq_sub_div (by omega) bound.le).symm
  have half : 2 ^ 256 / (target.toNat + 1) ≤ 2 ^ 256 / 2 :=
    Nat.div_le_div_left (by omega) (by decide)
  have whole : (~~~target / (target + 1) + 1).toNat = 2 ^ 256 / (target.toNat + 1) := by
    rw [BitVec.toNat_add, BitVec.toNat_udiv, next, complement]
    exact (congrArg (· % 2 ^ 256) quotient).trans
      (Nat.mod_eq_of_lt (lt_of_le_of_lt half (by decide)))
  rw [whole]
  exact ⟨rfl, Nat.div_pos bound.le (by omega)⟩

theorem getBlockProof_zero {pindex : CBlockIndex} {block : CBlock}
    (bits : pindex.nBits = block.nBits) (not : ¬block.TargetPositive) :
    getBlockProof pindex = 0 := by
  unfold getBlockProof
  simp only [bits]
  refine if_pos ?_
  by_contra valid
  simp only [Bool.or_eq_true, beq_iff_eq, not_or, Bool.not_eq_true] at valid
  exact not ⟨valid.1.1, valid.1.2, valid.2⟩

/-! ### One header -/

namespace BlockMap

variable {before after : BlockMap}

theorem BranchWork.unique {hash : Uint256} {first second : Nat}
    (one : before.BranchWork hash first) (other : before.BranchWork hash second) :
    first = second := by
  induction one generalizing second with
  | root found first =>
    cases other with
    | root again _ => rw [some.inj (found.symm.trans again)]
    | child again pprev _ =>
      rw [← some.inj (found.symm.trans again), first] at pprev
      contradiction
  | child found pprev below ih =>
    cases other with
    | root again first =>
      rw [← some.inj (found.symm.trans again), pprev] at first
      contradiction
    | child again pprevAgain belowAgain =>
      obtain rfl := some.inj (found.symm.trans again)
      obtain rfl := some.inj (pprev.symm.trans pprevAgain)
      rw [ih belowAgain]

theorem BranchWork.parent_found {hash hashPrev : Uint256} {total : Nat}
    (sum : before.BranchWork hash total) {pindex : CBlockIndex}
    (found : before hash = some pindex) (pprev : pindex.pprev = some hashPrev) :
    ∃ prev, before hashPrev = some prev := by
  cases sum with
  | root again first =>
    rw [some.inj (found.symm.trans again), first] at pprev
    contradiction
  | child again parent below =>
    rw [some.inj (found.symm.trans again), parent] at pprev
    rw [← some.inj pprev]
    cases below with
    | root present _ => exact ⟨_, present⟩
    | child present _ _ => exact ⟨_, present⟩

/-- The entries keep what the work is computed from, and no entry is lost. -/
def SameWork (before after : BlockMap) : Prop :=
  ∀ hash pindex, before hash = some pindex → ∃ later, after hash = some later ∧
    later.pprev = pindex.pprev ∧ later.nBits = pindex.nBits ∧
      later.nChainWork = pindex.nChainWork ∧ later.phashBlock = pindex.phashBlock

theorem getBlockProof_congr {first second : CBlockIndex} (bits : first.nBits = second.nBits) :
    getBlockProof first = getBlockProof second := by
  unfold getBlockProof
  rw [bits]

theorem BranchWork.mono (same : SameWork before after) {hash : Uint256} {total : Nat}
    (sum : before.BranchWork hash total) : after.BranchWork hash total := by
  induction sum with
  | root found first =>
    obtain ⟨later, present, pprev, bits, _⟩ := same _ _ found
    rw [← getBlockProof_congr bits]
    exact .root present (pprev.trans first)
  | child found parent below ih =>
    obtain ⟨later, present, pprev, bits, _⟩ := same _ _ found
    rw [← getBlockProof_congr bits]
    exact .child present (pprev.trans parent) ih

end BlockMap

namespace Node

variable {node : Node}

theorem work_back (increases : ∀ hash pindex prev, node.mapBlockIndex hash = some pindex →
      node.mapBlockIndex.prev pindex = some prev →
        prev.nChainWork.toNat < pindex.nChainWork.toNat)
    {hash : Uint256} {pindex ancestor : CBlockIndex} (count : Nat)
    (found : node.mapBlockIndex hash = some pindex)
    (back : node.mapBlockIndex.back (count + 1) pindex = some ancestor) :
    ancestor.nChainWork.toNat < pindex.nChainWork.toNat := by
  induction count generalizing hash pindex with
  | zero =>
    obtain ⟨prev, parent, here⟩ := bind_eq_some_iff.mp back
    obtain rfl := some.inj here
    exact increases hash pindex _ found parent
  | succ count ih =>
    obtain ⟨prev, parent, further⟩ := bind_eq_some_iff.mp back
    obtain ⟨hashPrev, pprev, present⟩ := bind_eq_some_iff.mp parent
    exact (ih present further).trans (increases hash pindex prev found parent)

theorem WorkExact.of_increases
    (exact : ∀ hash pindex, node.mapBlockIndex hash = some pindex →
      node.mapBlockIndex.BranchWork hash pindex.nChainWork.toNat)
    (increases : ∀ hash pindex prev, node.mapBlockIndex hash = some pindex →
      node.mapBlockIndex.prev pindex = some prev →
        prev.nChainWork.toNat < pindex.nChainWork.toNat) : node.WorkExact where
  exact := exact
  increases := increases
  preferred hash pindex count ancestor found back := by
    rw [CBlockIndex.worse_iff]
    exact CBlockIndex.rank_lt_of_work
      (BitVec.lt_def.mpr (work_back increases count found back))

theorem workExact_fresh (fresh : ∀ hash, node.mapBlockIndex hash = none) : node.WorkExact := by
  refine .of_increases (fun hash pindex found => ?_) (fun hash pindex prev found => ?_)
  · rw [fresh] at found
    contradiction
  · rw [fresh] at found
    contradiction

/-- Steps that leave the work of the entries alone, and that add none. -/
structure SameWork (before after : Node) : Prop where
  kept : before.mapBlockIndex.SameWork after.mapBlockIndex
  none : ∀ hash, before.mapBlockIndex hash = none → after.mapBlockIndex hash = none

theorem WorkExact.same {after : Node} (exact : node.WorkExact) (same : SameWork node after) :
    after.WorkExact := by
  have old : ∀ hash later, after.mapBlockIndex hash = some later → ∃ pindex,
      node.mapBlockIndex hash = some pindex ∧ later.pprev = pindex.pprev ∧
        later.nChainWork = pindex.nChainWork := by
    intro hash later found
    cases present : node.mapBlockIndex hash with
    | none =>
      rw [same.none hash present] at found
      contradiction
    | some pindex =>
      obtain ⟨again, there, pprev, _, work, _⟩ := same.kept hash pindex present
      obtain rfl := some.inj (found.symm.trans there)
      exact ⟨pindex, rfl, pprev, work⟩
  refine .of_increases (fun hash later found => ?_) (fun hash later prev found parent => ?_)
  · obtain ⟨pindex, present, _, work⟩ := old hash later found
    rw [work]
    exact (exact.exact hash pindex present).mono same.kept
  · obtain ⟨pindex, present, pprev, work⟩ := old hash later found
    obtain ⟨hashPrev, here, foundPrev⟩ := bind_eq_some_iff.mp parent
    obtain ⟨prevBefore, presentPrev, _, workPrev⟩ := old hashPrev prev foundPrev
    rw [work, workPrev]
    refine exact.increases hash pindex prevBefore present ?_
    rw [BlockMap.prev, ← pprev, here]
    exact presentPrev

section

variable [Crypto]

theorem newIndex_work (node : Node) (block : CBlock) :
    (node.newIndex block).nBits = block.nBits ∧
      (node.newIndex block).pprev =
        (node.mapBlockIndex block.hashPrevBlock).map (fun _ => block.hashPrevBlock) ∧
      (node.newIndex block).nChainWork =
        ((node.mapBlockIndex block.hashPrevBlock).map CBlockIndex.nChainWork).getD 0 +
          getBlockProof (node.newIndex block) := by
  have raised : ∀ (pindex : CBlockIndex) (nUpTo : Nat),
      (pindex.raiseValidity nUpTo).nBits = pindex.nBits ∧
        (pindex.raiseValidity nUpTo).pprev = pindex.pprev ∧
          (pindex.raiseValidity nUpTo).nChainWork = pindex.nChainWork := by
    intro pindex nUpTo
    unfold CBlockIndex.raiseValidity
    split
    · exact ⟨rfl, rfl, rfl⟩
    · split <;> exact ⟨rfl, rfl, rfl⟩
  unfold Node.newIndex
  obtain ⟨bits, pprev, work⟩ := raised _ BLOCK_VALID_TREE
  refine ⟨bits, pprev, work.trans ?_⟩
  congr 1

theorem update_sameWork {block : CBlock} {pindex : CBlockIndex}
    (fresh : node.mapBlockIndex block.getHash = none) :
    node.mapBlockIndex.SameWork
      (Function.update node.mapBlockIndex block.getHash (some pindex)) := by
  intro hash entry found
  refine ⟨entry, ?_, rfl, rfl, rfl, rfl⟩
  rw [update_of_ne, found]
  intro same
  rw [same, fresh] at found
  contradiction

/-- **One header.** On an index with exact work, a new header leaves it exact if and only if its
target is positive and its proof fits on top of its parent's work. -/
theorem addToBlockIndex_workExact_iff (exact : node.WorkExact) {block : CBlock}
    (fresh : node.mapBlockIndex block.getHash = none) :
    (node.addToBlockIndex block).WorkExact ↔ WorkFits node block := by
  have index := addToBlockIndex_index fresh
  obtain ⟨bits, pprev, work⟩ := newIndex_work node block
  have here : (node.addToBlockIndex block).mapBlockIndex block.getHash =
      some (node.newIndex block) := by
    rw [index, update_self]
  have mono : node.mapBlockIndex.SameWork (node.addToBlockIndex block).mapBlockIndex :=
    index ▸ update_sameWork fresh
  have old : ∀ hash, hash ≠ block.getHash →
      (node.addToBlockIndex block).mapBlockIndex hash = node.mapBlockIndex hash := by
    intro hash apart
    rw [index, update_of_ne apart]
  constructor
  · intro later prev found
    have apart : block.hashPrevBlock ≠ block.getHash := by
      intro same
      rw [same, fresh] at found
      contradiction
    rw [found, map_some] at pprev
    rw [found, map_some, getD_some] at work
    have parent : (node.addToBlockIndex block).mapBlockIndex.prev (node.newIndex block) =
        some prev := by
      rw [BlockMap.prev, pprev]
      exact (old _ apart).trans found
    have grows := later.increases _ _ prev here parent
    have sum : (node.newIndex block).nChainWork.toNat =
        prev.nChainWork.toNat + (getBlockProof (node.newIndex block)).toNat := by
      refine (later.exact _ _ here).unique (.child here pprev ?_)
      exact (exact.exact _ prev found).mono mono
    have positive : block.TargetPositive := by
      by_contra not
      rw [sum, getBlockProof_zero bits not] at grows
      exact absurd grows (lt_irrefl _)
    refine ⟨positive, ?_⟩
    rw [← (getBlockProof_toNat bits positive).1, ← sum]
    exact (node.newIndex block).nChainWork.isLt
  · intro fits
    refine .of_increases (fun hash pindex found => ?_) (fun hash pindex prev found parent => ?_)
    · by_cases same : hash = block.getHash
      · rw [same, here] at found
        obtain rfl := some.inj found
        rw [same]
        cases foundPrev : node.mapBlockIndex block.hashPrevBlock with
        | none =>
          rw [foundPrev] at pprev work
          have alone : (node.newIndex block).nChainWork = getBlockProof (node.newIndex block) :=
            work.trans (BitVec.zero_add _)
          rw [alone]
          exact .root here pprev
        | some prev =>
          obtain ⟨positive, room⟩ := fits prev foundPrev
          rw [foundPrev] at pprev work
          rw [← (getBlockProof_toNat bits positive).1] at room
          rw [work, map_some, getD_some, BitVec.toNat_add, Nat.mod_eq_of_lt room]
          exact .child here pprev ((exact.exact _ prev foundPrev).mono mono)
      · rw [old hash same] at found
        exact (exact.exact hash pindex found).mono mono
    · obtain ⟨hashPrev, link, present⟩ := bind_eq_some_iff.mp parent
      by_cases same : hash = block.getHash
      · rw [same, here] at found
        obtain rfl := some.inj found
        rw [pprev, map_eq_some_iff] at link
        obtain ⟨entry, foundPrev, rfl⟩ := link
        have apart : block.hashPrevBlock ≠ block.getHash := by
          intro equal
          rw [equal, fresh] at foundPrev
          contradiction
        rw [old _ apart] at present
        obtain ⟨positive, room⟩ := fits prev present
        obtain ⟨proof, some⟩ := getBlockProof_toNat bits positive
        rw [← proof] at room
        rw [work, present, map_some, getD_some, BitVec.toNat_add,
          Nat.mod_eq_of_lt room]
        omega
      · rw [old hash same] at found
        by_cases parentNew : hashPrev = block.getHash
        · -- the parent of an old entry is an old entry
          obtain ⟨entry, entryFound⟩ := (exact.exact hash pindex found).parent_found found link
          rw [parentNew, fresh] at entryFound
          contradiction
        · rw [old hashPrev parentNew] at present
          refine exact.increases hash pindex prev found ?_
          rw [BlockMap.prev, link]
          exact present

end

end Node

/-! ### Runs -/

section

variable [ChainParams] [Crypto]

/-- Headers arrive at `AcceptBlockHeader`, those that satisfy `ready` where it is asked for; between
them the node does anything that leaves the work of its entries alone. -/
inductive HeaderRun (ready : LocalData → Node → CBlock → Prop) (start : Node) : Node → Prop
  | start : HeaderRun ready start start
  | header {node : Node} (data : LocalData) (block : CBlock) (run : HeaderRun ready start node)
      (fits : ready data node block) : HeaderRun ready start (acceptBlockHeader data node block).1
  | other {node later : Node} (run : HeaderRun ready start node)
      (same : Node.SameWork node later) : HeaderRun ready start later

def AnyHeader (_ : LocalData) (_ : Node) (_ : CBlock) : Prop := True

def NewHeaderFits (data : LocalData) (node : Node) (block : CBlock) : Prop :=
  node.mapBlockIndex block.getHash = none → Verdict.checkNewHeader data node block = .ok () →
    WorkFits node block

theorem acceptBlockHeader_workExact {data : LocalData} {node : Node} {block : CBlock}
    (exact : node.WorkExact) (fits : NewHeaderFits data node block) :
    (acceptBlockHeader data node block).1.WorkExact := by
  unfold acceptBlockHeader
  cases found : node.mapBlockIndex block.getHash with
  | some pindex => exact exact
  | none =>
    cases checked : Verdict.checkNewHeader data node block with
    | error state => exact exact
    | ok result => exact (Node.addToBlockIndex_workExact_iff exact found).mpr (fits found checked)

/-- **Exact work.** From an index with exact work, every sequence of headers, on any tree, leads to
indexes with exact work, when every accepted new header encodes a positive target whose expected
number of attempts fits on top of the work of its parent. -/
theorem workExact_of_headerRun {start node : Node} (exact : start.WorkExact)
    (run : HeaderRun NewHeaderFits start node) : node.WorkExact := by
  induction run with
  | start => exact exact
  | header data block _ fits ih => exact acceptBlockHeader_workExact ih fits
  | other _ same ih => exact ih.same same

end

section

local instance TargetOne.instChainParams : ChainParams := regTestParams 1
local instance TargetOne.instCrypto : Crypto := StakedTip.crypto

namespace TargetOne

/-- The header of height `n - 1`; its hash is its nonce. -/
def header (n nBits : Nat) : CBlock where
  nVersion := 1
  hashPrevBlock := BitVec.ofNat 256 (n - 1)
  hashMerkleRoot := 0
  nTime := n
  nBits := nBits
  nNonce := n
  vtx := []

def empty : Node where
  mapBlockIndex _ := none
  vChain := []
  diskBlocks _ := none
  diskUndo _ := none
  pcoinsTip := ⟨fun _ => {}, 0⟩
  mapProofOfStake := []
  setStakeSeen := []
  mapUsedStakePointers _ := none
  setBlockIndexCandidates := []
  mapBlocksUnlinked := []
  nBlockSequenceId := 1

def data : LocalData := .permissive 0 0

def first : Node := (acceptBlockHeader data empty (header 1 0x207fffff)).1

def second : Node := (acceptBlockHeader data first (header 2 0x01010000)).1

def third : Node := (acceptBlockHeader data second (header 3 0x01010000)).1

theorem third_wraps : ¬third.WorkExact := by
  intro exact
  have works : (third.mapBlockIndex 3).map (fun pindex =>
      (pindex.nChainWork, (third.mapBlockIndex.prev pindex).map CBlockIndex.nChainWork)) =
        some (2, some (BitVec.ofNat 256 (2 ^ 255 + 2))) := by decide +kernel
  obtain ⟨pindex, found, fields⟩ := map_eq_some_iff.mp works
  rw [Prod.mk.injEq, map_eq_some_iff] at fields
  obtain ⟨work, prev, parent, workPrev⟩ := fields
  have grows := exact.increases 3 pindex prev found parent
  rw [work, workPrev] at grows
  revert grows
  decide +kernel

end TargetOne

/-- Headers that pass the checks wrap the work: from an empty index, with the genesis header and
two headers of target one on top of it. -/
theorem workExact_breaks :
    ¬∀ node, HeaderRun AnyHeader TargetOne.empty node → node.WorkExact := fun all =>
  TargetOne.third_wraps (all _ (.header _ _ (.header _ _ (.header _ _ .start trivial) trivial)
    trivial))

namespace TargetOne

theorem first_fits : NewHeaderFits data empty (header 1 0x207fffff) := by
  intro _ _ prev found
  have absent : (none : Option CBlockIndex) = some prev := found
  contradiction

theorem next_fits : NewHeaderFits data first (header 2 0x207fffff) := by
  intro _ _ prev found
  have work : (first.mapBlockIndex 1).map CBlockIndex.nChainWork = some 2 := by decide +kernel
  have same : first.mapBlockIndex 1 = some prev := found
  rw [same, map_some] at work
  rw [some.inj work]
  exact ⟨⟨by decide, by decide, by decide +kernel⟩, by decide +kernel⟩

end TargetOne

/-- Two headers of the easiest target. -/
theorem workExact_of_headerRun_easy :
    (acceptBlockHeader TargetOne.data TargetOne.first
      (TargetOne.header 2 0x207fffff)).1.WorkExact := by
  have fresh : TargetOne.empty.WorkExact := Node.workExact_fresh fun _ => rfl
  exact workExact_of_headerRun fresh
    (.header _ _ (.header _ _ .start TargetOne.first_fits) TargetOne.next_fits)

end

end Agouti
