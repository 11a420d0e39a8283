import Agouti.Validation.Accept
import Agouti.Validation.Reorganize
import Mathlib.Data.Prod.Lex
import Mathlib.Order.WithBot

/-! # The order and the links of the block index

`CBlockIndexWorkComparator` is a linear order of the entries: more work is better, then the entry
that was linked earlier, then the one at the lower address (`CBlockIndex.rank`). An empty active
chain ranks below every entry (`Node.tipRank`).
-/

namespace Agouti

open List Function Option

/-- Work, sequence id and address; the last two count downwards. -/
abbrev Rank := ℕ ×ₗ ℕᵒᵈ ×ₗ ℕᵒᵈ

namespace CBlockIndex

/-- The place of an entry in the order of `CBlockIndexWorkComparator`. -/
def rank (pindex : CBlockIndex) : Rank :=
  toLex (pindex.nChainWork.toNat,
    toLex (OrderDual.toDual pindex.nSequenceId, OrderDual.toDual pindex.getBlockHash.toNat))

variable {pa pb : CBlockIndex}

theorem worse_iff : pa.worse pb = true ↔ pa.rank < pb.rank := by
  unfold worse rank
  rw [Prod.Lex.toLex_lt_toLex, Prod.Lex.toLex_lt_toLex, OrderDual.toDual_lt_toDual,
    OrderDual.toDual_lt_toDual, BitVec.toNat_inj, OrderDual.toDual_inj]
  by_cases work : pa.nChainWork = pb.nChainWork
  · by_cases sequence : pa.nSequenceId = pb.nSequenceId
    · simp [work, sequence, BitVec.lt_def]
    · simp [work, sequence]
  · simp [work, BitVec.lt_def]

theorem not_worse_iff : pa.worse pb = false ↔ pb.rank ≤ pa.rank := by
  rw [← Bool.not_eq_true, worse_iff, not_lt]

theorem rank_lt_of_work (more : pa.nChainWork < pb.nChainWork) :
    pa.rank < pb.rank := by
  unfold rank
  rw [Prod.Lex.toLex_lt_toLex]
  exact .inl (BitVec.lt_def.mp more)

theorem hash_of_rank (same : pa.rank = pb.rank) :
    pa.getBlockHash = pb.getBlockHash := by
  unfold rank at same
  have second := congrArg Prod.snd (toLex.injective same)
  have third := congrArg Prod.snd (toLex.injective second)
  exact BitVec.eq_of_toNat_eq (OrderDual.toDual_inj.mp third)

end CBlockIndex

namespace Node

def chainRank (node : Node) (chain : List Uint256) : WithBot Rank :=
  match chain.getLast?.bind node.mapBlockIndex with
  | none => ⊥
  | some tip => (tip.rank : WithBot Rank)

def tipRank (node : Node) : WithBot Rank := node.chainRank node.vChain

variable {node : Node}

theorem tipRank_of_tip {tip : CBlockIndex} (here : node.tip = some tip) :
    node.tipRank = (tip.rank : WithBot Rank) := by
  unfold Node.tip at here
  rw [tipRank, chainRank, here]

theorem tipRank_le_iff {rank : Rank} :
    node.tipRank ≤ (rank : WithBot Rank) ↔ ∀ tip, node.tip = some tip → tip.rank ≤ rank := by
  unfold tipRank chainRank Node.tip
  cases node.vChain.getLast?.bind node.mapBlockIndex with
  | none => simp
  | some tip => simp

theorem tip_worse_iff {pindex : CBlockIndex} :
    (node.tip.map pindex.worse).getD false = false ↔
      node.tipRank ≤ (pindex.rank : WithBot Rank) := by
  rw [tipRank_le_iff]
  cases node.tip with
  | none => simp
  | some tip => simp [CBlockIndex.not_worse_iff]

theorem mem_insertCandidate {pindex : CBlockIndex} {hash : Uint256} :
    hash ∈ (node.insertCandidate pindex).setBlockIndexCandidates ↔
      hash ∈ node.setBlockIndexCandidates ∨
        hash = pindex.getBlockHash ∧ node.tipRank ≤ (pindex.rank : WithBot Rank) := by
  unfold insertCandidate
  split
  · rename_i better
    have worse : ¬ node.tipRank ≤ (pindex.rank : WithBot Rank) := by
      rw [← tip_worse_iff, better]
      exact Bool.noConfusion
    simp only [worse, and_false, or_false]
  · rename_i better
    have fits := tip_worse_iff.mp (Bool.not_eq_true _ ▸ better)
    simp only [mem_insert_iff, fits, and_true]
    exact or_comm

end Node

/-! ## Linked blocks

A block is linked when its transactions and those of all its ancestors are there; `nChainTx` says
so. `mapBlocksUnlinked` holds the blocks that wait for their parent to be linked
(`Node.LinksHeld`). The links only change when a header or a body arrives: every other operation
leaves them alone and at most raises validity levels or changes marks (`Node.SameLinks`).
-/

/-- An entry without what connecting and marking its block changes. -/
def CBlockIndex.linkage (pindex : CBlockIndex) : CBlockIndex :=
  { pindex with
    nMint := 0, nMoneySupply := 0, nStatus := { haveData := pindex.nStatus.haveData } }

/-- A later state of an entry with the same links. -/
structure CBlockIndex.SameLink (before after : CBlockIndex) : Prop where
  linkage : after.linkage = before.linkage
  valid : before.nStatus.valid ≤ after.nStatus.valid

namespace CBlockIndex.SameLink

variable {before middle after : CBlockIndex}

theorem refl (pindex : CBlockIndex) : pindex.SameLink pindex := ⟨rfl, le_rfl⟩

theorem trans (first : before.SameLink middle) (second : middle.SameLink after) :
    before.SameLink after :=
  ⟨second.linkage.trans first.linkage, first.valid.trans second.valid⟩

section

variable (same : before.SameLink after)

include same

theorem field {α : Type} (read : CBlockIndex → α)
    (blind : ∀ pindex : CBlockIndex, read pindex.linkage = read pindex) :
    read after = read before := by
  rw [← blind, same.linkage, blind]

theorem core : after.core = before.core :=
  same.field CBlockIndex.core fun _ => rfl

theorem pprev : after.pprev = before.pprev :=
  same.field CBlockIndex.pprev fun _ => rfl

theorem haveData :
    after.nStatus.haveData = before.nStatus.haveData :=
  same.field (fun pindex => pindex.nStatus.haveData) fun _ => rfl

theorem nChainWork : after.nChainWork = before.nChainWork :=
  same.field CBlockIndex.nChainWork fun _ => rfl

theorem nTx : after.nTx = before.nTx :=
  same.field CBlockIndex.nTx fun _ => rfl

theorem nChainTx : after.nChainTx = before.nChainTx :=
  same.field CBlockIndex.nChainTx fun _ => rfl

theorem rank : after.rank = before.rank :=
  same.field CBlockIndex.rank fun _ => rfl

end

theorem of_flags (pindex : CBlockIndex) (failedValid failedChild : Bool) :
    pindex.SameLink { pindex with
      nStatus := { pindex.nStatus with failedValid := failedValid, failedChild := failedChild } } :=
  ⟨rfl, le_rfl⟩

end CBlockIndex.SameLink

namespace Node

/-- The block and its ancestors have their transactions, as `nChainTx` says. -/
def linked (node : Node) (hash : Uint256) : Prop :=
  ∃ pindex, node.mapBlockIndex hash = some pindex ∧ pindex.nChainTx ≠ 0

/-- The parent is linked. -/
def ParentLinked (node : Node) (pindex : CBlockIndex) : Prop :=
  ∀ hashPrev, pindex.pprev = some hashPrev → node.linked hashPrev

/-- The links of the block index, while the blocks `waiting` are about to be linked. -/
structure LinksHeld [Crypto] (waiting : List Uint256) (node : Node) : Prop where
  sound : node.store.Sound
  grounded : node.store.Grounded
  treed : ∀ hash pindex, node.mapBlockIndex hash = some pindex →
    BLOCK_VALID_TREE ≤ pindex.nStatus.valid
  filled : ∀ hash pindex, node.mapBlockIndex hash = some pindex →
    pindex.nStatus.haveData = true →
      BLOCK_VALID_TRANSACTIONS ≤ pindex.nStatus.valid ∧ pindex.nTx ≠ 0
  stored : ∀ hash pindex, node.mapBlockIndex hash = some pindex → pindex.nChainTx ≠ 0 →
    pindex.nStatus.haveData = true ∧ node.ParentLinked pindex
  joined : ∀ hash pindex, node.mapBlockIndex hash = some pindex →
    pindex.nStatus.haveData = true → node.ParentLinked pindex →
      pindex.nChainTx ≠ 0 ∨ hash ∈ waiting
  ready : ∀ hash ∈ waiting, ∃ pindex, node.mapBlockIndex hash = some pindex ∧
    pindex.nStatus.haveData = true ∧ pindex.nChainTx = 0 ∧ node.ParentLinked pindex
  nodup : waiting.Nodup
  unlinked : ∀ hashPrev hash, (hashPrev, hash) ∈ node.mapBlocksUnlinked ↔
    ∃ pindex, node.mapBlockIndex hash = some pindex ∧ pindex.nStatus.haveData = true ∧
      pindex.pprev = some hashPrev ∧ ¬ node.linked hashPrev
  once : node.mapBlocksUnlinked.Nodup

/-- The work grows along the branches too. -/
structure LinksKept [Crypto] (waiting : List Uint256) (node : Node) : Prop
    extends LinksHeld waiting node where
  work : ∀ hash pindex, node.mapBlockIndex hash = some pindex → ∀ prev,
    node.mapBlockIndex.prev pindex = some prev → prev.nChainWork < pindex.nChainWork

/-- The same links: entries at most raise their validity level and change their marks. -/
structure SameLinks (before after : Node) : Prop where
  entries : ∀ hash pindex, before.mapBlockIndex hash = some pindex → ∃ later,
    after.mapBlockIndex hash = some later ∧ pindex.SameLink later
  absent : ∀ hash, before.mapBlockIndex hash = none → after.mapBlockIndex hash = none
  diskBlocks : after.diskBlocks = before.diskBlocks
  unlinked : after.mapBlocksUnlinked = before.mapBlocksUnlinked

namespace SameLinks

variable {before middle after : Node}

theorem refl (node : Node) : SameLinks node node :=
  ⟨fun _ pindex found => ⟨pindex, found, .refl pindex⟩, fun _ => id, rfl, rfl⟩

theorem trans (first : SameLinks before middle) (second : SameLinks middle after) :
    SameLinks before after := by
  refine ⟨fun hash pindex found => ?_,
    fun hash none => second.absent hash (first.absent hash none),
    second.diskBlocks.trans first.diskBlocks, second.unlinked.trans first.unlinked⟩
  obtain ⟨later, present, same⟩ := first.entries hash pindex found
  obtain ⟨last, there, again⟩ := second.entries hash later present
  exact ⟨last, there, same.trans again⟩

/-- An operation that touches neither the entries nor the bodies nor the waiting blocks. -/
theorem of_index (index : after.mapBlockIndex = before.mapBlockIndex)
    (disk : after.diskBlocks = before.diskBlocks)
    (unlinked : after.mapBlocksUnlinked = before.mapBlocksUnlinked) : SameLinks before after :=
  ⟨fun _ pindex found => ⟨pindex, index ▸ found, .refl pindex⟩, fun _ none => index ▸ none,
    disk, unlinked⟩

section

variable (same : SameLinks before after)

include same

theorem origin {hash : Uint256} {later : CBlockIndex}
    (present : after.mapBlockIndex hash = some later) :
    ∃ pindex, before.mapBlockIndex hash = some pindex ∧ pindex.SameLink later := by
  cases found : before.mapBlockIndex hash with
  | none =>
    rw [same.absent hash found] at present
    contradiction
  | some pindex =>
    obtain ⟨entry, there, link⟩ := same.entries hash pindex found
    rw [present] at there
    exact ⟨pindex, rfl, some.inj there ▸ link⟩

theorem store : after.store = before.store := by
  simp only [Node.store, same.diskBlocks, BlockStore.mk.injEq, and_true]
  funext hash
  cases found : before.mapBlockIndex hash with
  | none => rw [same.absent hash found]
  | some pindex =>
    obtain ⟨later, present, link⟩ := same.entries hash pindex found
    rw [present, map_some, map_some, link.core]

theorem linked_iff (hash : Uint256) :
    after.linked hash ↔ before.linked hash := by
  constructor
  · intro ⟨later, present, linked⟩
    obtain ⟨pindex, found, link⟩ := same.origin present
    exact ⟨pindex, found, link.nChainTx ▸ linked⟩
  · intro ⟨pindex, found, linked⟩
    obtain ⟨later, present, link⟩ := same.entries hash pindex found
    exact ⟨later, present, link.nChainTx.symm ▸ linked⟩

theorem parentLinked_iff {pindex later : CBlockIndex}
    (link : pindex.SameLink later) : after.ParentLinked later ↔ before.ParentLinked pindex := by
  unfold ParentLinked
  rw [link.pprev]
  simp only [same.linked_iff]

theorem held [Crypto] {waiting : List Uint256}
    (kept : before.LinksHeld waiting) : after.LinksHeld waiting where
  sound := same.store ▸ kept.sound
  grounded := same.store ▸ kept.grounded
  treed hash later present := by
    obtain ⟨pindex, found, link⟩ := same.origin present
    exact (kept.treed hash pindex found).trans link.valid
  filled hash later present stored := by
    obtain ⟨pindex, found, link⟩ := same.origin present
    obtain ⟨valid, some⟩ := kept.filled hash pindex found (link.haveData ▸ stored)
    exact ⟨valid.trans link.valid, link.nTx.symm ▸ some⟩
  stored hash later present linked := by
    obtain ⟨pindex, found, link⟩ := same.origin present
    obtain ⟨data, parent⟩ := kept.stored hash pindex found (link.nChainTx ▸ linked)
    exact ⟨link.haveData.trans data, (same.parentLinked_iff link).mpr parent⟩
  joined hash later present data parent := by
    obtain ⟨pindex, found, link⟩ := same.origin present
    rw [link.nChainTx]
    exact kept.joined hash pindex found (link.haveData ▸ data)
      ((same.parentLinked_iff link).mp parent)
  ready hash member := by
    obtain ⟨pindex, found, data, unlinked, parent⟩ := kept.ready hash member
    obtain ⟨later, present, link⟩ := same.entries hash pindex found
    exact ⟨later, present, link.haveData.trans data, link.nChainTx.trans unlinked,
      (same.parentLinked_iff link).mpr parent⟩
  nodup := kept.nodup
  unlinked hashPrev hash := by
    rw [same.unlinked, kept.unlinked]
    constructor
    · intro ⟨pindex, found, data, pprev, waits⟩
      obtain ⟨later, present, link⟩ := same.entries hash pindex found
      exact ⟨later, present, link.haveData.trans data, link.pprev.trans pprev,
        fun linked => waits ((same.linked_iff hashPrev).mp linked)⟩
    · intro ⟨later, present, data, pprev, waits⟩
      obtain ⟨pindex, found, link⟩ := same.origin present
      exact ⟨pindex, found, link.haveData ▸ data, link.pprev ▸ pprev,
        fun linked => waits ((same.linked_iff hashPrev).mpr linked)⟩
  once := same.unlinked ▸ kept.once

theorem kept [Crypto] {waiting : List Uint256}
    (kept : before.LinksKept waiting) : after.LinksKept waiting where
  toLinksHeld := same.held kept.toLinksHeld
  work hash later present prevLater below := by
    obtain ⟨pindex, found, link⟩ := same.origin present
    obtain ⟨hashPrev, pprev, there⟩ := bind_eq_some_iff.mp below
    obtain ⟨prev, foundPrev, linkPrev⟩ := same.origin there
    rw [link.nChainWork, linkPrev.nChainWork]
    apply kept.work hash pindex found prev
    exact bind_eq_some_iff.mpr ⟨hashPrev, link.pprev ▸ pprev, foundPrev⟩

end

end SameLinks

theorem setIndex_links {node : Node} {hash : Uint256} {pindex later : CBlockIndex}
    (found : node.mapBlockIndex hash = some pindex) (link : pindex.SameLink later) :
    SameLinks node (node.setIndex hash later) := by
  refine ⟨fun other entry present => ?_, fun other none => ?_, rfl, rfl⟩
  · by_cases here : other = hash
    · subst here
      rw [found] at present
      exact ⟨later, update_self .., some.inj present ▸ link⟩
    · exact ⟨entry, (setIndex_of_ne node later here).trans present, .refl entry⟩
  · have here : other ≠ hash := by
      intro same
      rw [same, found] at none
      contradiction
    exact (setIndex_of_ne node later here).trans none

theorem markFailed_links (node : Node) (hash : Uint256) : SameLinks node (node.markFailed hash) := by
  unfold markFailed
  split
  · exact .refl node
  · rename_i pindex found
    exact setIndex_links found (.of_flags pindex true pindex.nStatus.failedChild)

theorem LinksHeld.of_empty [Crypto] {node : Node} (empty : ∀ hash, node.mapBlockIndex hash = none)
    (unlinked : node.mapBlocksUnlinked = []) : node.LinksHeld [] := by
  have none : ∀ {hash pindex}, node.mapBlockIndex hash ≠ some pindex := by
    intro hash pindex found
    rw [empty] at found
    contradiction
  have bare : ∀ {hash core}, node.store.cores hash ≠ some core := by
    intro hash core found
    obtain ⟨pindex, there, _⟩ := Node.entry_of_core found
    exact none there
  refine ⟨⟨fun _ _ found => absurd found bare, fun _ _ found => absurd found bare,
      fun _ _ found => absurd found bare, fun _ _ found => absurd found bare⟩,
    fun _ _ found => absurd found bare, fun _ _ found => absurd found none,
    fun _ _ found => absurd found none, fun _ _ found => absurd found none,
    fun _ _ found => absurd found none, fun _ member => absurd member not_mem_nil,
    nodup_nil, fun hashPrev hash => ?_, unlinked ▸ nodup_nil⟩
  rw [unlinked]
  exact iff_of_false not_mem_nil fun ⟨_, found, _⟩ => none found

end Node

/-! ### Connecting and disconnecting -/

/-- A later state of an entry with the same links and marks. -/
structure CBlockIndex.SameMark (before after : CBlockIndex) : Prop
    extends CBlockIndex.SameLink before after where
  failedValid : after.nStatus.failedValid = before.nStatus.failedValid
  failedChild : after.nStatus.failedChild = before.nStatus.failedChild

theorem CBlockIndex.raiseValidity_mark (pindex : CBlockIndex) (nUpTo : Nat) :
    pindex.SameMark (pindex.raiseValidity nUpTo) := by
  unfold CBlockIndex.raiseValidity
  split
  · exact ⟨.refl pindex, rfl, rfl⟩
  · split
    · rename_i lower
      exact ⟨⟨rfl, lower.le⟩, rfl, rfl⟩
    · exact ⟨.refl pindex, rfl, rfl⟩

theorem CBlockIndex.raiseValidity_valid {pindex : CBlockIndex} (nUpTo : Nat)
    (intact : pindex.nStatus.failed = false) :
    nUpTo ≤ (pindex.raiseValidity nUpTo).nStatus.valid := by
  unfold CBlockIndex.raiseValidity
  rw [intact, if_neg Bool.false_ne_true]
  split
  · exact le_rfl
  · rename_i reached
    exact Nat.le_of_not_lt reached

namespace Node

/-- Links, marks and candidates stay. -/
structure SameIndex (before after : Node) : Prop extends SameLinks before after where
  marked : ∀ hash, after.marked hash = before.marked hash
  spoiled : ∀ hash, after.spoiled hash = before.spoiled hash
  candidates : after.setBlockIndexCandidates = before.setBlockIndexCandidates

variable {before middle after node : Node}

theorem SameIndex.refl (node : Node) : SameIndex node node :=
  ⟨.refl node, fun _ => rfl, fun _ => rfl, rfl⟩

theorem SameIndex.trans (first : SameIndex before middle) (second : SameIndex middle after) :
    SameIndex before after :=
  ⟨first.toSameLinks.trans second.toSameLinks,
    fun hash => (second.marked hash).trans (first.marked hash),
    fun hash => (second.spoiled hash).trans (first.spoiled hash),
    second.candidates.trans first.candidates⟩

theorem SameIndex.of_index (index : after.mapBlockIndex = before.mapBlockIndex)
    (disk : after.diskBlocks = before.diskBlocks)
    (unlinked : after.mapBlocksUnlinked = before.mapBlocksUnlinked)
    (candidates : after.setBlockIndexCandidates = before.setBlockIndexCandidates) :
    SameIndex before after := by
  refine ⟨.of_index index disk unlinked, fun hash => ?_, fun hash => ?_, candidates⟩
  · rw [Node.marked, Node.marked, index]
  · rw [Node.spoiled, Node.spoiled, index]

variable {hash : Uint256} {pindex : CBlockIndex}

theorem setIndex_sameIndex {later : CBlockIndex} (found : node.mapBlockIndex hash = some pindex)
    (same : pindex.SameMark later) :
    SameIndex node (node.setIndex hash later) := by
  refine ⟨setIndex_links found same.toSameLink, fun other => ?_, fun other => ?_, rfl⟩
  · rw [setIndex_marked]
    split
    · rename_i here
      subst here
      rw [same.failedValid, marked_entry found]
    · rfl
  · rw [setIndex_spoiled]
    split
    · rename_i here
      subst here
      rw [same.failedChild, spoiled_entry found]
    · rfl

theorem storeIndex_sameIndex {later : CBlockIndex} (found : node.mapBlockIndex hash = some pindex)
    (named : later.phashBlock = some hash) (same : pindex.SameMark later) :
    SameIndex node (node.storeIndex later) ∧
      (node.storeIndex later).mapBlockIndex hash = some later := by
  rw [storeIndex, named]
  exact ⟨setIndex_sameIndex found same, update_self ..⟩

theorem writeUndo_sameIndex (found : node.mapBlockIndex hash = some pindex)
    (named : pindex.phashBlock = some hash)
    (vtxundo : List (List CTxInUndo)) : SameIndex node (node.writeUndo pindex vtxundo).1 := by
  unfold writeUndo
  split
  · have raised := CBlockIndex.raiseValidity_mark
      { pindex with nStatus := { pindex.nStatus with haveUndo := true } } BLOCK_VALID_SCRIPTS
    have same : pindex.SameMark ({ pindex with nStatus := { pindex.nStatus with haveUndo := true } }
        |>.raiseValidity BLOCK_VALID_SCRIPTS) :=
      ⟨⟨raised.linkage, raised.valid⟩, raised.failedValid, raised.failedChild⟩
    have named : ({ pindex with nStatus := { pindex.nStatus with haveUndo := true } }
        |>.raiseValidity BLOCK_VALID_SCRIPTS).phashBlock = some hash := by
      rw [CBlockIndex.raiseValidity_phashBlock]
      exact named
    have onDisk : ∀ diskUndo, SameIndex node { node with diskUndo := diskUndo } :=
      fun _ => .of_index rfl rfl rfl rfl
    have present : ∀ diskUndo,
        { node with diskUndo := diskUndo }.mapBlockIndex hash = some pindex := fun _ => found
    exact (onDisk _).trans (storeIndex_sameIndex (present _) named same).1
  · exact .refl node

variable [ChainParams] [Crypto]

theorem recordPointer_sameIndex {block : CBlock} {result : Node}
    (recorded : node.recordPointer block pindex = .ok result) : SameIndex node result := by
  unfold recordPointer at recorded
  simp only [Bool.not_eq_true'] at recorded
  split at recorded
  · cases recorded
    exact .refl node
  · split at recorded
    · contradiction
    · cases recorded
      exact .of_index rfl rfl rfl rfl

theorem erasePointer_sameIndex (node : Node) (block : CBlock) (pindex : CBlockIndex) :
    SameIndex node (node.erasePointer block pindex) := by
  unfold erasePointer
  split
  · exact .of_index rfl rfl rfl rfl
  · exact .refl node

theorem connectBlock_sameIndex (found : node.mapBlockIndex hash = some pindex)
    (named : pindex.phashBlock = some hash) (data : LocalData) (fScriptChecks : Bool)
    (block : CBlock) (view : CCoinsViewCache) (fJustCheck : Bool) :
    SameIndex node (connectBlock data node fScriptChecks block pindex view fJustCheck).node := by
  unfold connectBlock
  split
  · exact .refl node
  · split
    · exact .refl node
    · rename_i totals _
      have same : pindex.SameMark (node.withSupply pindex totals) := ⟨⟨rfl, le_rfl⟩, rfl, rfl⟩
      have namedSupply : (node.withSupply pindex totals).phashBlock = some hash := named
      obtain ⟨stored, present⟩ := storeIndex_sameIndex found namedSupply same
      unfold connectFinish
      simp only
      split
      · exact stored
      · split
        · exact stored
        · have wrote := fun undo => stored.trans (writeUndo_sameIndex present namedSupply undo)
          split
          · exact wrote _
          · rename_i recorded
            exact (wrote _).trans (recordPointer_sameIndex recorded)

end Node

end Agouti
