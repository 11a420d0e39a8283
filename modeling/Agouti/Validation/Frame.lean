import Agouti.Validation.Accept

/-! # What the operations leave unchanged

Which blocks a node knows and stores, and where they stand in the block tree, only
changes when a header or a block is accepted (`Node.store`). Connecting,
disconnecting, marking and testing a block change neither that nor, apart from
`SetTip`, the active chain; the records of used stake pointers they change only in
the steps `recordPointer` and `erasePointer`. What accepting a block does to the
store is one of three cases (`Arrival`).
-/

namespace Agouti

open Verdict Function Option

/-- The fields of an index entry that only the arrival of its block changes. -/
structure IndexCore where
  phashBlock : Option Uint256
  pprev : Option Uint256
  nHeight : Int
  nVersion : Int
  haveData : Bool
  fProofOfStake : Bool
  deriving DecidableEq, Repr

def CBlockIndex.core (pindex : CBlockIndex) : IndexCore :=
  ⟨pindex.phashBlock, pindex.pprev, pindex.nHeight, pindex.nVersion, pindex.nStatus.haveData,
    pindex.fProofOfStake⟩

/-- An entry without the fields that connecting and linking blocks change: sums over
the chain, the validity level and the undo data. -/
def CBlockIndex.fixed (pindex : CBlockIndex) : CBlockIndex :=
  { pindex with
    nChainTx := 0, nMint := 0, nMoneySupply := 0, nSequenceId := 0,
    nStatus := { pindex.nStatus with valid := 0, haveUndo := false } }

theorem CBlockIndex.core_of_fixed {a b : CBlockIndex} (same : a.fixed = b.fixed) :
    a.core = b.core := by
  have core : a.fixed.core = b.fixed.core := congrArg CBlockIndex.core same
  exact core

/-- What the node has of its blocks. -/
structure BlockStore where
  cores : Uint256 → Option IndexCore
  bodies : Uint256 → Option CBlock

namespace Node

def store (node : Node) : BlockStore :=
  ⟨fun hash => (node.mapBlockIndex hash).map CBlockIndex.core, node.diskBlocks⟩

variable {hash : Uint256} {middle : Node}

theorem store_cores {node : Node} {pindex : CBlockIndex}
    (found : node.mapBlockIndex hash = some pindex) :
    node.store.cores hash = some pindex.core := by
  simp only [store, found, map_some]

theorem entry_of_core {node : Node} {core : IndexCore} (found : node.store.cores hash = some core) :
    ∃ pindex, node.mapBlockIndex hash = some pindex ∧ pindex.core = core := by
  simpa [store] using found

/-- Blocks and active chain stay. -/
structure SameBlocks (before after : Node) : Prop where
  store : after.store = before.store
  vChain : after.vChain = before.vChain

/-- So do the used pointers. -/
structure SamePointers (before after : Node) : Prop extends SameBlocks before after where
  used : after.mapUsedStakePointers = before.mapUsedStakePointers

theorem SameBlocks.refl (node : Node) : SameBlocks node node := ⟨rfl, rfl⟩

theorem SameBlocks.trans {before after : Node} (first : SameBlocks before middle)
    (second : SameBlocks middle after) : SameBlocks before after :=
  ⟨second.store.trans first.store, second.vChain.trans first.vChain⟩

theorem SamePointers.refl (node : Node) : SamePointers node node := ⟨.refl node, rfl⟩

theorem SamePointers.trans {before after : Node} (first : SamePointers before middle)
    (second : SamePointers middle after) : SamePointers before after :=
  ⟨first.toSameBlocks.trans second.toSameBlocks, second.used.trans first.used⟩

/-- The entries are the same up to what connecting and linking change. -/
structure SameEntries (before after : Node) : Prop where
  entries : ∀ hash, (after.mapBlockIndex hash).map CBlockIndex.fixed =
    (before.mapBlockIndex hash).map CBlockIndex.fixed
  diskBlocks : after.diskBlocks = before.diskBlocks
  vChain : after.vChain = before.vChain

/-- Entries and used pointers stay. -/
structure SameRecords (before after : Node) : Prop extends SameEntries before after where
  used : after.mapUsedStakePointers = before.mapUsedStakePointers

theorem SameEntries.refl (node : Node) : SameEntries node node := ⟨fun _ => rfl, rfl, rfl⟩

theorem SameEntries.trans {before after : Node} (first : SameEntries before middle)
    (second : SameEntries middle after) : SameEntries before after :=
  ⟨fun hash => (second.entries hash).trans (first.entries hash),
    second.diskBlocks.trans first.diskBlocks, second.vChain.trans first.vChain⟩

theorem SameRecords.refl (node : Node) : SameRecords node node := ⟨.refl node, rfl⟩

theorem SameRecords.trans {before after : Node} (first : SameRecords before middle)
    (second : SameRecords middle after) : SameRecords before after :=
  ⟨first.toSameEntries.trans second.toSameEntries, second.used.trans first.used⟩

theorem SameEntries.blocks {before after : Node} (same : SameEntries before after) :
    SameBlocks before after := by
  refine ⟨?_, same.vChain⟩
  simp only [store, same.diskBlocks, BlockStore.mk.injEq, and_true]
  funext hash
  have core : ∀ entry : Option CBlockIndex,
      entry.map CBlockIndex.core = (entry.map CBlockIndex.fixed).map CBlockIndex.core := by
    intro entry
    cases entry <;> rfl
  rw [core, same.entries hash, ← core]

theorem SameRecords.pointers {before after : Node} (same : SameRecords before after) :
    SamePointers before after :=
  ⟨same.toSameEntries.blocks, same.used⟩

/-- The entry that an operation works on is in the block index, if it is in any. -/
def Holds (node : Node) (pindex : CBlockIndex) : Prop :=
  ∀ hash, pindex.phashBlock = some hash →
    (node.mapBlockIndex hash).map CBlockIndex.fixed = some pindex.fixed

theorem setIndex_entries {node : Node} {pindex : CBlockIndex}
    (same : (node.mapBlockIndex hash).map CBlockIndex.fixed = some pindex.fixed) :
    SameRecords node (node.setIndex hash pindex) := by
  refine ⟨⟨fun other => ?_, rfl, rfl⟩, rfl⟩
  by_cases here : other = hash
  · subst here
    rw [same, setIndex]
    simp only [update_self, map_some]
  · simp only [setIndex, update_of_ne here]

theorem storeIndex_same {node : Node} {pindex : CBlockIndex} (holds : node.Holds pindex) :
    SameRecords node (node.storeIndex pindex) := by
  unfold storeIndex
  cases known : pindex.phashBlock with
  | none => exact .refl node
  | some hash => exact setIndex_entries (holds hash known)

/-- Changing the flags of an entry changes no block and no record. -/
theorem setIndex_same {node : Node} {pindex : CBlockIndex}
    (same : node.store.cores hash = some pindex.core) :
    SamePointers node (node.setIndex hash pindex) := by
  refine ⟨⟨?_, rfl⟩, rfl⟩
  simp only [store, setIndex, BlockStore.mk.injEq, and_true]
  funext other
  by_cases here : other = hash
  · subst here
    simpa [store] using same.symm
  · rw [update_of_ne here]

end Node

theorem CBlockIndex.raiseValidity_fixed (pindex : CBlockIndex) (nUpTo : Nat) :
    (pindex.raiseValidity nUpTo).fixed = pindex.fixed := by
  unfold CBlockIndex.raiseValidity
  split
  · rfl
  · split <;> rfl

@[simp] theorem CBlockIndex.raiseValidity_core (pindex : CBlockIndex) (nUpTo : Nat) :
    (pindex.raiseValidity nUpTo).core = pindex.core :=
  core_of_fixed (pindex.raiseValidity_fixed nUpTo)

namespace Node

variable {node : Node} {pindex : CBlockIndex}

theorem Holds.congr (holds : node.Holds pindex) {changed : CBlockIndex}
    (same : changed.fixed = pindex.fixed) : node.Holds changed := by
  intro hash known
  rw [same]
  refine holds hash ?_
  rw [← known]
  exact (congrArg CBlockIndex.phashBlock same).symm

theorem Holds.after (holds : node.Holds pindex) {after : Node} (same : SameEntries node after) :
    after.Holds pindex := by
  intro hash known
  rw [same.entries hash]
  exact holds hash known

theorem invalidBlockFound_same (node : Node) (hash : Uint256) (state : CValidationState) :
    SamePointers node (node.invalidBlockFound hash state) := by
  unfold invalidBlockFound
  split
  · exact .refl node
  · cases found : node.mapBlockIndex hash with
    | none => exact .refl node
    | some pindex =>
      have same : SamePointers node (node.setIndex hash
          { pindex with nStatus := { pindex.nStatus with failedValid := true } }) :=
        setIndex_same (by rw [store_cores found]; rfl)
      exact ⟨⟨same.store, rfl⟩, rfl⟩

theorem markFailed_same (node : Node) (hash : Uint256) :
    SamePointers node (node.markFailed hash) := by
  unfold markFailed
  cases found : node.mapBlockIndex hash with
  | none => exact .refl node
  | some pindex => exact setIndex_same (by rw [store_cores found]; rfl)

theorem writeUndo_same (holds : node.Holds pindex) (vtxundo : List (List CTxInUndo)) :
    SameRecords node (node.writeUndo pindex vtxundo).1 ∧
      (node.writeUndo pindex vtxundo).2.fixed = pindex.fixed := by
  unfold writeUndo
  split
  · simp only
    have fixed : ({ pindex with nStatus := { pindex.nStatus with haveUndo := true } }
        |>.raiseValidity BLOCK_VALID_SCRIPTS).fixed = pindex.fixed := by
      rw [CBlockIndex.raiseValidity_fixed]
      rfl
    have onDisk : ∀ diskUndo, SameRecords node { node with diskUndo := diskUndo } :=
      fun _ => ⟨⟨fun _ => rfl, rfl, rfl⟩, rfl⟩
    exact ⟨(onDisk _).trans
      (storeIndex_same ((holds.congr fixed).after (onDisk _).toSameEntries)), fixed⟩
  · exact ⟨.refl node, rfl⟩

end Node

open Node

theorem isV5Stake_congr [ChainParams] {pindex changed : CBlockIndex} (block : CBlock)
    (height : changed.nHeight = pindex.nHeight) :
    isV5Stake block changed = isV5Stake block pindex := by
  simp only [isV5Stake, height]

section

variable [ChainParams] [Crypto]

/-- The records after `ConnectBlock` accepted a block: the record of its pointer was
free and is set. -/
inductive Recorded (block : CBlock) (pindex : CBlockIndex) (before after : Uint256 → Option Uint256) :
    Prop
  | plain (none : isV5Stake block pindex = false) (same : after = before)
  | staked (v5 : isV5Stake block pindex = true)
      (free : before (stakePointerHash block.stakePointer.outpoint) = none)
      (set : after = Function.update before (stakePointerHash block.stakePointer.outpoint)
        (some block.getHash))

theorem Node.recordPointer_ok {node result : Node} {block : CBlock} {pindex : CBlockIndex}
    (recorded : node.recordPointer block pindex = .ok result) :
    SameEntries node result ∧
      Recorded block pindex node.mapUsedStakePointers result.mapUsedStakePointers := by
  unfold recordPointer at recorded
  simp only [Bool.not_eq_true'] at recorded
  split at recorded
  · rename_i plain
    cases recorded
    exact ⟨.refl node, .plain plain rfl⟩
  · rename_i v5
    split at recorded
    · contradiction
    · rename_i free
      cases recorded
      exact ⟨⟨fun _ => rfl, rfl, rfl⟩, .staked (by simpa using v5) (by simpa using free) rfl⟩

/-- `ConnectBlock` changes the records only when it accepts the block for good, and
nothing else that is kept here. -/
structure ConnectFrame (node : Node) (block : CBlock) (pindex : CBlockIndex) (fJustCheck : Bool)
    (result : ConnectResult) : Prop where
  entries : SameEntries node result.node
  refused : ∀ state, result.verdict = .error state →
    result.node.mapUsedStakePointers = node.mapUsedStakePointers
  checked : fJustCheck = true →
    result.node.mapUsedStakePointers = node.mapUsedStakePointers
  accepted : ∀ value, fJustCheck = false → block.getHash ≠ ChainParams.hashGenesisBlock →
    result.verdict = .ok value →
      Recorded block pindex node.mapUsedStakePointers result.node.mapUsedStakePointers
  genesis : block.getHash = ChainParams.hashGenesisBlock →
    result.node.mapUsedStakePointers = node.mapUsedStakePointers

theorem ConnectFrame.blocks {node : Node} {block : CBlock} {pindex : CBlockIndex}
    {fJustCheck : Bool} {result : ConnectResult}
    (frame : ConnectFrame node block pindex fJustCheck result) : SameBlocks node result.node :=
  frame.entries.blocks

theorem connectFinish_frame {data : LocalData} {node : Node} {block : CBlock}
    {pindex : CBlockIndex} (holds : node.Holds pindex)
    (other : block.getHash ≠ ChainParams.hashGenesisBlock) (fJustCheck : Bool)
    (view : CCoinsViewCache) (vtxundo : List (List CTxInUndo)) (totals : ConnectTotals) :
    ConnectFrame node block pindex fJustCheck
      (connectFinish data node block pindex fJustCheck view vtxundo totals) := by
  have holdsSupply : node.Holds (node.withSupply pindex totals) := holds.congr rfl
  have stored := Node.storeIndex_same holdsSupply
  have holdsStored := holdsSupply.after stored.toSameEntries
  obtain ⟨wrote, fixed⟩ := Node.writeUndo_same holdsStored vtxundo
  have undone := stored.trans wrote
  unfold connectFinish
  simp only
  split
  · exact ⟨stored.toSameEntries, fun _ _ => stored.used, fun _ => stored.used,
      fun _ _ _ failed => by contradiction, fun _ => stored.used⟩
  · cases fJustCheck with
    | true =>
      exact ⟨stored.toSameEntries, fun _ _ => stored.used, fun _ => stored.used,
        fun _ live => by contradiction, fun _ => stored.used⟩
    | false =>
      simp only [Bool.false_eq_true, ↓reduceIte]
      split
      · exact ⟨undone.toSameEntries, fun _ _ => undone.used, fun _ => undone.used,
          fun _ _ _ failed => by contradiction, fun _ => undone.used⟩
      · rename_i result recorded
        obtain ⟨same, used⟩ := Node.recordPointer_ok recorded
        refine ⟨undone.toSameEntries.trans same, fun _ failed => by contradiction,
          fun live => by contradiction, fun _ _ _ _ => ?_, fun same => absurd same other⟩
        rw [undone.used] at used
        have height := congrArg CBlockIndex.nHeight fixed
        have v5 : isV5Stake block _ = isV5Stake block pindex := isV5Stake_congr block height
        cases used with
        | plain none same => exact .plain (v5 ▸ none) same
        | staked staked free set => exact .staked (v5 ▸ staked) free set

theorem connectBlock_frame {node : Node} {pindex : CBlockIndex} (holds : node.Holds pindex)
    (data : LocalData) (fScriptChecks : Bool) (block : CBlock) (view : CCoinsViewCache)
    (fJustCheck : Bool) :
    ConnectFrame node block pindex fJustCheck
      (connectBlock data node fScriptChecks block pindex view fJustCheck) := by
  unfold connectBlock
  split
  · rename_i genesis
    exact ⟨.refl node, fun _ _ => rfl, fun _ => rfl, fun _ _ other => absurd genesis other,
      fun _ => rfl⟩
  · rename_i other
    split
    · exact ⟨.refl node, fun _ _ => rfl, fun _ => rfl, fun _ _ _ failed => by contradiction,
        fun _ => rfl⟩
    · exact connectFinish_frame holds other fJustCheck _ _ _

theorem disconnectBlock_node {node changed : Node} {block : CBlock} {pindex : CBlockIndex}
    {before after : CCoinsViewCache} {fClean : Bool}
    (disconnected : disconnectBlock node block pindex before = some (changed, after, fClean)) :
    changed = node.erasePointer block pindex := by
  simp only [disconnectBlock, bind_eq_bind, bind_eq_some_iff, Option.pure_def,
    some.injEq, Prod.mk.injEq] at disconnected
  obtain ⟨_, _, _, _, _, _, same, _⟩ := disconnected
  exact same.symm

theorem Node.erasePointer_same (node : Node) (block : CBlock) (pindex : CBlockIndex) :
    SameEntries node (node.erasePointer block pindex) := by
  unfold erasePointer
  split
  · exact ⟨fun _ => rfl, rfl, rfl⟩
  · exact .refl node

theorem Node.erasePointer_plain {node : Node} {block : CBlock} {pindex : CBlockIndex}
    (plain : isV5Stake block pindex = false) : node.erasePointer block pindex = node := by
  simp [erasePointer, plain]

theorem testBlockValidity_same (data : LocalData) (node : Node) (fScriptChecks : Bool)
    (block : CBlock) (pindexPrev : CBlockIndex) (fCheckPOW fCheckMerkleRoot : Bool) :
    SameRecords node (testBlockValidity data node fScriptChecks block pindexPrev fCheckPOW
      fCheckMerkleRoot).1 := by
  unfold testBlockValidity
  simp only
  split
  · exact .refl node
  · have holds : node.Holds { CBlockIndex.ofBlock block with
        pprev := pindexPrev.phashBlock, nHeight := pindexPrev.nHeight + 1 } :=
      fun _ known => by contradiction
    have frame := connectBlock_frame holds data fScriptChecks block node.pcoinsTip true
    exact ⟨frame.entries, frame.checked rfl⟩

end

/-- What the arrival of a block does to the block tree: nothing, a new entry on top
of a known parent or without parent, or the body of an entry that had none. -/
inductive Arrival [Crypto] (block : CBlock) (before after : BlockStore) : Prop
  | known (same : after = before)
  | header (core : IndexCore) (absent : before.cores block.getHash = none)
      (hash : core.phashBlock = some block.getHash)
      (parent : (∃ prev, before.cores block.hashPrevBlock = some prev ∧
          core.pprev = some block.hashPrevBlock ∧ core.nHeight = prev.nHeight + 1) ∨
        (core.pprev = none ∧ core.nHeight = 0))
      (version : core.nVersion = block.nVersion) (header : core.haveData = false)
      (added : after = ⟨Function.update before.cores block.getHash (some core), before.bodies⟩)
  | body (core : IndexCore) (present : before.cores block.getHash = some core)
      (header : core.haveData = false)
      (stored : after = ⟨Function.update before.cores block.getHash
          (some { core with
            haveData := true, fProofOfStake := block.isProofOfStake || core.fProofOfStake }),
        Function.update before.bodies block.getHash (some block)⟩)

/-- The block tree is well formed: an entry knows its hash, a parent is known and one
lower, and a stored body is that of its hash. -/
structure BlockStore.Sound [Crypto] (store : BlockStore) : Prop where
  hash : ∀ hash core, store.cores hash = some core → core.phashBlock = some hash
  parent : ∀ hash core, store.cores hash = some core → ∀ hashPrev, core.pprev = some hashPrev →
    ∃ prev, store.cores hashPrev = some prev ∧ core.nHeight = prev.nHeight + 1
  root : ∀ hash core, store.cores hash = some core → core.pprev = none → core.nHeight = 0
  body : ∀ hash core, store.cores hash = some core → core.haveData = true →
    ∃ block, store.bodies hash = some block ∧ block.getHash = hash ∧
      (block.isProofOfStake = true → core.fProofOfStake = true)

section

variable [Crypto] {block : CBlock} {before after : BlockStore}

/-- An entry that was known stays where it is; with a body it stays as it is. -/
theorem Arrival.keeps (arrival : Arrival block before after) {hash : Uint256} {core : IndexCore}
    (found : before.cores hash = some core) :
    ∃ later, after.cores hash = some later ∧ later.phashBlock = core.phashBlock ∧
      later.pprev = core.pprev ∧ later.nHeight = core.nHeight ∧ later.nVersion = core.nVersion ∧
      (core.haveData = true → later = core ∧ after.bodies hash = before.bodies hash) := by
  cases arrival with
  | known same =>
    subst same
    exact ⟨core, found, rfl, rfl, rfl, rfl, fun _ => ⟨rfl, rfl⟩⟩
  | header added absent _ _ _ _ same =>
    subst same
    have apart : hash ≠ block.getHash := by
      rintro rfl
      rw [absent] at found
      contradiction
    refine ⟨core, ?_, rfl, rfl, rfl, rfl, fun _ => ⟨rfl, rfl⟩⟩
    simp only [update_of_ne apart]
    exact found
  | body present_ present header same =>
    subst same
    by_cases here : hash = block.getHash
    · subst here
      rw [present] at found
      obtain rfl := some.inj found
      refine ⟨_, update_self .., rfl, rfl, rfl, rfl, fun stored => ?_⟩
      rw [header] at stored
      contradiction
    · refine ⟨core, ?_, rfl, rfl, rfl, rfl, fun _ => ⟨rfl, ?_⟩⟩
      · simp only [update_of_ne here]
        exact found
      · simp only [update_of_ne here]

theorem Arrival.origin (arrival : Arrival block before after) {hash : Uint256} {core : IndexCore}
    (found : after.cores hash = some core) :
    before.cores hash = some core ∧ after.bodies hash = before.bodies hash ∨
      hash = block.getHash := by
  cases arrival with
  | known same =>
    subst same
    exact .inl ⟨found, rfl⟩
  | header added absent _ _ _ _ same =>
    subst same
    by_cases here : hash = block.getHash
    · exact .inr here
    · simp only [update_of_ne here] at found
      exact .inl ⟨found, rfl⟩
  | body present_ present header same =>
    subst same
    by_cases here : hash = block.getHash
    · exact .inr here
    · simp only [update_of_ne here] at found
      exact .inl ⟨found, update_of_ne here ..⟩

theorem Arrival.sound (arrival : Arrival block before after) (sound : before.Sound) :
    after.Sound := by
  have lift : ∀ {hash prev}, before.cores hash = some prev →
      ∃ later, after.cores hash = some later ∧ later.nHeight = prev.nHeight := by
    intro hash prev found
    obtain ⟨later, found, _, _, height, _⟩ := arrival.keeps found
    exact ⟨later, found, height⟩
  have place : ∀ hash core, after.cores hash = some core → core.phashBlock = some hash ∧
      (∀ hashPrev, core.pprev = some hashPrev →
        ∃ prev, before.cores hashPrev = some prev ∧ core.nHeight = prev.nHeight + 1) ∧
      (core.pprev = none → core.nHeight = 0) := by
    intro hash core found
    rcases arrival.origin found with ⟨old, _⟩ | rfl
    · exact ⟨sound.hash hash core old, sound.parent hash core old, sound.root hash core old⟩
    · cases arrival with
      | known same =>
        subst same
        exact ⟨sound.hash _ core found, sound.parent _ core found, sound.root _ core found⟩
      | header added absent known parent version _ same =>
        subst same
        simp only [update_self, some.injEq] at found
        subst found
        refine ⟨known, fun hashPrev pprev => ?_, fun pprev => ?_⟩
        · rcases parent with ⟨prev, found, here, height⟩ | ⟨none, _⟩
          · rw [here] at pprev
            exact ⟨prev, some.inj pprev ▸ found, height⟩
          · rw [none] at pprev
            contradiction
        · rcases parent with ⟨prev, found, here, height⟩ | ⟨_, height⟩
          · rw [here] at pprev
            contradiction
          · exact height
      | body old present header same =>
        subst same
        simp only [update_self, some.injEq] at found
        subst found
        exact ⟨sound.hash _ old present, sound.parent _ old present, sound.root _ old present⟩
  refine ⟨fun hash core found => (place hash core found).1,
    fun hash core found hashPrev pprev => ?_, fun hash core found => (place hash core found).2.2,
    fun hash core found stored => ?_⟩
  · obtain ⟨prev, old, height⟩ := (place hash core found).2.1 hashPrev pprev
    obtain ⟨later, found, same⟩ := lift old
    exact ⟨later, found, by rw [height, same]⟩
  · rcases arrival.origin found with ⟨old, bodies⟩ | rfl
    · rw [bodies]
      exact sound.body hash core old stored
    · cases arrival with
      | known same =>
        subst same
        exact sound.body _ core found stored
      | header added absent known parent version header same =>
        subst same
        simp only [update_self, some.injEq] at found
        subst found
        rw [header] at stored
        contradiction
      | body old present header same =>
        subst same
        simp only [update_self, some.injEq] at found
        subst found
        exact ⟨block, update_self .., rfl, fun staked => by simp [staked]⟩

end

namespace Node

theorem recordProofOfStake_same (node : Node) (nRand : Nat) (hash hashProofOfStake : Uint256) :
    SameRecords node (node.recordProofOfStake nRand hash hashProofOfStake) := by
  unfold recordProofOfStake
  split
  · exact .refl node
  · exact ⟨⟨fun _ => rfl, rfl, rfl⟩, rfl⟩

theorem insertCandidate_same (node : Node) (pindex : CBlockIndex) :
    SameRecords node (node.insertCandidate pindex) := by
  unfold insertCandidate
  split
  · exact .refl node
  · exact ⟨⟨fun _ => rfl, rfl, rfl⟩, rfl⟩

theorem linkBlock_same {node : Node} {hash : Uint256} {pindex : CBlockIndex}
    (found : node.mapBlockIndex hash = some pindex) :
    SameRecords node (node.linkBlock hash pindex) := by
  unfold linkBlock
  refine SameRecords.trans ?_ (insertCandidate_same _ _)
  have same : SameRecords node (node.setIndex hash { pindex with
      nChainTx := ((node.mapBlockIndex.prev pindex).map CBlockIndex.nChainTx).getD 0 + pindex.nTx,
      nSequenceId := node.nBlockSequenceId }) :=
    setIndex_entries (by rw [found]; rfl)
  exact ⟨⟨same.entries, rfl, rfl⟩, rfl⟩

theorem linkBlocks_same (fuel : Nat) (queue : List Uint256) (node : Node) :
    SameRecords node (linkBlocks fuel queue node) := by
  induction fuel generalizing queue node with
  | zero => exact .refl node
  | succ fuel ih =>
    cases queue with
    | nil => exact .refl node
    | cons hash queue =>
      unfold linkBlocks
      cases found : node.mapBlockIndex hash with
      | none => exact ih queue node
      | some pindex =>
        simp only
        have unlinked : ∀ (linked : Node) links,
            SameRecords linked { linked with mapBlocksUnlinked := links } :=
          fun _ _ => ⟨⟨fun _ => rfl, rfl, rfl⟩, rfl⟩
        exact (linkBlock_same found).trans ((unlinked _ _).trans (ih _ _))

variable [Crypto]

theorem receivedIndex_core (node : Node) (block : CBlock) (pindex : CBlockIndex) :
    (node.receivedIndex block pindex).core =
      { pindex.core with
        haveData := true, fProofOfStake := block.isProofOfStake || pindex.fProofOfStake } := by
  unfold receivedIndex
  simp only [CBlockIndex.raiseValidity_core]
  cases staked : block.isProofOfStake <;> simp [CBlockIndex.core]

theorem receivedBlockTransactions_entries (node : Node) (block : CBlock) (pindex : CBlockIndex) :
    SameEntries
        (node.setIndex pindex.getBlockHash (node.receivedIndex block pindex))
        (node.receivedBlockTransactions block pindex) ∧
      (node.receivedBlockTransactions block pindex).mapUsedStakePointers =
        node.mapUsedStakePointers := by
  have hash : (node.receivedIndex block pindex).getBlockHash = pindex.getBlockHash := by
    have core := congrArg IndexCore.phashBlock (receivedIndex_core node block pindex)
    exact congrArg (Option.getD · 0) core
  have linked : ∀ (start : Node) fuel queue,
      (∀ hash, start.mapBlockIndex hash = (node.setIndex pindex.getBlockHash
        (node.receivedIndex block pindex)).mapBlockIndex hash) →
      start.diskBlocks = node.diskBlocks → start.vChain = node.vChain →
      start.mapUsedStakePointers = node.mapUsedStakePointers →
      SameEntries (node.setIndex pindex.getBlockHash (node.receivedIndex block pindex))
          (linkBlocks fuel queue start) ∧
        (linkBlocks fuel queue start).mapUsedStakePointers = node.mapUsedStakePointers := by
    intro start fuel queue entries diskBlocks vChain used
    have same := linkBlocks_same fuel queue start
    refine ⟨⟨fun hash => ?_, same.diskBlocks.trans diskBlocks, same.vChain.trans vChain⟩,
      same.used.trans used⟩
    rw [same.entries hash, entries hash]
  unfold receivedBlockTransactions
  simp only [hash]
  split
  · exact linked _ _ _ (fun _ => rfl) rfl rfl rfl
  · split
    · exact ⟨⟨fun _ => rfl, rfl, rfl⟩, rfl⟩
    · split
      · exact linked _ _ _ (fun _ => rfl) rfl rfl rfl
      · split
        · exact ⟨⟨fun _ => rfl, rfl, rfl⟩, rfl⟩
        · exact ⟨⟨fun _ => rfl, rfl, rfl⟩, rfl⟩

theorem storeBlock_arrival {node : Node} {block : CBlock} {pindex : CBlockIndex}
    (found : node.store.cores block.getHash = some pindex.core)
    (hash : pindex.phashBlock = some block.getHash) (header : pindex.nStatus.haveData = false) :
    Arrival block node.store (node.storeBlock block pindex).store ∧
      (node.storeBlock block pindex).vChain = node.vChain ∧
      (node.storeBlock block pindex).mapUsedStakePointers = node.mapUsedStakePointers := by
  have here : pindex.getBlockHash = block.getHash := by simp [CBlockIndex.getBlockHash, hash]
  obtain ⟨same, used⟩ := receivedBlockTransactions_entries
    { node with diskBlocks := Function.update node.diskBlocks pindex.getBlockHash (some block) }
    block pindex
  refine ⟨.body pindex.core found header ?_, same.vChain, used⟩
  rw [storeBlock, same.blocks.store]
  simp only [store, setIndex, here, BlockStore.mk.injEq, and_true]
  funext other
  by_cases self : other = block.getHash
  · subst self
    simp only [update_self, map_some, receivedIndex_core]
    rfl
  · simp only [update_of_ne self]

theorem newIndex_core (node : Node) (block : CBlock) :
    (node.newIndex block).core =
      ⟨some block.getHash, (node.mapBlockIndex block.hashPrevBlock).map fun _ => block.hashPrevBlock,
        ((node.mapBlockIndex block.hashPrevBlock).map fun prev => prev.nHeight + 1).getD 0,
        block.nVersion, false, block.isProofOfStake⟩ := by
  unfold newIndex
  simp only [CBlockIndex.raiseValidity_core]
  rfl

theorem addToBlockIndex_known {node : Node} {block : CBlock} {pindex : CBlockIndex}
    (known : node.mapBlockIndex block.getHash = some pindex) : node.addToBlockIndex block = node := by
  simp [addToBlockIndex, known]

theorem addToBlockIndex_index {node : Node} {block : CBlock}
    (fresh : node.mapBlockIndex block.getHash = none) :
    (node.addToBlockIndex block).mapBlockIndex =
      Function.update node.mapBlockIndex block.getHash (some (node.newIndex block)) := by
  simp [addToBlockIndex, fresh, setIndex]

theorem addToBlockIndex_arrival {node : Node} {block : CBlock}
    (absent : node.mapBlockIndex block.getHash = none) :
    Arrival block node.store (node.addToBlockIndex block).store ∧
      (node.addToBlockIndex block).vChain = node.vChain ∧
      (node.addToBlockIndex block).mapUsedStakePointers = node.mapUsedStakePointers ∧
      (node.addToBlockIndex block).mapBlockIndex block.getHash = some (node.newIndex block) := by
  have core := newIndex_core node block
  unfold addToBlockIndex
  rw [absent]
  simp only [isSome_none, Bool.false_eq_true, ↓reduceIte]
  refine ⟨.header (node.newIndex block).core ?_ ?_ ?_ ?_ ?_ ?_, rfl, rfl, ?_⟩
  · simp only [store, absent, map_none]
  · rw [core]
  · rw [core]
    cases parent : node.mapBlockIndex block.hashPrevBlock with
    | none => exact .inr ⟨rfl, rfl⟩
    | some prev => exact .inl ⟨prev.core, store_cores parent, rfl, rfl⟩
  · rw [core]
  · rw [core]
  · simp only [store, setIndex, BlockStore.mk.injEq, and_true]
    funext other
    by_cases self : other = block.getHash
    · subst self
      simp only [update_self, map_some]
    · simp only [update_of_ne self]
  · simp only [setIndex, update_self]

/-- The records and the active chain are unchanged, and the block may have arrived. -/
structure Arrived (block : CBlock) (before after : Node) : Prop where
  vChain : after.vChain = before.vChain
  used : after.mapUsedStakePointers = before.mapUsedStakePointers
  store : ∃ middle, Arrival block before.store middle ∧ Arrival block middle after.store

theorem SamePointers.arrived {before after : Node} (same : SamePointers before after)
    (block : CBlock) : Arrived block before after :=
  ⟨same.vChain, same.used, before.store, .known rfl, .known same.store⟩

variable [ChainParams]

theorem acceptWork_same [Legacy] {data : LocalData} {node worked : Node} {block : CBlock}
    {pindexPrev : Option CBlockIndex} (work : acceptWork data node block pindexPrev = some worked) :
    SameRecords node worked ∧ worked.mapBlockIndex = node.mapBlockIndex := by
  have recorded : ∀ nRand hash kernel,
      SameRecords node (node.recordProofOfStake nRand hash kernel) ∧
        (node.recordProofOfStake nRand hash kernel).mapBlockIndex = node.mapBlockIndex := by
    intro nRand hash kernel
    refine ⟨recordProofOfStake_same node nRand hash kernel, ?_⟩
    unfold recordProofOfStake
    split <;> rfl
  have unchanged : SameRecords node node ∧ node.mapBlockIndex = node.mapBlockIndex :=
    ⟨.refl node, rfl⟩
  cases pindexPrev with
  | none =>
    cases work
    exact unchanged
  | some pindexPrev =>
    simp only [acceptWork, checkWork] at work
    split at work
    · split at work
      · cases work
        exact unchanged
      · contradiction
    · split at work
      · contradiction
      · split at work
        · cases work
          exact unchanged
        · split at work
          · obtain ⟨kernel, _, rfl⟩ := map_eq_some_iff.mp work
            exact recorded _ _ kernel
          · split at work
            · cases work
              exact unchanged
            · obtain ⟨kernel, _, rfl⟩ := map_eq_some_iff.mp work
              exact recorded _ _ kernel

end Node

variable [ChainParams] [Crypto]

open Node

theorem acceptBlockHeader_arrival {data : LocalData} {node after : Node} {block : CBlock}
    {verdict : Verdict CBlockIndex} (sound : node.store.Sound)
    (accepted : acceptBlockHeader data node block = (after, verdict)) :
    Arrival block node.store after.store ∧ after.vChain = node.vChain ∧
      after.mapUsedStakePointers = node.mapUsedStakePointers ∧
      ∀ pindex, verdict = .ok pindex →
        after.mapBlockIndex block.getHash = some pindex ∧
          pindex.phashBlock = some block.getHash := by
  unfold acceptBlockHeader at accepted
  split at accepted
  · rename_i pindex found
    obtain ⟨rfl, rfl⟩ := Prod.mk.inj accepted
    refine ⟨.known rfl, rfl, rfl, fun entry same => ?_⟩
    split at same
    · contradiction
    · cases same
      exact ⟨found, sound.hash _ _ (store_cores found)⟩
  · rename_i absent
    split at accepted
    · obtain ⟨rfl, rfl⟩ := Prod.mk.inj accepted
      exact ⟨.known rfl, rfl, rfl, fun _ failed => by contradiction⟩
    · obtain ⟨rfl, rfl⟩ := Prod.mk.inj accepted
      obtain ⟨arrival, vChain, used, here⟩ := addToBlockIndex_arrival absent
      refine ⟨arrival, vChain, used, fun entry same => ?_⟩
      cases same
      exact ⟨here, congrArg IndexCore.phashBlock (newIndex_core node block)⟩

theorem acceptBody_arrival (data : LocalData) {node : Node} {block : CBlock}
    {pindex : CBlockIndex} (found : node.mapBlockIndex block.getHash = some pindex)
    (hash : pindex.phashBlock = some block.getHash) (written : Bool) :
    Arrival block node.store (acceptBody data node block pindex written).1.store ∧
      (acceptBody data node block pindex written).1.vChain = node.vChain ∧
      (acceptBody data node block pindex written).1.mapUsedStakePointers =
        node.mapUsedStakePointers := by
  unfold acceptBody
  split
  · exact ⟨.known rfl, rfl, rfl⟩
  · rename_i header
    split
    · split
      · have same := markFailed_same node pindex.getBlockHash
        exact ⟨.known same.store, same.vChain, same.used⟩
      · exact ⟨.known rfl, rfl, rfl⟩
    · split
      · exact storeBlock_arrival (store_cores found) hash (by simpa using header)
      · exact ⟨.known rfl, rfl, rfl⟩

theorem acceptBlock_arrived [Legacy] {node : Node} (sound : node.store.Sound) (data : LocalData)
    (block : CBlock) (written : Bool) :
    Arrived block node (acceptBlock data node block written).1 := by
  have refused : Arrived block node node := (SamePointers.refl node).arrived block
  unfold acceptBlock
  split
  · exact refused
  · split
    · exact refused
    · rename_i pindexPrev _ worked work
      obtain ⟨same, _⟩ := acceptWork_same work
      have store : worked.store = node.store := same.blocks.store
      have known : worked.store.Sound := by rw [store]; exact sound
      split
      · rename_i after state header
        obtain ⟨arrival, vChain, used, _⟩ := acceptBlockHeader_arrival known header
        rw [store] at arrival
        exact ⟨vChain.trans same.vChain, used.trans same.used, _, arrival, .known rfl⟩
      · rename_i after pindex header
        obtain ⟨arrival, vChain, used, entry⟩ := acceptBlockHeader_arrival known header
        obtain ⟨found, hash⟩ := entry pindex rfl
        obtain ⟨stored, vChainBody, usedBody⟩ :=
          acceptBody_arrival data found hash written
        rw [store] at arrival
        exact ⟨vChainBody.trans (vChain.trans same.vChain), usedBody.trans (used.trans same.used),
          _, arrival, stored⟩

theorem processNewBlock_arrived [Legacy] {node : Node} (sound : node.store.Sound)
    (data : LocalData) (block : CBlock) (fromPeer written : Bool) :
    Arrived block node (processNewBlock data node block fromPeer written).1 := by
  have refused : Arrived block node node := (SamePointers.refl node).arrived block
  unfold processNewBlock
  split
  · exact refused
  · split
    · exact refused
    · split
      · exact refused
      · split
        · exact refused
        · exact acceptBlock_arrived sound data block written

end Agouti
