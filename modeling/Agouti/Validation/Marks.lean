import Agouti.Validation.Activate
import Agouti.Validation.Objective

/-! # Failure marks

Which entries are marked `BLOCK_FAILED_VALID` (`Node.marked`) and
`BLOCK_FAILED_CHILD` (`Node.spoiled`), and what every operation does to the marks.
Entries stay in their places and stored bodies stay what they are (`Node.Grows`); a
first mark is set only where `AcceptBlock` refuses a body and `ConnectTip` a block, a
second one only below a marked block by `FindMostWorkChain`.
-/

namespace Agouti

open Verdict List Function Option

namespace CBlockIndex.SamePlace

variable {a b c : CBlockIndex}

theorem refl (pindex : CBlockIndex) : pindex.SamePlace pindex := ⟨rfl, rfl, rfl, rfl⟩

theorem symm (same : a.SamePlace b) : b.SamePlace a :=
  ⟨same.phashBlock.symm, same.pprev.symm, same.nHeight.symm, same.nTime.symm⟩

theorem trans (first : a.SamePlace b) (second : b.SamePlace c) : a.SamePlace c :=
  ⟨first.phashBlock.trans second.phashBlock, first.pprev.trans second.pprev,
    first.nHeight.trans second.nHeight, first.nTime.trans second.nTime⟩

theorem of_fixed (same : a.fixed = b.fixed) : a.SamePlace b := by
  have core := CBlockIndex.core_of_fixed same
  have time : a.fixed.nTime = b.fixed.nTime := congrArg CBlockIndex.nTime same
  exact ⟨congrArg IndexCore.phashBlock core, congrArg IndexCore.pprev core,
    congrArg IndexCore.nHeight core, time⟩

end CBlockIndex.SamePlace

namespace Node

/-- The entry of the block is marked `BLOCK_FAILED_VALID`. -/
def marked (node : Node) (hash : Uint256) : Bool :=
  ((node.mapBlockIndex hash).map fun pindex => pindex.nStatus.failedValid).getD false

/-- The entry of the block is marked `BLOCK_FAILED_CHILD`. -/
def spoiled (node : Node) (hash : Uint256) : Bool :=
  ((node.mapBlockIndex hash).map fun pindex => pindex.nStatus.failedChild).getD false

variable {hash : Uint256} {pindex : CBlockIndex}

theorem failed_of_entry {node : Node} (found : node.mapBlockIndex hash = some pindex) :
    pindex.nStatus.failed = (node.marked hash || node.spoiled hash) := by
  simp only [marked, spoiled, found, map_some, getD_some, BlockStatus.failed]

theorem marked_entry {node : Node} (found : node.mapBlockIndex hash = some pindex) :
    node.marked hash = pindex.nStatus.failedValid := by
  rw [marked, found, map_some, getD_some]

theorem spoiled_entry {node : Node} (found : node.mapBlockIndex hash = some pindex) :
    node.spoiled hash = pindex.nStatus.failedChild := by
  rw [spoiled, found, map_some, getD_some]

/-- Entries stay in their places, and stored bodies stay the same. -/
structure Grows (before after : Node) : Prop where
  entries : ∀ hash pindex, before.mapBlockIndex hash = some pindex → ∃ later,
    after.mapBlockIndex hash = some later ∧ later.SamePlace pindex ∧
      (pindex.nStatus.haveData = true → later.nStatus.haveData = true)
  bodies : ∀ hash pindex, before.mapBlockIndex hash = some pindex →
    pindex.nStatus.haveData = true → after.diskBlocks hash = before.diskBlocks hash

/-- The same marks on grown entries. -/
structure SameMarks (before after : Node) : Prop extends Grows before after where
  marked : ∀ hash, after.marked hash = before.marked hash
  spoiled : ∀ hash, after.spoiled hash = before.spoiled hash

section

variable {before middle after : Node}

theorem Grows.refl (node : Node) : Grows node node :=
  ⟨fun _ pindex found => ⟨pindex, found, .refl pindex, id⟩, fun _ _ _ _ => rfl⟩

theorem Grows.trans (first : Grows before middle) (second : Grows middle after) :
    Grows before after := by
  refine ⟨fun hash pindex found => ?_, fun hash pindex found stored => ?_⟩
  · obtain ⟨later, found, place, stored⟩ := first.entries hash pindex found
    obtain ⟨last, found, placeLast, storedLast⟩ := second.entries hash later found
    exact ⟨last, found, placeLast.trans place, fun data => storedLast (stored data)⟩
  · obtain ⟨later, foundLater, _, storedLater⟩ := first.entries hash pindex found
    exact (second.bodies hash later foundLater (storedLater stored)).trans
      (first.bodies hash pindex found stored)

theorem SameMarks.refl (node : Node) : SameMarks node node := ⟨.refl node, fun _ => rfl, fun _ => rfl⟩

theorem SameMarks.trans (first : SameMarks before middle) (second : SameMarks middle after) :
    SameMarks before after :=
  ⟨first.toGrows.trans second.toGrows, fun hash => (second.marked hash).trans (first.marked hash),
    fun hash => (second.spoiled hash).trans (first.spoiled hash)⟩

theorem Grows.path (grows : Grows before after) {chain : List Uint256}
    (path : before.store.Path chain) : after.store.Path chain := by
  refine ⟨fun i hash place => ?_⟩
  obtain ⟨core, found, height, stored, pprev⟩ := path.entry i hash place
  obtain ⟨pindex, entry, rfl⟩ := entry_of_core found
  obtain ⟨later, entryLater, same, storedLater⟩ := grows.entries hash pindex entry
  exact ⟨later.core, store_cores entryLater, same.nHeight.trans height, storedLater stored,
    same.pprev.trans pprev⟩

theorem Grows.path_bodies (grows : Grows before after) {chain : List Uint256}
    (path : before.store.Path chain) {hash : Uint256} (member : hash ∈ chain) :
    after.diskBlocks hash = before.diskBlocks hash := by
  obtain ⟨i, place⟩ := List.getElem?_of_mem member
  obtain ⟨core, found, _, stored, _⟩ := path.entry i hash place
  obtain ⟨pindex, entry, rfl⟩ := entry_of_core found
  exact grows.bodies hash pindex entry stored

theorem SameEntries.marks (same : SameEntries before after) : SameMarks before after := by
  refine ⟨⟨fun hash pindex found => ?_, fun _ _ _ _ => congrFun same.diskBlocks _⟩,
    fun hash => ?_, fun hash => ?_⟩
  · have entry := same.entries hash
    rw [found, map_some, map_eq_some_iff] at entry
    obtain ⟨later, present, fixed⟩ := entry
    have data := congrArg IndexCore.haveData (CBlockIndex.core_of_fixed fixed)
    exact ⟨later, present, .of_fixed fixed, fun stored => data.trans stored⟩
  · have flag : ∀ entry : Option CBlockIndex, (entry.map fun pindex => pindex.nStatus.failedValid) =
        (entry.map CBlockIndex.fixed).map fun pindex => pindex.nStatus.failedValid := by
      intro entry
      cases entry <;> rfl
    rw [Node.marked, Node.marked, flag, same.entries hash, ← flag]
  · have flag : ∀ entry : Option CBlockIndex, (entry.map fun pindex => pindex.nStatus.failedChild) =
        (entry.map CBlockIndex.fixed).map fun pindex => pindex.nStatus.failedChild := by
      intro entry
      cases entry <;> rfl
    rw [Node.spoiled, Node.spoiled, flag, same.entries hash, ← flag]

/-- An operation that touches neither the entries nor the bodies. -/
theorem SameMarks.of_index (index : after.mapBlockIndex = before.mapBlockIndex)
    (disk : after.diskBlocks = before.diskBlocks) : SameMarks before after := by
  refine ⟨⟨fun hash pindex found => ⟨pindex, ?_, .refl pindex, id⟩, fun hash _ _ _ => ?_⟩,
    fun hash => ?_, fun hash => ?_⟩
  · rw [index, found]
  · rw [disk]
  · rw [Node.marked, Node.marked, index]
  · rw [Node.spoiled, Node.spoiled, index]

end

theorem setIndex_of_ne (node : Node) {other : Uint256} (pindex : CBlockIndex)
    (here : other ≠ hash) : (node.setIndex hash pindex).mapBlockIndex other =
      node.mapBlockIndex other := update_of_ne here _ _

theorem setIndex_marked (node : Node) (hash other : Uint256) (pindex : CBlockIndex) :
    (node.setIndex hash pindex).marked other =
      if other = hash then pindex.nStatus.failedValid else node.marked other := by
  unfold marked setIndex
  by_cases here : other = hash
  · subst here
    simp only [update_self, map_some, getD_some, ↓reduceIte]
  · simp only [update_of_ne here, if_neg here]

theorem setIndex_spoiled (node : Node) (hash other : Uint256) (pindex : CBlockIndex) :
    (node.setIndex hash pindex).spoiled other =
      if other = hash then pindex.nStatus.failedChild else node.spoiled other := by
  unfold spoiled setIndex
  by_cases here : other = hash
  · subst here
    simp only [update_self, map_some, getD_some, ↓reduceIte]
  · simp only [update_of_ne here, if_neg here]

theorem setIndex_grows {node : Node} {later : CBlockIndex}
    (found : node.mapBlockIndex hash = some pindex) (place : later.SamePlace pindex)
    (stored : pindex.nStatus.haveData = true → later.nStatus.haveData = true) :
    Grows node (node.setIndex hash later) := by
  refine ⟨fun other entry present => ?_, fun _ _ _ _ => rfl⟩
  by_cases here : other = hash
  · subst here
    rw [found] at present
    obtain rfl := some.inj present
    exact ⟨later, update_self .., place, stored⟩
  · exact ⟨entry, (setIndex_of_ne _ _ here).trans present, .refl entry, id⟩

theorem markFailed_eq {node : Node} (found : node.mapBlockIndex hash = some pindex) :
    node.markFailed hash =
      node.setIndex hash { pindex with nStatus := { pindex.nStatus with failedValid := true } } := by
  unfold markFailed
  rw [found]

theorem markFailed_grows {node : Node}
    (found : node.mapBlockIndex hash = some pindex) : Grows node (node.markFailed hash) := by
  rw [markFailed_eq found]
  exact setIndex_grows found ⟨rfl, rfl, rfl, rfl⟩ id

theorem markFailed_marked {node : Node} (found : node.mapBlockIndex hash = some pindex)
    (other : Uint256) :
    (node.markFailed hash).marked other = (decide (other = hash) || node.marked other) := by
  rw [markFailed_eq found, setIndex_marked]
  by_cases here : other = hash
  · simp [here]
  · simp [here]

theorem markFailed_spoiled {node : Node} (found : node.mapBlockIndex hash = some pindex)
    (other : Uint256) :
    (node.markFailed hash).spoiled other = node.spoiled other := by
  rw [markFailed_eq found, setIndex_spoiled]
  by_cases here : other = hash
  · subst here
    simp [spoiled, found]
  · simp [here]

theorem invalidBlockFound_marks (node : Node) (hash : Uint256) {state : CValidationState}
    (intact : state.corruptionPossible = false) :
    SameMarks (node.markFailed hash) (node.invalidBlockFound hash state) := by
  have index : (node.invalidBlockFound hash state).mapBlockIndex = (node.markFailed hash).mapBlockIndex ∧
      (node.invalidBlockFound hash state).diskBlocks = (node.markFailed hash).diskBlocks := by
    unfold invalidBlockFound markFailed
    simp only [intact, Bool.false_eq_true, ↓reduceIte]
    cases node.mapBlockIndex hash with
    | none => exact ⟨rfl, rfl⟩
    | some pindex => exact ⟨rfl, rfl⟩
  exact .of_index index.1 index.2

variable [Crypto]

theorem newIndex_unmarked (node : Node) (block : CBlock) :
    (node.newIndex block).nStatus.failedValid = false ∧
      (node.newIndex block).nStatus.failedChild = false := by
  unfold newIndex CBlockIndex.raiseValidity
  simp only
  split
  · exact ⟨rfl, rfl⟩
  · split <;> exact ⟨rfl, rfl⟩

theorem addToBlockIndex_marks {node : Node} {block : CBlock}
    (absent : node.mapBlockIndex block.getHash = none) :
    SameMarks node (node.addToBlockIndex block) := by
  have added : node.addToBlockIndex block = { node.setIndex block.getHash (node.newIndex block) with
      setStakeSeen := (node.addToBlockIndex block).setStakeSeen } := by
    simp [addToBlockIndex, absent]
  have indexed : SameMarks node (node.setIndex block.getHash (node.newIndex block)) := by
    refine ⟨⟨fun other entry present => ?_, fun _ _ _ _ => rfl⟩, fun other => ?_, fun other => ?_⟩
    · have here : other ≠ block.getHash := by
        rintro rfl
        rw [absent] at present
        contradiction
      exact ⟨entry, (setIndex_of_ne _ _ here).trans present, .refl entry, id⟩
    · rw [setIndex_marked, (newIndex_unmarked node block).1]
      split
      · subst other
        simp [marked, absent]
      · rfl
    · rw [setIndex_spoiled, (newIndex_unmarked node block).2]
      split
      · subst other
        simp [spoiled, absent]
      · rfl
  refine indexed.trans ?_
  rw [added]
  exact .of_index rfl rfl

theorem receivedIndex_status (node : Node) (block : CBlock) (pindex : CBlockIndex) :
    (node.receivedIndex block pindex).SamePlace pindex ∧
      (node.receivedIndex block pindex).nStatus.haveData = true ∧
      (node.receivedIndex block pindex).nStatus.failedValid = pindex.nStatus.failedValid ∧
      (node.receivedIndex block pindex).nStatus.failedChild = pindex.nStatus.failedChild := by
  unfold receivedIndex CBlockIndex.raiseValidity
  simp only
  cases block.isProofOfStake <;> simp only [Bool.false_eq_true, ↓reduceIte]
  all_goals
    split
    · exact ⟨⟨rfl, rfl, rfl, rfl⟩, rfl, rfl, rfl⟩
    · split <;> exact ⟨⟨rfl, rfl, rfl, rfl⟩, rfl, rfl, rfl⟩

theorem storeBlock_marks {node : Node} {block : CBlock}
    (found : node.mapBlockIndex hash = some pindex) (known : pindex.getBlockHash = hash)
    (header : pindex.nStatus.haveData = false) : SameMarks node (node.storeBlock block pindex) := by
  subst known
  obtain ⟨place, stored, valid, child⟩ := receivedIndex_status
    { node with diskBlocks := Function.update node.diskBlocks pindex.getBlockHash (some block) }
    block pindex
  have entries := (receivedBlockTransactions_entries
    { node with diskBlocks := Function.update node.diskBlocks pindex.getBlockHash (some block) }
    block pindex).1.marks
  refine SameMarks.trans ⟨⟨fun other entry present => ?_, fun other entry present data => ?_⟩,
    fun other => ?_, fun other => ?_⟩ entries
  · by_cases here : other = pindex.getBlockHash
    · subst here
      rw [found] at present
      obtain rfl := some.inj present
      exact ⟨_, update_self .., place, fun _ => stored⟩
    · exact ⟨entry, (setIndex_of_ne _ _ here).trans present, .refl entry, id⟩
  · refine update_of_ne ?_ _ _
    rintro rfl
    rw [found] at present
    obtain rfl := some.inj present
    rw [header] at data
    contradiction
  · rw [setIndex_marked, valid]
    split
    · subst other
      simp [marked, found]
    · rfl
  · rw [setIndex_spoiled, child]
    split
    · subst other
      simp [spoiled, found]
    · rfl

end Node

section

variable [ChainParams] [Crypto] {data : LocalData} {node : Node} {block : CBlock}

theorem acceptBlockHeader_marks {after : Node} {verdict : Verdict CBlockIndex}
    (accepted : acceptBlockHeader data node block = (after, verdict)) : node.SameMarks after := by
  unfold acceptBlockHeader at accepted
  split at accepted
  · obtain rfl := (Prod.mk.inj accepted).1
    exact .refl node
  · rename_i absent
    split at accepted
    · obtain rfl := (Prod.mk.inj accepted).1
      exact .refl node
    · obtain rfl := (Prod.mk.inj accepted).1
      exact Node.addToBlockIndex_marks absent

/-- The node and the entry with which `AcceptBlock` checks the body, when it gets there
and the body is not stored. -/
def bodyStage [Legacy] (data : LocalData) (node : Node) (block : CBlock) :
    Option (Node × CBlockIndex) := do
  let pindexPrev ← (checkParent node block).toOption
  let worked ← acceptWork data node block pindexPrev
  let pindex ← (acceptBlockHeader data worked block).2.toOption
  if pindex.nStatus.haveData then none
  else some ((acceptBlockHeader data worked block).1, pindex)

/-- What is known where the body is checked. -/
structure AtBody (node : Node) (block : CBlock) (headed : Node) (pindex : CBlockIndex) : Prop where
  marks : node.SameMarks headed
  sound : headed.store.Sound
  vChain : headed.vChain = node.vChain
  entry : headed.mapBlockIndex block.getHash = some pindex
  phashBlock : pindex.phashBlock = some block.getHash
  header : pindex.nStatus.haveData = false

variable {pindex : CBlockIndex}

theorem bodyStage_atBody [Legacy] (sound : node.store.Sound) {headed : Node}
    (stage : bodyStage data node block = some (headed, pindex)) :
    AtBody node block headed pindex := by
  simp only [bodyStage, bind_eq_bind, bind_eq_some_iff] at stage
  obtain ⟨pindexPrev, _, worked, work, entry, verdict, rest⟩ := stage
  split at rest
  · contradiction
  · rename_i header
    obtain ⟨rfl, rfl⟩ := Prod.mk.inj (some.inj rest)
    obtain ⟨same, index⟩ := Node.acceptWork_same work
    have soundWorked : worked.store.Sound := same.pointers.store ▸ sound
    have accepted : acceptBlockHeader data worked block =
        ((acceptBlockHeader data worked block).1, .ok entry) :=
      Prod.ext rfl (toOption_eq_some.mp verdict)
    obtain ⟨arrival, vChain, _, found⟩ := acceptBlockHeader_arrival soundWorked accepted
    obtain ⟨entry_, hash⟩ := found entry rfl
    exact ⟨same.toSameEntries.marks.trans (acceptBlockHeader_marks accepted),
      arrival.sound soundWorked, vChain.trans same.vChain, entry_, hash, by simpa using header⟩

omit [ChainParams] in
theorem AtBody.height {headed : Node} (body : AtBody node block headed pindex) :
    ((headed.mapBlockIndex.prev pindex).map fun prev => prev.nHeight + 1).getD 0 =
      pindex.nHeight := by
  cases parent : pindex.pprev with
  | none =>
    have root : pindex.nHeight = 0 :=
      body.sound.root _ _ (Node.store_cores body.entry) parent
    simp [BlockMap.prev, parent, root]
  | some hashPrev =>
    obtain ⟨core, found, above⟩ :=
      body.sound.parent _ _ (Node.store_cores body.entry) hashPrev parent
    obtain ⟨prev, present, rfl⟩ := Node.entry_of_core found
    have next : pindex.nHeight = prev.nHeight + 1 := above
    simp [BlockMap.prev, parent, present, next]

/-- What `AcceptBlock` does to the marks: it keeps them, or marks a block whose body it
refuses. -/
inductive AcceptMarks [Legacy] (data : LocalData) (node : Node) (block : CBlock) (after : Node) :
    Prop
  | kept (same : node.SameMarks after)
  | refused (headed : Node) (pindex : CBlockIndex)
      (stage : bodyStage data node block = some (headed, pindex))
      (refusal : checkBody data headed block pindex ≠ .ok ())
      (marked : after = headed.markFailed block.getHash)

theorem acceptBlock_marks [Legacy] (data : LocalData) (block : CBlock) (sound : node.store.Sound)
    (written : Bool) :
    AcceptMarks data node block (acceptBlock data node block written).1 := by
  unfold acceptBlock
  split
  · exact .kept (.refl node)
  · rename_i pindexPrev parent
    split
    · exact .kept (.refl node)
    · rename_i worked work
      have same := (Node.acceptWork_same work).1.toSameEntries.marks
      split
      · rename_i headed state accepted
        exact .kept (same.trans (acceptBlockHeader_marks accepted))
      · rename_i headed pindex accepted
        have marks := same.trans (acceptBlockHeader_marks accepted)
        unfold acceptBody
        split
        · exact .kept marks
        · rename_i header
          have stage : bodyStage data node block = some (headed, pindex) := by
            simp [bodyStage, parent, work, accepted, header, Except.toOption]
          have body := bodyStage_atBody sound stage
          have hash : pindex.getBlockHash = block.getHash := by
            simp [CBlockIndex.getBlockHash, body.phashBlock]
          split
          · rename_i state refused
            split
            · refine .refused headed pindex stage (fun passed => ?_) (by rw [hash])
              rw [refused] at passed
              contradiction
            · exact .kept marks
          · split
            · exact .kept (marks.trans (Node.storeBlock_marks body.entry hash body.header))
            · exact .kept marks

/-- What `ConnectTip` does to the marks: it keeps them, or marks a block that
`ConnectBlock` found invalid. -/
inductive ConnectMarks (data : LocalData) (node : Node) (fScriptChecks : Bool) (hash : Uint256)
    (block : CBlock) (pindex : CBlockIndex) (after : Node) : Prop
  | kept (same : node.SameMarks after)
  | refused (middle : Node) (state : CValidationState)
      (refusal : (connectBlock data node fScriptChecks block pindex node.pcoinsTip false).verdict =
        .error state)
      (same : node.SameMarks middle) (found : (middle.mapBlockIndex hash).isSome = true)
      (marked : (middle.markFailed hash).SameMarks after)

theorem connectTip_marks (data : LocalData) {hash : Uint256} (sound : node.store.Sound)
    (found : node.mapBlockIndex hash = some pindex) {pblock : Option CBlock}
    (read : (pblock <|> node.readBlockFromDisk pindex) = some block)
    (fScriptChecks flushed : Bool) :
    ConnectMarks data node fScriptChecks hash block pindex
      (connectTip data node fScriptChecks pindex pblock flushed).1 := by
  have named : pindex.phashBlock = some hash := sound.hash hash _ (Node.store_cores found)
  have holds : node.Holds pindex := by
    intro other known
    rw [named] at known
    obtain rfl := some.inj known
    rw [found]
    rfl
  have here : pindex.getBlockHash = hash := by simp [CBlockIndex.getBlockHash, named]
  have entries := (connectBlock_frame holds data fScriptChecks block node.pcoinsTip false).entries
  unfold connectTip
  rw [read]
  simp only [here]
  split
  · rename_i state refused
    split
    · by_cases intact : state.corruptionPossible = false
      · refine .refused _ state refused entries.marks ?_
          (Node.invalidBlockFound_marks _ hash intact)
        obtain ⟨later, present, _⟩ := entries.marks.entries hash pindex found
        rw [present]
        rfl
      · refine .kept ?_
        simp only [Node.invalidBlockFound, Bool.not_eq_false] at intact ⊢
        rw [if_pos intact]
        exact entries.marks
    · exact .kept entries.marks
  · split
    · exact .kept (entries.marks.trans (.of_index rfl rfl))
    · exact .kept (entries.marks.trans (.of_index rfl rfl))

theorem disconnectTip_marks (flushed : Bool) : node.SameMarks (disconnectTip node flushed).1 := by
  unfold disconnectTip
  split
  · exact .refl node
  · rename_i pindexDelete _
    split
    · exact .refl node
    · split
      · exact .refl node
      · rename_i block _ _ _ _ _ disconnected
        have erased := (Node.erasePointer_same node block pindexDelete).marks
        rw [← disconnectBlock_node disconnected] at erased
        split
        · exact erased
        · split
          · exact erased.trans (.of_index rfl rfl)
          · exact erased.trans (.of_index rfl rfl)

end

/-! ### Failed children -/

/-- An entry without the mark `BLOCK_FAILED_CHILD`. -/
def CBlockIndex.unspoiled (pindex : CBlockIndex) : CBlockIndex :=
  { pindex with nStatus := { pindex.nStatus with failedChild := false } }

/-- A block stands on an ancestor, or is it. -/
def BlockStore.Descends (store : BlockStore) : Uint256 → Uint256 → Prop :=
  Relation.ReflTransGen fun hash hashPrev =>
    ∃ core, store.cores hash = some core ∧ core.pprev = some hashPrev

namespace Node

/-- The same node up to marks `BLOCK_FAILED_CHILD`, candidates and unlinked blocks. -/
structure SameButSpoiled (before after : Node) : Prop where
  entries : ∀ hash, (after.mapBlockIndex hash).map CBlockIndex.unspoiled =
    (before.mapBlockIndex hash).map CBlockIndex.unspoiled
  diskBlocks : after.diskBlocks = before.diskBlocks
  vChain : after.vChain = before.vChain

/-- Every failed child stands on a marked block. -/
def SpoiledBelowMarked (node : Node) : Prop :=
  ∀ hash, node.spoiled hash = true →
    ∃ ancestor, node.store.Descends hash ancestor ∧ node.marked ancestor = true

variable {before middle after node : Node}

theorem Grows.descends (grows : Grows before after) {hash ancestor : Uint256}
    (descends : before.store.Descends hash ancestor) : after.store.Descends hash ancestor := by
  refine Relation.ReflTransGen.mono ?_ _ _ descends
  rintro child parent ⟨core, found, pprev⟩
  obtain ⟨pindex, entry, rfl⟩ := entry_of_core found
  obtain ⟨later, present, place, _⟩ := grows.entries child pindex entry
  exact ⟨later.core, store_cores present, place.pprev.trans pprev⟩

theorem SameButSpoiled.refl (node : Node) : SameButSpoiled node node := ⟨fun _ => rfl, rfl, rfl⟩

theorem SameButSpoiled.trans (first : SameButSpoiled before middle)
    (second : SameButSpoiled middle after) : SameButSpoiled before after :=
  ⟨fun hash => (second.entries hash).trans (first.entries hash),
    second.diskBlocks.trans first.diskBlocks, second.vChain.trans first.vChain⟩

theorem SameButSpoiled.store (same : SameButSpoiled before after) : after.store = before.store := by
  have core : ∀ entry : Option CBlockIndex,
      entry.map CBlockIndex.core = (entry.map CBlockIndex.unspoiled).map CBlockIndex.core := by
    intro entry
    cases entry <;> rfl
  simp only [Node.store, same.diskBlocks, BlockStore.mk.injEq, and_true]
  funext hash
  rw [core, same.entries hash, ← core]

theorem SameButSpoiled.marked (same : SameButSpoiled before after) (hash : Uint256) :
    after.marked hash = before.marked hash := by
  have flag : ∀ entry : Option CBlockIndex, (entry.map fun pindex => pindex.nStatus.failedValid) =
      (entry.map CBlockIndex.unspoiled).map fun pindex => pindex.nStatus.failedValid := by
    intro entry
    cases entry <;> rfl
  rw [Node.marked, Node.marked, flag, same.entries hash, ← flag]

theorem SameButSpoiled.grows (same : SameButSpoiled before after) : Grows before after := by
  refine ⟨fun hash pindex found => ?_, fun _ _ _ _ => congrFun same.diskBlocks _⟩
  have entry := same.entries hash
  rw [found, map_some, map_eq_some_iff] at entry
  obtain ⟨later, present, equal⟩ := entry
  have place : later.unspoiled.SamePlace pindex.unspoiled := by
    rw [equal]
    exact .refl _
  have data : later.unspoiled.nStatus.haveData = pindex.unspoiled.nStatus.haveData := by rw [equal]
  exact ⟨later, present, ⟨place.phashBlock, place.pprev, place.nHeight, place.nTime⟩,
    fun stored => data.trans stored⟩

theorem dropDescendant_same (fFailedChain : Bool) {pindex : CBlockIndex}
    (found : (node.mapBlockIndex pindex.getBlockHash).map CBlockIndex.unspoiled =
      some pindex.unspoiled) :
    SameButSpoiled node (dropDescendant fFailedChain node pindex) ∧
      ∀ hash, (dropDescendant fFailedChain node pindex).spoiled hash = true →
        node.spoiled hash = true ∨ fFailedChain = true ∧ hash = pindex.getBlockHash := by
  cases fFailedChain with
  | false => exact ⟨⟨fun _ => rfl, rfl, rfl⟩, fun hash spoiled => .inl spoiled⟩
  | true =>
    refine ⟨⟨fun other => ?_, rfl, rfl⟩, fun other spoiled => ?_⟩
    · by_cases here : other = pindex.getBlockHash
      · subst here
        rw [found]
        simp only [dropDescendant, ↓reduceIte, setIndex, update_self, map_some]
        rfl
      · exact congrArg (Option.map CBlockIndex.unspoiled) (setIndex_of_ne node _ here)
    · have changed := setIndex_spoiled node pindex.getBlockHash other
        { pindex with nStatus := { pindex.nStatus with failedChild := true } }
      by_cases here : other = pindex.getBlockHash
      · exact .inr ⟨rfl, here⟩
      · rw [if_neg here] at changed
        exact .inl (changed ▸ spoiled)

theorem dropDescendants_same (fFailedChain : Bool) {above : List CBlockIndex}
    (found : ∀ pindex ∈ above, (node.mapBlockIndex pindex.getBlockHash).map CBlockIndex.unspoiled =
      some pindex.unspoiled) :
    SameButSpoiled node (above.foldl (dropDescendant fFailedChain) node) ∧
      ∀ hash, (above.foldl (dropDescendant fFailedChain) node).spoiled hash = true →
        node.spoiled hash = true ∨
          fFailedChain = true ∧ ∃ pindex ∈ above, hash = pindex.getBlockHash := by
  induction above generalizing node with
  | nil => exact ⟨.refl node, fun hash spoiled => .inl spoiled⟩
  | cons pindex rest ih =>
    obtain ⟨first, spoiledFirst⟩ :=
      dropDescendant_same fFailedChain (found pindex mem_cons_self)
    obtain ⟨others, spoiledOthers⟩ := ih fun other member => by
      rw [first.entries]
      exact found other (mem_cons_of_mem _ member)
    refine ⟨first.trans others, fun hash spoiled => ?_⟩
    rcases spoiledOthers hash spoiled with here | ⟨failed, other, member, same⟩
    · rcases spoiledFirst hash here with before | ⟨failed, same⟩
      · exact .inl before
      · exact .inr ⟨failed, pindex, mem_cons_self, same⟩
    · exact .inr ⟨failed, other, mem_cons_of_mem _ member, same⟩

section

variable [Crypto]

variable {entry : Option CBlockIndex} {rest : List CBlockIndex} {pindexNew pindexTest : CBlockIndex}

theorem branch_entries (sound : node.store.Sound) {fuel : Nat}
    (start : ∀ pindex, entry = some pindex →
      node.mapBlockIndex pindex.getBlockHash = some pindex) :
    ∀ pindex ∈ node.branch fuel entry, node.mapBlockIndex pindex.getBlockHash = some pindex := by
  induction fuel generalizing entry with
  | zero => exact fun pindex member => absurd member not_mem_nil
  | succ fuel ih =>
    cases entry with
    | none => exact fun pindex member => absurd member not_mem_nil
    | some first =>
      intro pindex member
      unfold branch at member
      split at member
      · exact absurd member not_mem_nil
      · rcases mem_cons.mp member with rfl | member
        · exact start pindex rfl
        · refine ih (fun prev found => ?_) pindex member
          obtain ⟨hashPrev, _, present⟩ := bind_eq_some_iff.mp found
          have named : prev.phashBlock = some hashPrev :=
            sound.hash hashPrev _ (store_cores present)
          simpa [CBlockIndex.getBlockHash, named] using present

omit [Crypto] in
theorem branch_cons {fuel : Nat} {first : CBlockIndex}
    (list : node.branch fuel entry = first :: rest) :
    entry = some first ∧ ∃ less, rest = node.branch less (node.mapBlockIndex.prev first) := by
  cases fuel with
  | zero => contradiction
  | succ fuel =>
    cases entry with
    | none => contradiction
    | some pindex =>
      unfold branch at list
      split at list
      · contradiction
      · obtain ⟨rfl, rfl⟩ := List.cons.inj list
        exact ⟨rfl, fuel, rfl⟩

theorem branch_descends (sound : node.store.Sound) {fuel : Nat}
    (start : ∀ pindex, entry = some pindex →
      node.mapBlockIndex pindex.getBlockHash = some pindex) {above : List CBlockIndex}
    {test : CBlockIndex} (list : node.branch fuel entry = above ++ test :: rest) :
    ∀ pindex ∈ above, node.store.Descends pindex.getBlockHash test.getBlockHash := by
  induction above generalizing fuel entry with
  | nil => exact fun pindex member => absurd member not_mem_nil
  | cons first above ih =>
    obtain ⟨rfl, less, behind⟩ := branch_cons list
    have known := start first rfl
    have next : ∀ prev, node.mapBlockIndex.prev first = some prev →
        node.mapBlockIndex prev.getBlockHash = some prev ∧
          first.pprev = some prev.getBlockHash := by
      intro prev found
      obtain ⟨hashPrev, pprev, present⟩ := bind_eq_some_iff.mp found
      have named : prev.phashBlock = some hashPrev :=
        sound.hash hashPrev _ (store_cores present)
      have here : prev.getBlockHash = hashPrev := by simp [CBlockIndex.getBlockHash, named]
      exact ⟨here ▸ present, here ▸ pprev⟩
    have others := ih (fun prev found => (next prev found).1) behind.symm
    have step : ∀ prev, node.mapBlockIndex.prev first = some prev →
        node.store.Descends first.getBlockHash prev.getBlockHash := fun prev found =>
      .single ⟨first.core, store_cores known, (next prev found).2⟩
    intro pindex member
    rcases mem_cons.mp member with rfl | member
    · cases above with
      | nil => exact step test (branch_cons behind.symm).1
      | cons second above =>
        exact (step second (branch_cons behind.symm).1).trans
          (others second mem_cons_self)
    · exact others pindex member

omit [Crypto] in
theorem bestCandidate_mem {pindex : CBlockIndex} (best : node.bestCandidate = some pindex) :
    pindex ∈ node.setBlockIndexCandidates.filterMap node.mapBlockIndex := by
  unfold bestCandidate at best
  have chosen : ∀ (entries : List CBlockIndex) start, entries.foldl better start = some pindex →
      start = some pindex ∨ pindex ∈ entries := by
    intro entries
    induction entries with
    | nil => exact fun start same => .inl same
    | cons entry rest ih =>
      intro start chosen
      rcases ih _ chosen with here | behind
      · unfold better at here
        split at here
        · exact .inr (mem_cons.mpr (.inl (some.inj here).symm))
        · split at here
          · exact .inr (mem_cons.mpr (.inl (some.inj here).symm))
          · exact .inl here
      · exact .inr (mem_cons_of_mem entry behind)
  exact (chosen _ _ best).resolve_left (by simp)

theorem bestCandidate_entry (sound : node.store.Sound) {pindex : CBlockIndex}
    (best : node.bestCandidate = some pindex) :
    node.mapBlockIndex pindex.getBlockHash = some pindex := by
  obtain ⟨hash, _, found⟩ := mem_filterMap.mp (bestCandidate_mem best)
  have named : pindex.phashBlock = some hash := sound.hash hash _ (store_cores found)
  simpa [CBlockIndex.getBlockHash, named] using found

/-- The node in the next round of `FindMostWorkChain`, when a block of the branch is
unusable. -/
def dropBranch (node : Node) (pindexNew pindexTest : CBlockIndex) : Node :=
  let above := (node.branchOf pindexNew).takeWhile fun pindex => !pindex.unusable
  let node := above.foldl (dropDescendant pindexTest.nStatus.failed) node
  { node with
    setBlockIndexCandidates := node.setBlockIndexCandidates.erase pindexTest.getBlockHash }

theorem dropBranch_parts (sound : node.store.Sound) (best : node.bestCandidate = some pindexNew)
    (unusable : (node.branchOf pindexNew).dropWhile (fun pindex => !pindex.unusable) =
      pindexTest :: rest) :
    node.branchOf pindexNew =
        ((node.branchOf pindexNew).takeWhile fun pindex => !pindex.unusable) ++
          pindexTest :: rest ∧
      ∀ pindex ∈ node.branchOf pindexNew, node.mapBlockIndex pindex.getBlockHash = some pindex := by
  have start : ∀ pindex, some pindexNew = some pindex →
      node.mapBlockIndex pindex.getBlockHash = some pindex := by
    intro pindex same
    obtain rfl := some.inj same
    exact bestCandidate_entry sound best
  refine ⟨?_, branch_entries sound start⟩
  rw [← unusable]
  exact takeWhile_append_dropWhile.symm

theorem dropBranch_same (sound : node.store.Sound) (best : node.bestCandidate = some pindexNew)
    (unusable : (node.branchOf pindexNew).dropWhile (fun pindex => !pindex.unusable) =
      pindexTest :: rest) :
    SameButSpoiled node (node.dropBranch pindexNew pindexTest) ∧
      ∀ hash, (node.dropBranch pindexNew pindexTest).spoiled hash = true →
        node.spoiled hash = true ∨ node.store.Descends hash pindexTest.getBlockHash ∧
          (node.marked pindexTest.getBlockHash || node.spoiled pindexTest.getBlockHash) = true := by
  obtain ⟨whole, known⟩ := dropBranch_parts sound best unusable
  have start : ∀ pindex, some pindexNew = some pindex →
      node.mapBlockIndex pindex.getBlockHash = some pindex := by
    intro pindex same
    obtain rfl := some.inj same
    exact bestCandidate_entry sound best
  have test : node.mapBlockIndex pindexTest.getBlockHash = some pindexTest := by
    refine known pindexTest ?_
    rw [whole]
    exact mem_append_right _ mem_cons_self
  have kept : ∀ pindex ∈ (node.branchOf pindexNew).takeWhile (fun pindex => !pindex.unusable),
      (node.mapBlockIndex pindex.getBlockHash).map CBlockIndex.unspoiled =
        some pindex.unspoiled := by
    intro pindex member
    rw [known pindex (takeWhile_subset _ member), map_some]
  obtain ⟨same, spoiled⟩ := dropDescendants_same pindexTest.nStatus.failed kept
  refine ⟨⟨same.entries, same.diskBlocks, same.vChain⟩, fun hash spoiledNext => ?_⟩
  rcases spoiled hash spoiledNext with before | ⟨failed, pindex, member, rfl⟩
  · exact .inl before
  · rw [failed_of_entry test] at failed
    exact .inr ⟨branch_descends sound start whole pindex member, failed⟩

/-- After a round every failed child stands on a marked block again. -/
theorem dropBranch_below (sound : node.store.Sound) (below : node.SpoiledBelowMarked)
    (best : node.bestCandidate = some pindexNew)
    (unusable : (node.branchOf pindexNew).dropWhile (fun pindex => !pindex.unusable) =
      pindexTest :: rest) : (node.dropBranch pindexNew pindexTest).SpoiledBelowMarked := by
  obtain ⟨same, spoiled⟩ := dropBranch_same sound best unusable
  intro hash spoiledNext
  rw [same.store]
  simp only [same.marked]
  rcases spoiled hash spoiledNext with before | ⟨descends, failed⟩
  · exact below hash before
  · rw [Bool.or_eq_true] at failed
    rcases failed with marked | child
    · exact ⟨_, descends, marked⟩
    · obtain ⟨ancestor, further, marked⟩ := below _ child
      exact ⟨ancestor, descends.trans further, marked⟩

theorem findMostWork_same (sound : node.store.Sound) (below : node.SpoiledBelowMarked) (fuel : Nat) :
    SameButSpoiled node (findMostWork fuel node).1 ∧
      (findMostWork fuel node).1.SpoiledBelowMarked := by
  induction fuel generalizing node with
  | zero => exact ⟨.refl node, below⟩
  | succ fuel ih =>
    unfold findMostWork
    split
    · exact ⟨.refl node, below⟩
    · rename_i pindexNew best
      split
      · exact ⟨.refl node, below⟩
      · rename_i pindexTest rest unusable
        have same := (dropBranch_same sound best unusable).1
        obtain ⟨first, second⟩ :=
          ih (same.store ▸ sound) (dropBranch_below sound below best unusable)
        exact ⟨same.trans first, second⟩

theorem findMostWork_picks (sound : node.store.Sound) {fuel : Nat} {picked : Node}
    {pindexNew : Option CBlockIndex} (chosen : findMostWork fuel node = (picked, pindexNew)) :
    SameButSpoiled node picked ∧ ∀ pindex, pindexNew = some pindex →
      picked.bestCandidate = some pindex ∧
        ∀ entry ∈ picked.branchOf pindex, entry.unusable = false := by
  induction fuel generalizing node with
  | zero =>
    obtain ⟨rfl, rfl⟩ := Prod.mk.inj chosen
    exact ⟨.refl node, fun pindex same => by contradiction⟩
  | succ fuel ih =>
    unfold findMostWork at chosen
    split at chosen
    · obtain ⟨rfl, rfl⟩ := Prod.mk.inj chosen
      exact ⟨.refl node, fun pindex same => by contradiction⟩
    · rename_i pindexBest best
      split at chosen
      · rename_i usable
        obtain ⟨rfl, rfl⟩ := Prod.mk.inj chosen
        refine ⟨.refl node, fun pindex same => ?_⟩
        obtain rfl := some.inj same
        refine ⟨best, fun entry member => ?_⟩
        simpa using dropWhile_eq_nil_iff.mp usable entry member
      · rename_i pindexTest rest unusable
        have same := (dropBranch_same sound best unusable).1
        obtain ⟨others, usable⟩ := ih (same.store ▸ sound) chosen
        exact ⟨same.trans others, usable⟩

end

end Node

end Agouti
