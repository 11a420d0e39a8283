import Agouti.Consensus.PointerRuns
import Agouti.Validation.Marks

/-! # What failure marks say

A block is marked `BLOCK_FAILED_VALID` for good: `AcceptBlock` and
`InvalidBlockFound` set the mark, and a marked block and its descendants are refused
from then on. The mark is right when the block is invalid by itself and by its
ancestors (`InvalidBlock`). The checks behind it also read the clock, the transaction
locks, the payees and the budgets; in a run in which every judged block that fulfils
the other checks passes these as well (`BlockCall.Known`), every mark is right and a
block that is offered again is accepted unless one of its ancestors is invalid
(`marksRight_of_judgedRun`).
-/

namespace Agouti

open Verdict List Option

section

variable [ChainParams] [Crypto]

/-- The block of an entry is invalid by itself, or on top of its ancestors. -/
inductive InvalidBlock (node : Node) (pindex : CBlockIndex) (block : CBlock) : Prop
  | malformed (not : ¬ FormedAt block pindex.nHeight)
  | unconnectable (chain : List Uint256) (ledger : Ledger) (path : node.store.Path chain)
      (below : chain.getLast? = pindex.pprev)
      (determined : Ledger.ofChain node.diskBlocks chain = some ledger)
      (not : ¬ Connectable ledger block pindex)

/-- Every marked block was judged and is invalid. -/
def MarksRight (node : Node) (judged : List CBlock) : Prop :=
  ∀ hash pindex, node.mapBlockIndex hash = some pindex → pindex.nStatus.failedValid = true →
    ∃ block ∈ judged, block.getHash = hash ∧ InvalidBlock node pindex block

/-- The parent that `AcceptBlock` looks up. -/
def Node.parentOf (node : Node) (block : CBlock) : Option CBlockIndex :=
  if block.getHash = ChainParams.hashGenesisBlock then none
  else node.mapBlockIndex block.hashPrevBlock

variable [Legacy]

/-- No check of `AcceptBlock` refuses the block, apart from the failure marks. -/
structure Acceptable (data : LocalData) (node : Node) (block : CBlock) : Prop where
  parent : block.getHash ≠ ChainParams.hashGenesisBlock →
    (node.mapBlockIndex block.hashPrevBlock).isSome = true
  work : (acceptWork data node block (node.parentOf block)).isSome = true
  header : node.mapBlockIndex block.getHash = none → checkBlockHeader block.nBits false = .ok () ∧
    contextualCheckBlockHeader data node block.toCBlockHeader (node.parentOf block) = .ok ()
  body : ∀ headed pindex, bodyStage data node block = some (headed, pindex) →
    checkBody data headed block pindex = .ok ()

/-- The block or its parent descends from a marked one. -/
def Node.Condemned (node : Node) (block : CBlock) : Prop :=
  ∃ root hash, (root = block.getHash ∨ root = block.hashPrevBlock) ∧
    node.store.Descends root hash ∧ node.marked hash = true

/-- A block that is offered again is accepted, or it stands on a marked block. -/
def AcceptsAgain (node : Node) : Prop :=
  ∀ data block, Acceptable data node block →
    (acceptBlock data node block true).2 = .ok () ∨ node.Condemned block

/-! ### Runs -/

/-- The calls that bring blocks, judge them, move the active chain or spread marks:
`ProcessNewBlock` and `ActivateBestChain` consist of them. -/
inductive BlockCall
  | acceptBlockHeader (data : LocalData) (block : CBlock)
  | acceptBlock (data : LocalData) (block : CBlock) (written : Bool)
  | connectTip (data : LocalData) (fScriptChecks : Bool) (hash : Uint256) (pblock : Option CBlock)
      (flushed : Bool)
  | disconnectTip (flushed : Bool)
  | findMostWorkChain

/-- The entry and the block with which `ConnectTip` is called. -/
def connectArguments (node : Node) (hash : Uint256) (pblock : Option CBlock) :
    Option (CBlockIndex × CBlock) := do
  let pindex ← node.mapBlockIndex hash
  let block ← pblock <|> node.readBlockFromDisk pindex
  if connects node hash pblock pindex then some (pindex, block) else none

def BlockCall.run (node : Node) : BlockCall → Node
  | acceptBlockHeader data block => (Agouti.acceptBlockHeader data node block).1
  | acceptBlock data block written => (Agouti.acceptBlock data node block written).1
  | connectTip data fScriptChecks hash pblock flushed =>
    match connectArguments node hash pblock with
    | none => node
    | some (pindex, _) => (Agouti.connectTip data node fScriptChecks pindex pblock flushed).1
  | disconnectTip flushed => (Agouti.disconnectTip node flushed).1
  | findMostWorkChain => node.findMostWorkChain.1

def BlockCall.judged (node : Node) : BlockCall → List CBlock
  | acceptBlock _ block _ => [block]
  | connectTip _ _ hash pblock _ => ((connectArguments node hash pblock).map Prod.snd).toList
  | _ => []

/-- The condition on a call: a judged block that fulfils the checks on itself and on its
ancestors passes the local checks as well, and `ConnectTip` finds the coins and the
record of the pointer that the chain determines. -/
def BlockCall.Known (node : Node) : BlockCall → Prop
  | acceptBlock data block _ => ∀ headed pindex,
      bodyStage data node block = some (headed, pindex) →
      FormedAt block pindex.nHeight → LocalBody data headed block pindex.nHeight
  | connectTip data fScriptChecks hash pblock _ => ∀ pindex block,
      connectArguments node hash pblock = some (pindex, block) → ∃ ledger,
        Ledger.ofChain node.diskBlocks node.vChain = some ledger ∧
        node.Meets ledger block pindex ∧
        (Connectable ledger block pindex → LocalConnect data node fScriptChecks block pindex)
  | _ => True

/-- The nodes that a run reaches in which every call meets its condition, with the
blocks judged on the way. -/
inductive JudgedRun (start : Node) : Node → List CBlock → Prop
  | start : JudgedRun start start []
  | call {node : Node} {judged : List CBlock} (call : BlockCall) (run : JudgedRun start node judged)
      (known : call.Known node) : JudgedRun start (call.run node) (call.judged node ++ judged)

/-! ### What a step preserves -/

omit [Legacy] in
theorem Connectable.place {ledger : Ledger} {block : CBlock} {pindex later : CBlockIndex}
    (connectable : Connectable ledger block pindex) (place : later.SamePlace pindex) :
    Connectable ledger block later where
  toFormed := connectable.toFormed
  genesis same := place.pprev ▸ connectable.genesis same
  applied other := by
    obtain ⟨_, _, _, applied, scripts⟩ := connectable.applied other
    obtain ⟨coins, vtxundo, totals, appliedLater, _, agrees⟩ :=
      applyTransactions_same (.refl ledger.coins) rfl place.symm true true applied
    exact ⟨coins, vtxundo, totals, appliedLater, agrees.scripts rfl scripts⟩
  pointer other v5 := connectable.pointer other (isV5Stake_congr block place.nHeight ▸ v5)

omit [Legacy] in
theorem InvalidBlock.grow {node after : Node} (grows : node.Grows after) {pindex later : CBlockIndex}
    (place : later.SamePlace pindex) {block : CBlock} (invalid : InvalidBlock node pindex block) :
    InvalidBlock after later block := by
  cases invalid with
  | malformed not => exact .malformed (place.nHeight.symm ▸ not)
  | unconnectable chain ledger path below determined not =>
    refine .unconnectable chain ledger (grows.path path) (below.trans place.pprev.symm) ?_
      fun connectable => not (connectable.place place.symm)
    rw [← determined]
    exact Ledger.ofChain_congr fun hash member => grows.path_bodies path member

/-- What a run preserves. -/
structure MarksKept (node : Node) (judged : List CBlock) : Prop where
  sound : node.store.Sound
  path : node.store.Path node.vChain
  marked : ∀ hash, node.marked hash = true → ∃ block ∈ judged, block.getHash = hash ∧
    ∃ pindex, node.mapBlockIndex hash = some pindex ∧ InvalidBlock node pindex block
  spoiled : node.SpoiledBelowMarked

namespace MarksKept

variable {node after : Node} {judged : List CBlock}

omit [Legacy] in
/-- What a step may mark, and what it keeps. -/
theorem step (kept : MarksKept node judged) (grows : node.Grows after) (sound : after.store.Sound)
    (path : after.store.Path after.vChain) {more : List CBlock}
    (marked : ∀ hash, after.marked hash = true → node.marked hash = true ∨
      ∃ block ∈ more, block.getHash = hash ∧
        ∃ pindex, after.mapBlockIndex hash = some pindex ∧ InvalidBlock after pindex block)
    (stays : ∀ hash, node.marked hash = true → after.marked hash = true)
    (spoiled : ∀ hash, after.spoiled hash = true → node.spoiled hash = true) :
    MarksKept after (more ++ judged) := by
  refine ⟨sound, path, fun hash mark => ?_, fun hash spoil => ?_⟩
  · rcases marked hash mark with before | ⟨block, member, here, invalid⟩
    · obtain ⟨block, member, here, pindex, found, invalid⟩ := kept.marked hash before
      obtain ⟨later, present, place, _⟩ := grows.entries hash pindex found
      exact ⟨block, mem_append_right more member, here, later, present,
        invalid.grow grows place⟩
    · exact ⟨block, mem_append_left judged member, here, invalid⟩
  · obtain ⟨ancestor, descends, mark⟩ := kept.spoiled hash (spoiled hash spoil)
    exact ⟨ancestor, grows.descends descends, stays ancestor mark⟩

omit [Legacy] in
theorem same (kept : MarksKept node judged) (marks : node.SameMarks after)
    (sound : after.store.Sound) (path : after.store.Path after.vChain) (more : List CBlock) :
    MarksKept after (more ++ judged) :=
  kept.step marks.toGrows sound path (fun hash mark => .inl ((marks.marked hash).symm.trans mark))
    (fun hash mark => (marks.marked hash).trans mark)
    fun hash spoil => (marks.spoiled hash).symm.trans spoil

theorem acceptBlock (kept : MarksKept node judged) {data : LocalData} {block : CBlock}
    {written : Bool} (known : (BlockCall.acceptBlock data block written).Known node) :
    MarksKept (Agouti.acceptBlock data node block written).1 (block :: judged) := by
  have arrived := acceptBlock_arrived kept.sound data block written
  obtain ⟨middle, first, second⟩ := arrived.store
  have sound := second.sound (first.sound kept.sound)
  have path : (Agouti.acceptBlock data node block written).1.store.Path
      (Agouti.acceptBlock data node block written).1.vChain := by
    rw [arrived.vChain]
    exact (kept.path.arrival first).arrival second
  cases acceptBlock_marks data block kept.sound written with
  | kept same => exact kept.same same sound path [block]
  | refused headed pindex stage refusal marked =>
    have body := bodyStage_atBody kept.sound stage
    have malformed : ¬ FormedAt block pindex.nHeight := fun formed =>
      refusal ((checkBody_ok body.height).mpr ⟨formed, known headed pindex stage formed⟩)
    have grows := body.marks.toGrows.trans (Node.markFailed_grows body.entry)
    rw [marked] at sound path ⊢
    show MarksKept _ ([block] ++ judged)
    refine kept.step grows sound path (fun hash mark => ?_) (fun hash mark => ?_)
      fun hash spoil => ?_
    · rw [Node.markFailed_marked body.entry, Bool.or_eq_true, decide_eq_true_eq,
        body.marks.marked] at mark
      rcases mark with rfl | before
      · obtain ⟨later, present, place, _⟩ :=
          (Node.markFailed_grows body.entry).entries _ pindex body.entry
        exact .inr ⟨block, mem_singleton_self block, rfl, later, present,
          .malformed (place.nHeight.symm ▸ malformed)⟩
      · exact .inl before
    · rw [Node.markFailed_marked body.entry, body.marks.marked, mark, Bool.or_true]
    · rw [Node.markFailed_spoiled body.entry, body.marks.spoiled] at spoil
      exact spoil

omit [Legacy] in
theorem connectTip (kept : MarksKept node judged) {data : LocalData} {fScriptChecks flushed : Bool}
    {hash : Uint256} {pblock : Option CBlock} {pindex : CBlockIndex} {block : CBlock}
    (arguments : connectArguments node hash pblock = some (pindex, block)) {ledger : Ledger}
    (determined : Ledger.ofChain node.diskBlocks node.vChain = some ledger)
    (meets : node.Meets ledger block pindex)
    (known : Connectable ledger block pindex → LocalConnect data node fScriptChecks block pindex) :
    MarksKept (Agouti.connectTip data node fScriptChecks pindex pblock flushed).1
      (block :: judged) := by
  simp only [connectArguments, bind_eq_bind, bind_eq_some_iff,
    ite_none_right_eq_some, some.injEq, Prod.mk.injEq] at arguments
  obtain ⟨entry, found, given, read, ready, rfl, rfl⟩ := arguments
  simp only [connects, Bool.and_eq_true, beq_iff_eq] at ready
  obtain ⟨⟨next, stored⟩, named⟩ := ready
  obtain ⟨holds, _, here⟩ := Node.holds_of_sound kept.sound found
  have moved : Agouti.connectTip data node fScriptChecks entry pblock flushed =
      ((Agouti.connectTip data node fScriptChecks entry pblock flushed).1,
        (Agouti.connectTip data node fScriptChecks entry pblock flushed).2) := rfl
  obtain ⟨store, path, _⟩ := connectTip_blocks kept.sound kept.path found stored next
    fScriptChecks pblock flushed moved
  have sound : (Agouti.connectTip data node fScriptChecks entry pblock flushed).1.store.Sound :=
    store ▸ kept.sound
  cases connectTip_marks data kept.sound found read fScriptChecks flushed with
  | kept same => exact kept.same same sound path [given]
  | refused middle state refusal same present marked =>
    obtain ⟨later, present⟩ := isSome_iff_exists.mp present
    have invalid : InvalidBlock node entry given := by
      refine .unconnectable node.vChain ledger kept.path next.symm determined fun connectable => ?_
      obtain ⟨accepted, passed⟩ := connectable.accepted meets holds (known connectable)
      rw [refusal] at passed
      contradiction
    have hash_ : given.getHash = hash := by
      cases pblock with
      | some block =>
        obtain rfl := some.inj read
        simpa using named
      | none => exact Node.stored_hash kept.sound found read
    have grows := (same.toGrows.trans (Node.markFailed_grows present)).trans marked.toGrows
    have marks : ∀ other, (Agouti.connectTip data node fScriptChecks entry pblock
        flushed).1.marked other = (decide (other = hash) || node.marked other) := by
      intro other
      rw [marked.marked, Node.markFailed_marked present, same.marked]
    show MarksKept _ ([given] ++ judged)
    refine kept.step grows sound path (fun other mark => ?_) (fun other mark => ?_)
      fun other spoil => ?_
    · rw [marks, Bool.or_eq_true, decide_eq_true_eq] at mark
      rcases mark with rfl | before
      · obtain ⟨last, found, place, _⟩ := grows.entries other entry found
        exact .inr ⟨given, mem_singleton_self given, hash_, last, found,
          invalid.grow grows place⟩
      · exact .inl before
    · rw [marks, mark, Bool.or_true]
    · rw [marked.spoiled, Node.markFailed_spoiled present, same.spoiled] at spoil
      exact spoil

theorem call (kept : MarksKept node judged) {call : BlockCall} (known : call.Known node) :
    MarksKept (call.run node) (call.judged node ++ judged) := by
  cases call with
  | acceptBlockHeader data block =>
    have accepted : Agouti.acceptBlockHeader data node block =
        ((Agouti.acceptBlockHeader data node block).1,
          (Agouti.acceptBlockHeader data node block).2) := rfl
    obtain ⟨arrival, vChain, _⟩ := acceptBlockHeader_arrival kept.sound accepted
    refine kept.same (acceptBlockHeader_marks accepted) (arrival.sound kept.sound) ?_ []
    show BlockStore.Path _ (Agouti.acceptBlockHeader data node block).1.vChain
    rw [vChain]
    exact kept.path.arrival arrival
  | acceptBlock data block written => exact kept.acceptBlock known
  | connectTip data fScriptChecks hash pblock flushed =>
    simp only [BlockCall.run, BlockCall.judged]
    cases arguments : connectArguments node hash pblock with
    | none => exact kept
    | some pair =>
      obtain ⟨pindex, block⟩ := pair
      obtain ⟨ledger, determined, meets, local_⟩ := known pindex block arguments
      exact kept.connectTip arguments determined meets local_
  | disconnectTip flushed =>
    have moved : Agouti.disconnectTip node flushed =
        ((Agouti.disconnectTip node flushed).1, (Agouti.disconnectTip node flushed).2) := rfl
    obtain ⟨store, path, _⟩ := disconnectTip_blocks kept.path moved
    exact kept.same (disconnectTip_marks flushed) (store ▸ kept.sound) path []
  | findMostWorkChain =>
    obtain ⟨same, below⟩ := Node.findMostWork_same kept.sound kept.spoiled
      (node.setBlockIndexCandidates.length + 1)
    have grows := same.grows
    refine ⟨same.store ▸ kept.sound, ?_, fun hash mark => ?_, below⟩
    · show BlockStore.Path (Node.findMostWork _ node).1.store (Node.findMostWork _ node).1.vChain
      rw [same.store, same.vChain]
      exact kept.path
    · obtain ⟨block, member, here, pindex, found, invalid⟩ :=
        kept.marked hash ((same.marked hash).symm.trans mark)
      obtain ⟨later, present, place, _⟩ := grows.entries hash pindex found
      exact ⟨block, member, here, later, present, invalid.grow grows place⟩

theorem of_run {start : Node} (kept : MarksKept start []) (run : JudgedRun start node judged) :
    MarksKept node judged := by
  induction run with
  | start => exact kept
  | call call _ known ih => exact ih.call known

omit [Legacy] in
theorem marksRight (kept : MarksKept node judged) : MarksRight node judged := by
  intro hash pindex found failed
  obtain ⟨block, member, here, entry, present, invalid⟩ := kept.marked hash (by
    rw [Node.marked, found]
    exact failed)
  rw [found] at present
  obtain rfl := some.inj present
  exact ⟨block, member, here, invalid⟩

omit [Legacy] in
theorem condemned (kept : MarksKept node judged) {hash : Uint256} {pindex : CBlockIndex}
    (found : node.mapBlockIndex hash = some pindex) (failed : pindex.nStatus.failed = true) :
    ∃ ancestor, node.store.Descends hash ancestor ∧ node.marked ancestor = true := by
  rw [Node.failed_of_entry found, Bool.or_eq_true] at failed
  rcases failed with marked | spoiled
  · exact ⟨hash, .refl, marked⟩
  · exact kept.spoiled hash spoiled

theorem acceptsAgain (kept : MarksKept node judged) : AcceptsAgain node := by
  intro data block acceptable
  by_cases condemned : node.Condemned block
  · exact .inr condemned
  · refine .inl ?_
    have usable : ∀ root pindex, (root = block.getHash ∨ root = block.hashPrevBlock) →
        node.mapBlockIndex root = some pindex → pindex.nStatus.failed = false := by
      intro root pindex at_ found
      rw [Bool.eq_false_iff]
      intro failed
      obtain ⟨ancestor, descends, marked⟩ := kept.condemned found failed
      exact condemned ⟨root, ancestor, at_, descends, marked⟩
    have parentOf : ∀ other : Node, other.mapBlockIndex = node.mapBlockIndex →
        checkParent other block = .ok (node.parentOf block) := by
      intro other index
      unfold checkParent Node.parentOf
      split
      · rfl
      · rename_i notGenesis
        obtain ⟨prev, found⟩ := isSome_iff_exists.mp (acceptable.parent notGenesis)
        simp [index, found, usable _ prev (.inr rfl) found]
    obtain ⟨worked, work⟩ := isSome_iff_exists.mp acceptable.work
    obtain ⟨same, index⟩ := Node.acceptWork_same work
    have headed : ∃ pindex, (acceptBlockHeader data worked block).2 = .ok pindex := by
      unfold acceptBlockHeader
      rw [index]
      cases found : node.mapBlockIndex block.getHash with
      | some pindex =>
        simp only [usable _ pindex (.inl rfl) found]
        exact ⟨pindex, rfl⟩
      | none =>
        obtain ⟨target, contextual⟩ := acceptable.header found
        have height : worked.height = node.height := by
          rw [Node.height, Node.height, same.vChain]
        have contextualWorked : contextualCheckBlockHeader data worked block.toCBlockHeader
            (node.parentOf block) = .ok () := by
          rw [← contextual]
          simp only [contextualCheckBlockHeader, Checkpoints.getLastCheckpoint, index, height]
        have passed : checkNewHeader data worked block = .ok () := by
          simp only [checkNewHeader, bind_eq_ok, target, parentOf worked index]
          exact ⟨(), trivial, node.parentOf block, rfl, contextualWorked⟩
        simp only [passed]
        exact ⟨_, rfl⟩
    obtain ⟨pindex, verdict⟩ := headed
    have accepted : acceptBlockHeader data worked block =
        ((acceptBlockHeader data worked block).1, .ok pindex) := Prod.ext rfl verdict
    unfold Agouti.acceptBlock
    rw [parentOf node rfl]
    simp only [work]
    rw [accepted]
    unfold acceptBody
    simp only
    split
    · rfl
    · rename_i header
      have stage : bodyStage data node block =
          some ((acceptBlockHeader data worked block).1, pindex) := by
        simp [bodyStage, parentOf node rfl, work, verdict, header, Except.toOption]
      rw [acceptable.body _ _ stage]
      rfl

end MarksKept

/-- **Marks are right while the local checks pass.** In every run from a node without
marks whose calls all meet their conditions, every mark is on a block that is invalid by
itself or on top of its ancestors, and a block that is offered again is accepted unless a
block below it is marked. -/
theorem marksRight_of_judgedRun {start node : Node} {judged : List CBlock}
    (sound : start.store.Sound) (path : start.store.Path start.vChain)
    (unmarked : ∀ hash, start.marked hash = false ∧ start.spoiled hash = false)
    (run : JudgedRun start node judged) : MarksRight node judged ∧ AcceptsAgain node := by
  have kept : MarksKept start [] := by
    refine ⟨sound, path, fun hash mark => ?_, fun hash spoil => ?_⟩
    · rw [(unmarked hash).1] at mark
      contradiction
    · rw [(unmarked hash).2] at spoil
      contradiction
  exact ⟨(kept.of_run run).marksRight, (kept.of_run run).acceptsAgain⟩

end

namespace VotedPayee

/-! A regression test chain of the genesis block alone. The first block on top of it is
stored before the node has synchronised its votes, and connected when six votes name
a payee. -/

/-- Equal difficulties lie within a half of each other. -/
@[reducible] def legacy : Legacy := ⟨fun _ _ _ => none, fun n1 n2 => n1 == n2⟩

def node : Node where
  mapBlockIndex hash := if hash = 0 then some (StakedTip.powIndex 0) else none
  vChain := [0]
  diskBlocks hash := if hash = 0 then some (StakedTip.powBlock 0) else none
  diskUndo _ := none
  pcoinsTip := ⟨fun _ => {}, 0⟩
  mapProofOfStake := []
  setStakeSeen := []
  mapUsedStakePointers _ := none
  setBlockIndexCandidates := [0]
  mapBlocksUnlinked := []
  nBlockSequenceId := 1

def block : CBlock := StakedTip.powBlock 1

/-- Masternode payments are enforced, and the votes of every height name one payee. -/
def voted : LocalData :=
  { StakedTip.data with
    fSynced := true
    isSporkActive := fun spork => spork == .SPORK_8_MASTERNODE_PAYMENT_ENFORCEMENT
    mapMasternodeBlocks := fun _ => some [⟨[0x52], 6⟩] }

end VotedPayee

section

local instance VotedPayee.params : ChainParams := regTestParams 0
local instance VotedPayee.crypto : Crypto := StakedTip.crypto
local instance VotedPayee.instLegacy : Legacy := VotedPayee.legacy

namespace VotedPayee

def stored : Node := (BlockCall.acceptBlock StakedTip.data block true).run node

def marked : Node := (BlockCall.connectTip voted true 1 none true).run stored

theorem cores {hash : Uint256} {core : IndexCore} (found : node.store.cores hash = some core) :
    hash = 0 ∧ core = (StakedTip.powIndex 0).core := by
  obtain ⟨pindex, entry, rfl⟩ := Node.entry_of_core found
  obtain ⟨here, same⟩ := ite_none_right_eq_some.mp entry
  exact ⟨here, congrArg CBlockIndex.core (some.inj same).symm⟩

theorem sound : node.store.Sound := by
  refine .of_check fun hash => ?_
  by_cases here : hash = 0
  · subst here
    exact StakedTip.entries_sound 0
  · have absent : node.mapBlockIndex hash = none := if_neg here
    simp [BlockStore.entrySound, Node.store, absent]

theorem path : node.store.Path node.vChain :=
  have genesis : node.store.cores 0 = some (StakedTip.powIndex 0).core := rfl
  ((BlockStore.Path.nil _).push sound genesis rfl rfl).2

theorem unmarked (hash : Uint256) : node.marked hash = false ∧ node.spoiled hash = false := by
  by_cases here : hash = 0
  · subst here
    exact ⟨rfl, rfl⟩
  · have absent : node.mapBlockIndex hash = none := if_neg here
    simp [Node.marked, Node.spoiled, absent]

theorem passed : (bodyStage StakedTip.data node block).map (fun stage =>
    (checkBody StakedTip.data stage.1 block stage.2).toOption) = some (some ()) := by
  decide +kernel

theorem known : (BlockCall.acceptBlock StakedTip.data block true).Known node := by
  intro headed pindex stage _
  have body := bodyStage_atBody sound stage
  have accepted := passed
  rw [stage, map_some, some.injEq] at accepted
  exact ((checkBody_ok body.height).mp (toOption_eq_some.mp accepted)).2

def ledger : Ledger := ⟨⟨fun _ => {}, 0⟩, fun _ => none, 0⟩

theorem marked_checked :
    (stored.mapBlockIndex 1 = (marked.mapBlockIndex 1).map fun pindex =>
      { pindex with nStatus := { pindex.nStatus with failedValid := false } }) ∧
    (marked.mapBlockIndex 1).map (fun pindex => (pindex.nStatus.failedValid, pindex.nHeight,
      pindex.pprev)) = some (true, 1, some 0) ∧
    (marked.mapBlockIndex 1).map (fun pindex =>
      (checkBody StakedTip.data marked block pindex).toOption) = some (some ()) ∧
    (marked.mapBlockIndex 0).map CBlockIndex.nHeight = some 0 ∧
    (marked.store.cores 0).map IndexCore.nHeight = some 0 ∧
    marked.diskBlocks 0 = some (StakedTip.powBlock 0) := by
  decide +kernel

theorem marked_entry : ∃ pindex, marked.mapBlockIndex 1 = some pindex ∧
    pindex.nStatus.failedValid = true ∧ pindex.nHeight = 1 ∧ pindex.pprev = some 0 ∧
    stored.mapBlockIndex 1 = some { pindex with
      nStatus := { pindex.nStatus with failedValid := false } } := by
  obtain ⟨before, fields, _⟩ := marked_checked
  obtain ⟨pindex, found, same⟩ := map_eq_some_iff.mp fields
  rw [Prod.mk.injEq, Prod.mk.injEq] at same
  rw [found] at before
  exact ⟨pindex, found, same.1, same.2.1, same.2.2, before⟩

theorem below {chain : List Uint256} (path : marked.store.Path chain)
    (last : chain.getLast? = some 0) : chain = [0] := by
  obtain ⟨core, found, height, _⟩ := path.last last
  obtain ⟨_, _, _, _, bottom, _⟩ := marked_checked
  rw [found, map_some, some.injEq, height] at bottom
  have length : chain.length = 1 := by omega
  obtain ⟨hash, rfl⟩ := length_eq_one_iff.mp length
  rw [List.getLast?_singleton, some.injEq] at last
  rw [last]

theorem determined : Ledger.ofChain marked.diskBlocks [0] = some ledger := by
  obtain ⟨_, _, _, _, _, body⟩ := marked_checked
  have genesis : (StakedTip.powBlock 0).getHash = ChainParams.hashGenesisBlock :=
    StakedTip.powBlock_hash (Nat.zero_le _)
  have connected : Ledger.empty.connect (StakedTip.powBlock 0) = some ledger := by
    rw [Ledger.connect, if_pos genesis, genesis]
    rfl
  rw [← nil_append [(0 : Uint256)], Ledger.ofChain_snoc, body]
  exact connected

theorem formed : FormedAt block 1 := by
  obtain ⟨pindex, found, _, _, pprev, _⟩ := marked_entry
  obtain ⟨_, _, accepted, bottom, _⟩ := marked_checked
  obtain ⟨first, present, height⟩ := map_eq_some_iff.mp bottom
  have above : ((marked.mapBlockIndex.prev pindex).map fun prev => prev.nHeight + 1).getD 0 = 1 := by
    rw [BlockMap.prev, pprev, bind_some, present, map_some, getD_some, height]
    rfl
  rw [found, map_some, some.injEq] at accepted
  exact ((checkBody_ok above).mp (toOption_eq_some.mp accepted)).1

def atGenesis : Node := { node with mapBlockIndex := stored.mapBlockIndex }

theorem atGenesis_index (hash : Uint256) :
    atGenesis.mapBlockIndex hash = stored.mapBlockIndex hash := by
  rw [atGenesis]

theorem connectable {pindex : CBlockIndex} (found : stored.mapBlockIndex 1 = some pindex) :
    Connectable ledger block pindex := by
  have accepted : (stored.mapBlockIndex 1).map (fun pindex =>
      (connectBlock StakedTip.data atGenesis true block pindex atGenesis.pcoinsTip
        false).verdict.toOption.isSome) = some true := by decide +kernel
  have hash : (stored.mapBlockIndex 1).map CBlockIndex.phashBlock = some (some 1) := by
    decide +kernel
  have bottom : (atGenesis.mapBlockIndex 0).map CBlockIndex.nHeight =
      (ledger.node.mapBlockIndex 0).map CBlockIndex.nHeight := by decide +kernel
  rw [found, map_some, some.injEq] at accepted hash
  have holds : atGenesis.Holds pindex := by
    intro other named
    rw [hash] at named
    obtain rfl := some.inj named
    rw [atGenesis_index, found, map_some]
  have best : atGenesis.pcoinsTip.hashBlock = 0 ∧ ledger.coins.hashBlock = 0 := ⟨rfl, rfl⟩
  have top : SameTop atGenesis.mapBlockIndex atGenesis.pcoinsTip ledger.node.mapBlockIndex
      ledger.coins := by
    rw [SameTop, best.1, best.2]
    exact bottom
  have meets : atGenesis.Meets ledger block pindex := ⟨⟨.refl _, top⟩, fun _ => rfl⟩
  obtain ⟨result, outcome⟩ := isSome_iff_exists.mp accepted
  exact connectable_of_accepted meets holds (toOption_eq_some.mp outcome)

end VotedPayee

/-- A block that is stored while the node does not know the votes, and connected when it
does, is marked for good although it is valid on its chain. -/
theorem votedPayee_marked :
    ¬ MarksRight VotedPayee.marked [VotedPayee.block, VotedPayee.block] ∧
      (acceptBlock StakedTip.data VotedPayee.node VotedPayee.block true).2.toOption.isSome = true ∧
      (acceptBlock StakedTip.data VotedPayee.marked VotedPayee.block true).2.toOption.isSome =
        false := by
  refine ⟨fun right => ?_, by decide +kernel, by decide +kernel⟩
  obtain ⟨pindex, found, failed, height, pprev, before⟩ := VotedPayee.marked_entry
  obtain ⟨block, member, _, invalid⟩ := right 1 pindex found failed
  obtain rfl : block = VotedPayee.block := by simpa using member
  cases invalid with
  | malformed not => exact not (height ▸ VotedPayee.formed)
  | unconnectable chain ledger path below determined not =>
    obtain rfl := VotedPayee.below path (below.trans pprev)
    rw [VotedPayee.determined] at determined
    obtain rfl := some.inj determined
    exact not ((VotedPayee.connectable before).place ⟨rfl, rfl, rfl, rfl⟩)

/-- The run that stores the block. -/
theorem marksRight_of_judgedRun_votedPayee :
    MarksRight VotedPayee.stored [VotedPayee.block] ∧ AcceptsAgain VotedPayee.stored :=
  marksRight_of_judgedRun VotedPayee.sound VotedPayee.path VotedPayee.unmarked
    (.call _ .start VotedPayee.known)

end

end Agouti
