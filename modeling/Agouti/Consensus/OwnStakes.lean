import Agouti.Consensus.SeenStakes
import Agouti.Consensus.StakeKept
import Agouti.Consensus.FailureMarks
import Agouti.Consensus.StakeRewards

/-! # Blocks that meet their own stake

A block of which the write failed has left its stake in `setStakeSeen`, and is refused as a
duplicate of itself when it arrives again (`lostWrite_refused`). In a run in which no
proof-of-stake block fails at the write when it enters the block index, every block with a stake
in the set is stored or marked invalid, and none is refused for the stake that it brought itself
(`ownStake_of_run`).
-/

namespace Agouti

open Verdict Node Option StakedTip

section

variable [ChainParams] [Crypto]

/-- What reaches a node: headers, blocks, and the steps of `ActivateBestChain`. -/
inductive StakeMessage
  | headers (data : LocalData) (block : CBlock)
  | newBlock (rules : KernelRules) (data : LocalData) (block : CBlock) (fromPeer written : Bool)
  | connectTip (data : LocalData) (fScriptChecks : Bool) (hash : Uint256) (pblock : Option CBlock)
      (flushed : Bool)
  | disconnectTip (flushed : Bool)
  | findMostWorkChain

namespace StakeMessage

def run (node : Node) : StakeMessage → Node
  | headers data block => (acceptBlockHeader data node block.headerOnly).1
  | newBlock rules data block fromPeer written =>
    letI := rules.toLegacy
    (processNewBlock data node block fromPeer written).1
  | connectTip data fScriptChecks hash pblock flushed =>
    match connectArguments node hash pblock with
    | none => node
    | some (pindex, _) => (Agouti.connectTip data node fScriptChecks pindex pblock flushed).1
  | disconnectTip flushed => (Agouti.disconnectTip node flushed).1
  | findMostWorkChain => node.findMostWorkChain.1

def blockHash : StakeMessage → Uint256
  | headers _ block => block.getHash
  | newBlock _ _ block _ _ => block.getHash
  | connectTip _ _ hash _ _ => hash
  | _ => 0

/-- A new staked block was written to disk. -/
def Written (node : Node) : StakeMessage → Prop
  | newBlock _ _ block _ written =>
    block.isProofOfStake = true → node.mapBlockIndex block.getHash = none → written = true
  | _ => True

def seenBy (node : Node) (message : StakeMessage) (seenBy : COutPoint × Nat → Option Uint256) :
    COutPoint × Nat → Option Uint256 := fun stake =>
  if stake ∈ node.setStakeSeen then seenBy stake
  else if stake ∈ (message.run node).setStakeSeen then some message.blockHash
  else none

end StakeMessage

/-- The nodes that a run reaches whose messages all meet a condition, with the block of every stake
in the set. -/
inductive SeenRun (meets : Node → StakeMessage → Prop) (start : Node) :
    Node → (COutPoint × Nat → Option Uint256) → Prop
  | start : SeenRun meets start start fun _ => none
  | step {node : Node} {seenBy : COutPoint × Nat → Option Uint256} (message : StakeMessage)
      (run : SeenRun meets start node seenBy) (met : meets node message) :
      SeenRun meets start (message.run node) (message.seenBy node seenBy)

/-- A sound node that has seen no stake. -/
structure FreshNode (node : Node) : Prop where
  sound : node.store.Sound
  path : node.store.Path node.vChain
  spoiled : node.SpoiledBelowMarked
  genesis : (node.mapBlockIndex ChainParams.hashGenesisBlock).isSome = true
  unseen : node.setStakeSeen = []

/-- A proof-of-stake block whose stake is in the set because of the block itself is judged as if
the stake were not there. -/
structure OwnStakeIgnored (node : Node) (seenBy : COutPoint × Nat → Option Uint256) : Prop where
  processNewBlock : ∀ (rules : KernelRules) data block fromPeer written,
    block.isProofOfStake = true → seenBy block.getProofOfStake = some block.getHash →
    letI := rules.toLegacy
    (processNewBlock data (node.forgetStake block.getProofOfStake) block fromPeer written).2 =
      true → (processNewBlock data node block fromPeer written).2 = true
  acceptBlock : ∀ (rules : KernelRules) data block written,
    letI := rules.toLegacy
    (acceptBlock data (node.forgetStake block.getProofOfStake) block written).2 = .ok () →
      (acceptBlock data node block written).2 = .ok ()

/-- A step that adds blocks and marks. -/
structure Node.Advances (node after : Node) : Prop where
  grows : node.Grows after
  sound : after.store.Sound
  path : after.store.Path after.vChain
  marked : ∀ hash, node.marked hash = true → after.marked hash = true
  spoiled : after.SpoiledBelowMarked

/-- What a run preserves. -/
structure SeenKept (node : Node) (seenBy : COutPoint × Nat → Option Uint256) : Prop where
  sound : node.store.Sound
  path : node.store.Path node.vChain
  spoiled : node.SpoiledBelowMarked
  genesis : (node.mapBlockIndex ChainParams.hashGenesisBlock).isSome = true
  recorded : ∀ stake ∈ node.setStakeSeen, (seenBy stake).isSome = true
  settled : ∀ stake hash, seenBy stake = some hash → node.Settled hash

theorem acceptBlock_marked [Legacy] {node : Node} {block : CBlock}
    (marked : node.marked block.getHash = true) (data : LocalData) (written : Bool) :
    (acceptBlock data node block written).2 ≠ .ok () := by
  intro accepted
  unfold acceptBlock at accepted
  split at accepted
  · contradiction
  · split at accepted
    · contradiction
    · rename_i worked work
      have index := (acceptWork_same work).2
      cases found : node.mapBlockIndex block.getHash with
      | none => simp [Node.marked, found] at marked
      | some pindex =>
        have failed : pindex.nStatus.failed = true := by
          rw [failed_of_entry found, marked, Bool.true_or]
        simp [acceptBlockHeader, index, found, failed] at accepted

namespace SeenKept

variable {node : Node} {seenBy : COutPoint × Nat → Option Uint256}

section

variable (kept : SeenKept node seenBy)

include kept

theorem message (message : StakeMessage)
    (advances : node.Advances (message.run node))
    (entered : (message.run node).setStakeSeen = node.setStakeSeen ∨
      (message.run node).Settled message.blockHash) :
    SeenKept (message.run node) (message.seenBy node seenBy) := by
  obtain ⟨pindex, genesis⟩ := isSome_iff_exists.mp kept.genesis
  obtain ⟨later, present, _⟩ := advances.grows.entries _ pindex genesis
  refine ⟨advances.sound, advances.path, advances.spoiled, by rw [present]; rfl,
    fun stake member => ?_, fun stake hash seen => ?_⟩
  · unfold StakeMessage.seenBy
    split
    · rename_i before
      exact kept.recorded stake before
    · rfl
  · unfold StakeMessage.seenBy at seen
    split at seen
    · exact (kept.settled stake hash seen).grow advances.grows (advances.marked hash)
    · rename_i fresh
      split at seen
      · rename_i member
        obtain rfl := some.inj seen
        refine entered.resolve_left fun same => fresh ?_
        rw [← same]
        exact member
      · contradiction

theorem same {after : Node} (marks : node.SameMarks after)
    (sound : after.store.Sound) (path : after.store.Path after.vChain) : node.Advances after := by
  refine ⟨marks.toGrows, sound, path, fun hash mark => (marks.marked hash).trans mark,
    fun hash spoiled => ?_⟩
  obtain ⟨ancestor, descends, mark⟩ := kept.spoiled hash ((marks.spoiled hash).symm.trans spoiled)
  exact ⟨ancestor, marks.descends descends, (marks.marked ancestor).trans mark⟩

theorem marks {middle after : Node} {hash : Uint256}
    (first : node.SameMarks middle) (found : (middle.mapBlockIndex hash).isSome = true)
    (second : (middle.markFailed hash).SameMarks after)
    (sound : after.store.Sound) (path : after.store.Path after.vChain) : node.Advances after := by
  obtain ⟨pindex, present⟩ := isSome_iff_exists.mp found
  have grows := (first.toGrows.trans (markFailed_grows present)).trans second.toGrows
  have marked : ∀ other, node.marked other = true → after.marked other = true := by
    intro other mark
    rw [second.marked, markFailed_marked present, first.marked, mark, Bool.or_true]
  refine ⟨grows, sound, path, marked, fun other spoiled => ?_⟩
  rw [second.spoiled, markFailed_spoiled present, first.spoiled] at spoiled
  obtain ⟨ancestor, descends, mark⟩ := kept.spoiled other spoiled
  exact ⟨ancestor, grows.descends descends, marked ancestor mark⟩

theorem headers (data : LocalData) (block : CBlock) :
    SeenKept ((StakeMessage.headers data block).run node)
      ((StakeMessage.headers data block).seenBy node seenBy) := by
  have accepted : acceptBlockHeader data node block.headerOnly =
      ((acceptBlockHeader data node block.headerOnly).1,
        (acceptBlockHeader data node block.headerOnly).2) := rfl
  obtain ⟨arrival, vChain, _⟩ := acceptBlockHeader_arrival kept.sound accepted
  refine kept.message _ (kept.same (acceptBlockHeader_marks accepted) (arrival.sound kept.sound) ?_)
    (.inl ?_)
  · show BlockStore.Path _ (acceptBlockHeader data node block.headerOnly).1.vChain
    rw [vChain]
    exact kept.path.arrival arrival
  · show (acceptBlockHeader data node block.headerOnly).1.setStakeSeen = node.setStakeSeen
    unfold acceptBlockHeader
    split
    · rfl
    · split
      · rfl
      · exact addToBlockIndex_setStakeSeen rfl

theorem acceptBlock [Legacy] (data : LocalData) (block : CBlock)
    (written : Bool) : node.Advances (acceptBlock data node block written).1 := by
  have arrived := acceptBlock_arrived kept.sound data block written
  obtain ⟨middle, first, second⟩ := arrived.store
  have sound := second.sound (first.sound kept.sound)
  have path : (Agouti.acceptBlock data node block written).1.store.Path
      (Agouti.acceptBlock data node block written).1.vChain := by
    rw [arrived.vChain]
    exact (kept.path.arrival first).arrival second
  cases acceptBlock_marks data block kept.sound written with
  | kept same => exact kept.same same sound path
  | refused headed pindex stage refusal marked =>
    have body := bodyStage_atBody kept.sound stage
    have found : (headed.mapBlockIndex block.getHash).isSome = true := by
      rw [body.entry]
      rfl
    exact kept.marks body.marks found (marked ▸ .refl _) sound path

theorem newBlock (rules : KernelRules) (data : LocalData)
    (block : CBlock) (fromPeer written : Bool)
    (disk : (StakeMessage.newBlock rules data block fromPeer written).Written node) :
    SeenKept ((StakeMessage.newBlock rules data block fromPeer written).run node)
      ((StakeMessage.newBlock rules data block fromPeer written).seenBy node seenBy) := by
  let _ := rules.toLegacy
  have reached : (processNewBlock data node block fromPeer written).1 = node ∨
      checkBlock data node block true true = .ok () ∧
        (processNewBlock data node block fromPeer written).1 =
          (Agouti.acceptBlock data node block written).1 := by
    unfold processNewBlock
    split
    · exact .inl rfl
    · split
      · exact .inl rfl
      · split
        · exact .inl rfl
        · cases checkBlock data node block true true with
          | error state => exact .inl rfl
          | ok => exact .inr ⟨rfl, rfl⟩
  rcases reached with refused | ⟨checked, accepted⟩
  · apply kept.message
    · show node.Advances (processNewBlock data node block fromPeer written).1
      rw [refused]
      exact kept.same (.refl node) kept.sound kept.path
    · exact .inl (congrArg setStakeSeen refused)
  · apply kept.message
    · show node.Advances (processNewBlock data node block fromPeer written).1
      rw [accepted]
      exact kept.acceptBlock data block written
    · show (processNewBlock data node block fromPeer written).1.setStakeSeen = _ ∨
        (processNewBlock data node block fromPeer written).1.Settled _
      rw [accepted]
      exact acceptBlock_entered kept.sound kept.path kept.genesis checked disk

theorem connectTip (data : LocalData) (fScriptChecks : Bool)
    (hash : Uint256) (pblock : Option CBlock) (flushed : Bool) :
    SeenKept ((StakeMessage.connectTip data fScriptChecks hash pblock flushed).run node)
      ((StakeMessage.connectTip data fScriptChecks hash pblock flushed).seenBy node seenBy) := by
  cases arguments : connectArguments node hash pblock with
  | none =>
    have run : (StakeMessage.connectTip data fScriptChecks hash pblock flushed).run node = node := by
      simp only [StakeMessage.run, arguments]
    apply kept.message
    · rw [run]
      exact kept.same (.refl node) kept.sound kept.path
    · exact .inl (congrArg setStakeSeen run)
  | some pair =>
    obtain ⟨pindex, given⟩ := pair
    have run : (StakeMessage.connectTip data fScriptChecks hash pblock flushed).run node =
        (Agouti.connectTip data node fScriptChecks pindex pblock flushed).1 := by
      simp only [StakeMessage.run, arguments]
    simp only [connectArguments, bind_eq_bind, bind_eq_some_iff,
      ite_none_right_eq_some, some.injEq, Prod.mk.injEq] at arguments
    obtain ⟨entry, found, block, read, ready, rfl, rfl⟩ := arguments
    simp only [connects, Bool.and_eq_true, beq_iff_eq] at ready
    obtain ⟨⟨next, stored⟩, _⟩ := ready
    have moved : Agouti.connectTip data node fScriptChecks entry pblock flushed =
        ((Agouti.connectTip data node fScriptChecks entry pblock flushed).1,
          (Agouti.connectTip data node fScriptChecks entry pblock flushed).2) := rfl
    obtain ⟨store, path, _⟩ := connectTip_blocks kept.sound kept.path found stored next
      fScriptChecks pblock flushed moved
    apply kept.message
    · rw [run]
      cases connectTip_marks data kept.sound found read fScriptChecks flushed with
      | kept same => exact kept.same same (store ▸ kept.sound) path
      | refused middle state refusal same present marked =>
        exact kept.marks same present marked (store ▸ kept.sound) path
    · rw [run]
      exact .inl (connectTip_setStakeSeen ..)

theorem disconnectTip (flushed : Bool) :
    SeenKept ((StakeMessage.disconnectTip flushed).run node)
      ((StakeMessage.disconnectTip flushed).seenBy node seenBy) := by
  have moved : Agouti.disconnectTip node flushed =
      ((Agouti.disconnectTip node flushed).1, (Agouti.disconnectTip node flushed).2) := rfl
  obtain ⟨store, path, _⟩ := disconnectTip_blocks kept.path moved
  exact kept.message _ (kept.same (disconnectTip_marks flushed) (store ▸ kept.sound) path)
    (.inl (disconnectTip_setStakeSeen flushed))

theorem findMostWorkChain :
    SeenKept (StakeMessage.findMostWorkChain.run node)
      (StakeMessage.findMostWorkChain.seenBy node seenBy) := by
  obtain ⟨same, below⟩ := findMostWork_same kept.sound kept.spoiled
    (node.setBlockIndexCandidates.length + 1)
  refine kept.message _ ⟨same.grows, same.store ▸ kept.sound, ?_,
    fun hash mark => (same.marked hash).trans mark, below⟩ (.inl (findMostWork_setStakeSeen ..))
  show BlockStore.Path (Node.findMostWork _ node).1.store (Node.findMostWork _ node).1.vChain
  rw [same.store, same.vChain]
  exact kept.path

/-- One message. -/
theorem step (message : StakeMessage)
    (written : message.Written node) : SeenKept (message.run node) (message.seenBy node seenBy) := by
  cases message with
  | headers data block => exact kept.headers data block
  | newBlock rules data block fromPeer disk => exact kept.newBlock rules data block fromPeer disk written
  | connectTip data fScriptChecks hash pblock flushed =>
    exact kept.connectTip data fScriptChecks hash pblock flushed
  | disconnectTip flushed => exact kept.disconnectTip flushed
  | findMostWorkChain => exact kept.findMostWorkChain

end

theorem of_run {start : Node} (fresh : FreshNode start)
    (run : SeenRun StakeMessage.Written start node seenBy) :
    SeenKept node seenBy := by
  induction run with
  | start =>
    refine ⟨fresh.sound, fresh.path, fresh.spoiled, fresh.genesis, fun stake member => ?_,
      fun stake hash seen => by contradiction⟩
    rw [fresh.unseen] at member
    contradiction
  | step message _ written ih => exact ih.step message written

theorem ownStakeIgnored (kept : SeenKept node seenBy) : OwnStakeIgnored node seenBy := by
  refine ⟨fun rules data block fromPeer written _ seen => ?_, fun rules data block written => ?_⟩
  · let _ := rules.toLegacy
    intro accepted
    refine processNewBlock_withStakes rules.blind accepted ?_
    rcases kept.settled _ _ seen with stored | marked
    · simp only [isDuplicateStake, stored, Bool.not_true, Bool.and_false]
    · obtain ⟨_, _, _, _, passed⟩ := processNewBlock_ok.mp accepted
      rw [forgetStake, acceptBlock_withStakes rules.blind] at passed
      exact absurd passed (acceptBlock_marked marked data written)
  · let _ := rules.toLegacy
    intro accepted
    rw [forgetStake, acceptBlock_withStakes rules.blind] at accepted
    exact accepted

end SeenKept

/-- **No block meets its own stake while the writes succeed.** In a run of headers, blocks and
steps of `ActivateBestChain` in which every proof-of-stake block that enters the block index is
written to disk, every stake of the set entered it with a block, and no block is refused for the
stake that it brought itself. -/
theorem ownStake_of_run {start node : Node} {seenBy : COutPoint × Nat → Option Uint256}
    (fresh : FreshNode start)
    (run : SeenRun StakeMessage.Written start node seenBy) :
    (∀ stake ∈ node.setStakeSeen, (seenBy stake).isSome = true) ∧ OwnStakeIgnored node seenBy :=
  have kept := SeenKept.of_run fresh run
  ⟨kept.recorded, kept.ownStakeIgnored⟩

end

namespace LostWrite

/-! The regression test chain of `StakedTip` without its tip, and a version 5 block on top of it. -/

/-- No block below the fork passes. -/
def rules : KernelRules where
  toLegacy := legacy
  blind _ _ _ _ := rfl

def block : CBlock :=
  withMerkleRoot
    { stakingBlock 100 90 minerOutput minerKey 1400060600 [1] with
      nBits := 0x1f123156 }

def arrival (written : Bool) : StakeMessage := .newBlock rules data block true written

end LostWrite

section

local instance LostWrite.params : ChainParams := regTestParams 0
local instance LostWrite.instCrypto : Crypto := crypto

namespace LostWrite

theorem fresh : FreshNode parent where
  sound := sound
  path := path_low
  spoiled hash spoiled := by
    unfold Node.spoiled at spoiled
    cases found : parent.mapBlockIndex hash with
    | none =>
      rw [found] at spoiled
      contradiction
    | some pindex =>
      rw [found] at spoiled
      have entry : pindex = powIndex hash.toNat ∨ pindex = tipIndex := by
        simp only [parent, node] at found
        split at found
        · exact .inl (some.inj found).symm
        · simp only [ite_none_right_eq_some, some.injEq] at found
          exact .inr found.2.symm
      rcases entry with rfl | rfl
      · contradiction
      · contradiction
  genesis := rfl
  unseen := rfl

theorem seen : (arrival false).seenBy parent (fun _ => none) block.getProofOfStake =
    some block.getHash := by
  have entered : block.getProofOfStake ∈ ((arrival false).run parent).setStakeSeen := by
    decide +kernel
  simp only [StakeMessage.seenBy, if_pos entered]
  rfl

end LostWrite

/-- A version 5 block whose write failed is refused when it arrives again, and would be accepted
without its stake in the set. -/
theorem lostWrite_refused : ¬ ∀ start node seenBy, FreshNode start →
    SeenRun (fun _ _ => True) start node seenBy → OwnStakeIgnored node seenBy := by
  intro promise
  have ignored := promise _ _ _ LostWrite.fresh (.step (LostWrite.arrival false) .start trivial)
  have accepted := ignored.processNewBlock LostWrite.rules data LostWrite.block true true
    rfl LostWrite.seen
  let _ : Legacy := legacy
  have would : (processNewBlock data
      (((LostWrite.arrival false).run parent).forgetStake
        LostWrite.block.getProofOfStake) LostWrite.block true true).2 = true := by
    decide +kernel
  have refused : (processNewBlock data ((LostWrite.arrival false).run parent)
      LostWrite.block true true).2 = false := by
    decide +kernel
  exact absurd (refused.symm.trans (accepted would)) Bool.false_ne_true

/-- The block arrives once and is written. -/
theorem ownStake_of_run_written :
    (∀ stake ∈ ((LostWrite.arrival true).run parent).setStakeSeen,
      ((LostWrite.arrival true).seenBy parent (fun _ => none) stake).isSome = true) ∧
      OwnStakeIgnored ((LostWrite.arrival true).run parent)
        ((LostWrite.arrival true).seenBy parent fun _ => none) :=
  ownStake_of_run LostWrite.fresh
    (.step (LostWrite.arrival true) .start fun _ _ => rfl)

end

end Agouti
