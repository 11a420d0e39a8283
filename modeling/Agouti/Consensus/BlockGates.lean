import Agouti.Consensus.SeenStakes
import Agouti.Consensus.FailureMarks
import Agouti.Primitives.BlockCodec

/-! # What the gates of the block format drop

A block is written without the accumulator below version 4, without the signature unless it is a
proof-of-stake block, and without the stake pointer unless it is one of version 5 (`CBlock.gated`).
`CheckBlock`, `ContextualCheckBlock`, `CheckWork`, `ConnectBlock` and `DisconnectBlock` never read
what is dropped. Two functions do: `CheckBlockSignature` refuses a proof-of-work block with a
signature, and `GetProofOfStake` takes the stake of a coinstake of the version 5 form from the
pointer, whatever the version of the block. A block of neither kind is judged after it was written
and read as before (`reread_judged`).
-/

namespace Agouti

open Verdict Reader StakedTip

/-- The rules of the blocks below the stake pointer fork read nothing that is dropped. -/
def Legacy.Carried [Legacy] : Prop :=
  ∀ (node : Node) (block : CBlock) (nHeight : Int),
    Legacy.checkProofOfStake node block.gated nHeight = Legacy.checkProofOfStake node block nHeight

/-- Older rules that read nothing dropped. -/
structure CarriedRules extends Legacy where
  carried : @Legacy.Carried toLegacy

namespace CBlock

def carriesPointer (block : CBlock) : Bool := block.isProofOfStake && decide (5 ≤ block.nVersion)

/-- No function that validates a block finds a dropped field changed. -/
structure Regular (block : CBlock) : Prop where
  unsigned : block.isProofOfWork = true → block.vchBlockSig = []
  named : block.carriesPointer = false → block.hasV5CoinStake = true →
    block.stakePointer.outpoint = StakePointer.null.outpoint

variable {block : CBlock}

theorem gated_eq (carries : block.carriesPointer = true) : block.gated = block := by
  simp only [carriesPointer, Bool.and_eq_true, decide_eq_true_eq] at carries
  obtain ⟨stake, five⟩ := carries
  have four : 3 < block.nVersion := by omega
  unfold gated CBlockHeader.gated
  simp only [stake, five, four, and_self, ↓reduceIte]

theorem pointer_dropped (drops : block.carriesPointer = false) :
    block.isProofOfStake = true → ¬ 5 ≤ block.nVersion := by
  intro stake
  simpa [carriesPointer, stake] using drops

theorem getProofOfStake_gated (regular : block.Regular) :
    block.gated.getProofOfStake = block.getProofOfStake := by
  cases carries : block.carriesPointer with
  | true => rw [gated_eq carries]
  | false =>
    have vtx : block.gated.vtx = block.vtx := rfl
    have time : block.gated.nTime = block.nTime := rfl
    unfold getProofOfStake
    rw [vtx, time]
    cases found : block.vtx[1]? with
    | none => rfl
    | some coinstake =>
      simp only
      cases form : coinstake.isV5CoinStake with
      | false => rfl
      | true =>
        have v5 : block.hasV5CoinStake = true := by
          rw [hasV5CoinStake, found, Option.map_some, Option.getD_some, form]
        have dropped : block.gated.stakePointer = .null := if_neg fun both =>
          pointer_dropped carries both.1 both.2
        rw [dropped, regular.named carries v5]

variable [Crypto]

theorem checkOwnSignature_gated (regular : block.Regular) :
    block.gated.checkOwnSignature = block.checkOwnSignature := by
  cases carries : block.carriesPointer with
  | true => rw [gated_eq carries]
  | false =>
    have kind : block.gated.isProofOfWork = block.isProofOfWork := rfl
    have signer : block.gated.legacySigner = block.legacySigner := rfl
    have version : block.gated.nVersion = block.nVersion := rfl
    unfold checkOwnSignature
    rw [kind, signer, version]
    cases work : block.isProofOfWork with
    | true =>
      have stake : block.isProofOfStake = false := by simpa [isProofOfWork] using work
      have signature : block.gated.vchBlockSig = [] := if_neg (by simp [stake])
      rw [signature, regular.unsigned work]
      rfl
    | false =>
      have stake : block.isProofOfStake = true := by simpa [isProofOfWork] using work
      have signature : block.gated.vchBlockSig = block.vchBlockSig := if_pos stake
      have same : block.gated.checkBlockSignature = block.checkBlockSignature := by
        funext key
        unfold checkBlockSignature
        rw [signature, getHash_gated]
      rw [same, if_neg (pointer_dropped carries stake), if_neg (pointer_dropped carries stake)]
      rfl

end CBlock

section

variable [ChainParams] [Crypto] (data : LocalData) (node : Node) (block : CBlock)

theorem checkBlock_gated (fCheckPOW fCheckMerkleRoot : Bool) :
    checkBlock data node block.gated fCheckPOW fCheckMerkleRoot =
      checkBlock data node block fCheckPOW fCheckMerkleRoot := by
  unfold checkBlock
  rw [CBlock.serialize_gated]
  rfl

omit [Crypto] in
theorem contextualCheckBlock_gated (pindexPrev : Option CBlockIndex) :
    contextualCheckBlock data node block.gated pindexPrev =
      contextualCheckBlock data node block pindexPrev := by
  cases carries : block.carriesPointer with
  | true => rw [CBlock.gated_eq carries]
  | false =>
    have form : ∀ above : Bool,
        whenever (block.isProofOfStake && above) (checkStakePointerForm block.gated) =
          whenever (block.isProofOfStake && above) (checkStakePointerForm block) := by
      intro above
      cases stake : block.isProofOfStake with
      | false => rfl
      | true =>
        have early : block.nVersion < 5 := not_le.mp (CBlock.pointer_dropped carries stake)
        have version : block.gated.nVersion = block.nVersion := rfl
        unfold checkStakePointerForm
        rw [version, decide_eq_true early]
        rfl
    have kind : block.gated.isProofOfStake = block.isProofOfStake := rfl
    unfold contextualCheckBlock
    simp only [kind, form]
    rfl

theorem checkStake_gated (pindexPrev : CBlockIndex) :
    checkStake data node pindexPrev block.gated = checkStake data node pindexPrev block := by
  cases carries : block.carriesPointer with
  | true => rw [CBlock.gated_eq carries]
  | false =>
    have kind : block.gated.isProofOfStake = block.isProofOfStake := rfl
    have version : block.gated.nVersion = block.nVersion := rfl
    unfold checkStake
    rw [kind, version]
    cases stake : block.isProofOfStake with
    | false => rfl
    | true =>
      have early := CBlock.pointer_dropped carries stake
      simp [guard, early]

theorem checkWork_gated [Legacy] (carried : Legacy.Carried) (pindexPrev : CBlockIndex) :
    checkWork data node block.gated pindexPrev = checkWork data node block pindexPrev := by
  unfold checkWork
  simp only [checkStake_gated, carried node block, CBlock.getHash_gated]
  rfl

theorem acceptWork_gated [Legacy] (carried : Legacy.Carried) (pindexPrev : Option CBlockIndex) :
    acceptWork data node block.gated pindexPrev = acceptWork data node block pindexPrev := by
  cases pindexPrev with
  | none => rfl
  | some pindexPrev => exact checkWork_gated data node block carried pindexPrev

theorem checkParent_gated : checkParent node block.gated = checkParent node block := by
  unfold checkParent
  rw [CBlock.getHash_gated]
  rfl

variable {block}

omit [ChainParams] in
theorem newIndex_gated (regular : block.Regular) : node.newIndex block.gated = node.newIndex block := by
  have entry : CBlockIndex.ofBlock block.gated = CBlockIndex.ofBlock block := by
    have kind : block.gated.isProofOfStake = block.isProofOfStake := rfl
    unfold CBlockIndex.ofBlock
    rw [CBlock.getProofOfStake_gated regular, kind]
    by_cases four : 3 < block.nVersion
    · simp only [CBlock.gated, CBlockHeader.gated, four, ↓reduceIte]
    · simp only [CBlock.gated, CBlockHeader.gated, four, ↓reduceIte]
  unfold Node.newIndex
  rw [CBlock.getHash_gated, entry]
  rfl

theorem acceptBlockHeader_gated (regular : block.Regular) :
    acceptBlockHeader data node block.gated = acceptBlockHeader data node block := by
  have context : ∀ pindexPrev, contextualCheckBlockHeader data node block.gated.toCBlockHeader
      pindexPrev = contextualCheckBlockHeader data node block.toCBlockHeader pindexPrev := by
    intro pindexPrev
    have hash : block.gated.toCBlockHeader.getHash = block.toCBlockHeader.getHash :=
      block.toCBlockHeader.getHash_gated
    unfold contextualCheckBlockHeader
    rw [hash]
    rfl
  have checks : checkNewHeader data node block.gated = checkNewHeader data node block := by
    unfold checkNewHeader
    rw [checkParent_gated]
    simp only [context]
    rfl
  unfold acceptBlockHeader Node.addToBlockIndex
  rw [CBlock.getHash_gated, checks, newIndex_gated node regular]

theorem acceptBlock_gated [Legacy] (carried : Legacy.Carried) (regular : block.Regular)
    (written : Bool) :
    (acceptBlock data node block.gated written).2 = (acceptBlock data node block written).2 := by
  have body : ∀ headed pindex,
      checkBody data headed block.gated pindex = checkBody data headed block pindex := by
    intro headed pindex
    unfold checkBody
    rw [checkBlock_gated, contextualCheckBlock_gated]
  unfold acceptBlock
  rw [checkParent_gated]
  cases checkParent node block with
  | error state => rfl
  | ok pindexPrev =>
    simp only [acceptWork_gated data node block carried]
    cases acceptWork data node block pindexPrev with
    | none => rfl
    | some worked =>
      simp only [acceptBlockHeader_gated data worked regular]
      obtain ⟨headed, verdict⟩ := acceptBlockHeader data worked block
      cases verdict with
      | error state => rfl
      | ok pindex =>
        simp only
        unfold acceptBody
        rw [body]
        cases pindex.nStatus.haveData with
        | true => rfl
        | false =>
          cases checkBody data headed block pindex with
          | error state => rfl
          | ok =>
            cases written with
            | true => rfl
            | false => rfl

theorem processNewBlock_gated [Legacy] (carried : Legacy.Carried) (regular : block.Regular)
    (fromPeer written : Bool) :
    (processNewBlock data node block.gated fromPeer written).2 =
      (processNewBlock data node block fromPeer written).2 := by
  have duplicate : isDuplicateStake node block.gated = isDuplicateStake node block := by
    unfold isDuplicateStake
    rw [CBlock.getProofOfStake_gated regular, CBlock.getHash_gated]
    rfl
  have accepted := acceptBlock_gated data node carried regular written
  rw [Bool.eq_iff_iff, processNewBlock_ok, processNewBlock_ok, accepted, duplicate,
    CBlock.checkOwnSignature_gated regular, checkBlock_gated, CBlock.getHash_gated]
  rfl

end

section

variable [ChainParams] [Crypto] (data : LocalData) (node : Node) (block : CBlock)
  (pindex : CBlockIndex)

omit [Crypto] in
theorem isV5Stake_dropped {block : CBlock} (drops : block.carriesPointer = false) :
    isV5Stake block pindex = false := by
  unfold isV5Stake
  rw [← CBlock.carriesPointer, drops, Bool.false_and, Bool.false_and]

theorem recordPointer_gated :
    node.recordPointer block.gated pindex = node.recordPointer block pindex := by
  cases carries : block.carriesPointer with
  | true => rw [CBlock.gated_eq carries]
  | false =>
    have same : block.gated.carriesPointer = false := carries
    unfold Node.recordPointer
    rw [isV5Stake_dropped pindex carries, isV5Stake_dropped pindex same]
    rfl

theorem connectBlock_gated (fScriptChecks : Bool) (view : CCoinsViewCache) (fJustCheck : Bool) :
    connectBlock data node fScriptChecks block.gated pindex view fJustCheck =
      connectBlock data node fScriptChecks block pindex view fJustCheck := by
  have coins : connectCoins data node fScriptChecks block.gated pindex view fJustCheck =
      connectCoins data node fScriptChecks block pindex view fJustCheck := by
    unfold connectCoins
    rw [checkBlock_gated]
    rfl
  unfold connectBlock
  rw [CBlock.getHash_gated, checkBlock_gated, coins]
  split
  · rfl
  · split
    · rfl
    · unfold connectFinish
      simp only [recordPointer_gated]
      rfl

theorem disconnectBlock_gated (view : CCoinsViewCache) :
    disconnectBlock node block.gated pindex view = disconnectBlock node block pindex view := by
  have erased : node.erasePointer block.gated pindex = node.erasePointer block pindex := by
    cases carries : block.carriesPointer with
    | true => rw [CBlock.gated_eq carries]
    | false =>
      have same : block.gated.carriesPointer = false := carries
      rw [Node.erasePointer_plain (isV5Stake_dropped pindex carries),
        Node.erasePointer_plain (isV5Stake_dropped pindex same)]
  unfold disconnectBlock
  simp only [erased]
  rfl

end

namespace CBlock

variable [ChainParams] [Crypto]

/-- A block is connected and disconnected as if it had been written and read. -/
structure ConnectedAlike (block : CBlock) : Prop where
  connectBlock : ∀ data node fScriptChecks pindex view fJustCheck,
    connectBlock data node fScriptChecks block.gated pindex view fJustCheck =
      connectBlock data node fScriptChecks block pindex view fJustCheck
  disconnectBlock : ∀ node pindex view,
    disconnectBlock node block.gated pindex view = disconnectBlock node block pindex view

/-- A block is accepted as if it had been written and read. -/
structure AcceptedAlike (block : CBlock) : Prop where
  processNewBlock : ∀ (rules : CarriedRules) data node fromPeer written,
    letI := rules.toLegacy
    (processNewBlock data node block.gated fromPeer written).2 =
      (processNewBlock data node block fromPeer written).2
  acceptBlock : ∀ (rules : CarriedRules) data node written,
    letI := rules.toLegacy
    (acceptBlock data node block.gated written).2 = (acceptBlock data node block written).2

/-- Some block is read back: it is written and hashed as before, and keeps its fields. -/
def ReadBack (block : CBlock) : Prop :=
  ∃ later, Reads Deserialize.block block.serialize later ∧ later.serialize = block.serialize ∧
    later.getHash = block.getHash ∧ block.Keeps later

end CBlock

section

variable [ChainParams] [Crypto]

/-- **Blocks survive the format.** A block of which no written vector has more than `MAX_SIZE`
entries is read back from its bytes: with the same bytes and the same hash, and with every field
that its version and its kind carry. No block is connected or disconnected otherwise for the
dropped fields; and none is accepted or refused for them, but for a proof-of-work block with a
signature, and a coinstake of the version 5 form below version 5 whose pointer names an output. -/
theorem reread_judged {block : CBlock} (fits : block.Fits) :
    block.ReadBack ∧ block.ConnectedAlike ∧ (block.Regular → block.AcceptedAlike) := by
  refine ⟨⟨block.reread, fits.reads, CBlock.serialize_reread fits, block.getHash_reread, fits.keeps⟩,
    ⟨fun data node fScriptChecks pindex view fJustCheck => ?_, fun node pindex view => ?_⟩,
    fun regular => ⟨fun rules data node fromPeer written => ?_, fun rules data node written => ?_⟩⟩
  · exact connectBlock_gated data node block pindex fScriptChecks view fJustCheck
  · exact disconnectBlock_gated node block pindex view
  · let _ := rules.toLegacy
    exact processNewBlock_gated data node rules.carried regular fromPeer written
  · let _ := rules.toLegacy
    exact acceptBlock_gated data node rules.carried regular written

end

namespace SignedWork

/-! A block of proof of work with a signature, and a node that knows its parent. -/

/-- No block below the fork passes. -/
def rules : CarriedRules where
  toLegacy := VotedPayee.legacy
  carried _ _ _ := rfl

def block : CBlock := { VotedPayee.block with vchBlockSig := [1] }

end SignedWork

section

local instance SignedWork.params : ChainParams := regTestParams 0
local instance SignedWork.instCrypto : Crypto := crypto

/-- A proof-of-work block with a signature is refused, and accepted after it was written and read. -/
theorem signedWork_dropped :
    ¬ ∀ block : CBlock, block.Fits → block.ReadBack ∧ block.ConnectedAlike ∧ block.AcceptedAlike := by
  intro promise
  obtain ⟨_, _, accepted⟩ := promise SignedWork.block (by decide +kernel)
  have judged := accepted.processNewBlock SignedWork.rules data VotedPayee.node true true
  let _ : Legacy := VotedPayee.legacy
  have refused : (processNewBlock data VotedPayee.node SignedWork.block true true).2 =
      false := by
    decide +kernel
  have passed : (processNewBlock data VotedPayee.node SignedWork.block.gated true true).2 =
      true := by
    decide +kernel
  exact absurd (refused.symm.trans (judged.symm.trans passed)) Bool.false_ne_true

/-- A version 5 proof-of-stake block. -/
theorem reread_judged_staked : tipBlock.ReadBack ∧ tipBlock.ConnectedAlike ∧
    (tipBlock.Regular → tipBlock.AcceptedAlike) :=
  reread_judged (by decide +kernel)

end

end Agouti
