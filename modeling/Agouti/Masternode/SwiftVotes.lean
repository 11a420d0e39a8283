import Agouti.Masternode.SwiftRelease

/-! # Which votes a lock counts

A lock should count the valid votes that arrived for its transaction. A vote is entered in
`mapTxLockVote` before it is checked, under a hash that covers neither its height nor its
signature, and a vote whose hash is known is dropped. So the lock counts exactly the valid
votes if and only if no valid vote finds its hash taken, unless it is counted already
(`votesCounted_iff`).
-/

namespace Agouti

open List

/-- The messages of `ProcessMessageSwiftTX`, each with what its handler reads of the node. -/
inductive SwiftMessage where
  | ix (context : SwiftContext) (tx : CTransaction)
  | txlvote (context : SwiftContext) (ctx : CConsensusVote)

/-- The checks of `ProcessConsensusVote` pass. -/
def SwiftContext.voteValid (context : SwiftContext) (ctx : CConsensusVote) : Bool :=
  let n := context.getMasternodeRank ctx.vinMasternode ctx.nBlockHeight
  context.enabled && n != -1 && decide (n ≤ SWIFTTX_SIGNATURES_TOTAL) && context.signatureValid ctx

def SwiftState.votesOf (state : SwiftState) (txHash : Uint256) : List CConsensusVote :=
  ((state.mapTxLocks.lookup txHash).map CTransactionLock.vecConsensusVotes).getD []

namespace SwiftMessage

def validVotes (messages : List SwiftMessage) : List CConsensusVote :=
  messages.filterMap fun message =>
    match message with
    | ix _ _ => none
    | txlvote context ctx => if context.voteValid ctx then some ctx else none

variable [Crypto]

def run (state : SwiftState) : SwiftMessage → SwiftState
  | ix context tx => state.processRequest context tx
  | txlvote context ctx => state.processVote context ctx

end SwiftMessage

namespace SwiftState

/-- The votes for a transaction are counted, and no others. -/
def Counts (state : SwiftState) (votes : List CConsensusVote) : Prop :=
  ∀ txHash ctx, ctx ∈ state.votesOf txHash ↔ ctx.txHash = txHash ∧ ctx ∈ votes

/-- The counts are the same, and no vote is forgotten. -/
structure SameCount (state after : SwiftState) : Prop where
  votes : ∀ txHash, after.votesOf txHash = state.votesOf txHash
  seen : ∀ hash, (state.mapTxLockVote hash).isSome = true →
    (after.mapTxLockVote hash).isSome = true

variable {state after : SwiftState} {context : SwiftContext} {tx : CTransaction}
  {ctx : CConsensusVote}

theorem SameCount.refl (state : SwiftState) : SameCount state state :=
  ⟨fun _ => rfl, fun _ => id⟩

theorem SameCount.trans {middle : SwiftState} (first : SameCount state middle)
    (second : SameCount middle after) : SameCount state after :=
  ⟨fun txHash => (second.votes txHash).trans (first.votes txHash),
    fun hash found => second.seen hash (first.seen hash found)⟩

theorem SameCount.of_same (locks : after.mapTxLocks = state.mapTxLocks)
    (votes : after.mapTxLockVote = state.mapTxLockVote) : SameCount state after :=
  ⟨fun txHash => by rw [votesOf, votesOf, locks], fun hash => by rw [votes]; exact id⟩

theorem sameCount_insert {hash : Uint256} {lock : CTransactionLock}
    (same : lock.vecConsensusVotes = state.votesOf hash) :
    SameCount state { state with mapTxLocks := state.mapTxLocks.insert hash lock } := by
  refine ⟨fun txHash => ?_, fun _ => id⟩
  by_cases here : txHash = hash
  · subst here
    rw [votesOf, AList.lookup_insert]
    exact same
  · rw [votesOf, AList.lookup_insert_ne here]
    rfl

theorem sameCount_changeLock (hash : Uint256) {change : CTransactionLock → CTransactionLock}
    (same : ∀ lock, (change lock).vecConsensusVotes = lock.vecConsensusVotes) :
    SameCount state (state.changeLock hash change) := by
  unfold changeLock
  cases found : state.mapTxLocks.lookup hash with
  | none => exact .refl state
  | some lock =>
    apply sameCount_insert
    rw [same, votesOf, found]
    rfl

/-- A hash that is entered forgets none. -/
theorem sameCount_vote (ctx : CConsensusVote) : SameCount state { state with
    mapTxLockVote := Function.update state.mapTxLockVote ctx.getHash (some ctx) } := by
  refine ⟨fun _ => rfl, fun hash found => ?_⟩
  simp only [Function.update_apply]
  split
  · rfl
  · exact found

theorem sameCount_insertRequest (state : SwiftState) (hash : Uint256) (tx : CTransaction) :
    SameCount state (state.insertRequest hash tx) := by
  unfold insertRequest
  split
  · exact .refl state
  · exact .of_same rfl rfl

variable [Crypto]

theorem sameCount_createNewLock (context : SwiftContext) (state : SwiftState)
    (tx : CTransaction) : SameCount state (state.createNewLock context tx).1 := by
  unfold createNewLock
  split
  · exact .refl state
  · cases found : state.mapTxLocks.lookup tx.getHash with
    | none =>
      apply sameCount_insert
      rw [votesOf, found]
      rfl
    | some lock =>
      apply sameCount_insert
      rw [votesOf, found]
      rfl

theorem sameCount_doConsensusVote (context : SwiftContext) (state : SwiftState)
    (tx : CTransaction) (nBlockHeight : Int) :
    SameCount state (state.doConsensusVote context tx nBlockHeight) := by
  apply doConsensusVote_rule (.refl state)
  exact sameCount_vote

theorem sameCount_checkForConflictingLocks (context : SwiftContext) (state : SwiftState)
    (tx : CTransaction) : SameCount state (state.checkForConflictingLocks context tx).1 := by
  apply checkForConflictingLocks_rule (.refl state)
  exact fun _ hash before => before.trans (sameCount_changeLock hash fun _ => rfl)

theorem sameCount_rejectRequest (context : SwiftContext) (state : SwiftState)
    (tx : CTransaction) : SameCount state (state.rejectRequest context tx) := by
  apply rejectRequest_rule
  · exact fun marked same => .of_same same.locks same.votes
  · exact fun after before => before.trans (sameCount_checkForConflictingLocks context after tx)
  · intro marked same _
    have locked : SameCount state (marked.lockInputs tx.getHash tx.vin) :=
      .of_same same.locks same.votes
    exact locked.trans (sameCount_insertRequest ..)

theorem sameCount_processRequest (context : SwiftContext) (state : SwiftState)
    (tx : CTransaction) : SameCount state (state.processRequest context tx) := by
  unfold processRequest
  split
  · exact .refl state
  · have made := sameCount_createNewLock context state tx
    simp only
    split
    · exact made.trans ((sameCount_doConsensusVote ..).trans (sameCount_insertRequest ..))
    · exact made.trans (sameCount_rejectRequest ..)

theorem processVote_seen (known : (state.mapTxLockVote ctx.getHash).isSome = true) :
    state.processVote context ctx = state := by
  simp only [processVote, known, if_true, ite_self]

theorem processConsensusVote_invalid (enabled : context.enabled = true)
    (invalid : context.voteValid ctx = false) : state.processConsensusVote context ctx = state := by
  unfold processConsensusVote
  simp only
  split
  · rfl
  rename_i known
  split
  · rfl
  rename_i low
  split
  · rfl
  rename_i signed
  -- all checks have passed
  simp only [SwiftContext.voteValid, enabled, Bool.true_and] at invalid
  rw [Bool.not_eq_true', Bool.not_eq_false] at signed
  rw [signed, bne_iff_ne.mpr known, decide_eq_true (Int.not_lt.mp low)] at invalid
  contradiction

theorem processVote_invalid (invalid : context.voteValid ctx = false) :
    SameCount state (state.processVote context ctx) := by
  unfold processVote
  split
  · exact .refl state
  rename_i enabled
  rw [Bool.not_eq_true', Bool.not_eq_false] at enabled
  split
  · exact .refl state
  · rw [processConsensusVote_invalid enabled invalid]
    exact sameCount_vote ctx

theorem processVote_valid (valid : context.voteValid ctx = true)
    (fresh : (state.mapTxLockVote ctx.getHash).isSome = false) :
    (∀ txHash, (state.processVote context ctx).votesOf txHash =
        if txHash = ctx.txHash then state.votesOf txHash ++ [ctx] else state.votesOf txHash) ∧
      ∀ hash, (state.mapTxLockVote hash).isSome = true →
        ((state.processVote context ctx).mapTxLockVote hash).isSome = true := by
  simp only [SwiftContext.voteValid, Bool.and_eq_true, bne_iff_ne, decide_eq_true_eq] at valid
  obtain ⟨⟨⟨enabled, known⟩, low⟩, signed⟩ := valid
  generalize marked : { state with
    mapTxLockVote := Function.update state.mapTxLockVote ctx.getHash (some ctx) } = next
  have sameLocks : next.mapTxLocks = state.mapTxLocks := by rw [← marked]
  have added : ∀ txHash, (next.addVote context ctx).1.votesOf txHash =
      if txHash = ctx.txHash then state.votesOf txHash ++ [ctx] else state.votesOf txHash := by
    intro txHash
    unfold addVote votesOf
    simp only [sameLocks]
    split
    · rename_i here
      subst here
      rw [AList.lookup_insert]
      cases state.mapTxLocks.lookup ctx.txHash <;> rfl
    · rename_i apart
      rw [AList.lookup_insert_ne apart]
  have seen : ∀ hash, (state.mapTxLockVote hash).isSome = true →
      ((next.addVote context ctx).1.mapTxLockVote hash).isSome = true := by
    intro hash found
    change (next.mapTxLockVote hash).isSome = true
    rw [← marked]
    exact (sameCount_vote ctx).seen hash found
  have finish : SameCount (next.addVote context ctx).1 (state.processVote context ctx) := by
    unfold processVote processConsensusVote
    rw [marked]
    simp only [enabled, fresh, known, Int.not_lt.mpr low, signed, Bool.not_true, Bool.false_eq_true,
      if_false]
    split
    · exact .refl _
    · split
      · exact sameCount_insertRequest ..
      · rename_i request _
        have entered := sameCount_insertRequest (next.addVote context ctx).1 ctx.txHash
          { nVersion := 1, vin := [], vout := [], nLockTime := 0 }
        have checked := entered.trans (sameCount_checkForConflictingLocks context _ request)
        split
        · exact checked
        · exact checked.trans (.of_same rfl rfl)
  exact ⟨fun txHash => (finish.votes txHash).trans (added txHash),
    fun hash found => finish.seen hash (seen hash found)⟩

/-- A vote that comes to count is new. -/
theorem mem_votesOf_run {message : SwiftMessage} {txHash : Uint256}
    (counted : ctx ∈ (message.run state).votesOf txHash) :
    ctx ∈ state.votesOf txHash ∨ (state.mapTxLockVote ctx.getHash).isSome = false := by
  cases message with
  | ix context tx =>
    rw [SwiftMessage.run, (sameCount_processRequest context state tx).votes] at counted
    exact .inl counted
  | txlvote context vote =>
    cases known : (state.mapTxLockVote vote.getHash).isSome with
    | true =>
      rw [SwiftMessage.run, processVote_seen known] at counted
      exact .inl counted
    | false =>
      cases valid : context.voteValid vote with
      | false =>
        rw [SwiftMessage.run, (processVote_invalid valid).votes] at counted
        exact .inl counted
      | true =>
        rw [SwiftMessage.run, (processVote_valid valid known).1] at counted
        split at counted
        · rcases mem_append.mp counted with before | here
          · exact .inl before
          · rw [mem_singleton.mp here]
            exact .inr known
        · exact .inl counted

theorem seen_run (message : SwiftMessage) {hash : Uint256}
    (known : (state.mapTxLockVote hash).isSome = true) :
    ((message.run state).mapTxLockVote hash).isSome = true := by
  cases message with
  | ix context tx => exact (sameCount_processRequest context state tx).seen hash known
  | txlvote context vote =>
    cases there : (state.mapTxLockVote vote.getHash).isSome with
    | true =>
      rw [SwiftMessage.run, processVote_seen there]
      exact known
    | false =>
      cases valid : context.voteValid vote with
      | false => exact (processVote_invalid valid).seen hash known
      | true => exact (processVote_valid valid there).2 hash known

theorem not_counted_of_seen {txHash : Uint256} (messages : List SwiftMessage)
    (known : (state.mapTxLockVote ctx.getHash).isSome = true)
    (absent : ctx ∉ state.votesOf txHash) :
    ctx ∉ (messages.foldl SwiftMessage.run state).votesOf txHash := by
  induction messages generalizing state with
  | nil => exact absent
  | cons message rest ih =>
    apply ih
    · exact seen_run message known
    · intro counted
      rcases mem_votesOf_run counted with before | fresh
      · exact absent before
      · rw [known] at fresh
        contradiction

/-- One message. -/
theorem Counts.run {votes : List CConsensusVote} (counts : state.Counts votes)
    (message : SwiftMessage)
    (fits : ∀ context vote, message = .txlvote context vote → context.voteValid vote = true →
      (state.mapTxLockVote vote.getHash).isSome = true → vote ∈ state.votesOf vote.txHash) :
    (message.run state).Counts (votes ++ SwiftMessage.validVotes [message]) := by
  have unchanged : SameCount state (message.run state) →
      (∀ vote ∈ SwiftMessage.validVotes [message], vote ∈ votes) →
      (message.run state).Counts (votes ++ SwiftMessage.validVotes [message]) := by
    intro same old txHash vote
    rw [same.votes, counts txHash vote, mem_append]
    refine and_congr_right fun _ => ⟨.inl, fun either => ?_⟩
    rcases either with before | here
    · exact before
    · exact old vote here
  cases message with
  | ix context tx =>
    apply unchanged (sameCount_processRequest context state tx)
    intro vote member
    contradiction
  | txlvote context vote =>
    cases valid : context.voteValid vote with
    | false =>
      apply unchanged (processVote_invalid valid)
      intro other member
      simp [SwiftMessage.validVotes, valid] at member
    | true =>
      have list : SwiftMessage.validVotes [.txlvote context vote] = [vote] := by
        simp [SwiftMessage.validVotes, valid]
      cases known : (state.mapTxLockVote vote.getHash).isSome with
      | true =>
        apply unchanged
        · rw [SwiftMessage.run, processVote_seen known]
          exact .refl state
        · intro other member
          rw [list, mem_singleton] at member
          rw [member]
          exact ((counts vote.txHash vote).mp (fits context vote rfl valid known)).2
      | false =>
        intro txHash other
        rw [SwiftMessage.run, (processVote_valid valid known).1, list, mem_append,
          mem_singleton]
        split
        · rename_i here
          rw [mem_append, mem_singleton, counts txHash other]
          constructor
          · rintro (⟨named, before⟩ | rfl)
            · exact ⟨named, .inl before⟩
            · exact ⟨here.symm, .inr rfl⟩
          · rintro ⟨named, before | rfl⟩
            · exact .inl ⟨named, before⟩
            · exact .inr rfl
        · rename_i apart
          rw [counts txHash other]
          refine and_congr_right fun named => ⟨.inl, ?_⟩
          rintro (before | rfl)
          · exact before
          · exact absurd named.symm apart

omit [Crypto] in
theorem validVotes_cons (message : SwiftMessage) (rest : List SwiftMessage) :
    SwiftMessage.validVotes (message :: rest) =
      SwiftMessage.validVotes [message] ++ SwiftMessage.validVotes rest := by
  rw [← singleton_append, SwiftMessage.validVotes, filterMap_append]
  rfl

/-- **When a lock counts the valid votes.** After any messages every lock counts exactly the
valid votes that arrived for its transaction if and only if no valid vote came under a hash that
was known, unless the lock counted it already. -/
theorem votesCounted_iff (messages : List SwiftMessage) :
    Counts (messages.foldl SwiftMessage.run {}) (SwiftMessage.validVotes messages) ↔
      ∀ before context ctx after, messages = before ++ .txlvote context ctx :: after →
        context.voteValid ctx = true →
        ((before.foldl SwiftMessage.run {}).mapTxLockVote ctx.getHash).isSome = true →
        ctx ∈ (before.foldl SwiftMessage.run {}).votesOf ctx.txHash := by
  have run : ∀ (state : SwiftState) votes, state.Counts votes →
      ((messages.foldl SwiftMessage.run state).Counts
          (votes ++ SwiftMessage.validVotes messages) ↔
        ∀ before context ctx after, messages = before ++ .txlvote context ctx :: after →
          context.voteValid ctx = true →
          ((before.foldl SwiftMessage.run state).mapTxLockVote ctx.getHash).isSome = true →
          ctx ∈ (before.foldl SwiftMessage.run state).votesOf ctx.txHash) := by
    induction messages with
    | nil =>
      intro state votes counts
      refine ⟨fun _ before context ctx after split => ?_, fun _ => ?_⟩
      · exact absurd split.symm (append_ne_nil_of_right_ne_nil before (cons_ne_nil _ _))
      · simpa [SwiftMessage.validVotes] using counts
    | cons message rest ih =>
      intro state votes counts
      by_cases fits : ∀ context vote, message = .txlvote context vote →
          context.voteValid vote = true → (state.mapTxLockVote vote.getHash).isSome = true →
          vote ∈ state.votesOf vote.txHash
      · rw [foldl_cons, validVotes_cons, ← append_assoc,
          ih (message.run state) _ (counts.run message fits)]
        constructor
        · intro later before context ctx after split
          cases before with
          | nil => exact fits context ctx (List.cons.inj split).1
          | cons first before =>
            obtain ⟨rfl, others⟩ := List.cons.inj split
            exact later before context ctx after others
        · intro all before context ctx after split
          refine all (message :: before) context ctx after ?_
          rw [split, cons_append]
      · refine ⟨fun counted => ?_, fun all => absurd ?_ fits⟩
        · simp only [not_forall] at fits
          obtain ⟨context, vote, same, valid, known, absent⟩ := fits
          have here : vote ∈ votes ++ SwiftMessage.validVotes (message :: rest) := by
            apply mem_append_right
            rw [validVotes_cons, same]
            apply mem_append_left
            simp [SwiftMessage.validVotes, valid]
          have never := not_counted_of_seen (message :: rest) known absent
          exact absurd ((counted vote.txHash vote).mpr ⟨rfl, here⟩) never
        · intro context vote same
          exact all [] context vote rest (congrArg (· :: rest) same)
  exact run {} [] fun txHash ctx => by simp [votesOf]

end SwiftState

section

attribute [local instance] RefusedRequest.instCrypto

open RefusedRequest

def RefusedRequest.signedVote (vchSig : List UInt8) : CConsensusVote where
  vinMasternode := { prevout := ⟨9, 0⟩, scriptSig := [] }
  txHash := (spend 5).getHash
  nBlockHeight := 98
  vchMasterNodeSignature := vchSig

/-- What the handlers read when the key of the masternode verifies one signature. -/
def RefusedRequest.checked : SwiftContext :=
  { context 6 true with signatureValid := fun ctx => ctx.vchMasterNodeSignature == [1] }

/-- A forged vote in front of the genuine one: the genuine one is dropped. -/
theorem forgedVote_shadows :
    ¬SwiftState.Counts
      ([.ix checked (spend 5), .txlvote checked (signedVote []),
        .txlvote checked (signedVote [1])].foldl SwiftMessage.run {})
      (SwiftMessage.validVotes [.ix checked (spend 5), .txlvote checked (signedVote []),
        .txlvote checked (signedVote [1])]) ∧
      signedVote [1] ∈ SwiftState.votesOf
        ([.ix checked (spend 5), .txlvote checked (signedVote [1])].foldl SwiftMessage.run {})
        (spend 5).getHash := by
  constructor
  · intro counts
    have genuine := (counts (spend 5).getHash (signedVote [1])).mpr
      ⟨rfl, by decide +kernel⟩
    revert genuine
    decide +kernel
  · decide +kernel

end

end Agouti
