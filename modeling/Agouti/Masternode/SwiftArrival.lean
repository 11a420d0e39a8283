import Agouti.Masternode.SwiftVotes

/-! # The inputs of a complete lock

The inputs of a requested transaction should be locked for it once its lock has the required
votes, whatever the order in which the request and the votes came, unless another complete lock
holds one of them (`SwiftState.Completed`). A vote that completes a lock locks the inputs, and so
does a refused request. A request that the memory pool accepts does not, and it does not look at a
lock that the earlier votes complete. A vote gives way to every transaction on an input, also to
one without votes. In a run without these two every complete lock holds its inputs
(`completed_of_run`).
-/

namespace Agouti

open List Function Option

section

variable [Crypto]

namespace SwiftState

/-- Every input is locked for the transaction. -/
def InputsLocked (state : SwiftState) (tx : CTransaction) : Prop :=
  ∀ txin ∈ tx.vin, state.mapLockedInputs txin.prevout = some tx.getHash

/-- The lock of a transaction has the required votes. -/
def Earned (state : SwiftState) (hash : Uint256) : Prop :=
  ∃ lock, state.mapTxLocks.lookup hash = some lock ∧ lock.complete = true

/-- An input is locked for another transaction, whose lock is complete. -/
def Contested (state : SwiftState) (tx : CTransaction) : Prop :=
  ∃ txin ∈ tx.vin, ∃ other, state.mapLockedInputs txin.prevout = some other ∧
    other ≠ tx.getHash ∧ state.Earned other

/-- The inputs of a request with a complete lock are locked for it, unless a conflicting complete
lock holds one of them. -/
def Completed (state : SwiftState) : Prop :=
  ∀ tx lock, state.mapTxLockReq tx.getHash = some tx →
    state.mapTxLocks.lookup tx.getHash = some lock → lock.complete = true →
    state.InputsLocked tx ∨ state.Contested tx

/-- A request of this hash was accepted or refused. -/
def Known (state : SwiftState) (hash : Uint256) : Prop :=
  (state.mapTxLockReq hash).isSome = true ∨ (state.mapTxLockReqRejected hash).isSome = true

/-- Whoever holds an input was asked for. -/
def Asked (state : SwiftState) : Prop :=
  ∀ outpoint hash, state.mapLockedInputs outpoint = some hash → state.Known hash

/-- No lock of an input is lost, and no votes behind one, and no request or lock but those of one
transaction comes up. -/
structure Concerns (hash : Uint256) (state after : SwiftState) : Prop where
  locked : ∀ outpoint other, state.mapLockedInputs outpoint = some other →
    after.mapLockedInputs outpoint = some other
  earned : ∀ outpoint other, state.mapLockedInputs outpoint = some other → state.Earned other →
    after.Earned other
  request : ∀ other, other ≠ hash → after.mapTxLockReq other = state.mapTxLockReq other
  lock : ∀ other lock, other ≠ hash → after.mapTxLocks.lookup other = some lock →
    lock.complete = true → ∃ old, state.mapTxLocks.lookup other = some old ∧ old.complete = true

variable {state after : SwiftState} {context : SwiftContext} {tx : CTransaction}
  {hash : Uint256}

omit [Crypto] in
theorem Concerns.trans {middle : SwiftState} (first : Concerns hash state middle)
    (second : Concerns hash middle after) : Concerns hash state after where
  locked outpoint other here := second.locked outpoint other (first.locked outpoint other here)
  earned outpoint other here votes :=
    second.earned outpoint other (first.locked outpoint other here)
      (first.earned outpoint other here votes)
  request other apart := (second.request other apart).trans (first.request other apart)
  lock other lock apart found complete := by
    obtain ⟨middleLock, foundMiddle, completeMiddle⟩ := second.lock other lock apart found complete
    exact first.lock other middleLock apart foundMiddle completeMiddle

omit [Crypto] in
theorem Concerns.of_same (requests : after.mapTxLockReq = state.mapTxLockReq)
    (locks : after.mapTxLocks = state.mapTxLocks)
    (inputs : after.mapLockedInputs = state.mapLockedInputs) : Concerns hash state after where
  locked _ _ here := by rw [inputs]; exact here
  earned _ _ _ votes := by rw [Earned, locks]; exact votes
  request _ _ := by rw [requests]
  lock other lock _ found complete := ⟨lock, by rw [← locks]; exact found, complete⟩

omit [Crypto] in
theorem Concerns.refl (state : SwiftState) : Concerns hash state state := .of_same rfl rfl rfl

omit [Crypto] in
theorem concerns_insertLock {lock : CTransactionLock}
    (keeps : ∀ outpoint old, state.mapLockedInputs outpoint = some hash →
      state.mapTxLocks.lookup hash = some old → old.complete = true → lock.complete = true) :
    Concerns hash state { state with mapTxLocks := state.mapTxLocks.insert hash lock } where
  locked _ _ := id
  earned outpoint other here votes := by
    obtain ⟨old, found, complete⟩ := votes
    by_cases same : other = hash
    · subst same
      exact ⟨lock, AList.lookup_insert _, keeps outpoint old here found complete⟩
    · exact ⟨old, (AList.lookup_insert_ne same).trans found, complete⟩
  request _ _ := rfl
  lock _ old apart found complete :=
    ⟨old, (AList.lookup_insert_ne apart).symm.trans found, complete⟩

omit [Crypto] in
theorem concerns_changeLock (other : Uint256) {change : CTransactionLock → CTransactionLock}
    (same : ∀ lock, (change lock).complete = lock.complete) :
    Concerns hash state (state.changeLock other change) := by
  unfold changeLock
  cases there : state.mapTxLocks.lookup other with
  | none => exact .refl state
  | some lock =>
    refine ⟨fun _ _ => id, fun _ third _ ⟨old, found, complete⟩ => ?_, fun _ _ => rfl,
      fun third old _ found complete => ?_⟩
    · by_cases here : third = other
      · subst here
        rw [there, some.injEq] at found
        subst found
        exact ⟨change lock, AList.lookup_insert _, (same lock).trans complete⟩
      · exact ⟨old, (AList.lookup_insert_ne here).trans found, complete⟩
    · by_cases here : third = other
      · subst here
        rw [AList.lookup_insert, some.injEq] at found
        subst found
        rw [same] at complete
        exact ⟨lock, there, complete⟩
      · rw [AList.lookup_insert_ne here] at found
        exact ⟨old, found, complete⟩

omit [Crypto] in
theorem concerns_insertRequest (tx : CTransaction) :
    Concerns hash state (state.insertRequest hash tx) := by
  unfold insertRequest
  split
  · exact .refl state
  · exact ⟨fun _ _ => id, fun _ _ _ => id, fun other apart => update_of_ne apart ..,
      fun _ lock _ found complete => ⟨lock, found, complete⟩⟩

/-- The new height of a lock takes no votes from an input, when the transaction holds none. -/
theorem concerns_createNewLock (context : SwiftContext)
    (free : ∀ outpoint, state.mapLockedInputs outpoint ≠ some tx.getHash) :
    Concerns tx.getHash state (state.createNewLock context tx).1 := by
  unfold createNewLock
  split
  · exact .refl state
  · split
    · exact concerns_insertLock fun outpoint _ here => absurd here (free outpoint)
    · exact concerns_insertLock fun outpoint _ here => absurd here (free outpoint)

theorem doConsensusVote_locks (context : SwiftContext) (state : SwiftState) (tx : CTransaction)
    (nBlockHeight : Int) :
    (state.doConsensusVote context tx nBlockHeight).mapTxLocks = state.mapTxLocks := by
  exact doConsensusVote_rule (motive := fun after => after.mapTxLocks = state.mapTxLocks) rfl
    fun _ => rfl

theorem concerns_doConsensusVote (context : SwiftContext) (state : SwiftState)
    (tx : CTransaction) (nBlockHeight : Int) :
    Concerns hash state (state.doConsensusVote context tx nBlockHeight) := by
  have grow := locksGrow_doConsensusVote context state tx nBlockHeight
  exact .of_same grow.requests (doConsensusVote_locks ..) grow.inputs

theorem concerns_checkForConflictingLocks (context : SwiftContext) (state : SwiftState)
    (tx : CTransaction) : Concerns hash state (state.checkForConflictingLocks context tx).1 := by
  apply checkForConflictingLocks_rule (.refl state)
  exact fun _ hash before => before.trans (concerns_changeLock hash fun _ => rfl)

omit [Crypto] in
theorem concerns_addVote (context : SwiftContext) (state : SwiftState) (ctx : CConsensusVote) :
    Concerns ctx.txHash state (state.addVote context ctx).1 := by
  unfold addVote
  apply concerns_insertLock
  intro _ old _ found complete
  rw [found]
  exact complete_addSignature complete ctx

omit [Crypto] in
theorem lockInput_kept {locked : COutPoint → Option Uint256} {txin : CTxIn}
    {outpoint : COutPoint} {other : Uint256} (here : locked outpoint = some other) :
    lockInput locked hash txin outpoint = some other := by
  unfold lockInput
  split
  · exact here
  · rename_i free
    have apart : outpoint ≠ txin.prevout := by
      rintro rfl
      rw [here] at free
      exact free rfl
    rw [update_of_ne apart]
    exact here

omit [Crypto] in
theorem lockInputs_grows (state : SwiftState) (hash : Uint256) (vin : List CTxIn) :
    (∀ outpoint other, state.mapLockedInputs outpoint = some other →
      (state.lockInputs hash vin).mapLockedInputs outpoint = some other) ∧
      ∀ txin ∈ vin, ((state.lockInputs hash vin).mapLockedInputs txin.prevout).isSome = true := by
  unfold lockInputs
  simp only
  generalize state.mapLockedInputs = locked
  induction vin generalizing locked with
  | nil => exact ⟨fun _ _ => id, fun _ member => absurd member not_mem_nil⟩
  | cons txin rest ih =>
    obtain ⟨kept, taken⟩ := ih (lockInput locked hash txin)
    refine ⟨fun outpoint other here => kept outpoint other (lockInput_kept here), ?_⟩
    intro later member
    rcases mem_cons.mp member with rfl | member
    · have here : (lockInput locked hash later later.prevout).isSome = true := by
        unfold lockInput
        split
        · assumption
        · rw [update_self]
          rfl
      obtain ⟨other, held⟩ := isSome_iff_exists.mp here
      rw [foldl_cons, kept _ _ held]
      rfl
    · exact taken later member

omit [Crypto] in
theorem concerns_lockInputs (other : Uint256) (vin : List CTxIn) :
    Concerns hash state (state.lockInputs other vin) :=
  ⟨(lockInputs_grows state other vin).1, fun _ _ _ => id, fun _ _ => rfl,
    fun _ lock _ found complete => ⟨lock, found, complete⟩⟩

theorem Concerns.inputs (concerns : Concerns hash state after) (tx : CTransaction)
    (settled : state.InputsLocked tx ∨ state.Contested tx) :
    after.InputsLocked tx ∨ after.Contested tx := by
  rcases settled with locked | ⟨txin, member, other, here, apart, votes⟩
  · exact .inl fun txin member => concerns.locked _ _ (locked txin member)
  · exact .inr ⟨txin, member, other, concerns.locked _ _ here, apart,
      concerns.earned _ _ here votes⟩

/-- Behind the loop that locks the inputs, without a conflict, all of them are locked for the
transaction. -/
theorem inputsLocked_of_peace (same : after.mapLockedInputs =
      (state.lockInputs hash tx.vin).mapLockedInputs)
    (peace : after.conflictingLock tx = none) : after.InputsLocked tx := by
  intro txin member
  obtain ⟨other, held⟩ := isSome_iff_exists.mp
    ((lockInputs_grows state hash tx.vin).2 txin member)
  rw [← same] at held
  rw [held, not_spent_of_conflict_none peace _ other ⟨txin, member, rfl⟩ held]

/-- The first transaction in the way holds an input. -/
theorem contested_of_conflict {other : Uint256} (conflict : state.conflictingLock tx = some other)
    (votes : state.Earned other) : state.Contested tx := by
  unfold conflictingLock at conflict
  obtain ⟨txin, member, found⟩ := List.exists_of_findSome?_eq_some conflict
  obtain ⟨held, apart⟩ := filter_eq_some_iff.mp found
  exact ⟨txin, member, other, held, by simpa using apart, votes⟩

/-- Only the transaction concerned needs an argument. -/
theorem Completed.step (completed : state.Completed) (concerns : Concerns hash state after)
    (own : ∀ tx lock, tx.getHash = hash → after.mapTxLockReq hash = some tx →
      after.mapTxLocks.lookup hash = some lock → lock.complete = true →
      after.InputsLocked tx ∨ after.Contested tx) : after.Completed := by
  intro tx lock request found complete
  by_cases here : tx.getHash = hash
  · rw [here] at request found
    exact own tx lock here request found complete
  · rw [concerns.request _ here] at request
    obtain ⟨old, before, completeBefore⟩ := concerns.lock _ lock here found complete
    exact concerns.inputs tx (completed tx old request before completeBefore)

theorem createNewLock_incomplete
    (few : ∀ lock, state.mapTxLocks.lookup tx.getHash = some lock →
      { lock with
        nBlockHeight := (lockHeight context tx).getD lock.nBlockHeight
        : CTransactionLock }.complete = false) {lock : CTransactionLock}
    (found : (state.createNewLock context tx).1.mapTxLocks.lookup tx.getHash = some lock) :
    lock.complete = false := by
  cases before : state.mapTxLocks.lookup tx.getHash with
  | some old =>
    rw [createNewLock_lookup before, some.injEq] at found
    rw [← found]
    exact few old before
  | none =>
    unfold createNewLock at found
    cases height : lockHeight context tx with
    | none =>
      rw [height] at found
      simp only [before] at found
      contradiction
    | some nBlockHeight =>
      simp only [height, before, AList.lookup_insert, some.injEq] at found
      rw [← found]
      -- a new lock has no votes
      by_cases zero : nBlockHeight = 0 <;>
        simp [CTransactionLock.complete, CTransactionLock.countSignatures, zero,
          SWIFTTX_SIGNATURES_REQUIRED]

/-- A refused request is entered only with all its inputs locked for it. -/
structure Refused (tx : CTransaction) (state after : SwiftState) : Prop where
  concerns : Concerns tx.getHash state after
  own : ∀ other, after.mapTxLockReq tx.getHash = some other → after.InputsLocked other

theorem refused_rejectRequest (fresh : state.mapTxLockReq tx.getHash = none) :
    Refused tx state (state.rejectRequest context tx) := by
  have locked : ∀ {marked}, SameMaps state marked →
      Concerns tx.getHash state (marked.lockInputs tx.getHash tx.vin) := fun same =>
    .trans (.of_same same.requests same.locks same.inputs) (concerns_lockInputs ..)
  have absent : ∀ {marked}, SameMaps state marked → marked.mapTxLockReq tx.getHash = none := by
    intro marked same
    rw [same.requests]
    exact fresh
  apply rejectRequest_rule
  · exact fun marked same => ⟨locked same, fun other request =>
      nomatch (absent same).symm.trans request⟩
  · intro after refused
    have grow := locksGrow_checkForConflictingLocks context after tx
    refine ⟨refused.concerns.trans (concerns_checkForConflictingLocks ..), ?_⟩
    rw [grow.requests]
    unfold InputsLocked
    rw [grow.inputs]
    exact refused.own
  · intro marked same peace
    refine ⟨(locked same).trans (concerns_insertRequest tx), fun other request => ?_⟩
    rcases insertRequest_cases request with before | ⟨_, rfl⟩
    · cases (absent same).symm.trans before
    · have inputs := (insertRequest_frame (marked.lockInputs other.getHash other.vin)
        other.getHash other).2
      apply inputsLocked_of_peace inputs
      unfold conflictingLock at peace ⊢
      rw [inputs]
      exact peace

theorem Completed.rejectRequest (completed : state.Completed)
    (fresh : state.mapTxLockReq tx.getHash = none) :
    (state.rejectRequest context tx).Completed := by
  have refused : Refused tx state (state.rejectRequest context tx) := refused_rejectRequest fresh
  apply completed.step refused.concerns
  exact fun other _ _ request _ _ => .inl (refused.own other request)

theorem Completed.processRequest (completed : state.Completed) (asked : state.Asked)
    (timely : state.requestValid context tx = true →
      state.acceptToMemoryPool context tx = true →
      ∀ lock, state.mapTxLocks.lookup tx.getHash = some lock →
        { lock with
          nBlockHeight := (lockHeight context tx).getD lock.nBlockHeight
          : CTransactionLock }.complete = false) :
    (state.processRequest context tx).Completed := by
  unfold SwiftState.processRequest
  cases valid : state.requestValid context tx with
  | false => exact completed
  | true =>
    obtain ⟨fresh, unrefused⟩ := requestValid_new valid
    have made : Concerns tx.getHash state (state.createNewLock context tx).1 := by
      apply concerns_createNewLock
      intro outpoint here
      have known := asked outpoint _ here
      rw [Known, fresh, unrefused] at known
      simp at known
    have sameRequests := (createNewLock_frame context state tx).1
    simp only [Bool.not_true, Bool.false_eq_true, if_false]
    rw [acceptToMemoryPool_createNewLock]
    split
    · rename_i accepted
      generalize voted : (state.createNewLock context tx).1.doConsensusVote context tx
        (state.createNewLock context tx).2 = next
      have concerns : Concerns tx.getHash state next := by
        rw [← voted]
        exact made.trans (concerns_doConsensusVote ..)
      apply completed.step (concerns.trans (concerns_insertRequest tx))
      intro other lock _ _ found complete
      rw [(insertRequest_frame ..).1, ← voted, doConsensusVote_locks] at found
      rw [createNewLock_incomplete (timely valid accepted) found] at complete
      contradiction
    · have settled : (state.createNewLock context tx).1.Completed := by
        apply completed.step made
        intro other _ _ request
        rw [sameRequests, fresh] at request
        contradiction
      apply settled.rejectRequest
      rw [sameRequests]
      exact fresh

/-- The vote completes no lock whose request has to give way to a transaction without the
votes. -/
def Yields (context : SwiftContext) (state : SwiftState) (ctx : CConsensusVote) : Prop :=
  (state.addVote context ctx).2.complete = true → ∀ tx other,
    state.mapTxLockReq ctx.txHash = some tx → state.conflictingLock tx = some other →
    state.Earned other

theorem Completed.processConsensusVote (completed : state.Completed) {ctx : CConsensusVote}
    (yields : state.Yields context ctx) :
    (state.processConsensusVote context ctx).Completed := by
  have voted := concerns_addVote context state ctx
  rcases processConsensusVote_cases context state ctx with
    same | ⟨few, same⟩ | ⟨enough, asked, request, enters, found, conflict⟩
  · rw [same]
    exact completed
  · rw [same]
    apply completed.step voted
    intro tx lock _ _ found complete
    have added : (state.addVote context ctx).1.mapTxLocks.lookup ctx.txHash =
        some (state.addVote context ctx).2 := AList.lookup_insert _
    rw [added, some.injEq] at found
    rw [← found, few] at complete
    contradiction
  have entered : Concerns ctx.txHash state asked := by
    rw [enters]
    exact voted.trans (concerns_insertRequest _)
  rcases conflict with ⟨conflict, same⟩ | ⟨peace, same⟩
  · rw [same]
    have checked := entered.trans (concerns_checkForConflictingLocks context asked request)
    apply completed.step checked
    intro tx _ _ there _ _
    have grow := locksGrow_checkForConflictingLocks context asked request
    rw [grow.requests, found, some.injEq] at there
    subst there
    obtain ⟨other, first⟩ := isSome_iff_exists.mp conflict
    have before : state.conflictingLock request = some other := by
      rw [enters] at first
      unfold conflictingLock at first ⊢
      rwa [(insertRequest_frame ..).2] at first
    rw [enters] at found
    rcases insertRequest_cases found with known | ⟨_, rfl⟩
    · exact checked.inputs request (.inr (contested_of_conflict before
        (yields enough request other known before)))
    · contradiction
  · rw [same]
    apply completed.step (entered.trans (concerns_lockInputs ..))
    intro tx _ named there _ _
    obtain rfl : request = tx := some.inj (found.symm.trans there)
    left
    apply inputsLocked_of_peace rfl
    rw [← named]
    exact conflictingLock_lockInputs peace

theorem Completed.processVote (completed : state.Completed) {ctx : CConsensusVote}
    (yields : context.voteValid ctx = true → state.mapTxLockVote ctx.getHash = none →
      state.Yields context ctx) :
    (state.processVote context ctx).Completed := by
  unfold SwiftState.processVote
  split
  · exact completed
  rename_i enabled
  rw [Bool.not_eq_true', Bool.not_eq_false] at enabled
  split
  · exact completed
  rename_i fresh
  cases valid : context.voteValid ctx with
  | false =>
    rw [processConsensusVote_invalid enabled valid]
    exact completed
  | true =>
    apply Completed.processConsensusVote
    · exact completed
    · exact yields valid (not_isSome_iff_eq_none.mp fresh)

/-- What has been asked for stays so, and inputs are locked only for what is. -/
structure Asks (hash : Uint256) (state after : SwiftState) : Prop where
  known : ∀ other, state.Known other → after.Known other
  held : ∀ outpoint other, after.mapLockedInputs outpoint = some other →
    state.mapLockedInputs outpoint = some other ∨ other = hash ∧ after.Known hash

omit [Crypto] in
theorem Asks.trans {middle : SwiftState} (first : Asks hash state middle)
    (second : Asks hash middle after) : Asks hash state after where
  known other there := second.known other (first.known other there)
  held outpoint other here := by
    rcases second.held outpoint other here with before | new
    · exact (first.held outpoint other before).imp_right fun ⟨same, there⟩ =>
        ⟨same, second.known hash there⟩
    · exact .inr new

omit [Crypto] in
theorem Asked.of_asks (asked : state.Asked) (asks : Asks hash state after) : after.Asked := by
  intro outpoint other here
  rcases asks.held outpoint other here with before | ⟨rfl, there⟩
  · exact asks.known other (asked outpoint other before)
  · exact there

omit [Crypto] in
theorem asks_of_same (requests : after.mapTxLockReq = state.mapTxLockReq)
    (rejected : after.mapTxLockReqRejected = state.mapTxLockReqRejected)
    (inputs : after.mapLockedInputs = state.mapLockedInputs) : Asks hash state after :=
  ⟨fun _ there => by rwa [Known, requests, rejected], fun _ _ here => .inl (by rwa [← inputs])⟩

omit [Crypto] in
theorem asks_insertRequest (tx : CTransaction) :
    Asks hash state (state.insertRequest hash tx) := by
  refine ⟨fun other there => there.imp (fun some => ?_) fun some => ?_, fun _ _ here => .inl ?_⟩
  · obtain ⟨old, request⟩ := isSome_iff_exists.mp some
    rw [insertRequest_keeps request]
    rfl
  · unfold insertRequest
    split <;> exact some
  · rwa [← (insertRequest_frame state hash tx).2]

omit [Crypto] in
theorem asks_lockInputs (there : state.Known hash) (vin : List CTxIn) :
    Asks hash state (state.lockInputs hash vin) :=
  ⟨fun _ => id, fun _ _ here => (lockInputs_locked here).imp_right fun ⟨_, same, _⟩ =>
    ⟨same, there⟩⟩

theorem asks_createNewLock (context : SwiftContext) (state : SwiftState) (tx : CTransaction) :
    Asks hash state (state.createNewLock context tx).1 := by
  unfold createNewLock
  split
  · exact asks_of_same rfl rfl rfl
  · split <;> exact asks_of_same rfl rfl rfl

theorem asks_checkForConflictingLocks (context : SwiftContext) (state : SwiftState)
    (tx : CTransaction) : Asks hash state (state.checkForConflictingLocks context tx).1 := by
  apply checkForConflictingLocks_rule (asks_of_same rfl rfl rfl)
  intro _ hash before
  refine before.trans ?_
  unfold changeLock
  split <;> exact asks_of_same rfl rfl rfl

theorem asks_rejectRequest (context : SwiftContext) (state : SwiftState) (tx : CTransaction) :
    Asks tx.getHash state (state.rejectRequest context tx) := by
  let marked := { state with
    mapTxLockReqRejected := Function.update state.mapTxLockReqRejected tx.getHash (some tx) }
  have there : marked.Known tx.getHash := by
    right
    simp only [marked, update_self, isSome_some]
  have enters : Asks tx.getHash state marked := by
    refine ⟨fun other known => ?_, fun _ _ => .inl⟩
    by_cases here : other = tx.getHash
    · exact here ▸ there
    · refine known.imp_right fun refused => ?_
      simp only [marked, update_of_ne here]
      exact refused
  have locked := enters.trans (asks_lockInputs there tx.vin)
  unfold rejectRequest
  simp only
  split
  · exact locked
  split
  · exact locked
  have checked := locked.trans (asks_checkForConflictingLocks context _ tx)
  split
  · exact checked
  · exact checked.trans (asks_insertRequest tx)

theorem asks_processRequest (context : SwiftContext) (state : SwiftState) (tx : CTransaction) :
    Asks tx.getHash state (state.processRequest context tx) := by
  unfold processRequest
  split
  · exact asks_of_same rfl rfl rfl
  have made : Asks tx.getHash _ _ := asks_createNewLock context state tx
  simp only
  split
  · apply made.trans
    refine .trans ?_ (asks_insertRequest tx)
    apply doConsensusVote_rule
    · exact asks_of_same rfl rfl rfl
    · exact fun _ => asks_of_same rfl rfl rfl
  · exact made.trans (asks_rejectRequest context _ tx)

theorem asks_processVote (context : SwiftContext) (state : SwiftState) (ctx : CConsensusVote) :
    Asks ctx.txHash state (state.processVote context ctx) := by
  unfold processVote
  split
  · exact asks_of_same rfl rfl rfl
  split
  · exact asks_of_same rfl rfl rfl
  generalize marked : { state with
    mapTxLockVote := Function.update state.mapTxLockVote ctx.getHash (some ctx) } = next
  have same : Asks ctx.txHash state next := by
    rw [← marked]
    exact asks_of_same rfl rfl rfl
  apply same.trans
  have voted : Asks ctx.txHash next (next.addVote context ctx).1 := asks_of_same rfl rfl rfl
  rcases processConsensusVote_cases context next ctx with
    same | ⟨_, same⟩ | ⟨_, asked, request, enters, found, conflict⟩
  · rw [same]
    exact asks_of_same rfl rfl rfl
  · rw [same]
    exact voted
  have entered : Asks ctx.txHash next asked := by
    rw [enters]
    exact voted.trans (asks_insertRequest _)
  rcases conflict with ⟨_, same⟩ | ⟨_, same⟩
  · rw [same]
    exact entered.trans (asks_checkForConflictingLocks context asked request)
  · rw [same]
    exact entered.trans (asks_lockInputs (.inl (by rw [found]; rfl)) request.vin)

end SwiftState

/-- An accepted request comes before the votes that complete its lock, and a counted vote completes
no lock whose request has to give way to a transaction without the votes. -/
def SwiftMessage.Timely (state : SwiftState) : SwiftMessage → Prop
  | ix context tx =>
    state.requestValid context tx = true → state.acceptToMemoryPool context tx = true →
      ∀ lock, state.mapTxLocks.lookup tx.getHash = some lock →
        { lock with
          nBlockHeight := (SwiftState.lockHeight context tx).getD lock.nBlockHeight
          : CTransactionLock }.complete = false
  | txlvote context ctx =>
    context.voteValid ctx = true → state.mapTxLockVote ctx.getHash = none →
      state.Yields context ctx

/-- The states that messages reach from the empty maps, the messages all timely. -/
inductive TimelyRun : SwiftState → Prop
  | start : TimelyRun {}
  | message {state : SwiftState} (run : TimelyRun state) (message : SwiftMessage)
      (timely : message.Timely state) : TimelyRun (message.run state)

namespace SwiftState

/-- What every message keeps. -/
structure Settled (state : SwiftState) : Prop where
  completed : state.Completed
  asked : state.Asked

/-- One timely message. -/
theorem Settled.run {state : SwiftState} (settled : state.Settled) {message : SwiftMessage}
    (timely : message.Timely state) : (message.run state).Settled := by
  cases message with
  | ix context tx =>
    exact ⟨settled.completed.processRequest settled.asked timely,
      settled.asked.of_asks (asks_processRequest context state tx)⟩
  | txlvote context ctx =>
    exact ⟨settled.completed.processVote timely,
      settled.asked.of_asks (asks_processVote context state ctx)⟩

/-- Every state of a timely run. -/
theorem Settled.of_run {state : SwiftState} (run : TimelyRun state) : state.Settled := by
  induction run with
  | start =>
    refine ⟨fun tx _ request => ?_, fun _ _ here => ?_⟩
    · contradiction
    · contradiction
  | message run message timely ih => exact ih.run timely

end SwiftState

/-- **The inputs of a complete lock.** In every run whose accepted requests come before the votes
that complete their locks, and whose votes complete no lock on an input that is held without votes,
whatever else the order of the messages is, the inputs of every request with a complete lock are
locked for it, unless another complete lock holds one of them. -/
theorem completed_of_run {state : SwiftState} (run : TimelyRun state) : state.Completed :=
  (SwiftState.Settled.of_run run).completed

end

section

attribute [local instance] RefusedRequest.instCrypto

namespace RefusedRequest

def voteMessage (n : Nat) : SwiftMessage :=
  .txlvote (context 6 true)
    { vinMasternode := { prevout := ⟨9, n⟩, scriptSig := [] }, txHash := (spend 5).getHash,
      nBlockHeight := 98, vchMasterNodeSignature := [] }

def sixVotes (state : SwiftState) : SwiftState :=
  [0, 1, 2, 3, 4, 5].foldl (fun state n => (voteMessage n).run state) state

def requestFirst : SwiftState := sixVotes (SwiftMessage.run {} (.ix (context 6 true) (spend 5)))

def votesFirst : SwiftState := SwiftMessage.run (sixVotes {}) (.ix (context 6 true) (spend 5))

/-- Behind the request comes another spend of its input, which the memory pool refuses and for which
nobody votes. -/
def strangerFirst : SwiftState :=
  sixVotes (SwiftMessage.run (SwiftMessage.run {} (.ix (context 6 true) (spend 5)))
    (.ix (context 6 false) (spend 6)))

theorem timely_of_peace {state : SwiftState} {n : Nat}
    (peace : (state.mapTxLockReq (spend 5).getHash).bind state.conflictingLock = none) :
    (voteMessage n).Timely state := by
  intro _ _ _ tx other request conflict
  have blocked : (state.mapTxLockReq (spend 5).getHash).bind state.conflictingLock = some other := by
    rw [show state.mapTxLockReq (spend 5).getHash = some tx from request]
    exact conflict
  rw [peace] at blocked
  contradiction

/-- The lock of the request is complete, and its input is held neither for it nor for another
complete lock. -/
theorem not_completed {state : SwiftState}
    (request : state.mapTxLockReq (spend 5).getHash = some (spend 5))
    (earned : (state.mapTxLocks.lookup (spend 5).getHash).map CTransactionLock.complete = some true)
    (free : state.mapLockedInputs ⟨7, 0⟩ ≠ some (spend 5).getHash)
    (unearned : ((state.mapLockedInputs ⟨7, 0⟩).bind fun other =>
      (state.mapTxLocks.lookup other).map CTransactionLock.complete) ≠ some true) :
    ¬state.Completed := by
  intro completed
  obtain ⟨lock, found, complete⟩ := map_eq_some_iff.mp earned
  rcases completed (spend 5) lock request found complete with
    locked | ⟨txin, member, other, here, _, otherLock, there, votes⟩
  · exact free (locked { prevout := ⟨7, 0⟩, scriptSig := [] } mem_cons_self)
  · obtain rfl := mem_singleton.mp member
    apply unearned
    rw [here, bind_some, there, map_some, votes]

end RefusedRequest

open RefusedRequest

theorem completed_of_run_requestFirst :
    requestFirst.mapLockedInputs ⟨7, 0⟩ = some (spend 5).getHash ∧ requestFirst.Completed := by
  refine ⟨by decide +kernel, completed_of_run ?_⟩
  have asked : TimelyRun (SwiftMessage.run {} (.ix (context 6 true) (spend 5))) := by
    apply TimelyRun.start.message
    intro _ _ lock found
    contradiction
  have voted : ∀ {state} n, TimelyRun state →
      (state.mapTxLockReq (spend 5).getHash).bind state.conflictingLock = none →
      TimelyRun ((voteMessage n).run state) :=
    fun n run peace => run.message _ (timely_of_peace peace)
  unfold requestFirst sixVotes
  simp only [foldl_cons, foldl_nil]
  have three := voted 2 (voted 1 (voted 0 asked (by decide +kernel)) (by decide +kernel))
    (by decide +kernel)
  exact voted 5 (voted 4 (voted 3 three (by decide +kernel)) (by decide +kernel))
    (by decide +kernel)

/-- The votes complete the lock of a request that comes last, and nothing locks its input. Where
another spend without votes holds the input, they do not lock it either. -/
theorem votesFirst_unlocked :
    ¬votesFirst.Completed ∧ votesFirst.mapLockedInputs ⟨7, 0⟩ = none ∧
      requestFirst.mapLockedInputs ⟨7, 0⟩ = some (spend 5).getHash ∧
      ¬strangerFirst.Completed ∧
      strangerFirst.mapLockedInputs ⟨7, 0⟩ = some (spend 6).getHash := by
  have free : votesFirst.mapLockedInputs ⟨7, 0⟩ = none := by decide +kernel
  refine ⟨?_, free, by decide +kernel, ?_, by decide +kernel⟩
  · apply not_completed
    · decide +kernel
    · decide +kernel
    · rw [free]
      simp
    · rw [free]
      simp
  · apply not_completed
    · decide +kernel
    · decide +kernel
    · decide +kernel
    · decide +kernel

end

end Agouti
