import Agouti.Masternode.SwiftLocks

/-! # Who releases an input

`CleanTransactionLocksList` releases the inputs of the request of an expired lock, whoever
holds them, and nothing without a request. The two agree where every locked input is held by a
request that has a lock, and the inputs of a request are held by nobody else
(`SwiftState.Owned`). A refused request whose inputs are locked without a complete lock, an
input that a lock takes from another open request, and a relayed transaction that spends an
input of another one break this; a run without these keeps it, and there the clean-up leaves
no input locked for a transaction without a lock and releases only what the expired lock holds
(`cleanReleasesOwn_of_run`).
-/

namespace Agouti

open List Function

namespace SwiftState

/-- The outpoint is an input. -/
def Spends (tx : CTransaction) (outpoint : COutPoint) : Prop :=
  ∃ txin ∈ tx.vin, txin.prevout = outpoint

/-- Inputs are held by requests with a lock, and by no two. -/
structure Owned (state : SwiftState) : Prop where
  named : ∀ hash lock, state.mapTxLocks.lookup hash = some lock → lock.txHash = hash
  held : ∀ outpoint hash, state.mapLockedInputs outpoint = some hash →
    ∃ tx, state.mapTxLockReq hash = some tx ∧ Spends tx outpoint ∧
      (state.mapTxLocks.lookup hash).isSome = true
  own : ∀ hash tx outpoint other, state.mapTxLockReq hash = some tx → Spends tx outpoint →
    state.mapLockedInputs outpoint = some other → other = hash

/-- Only locks are added or changed. -/
structure LocksGrow (state after : SwiftState) : Prop where
  requests : after.mapTxLockReq = state.mapTxLockReq
  inputs : after.mapLockedInputs = state.mapLockedInputs
  named : (∀ hash lock, state.mapTxLocks.lookup hash = some lock → lock.txHash = hash) →
    ∀ hash lock, after.mapTxLocks.lookup hash = some lock → lock.txHash = hash
  keys : ∀ hash, (state.mapTxLocks.lookup hash).isSome = true →
    (after.mapTxLocks.lookup hash).isSome = true

variable {state after : SwiftState} {context : SwiftContext} {tx : CTransaction}

theorem LocksGrow.refl (state : SwiftState) : LocksGrow state state :=
  ⟨rfl, rfl, id, fun _ => id⟩

theorem LocksGrow.trans {middle : SwiftState} (first : LocksGrow state middle)
    (second : LocksGrow middle after) : LocksGrow state after :=
  ⟨second.requests.trans first.requests, second.inputs.trans first.inputs,
    fun named => second.named (first.named named), fun hash found => second.keys hash
      (first.keys hash found)⟩

theorem Owned.grow (owned : state.Owned) (grow : LocksGrow state after) : after.Owned := by
  refine ⟨grow.named owned.named, fun outpoint hash locked => ?_, ?_⟩
  · rw [grow.inputs] at locked
    obtain ⟨tx, request, spends, lock⟩ := owned.held outpoint hash locked
    exact ⟨tx, by rw [grow.requests]; exact request, spends, grow.keys hash lock⟩
  · rw [grow.requests, grow.inputs]
    exact owned.own

variable {hash : Uint256} {old : CTransaction} {ctx : CConsensusVote}

theorem locksGrow_insert {lock : CTransactionLock}
    (named : (∀ other old, state.mapTxLocks.lookup other = some old → old.txHash = other) →
      lock.txHash = hash) :
    LocksGrow state { state with mapTxLocks := state.mapTxLocks.insert hash lock } where
  requests := rfl
  inputs := rfl
  named before other found := by
    intro here
    by_cases same : other = hash
    · subst same
      rw [AList.lookup_insert, Option.some.injEq] at here
      rw [← here]
      exact named before
    · rw [AList.lookup_insert_ne same] at here
      exact before other found here
  keys other found := by
    by_cases same : other = hash
    · subst same
      rw [AList.lookup_insert]
      rfl
    · rw [AList.lookup_insert_ne same]
      exact found

theorem locksGrow_changeLock (hash : Uint256) {change : CTransactionLock → CTransactionLock}
    (same : ∀ lock, (change lock).txHash = lock.txHash) :
    LocksGrow state (state.changeLock hash change) := by
  unfold changeLock
  cases found : state.mapTxLocks.lookup hash with
  | none => exact .refl state
  | some lock =>
    apply locksGrow_insert
    intro named
    rw [same]
    exact named hash lock found

theorem locksGrow_addVote (context : SwiftContext) (state : SwiftState) (ctx : CConsensusVote) :
    LocksGrow state (state.addVote context ctx).1 := by
  unfold addVote
  apply locksGrow_insert
  intro named
  cases found : state.mapTxLocks.lookup ctx.txHash with
  | none => rfl
  | some lock => exact named _ lock found

theorem Owned.insertRequest (owned : state.Owned)
    (free : ∀ outpoint other, Spends tx outpoint → state.mapLockedInputs outpoint = some other →
      other = hash) : (state.insertRequest hash tx).Owned := by
  obtain ⟨locks, inputs⟩ := insertRequest_frame state hash tx
  refine ⟨?_, fun outpoint other locked => ?_, fun other old outpoint holder request spends => ?_⟩
  · rw [locks]
    exact owned.named
  · rw [inputs] at locked
    obtain ⟨old, request, spends, lock⟩ := owned.held outpoint other locked
    exact ⟨old, insertRequest_keeps request, spends, by rw [locks]; exact lock⟩
  · rw [inputs]
    rcases insertRequest_cases request with before | ⟨rfl, rfl⟩
    · exact owned.own other old outpoint holder before spends
    · exact free outpoint holder spends

theorem Owned.lockInputs (owned : state.Owned) (request : state.mapTxLockReq hash = some tx)
    (lock : (state.mapTxLocks.lookup hash).isSome = true)
    (alone : ∀ other old outpoint, state.mapTxLockReq other = some old → other ≠ hash →
      Spends tx outpoint → state.mapLockedInputs outpoint = none → ¬Spends old outpoint) :
    (state.lockInputs hash tx.vin).Owned := by
  refine ⟨owned.named, fun outpoint other locked => ?_,
    fun other old outpoint holder asked spends locked => ?_⟩
  · rcases lockInputs_locked locked with before | ⟨_, rfl, spends⟩
    · exact owned.held outpoint other before
    · exact ⟨tx, request, spends, lock⟩
  · rcases lockInputs_locked locked with before | ⟨free, rfl, taken⟩
    · exact owned.own other old outpoint holder asked spends before
    · by_contra apart
      exact alone other old outpoint asked (Ne.symm apart) taken free spends

theorem unlock_kept {vin : List CTxIn} {locked : COutPoint → Option Uint256} {outpoint : COutPoint}
    (here : locked outpoint = some hash) (others : ∀ txin ∈ vin, txin.prevout ≠ outpoint) :
    vin.foldl (fun locked (txin : CTxIn) => Function.update locked txin.prevout none) locked
      outpoint = some hash := by
  induction vin generalizing locked with
  | nil => exact here
  | cons txin rest ih =>
    rw [foldl_cons]
    apply ih
    · rw [update_of_ne (Ne.symm (others txin mem_cons_self))]
      exact here
    · exact fun later member => others later (mem_cons_of_mem _ member)

theorem Owned.cleanLock (owned : state.Owned)
    {entry : Sigma fun _ : Uint256 => CTransactionLock} (named : entry.2.txHash = entry.1) :
    (state.cleanLock context entry).Owned ∧
      ∀ outpoint hash, state.mapLockedInputs outpoint = some hash →
        (state.cleanLock context entry).mapLockedInputs outpoint = some hash ∨
          hash = entry.2.txHash := by
  unfold SwiftState.cleanLock
  simp only
  split
  · exact ⟨owned, fun _ _ => .inl⟩
  rw [named]
  cases request : state.mapTxLockReq entry.1 with
  | none =>
    refine ⟨⟨fun hash lock found => owned.named hash lock (lookup_erase found).2,
      fun outpoint hash locked => ?_, owned.own⟩, fun _ _ => .inl⟩
    obtain ⟨tx, asked, spends, lock⟩ := owned.held outpoint hash locked
    have apart : hash ≠ entry.1 := by
      rintro rfl
      rw [request] at asked
      contradiction
    exact ⟨tx, asked, spends, by rw [AList.lookup_erase_ne apart]; exact lock⟩
  | some tx =>
    refine ⟨⟨fun hash lock found => owned.named hash lock (lookup_erase found).2,
      fun outpoint hash left => ?_, fun hash other outpoint holder asked spends left => ?_⟩,
      fun outpoint hash locked => ?_⟩
    · obtain ⟨locked, others⟩ := unlock_some left
      obtain ⟨own, asked, ⟨txin, member, place⟩, lock⟩ := owned.held outpoint hash locked
      have apart : hash ≠ entry.1 := by
        rintro rfl
        rw [request, Option.some.injEq] at asked
        subst asked
        exact others txin member place
      refine ⟨own, ?_, ⟨txin, member, place⟩, by rw [AList.lookup_erase_ne apart]; exact lock⟩
      simp only [update_of_ne apart]
      exact asked
    · obtain ⟨locked, _⟩ := unlock_some left
      by_cases here : hash = entry.1
      · subst here
        simp only [update_self] at asked
        contradiction
      · simp only [update_of_ne here] at asked
        exact owned.own hash other outpoint holder asked spends locked
    · by_cases spends : Spends tx outpoint
      · exact .inr (owned.own entry.1 tx outpoint hash request spends locked)
      · refine .inl (unlock_kept locked ?_)
        intro txin member place
        exact spends ⟨txin, member, place⟩

theorem Owned.cleanTransactionLocksList (owned : state.Owned) :
    (state.cleanTransactionLocksList context).Owned := by
  apply cleanTransactionLocksList_rule owned owned.named
  exact fun _ _ named before => (before.cleanLock named).1

variable [Crypto]

theorem locksGrow_createNewLock (context : SwiftContext) (state : SwiftState)
    (tx : CTransaction) : LocksGrow state (state.createNewLock context tx).1 := by
  unfold createNewLock
  split
  · exact .refl state
  · cases found : state.mapTxLocks.lookup tx.getHash with
    | none =>
      apply locksGrow_insert
      intro _
      rfl
    | some lock =>
      apply locksGrow_insert
      intro named
      exact named _ lock found

theorem locksGrow_doConsensusVote (context : SwiftContext) (state : SwiftState)
    (tx : CTransaction) (nBlockHeight : Int) :
    LocksGrow state (state.doConsensusVote context tx nBlockHeight) := by
  apply doConsensusVote_rule (.refl state)
  exact fun _ => ⟨rfl, rfl, id, fun _ => id⟩

theorem locksGrow_checkForConflictingLocks (context : SwiftContext) (state : SwiftState)
    (tx : CTransaction) : LocksGrow state (state.checkForConflictingLocks context tx).1 := by
  apply checkForConflictingLocks_rule (.refl state)
  exact fun _ hash before => before.trans (locksGrow_changeLock hash fun _ => rfl)

/-- The refusal of a request locks its inputs only behind a complete lock, and where no request
spends one of them: or every input is locked already. -/
def OwnRefusal (context : SwiftContext) (state : SwiftState) (tx : CTransaction) : Prop :=
  state.RefusalFits context tx ∧
    ((∀ txin ∈ tx.vin, (state.mapLockedInputs txin.prevout).isSome) ∨
      ∀ other old outpoint, state.mapTxLockReq other = some old → Spends tx outpoint →
        ¬Spends old outpoint)

theorem not_spent_of_conflict_none (peace : state.conflictingLock tx = none) (outpoint : COutPoint)
    (other : Uint256) (spends : Spends tx outpoint)
    (locked : state.mapLockedInputs outpoint = some other) : other = tx.getHash := by
  obtain ⟨txin, member, rfl⟩ := spends
  have passed := List.findSome?_eq_none_iff.mp peace txin member
  rw [locked, Option.filter_some] at passed
  by_contra apart
  rw [if_pos (bne_iff_ne.mpr apart)] at passed
  contradiction

theorem not_spent_of_accepted (accepted : state.acceptToMemoryPool context tx = true)
    (outpoint : COutPoint) (other : Uint256) (spends : Spends tx outpoint)
    (locked : state.mapLockedInputs outpoint = some other) : other = tx.getHash := by
  obtain ⟨txin, member, rfl⟩ := spends
  simp only [acceptToMemoryPool, Bool.and_eq_true, Bool.not_eq_true', lockConflict,
    any_eq_false] at accepted
  have passed := accepted.1 txin member
  rw [locked] at passed
  simpa using passed

theorem Owned.rejectRequest (owned : state.Owned) (fresh : state.mapTxLockReq tx.getHash = none)
    (fits : (∀ txin ∈ tx.vin, (state.mapLockedInputs txin.prevout).isSome) ∨
      ((∃ lock, state.mapTxLocks.lookup tx.getHash = some lock ∧ lock.complete = true) ∧
        (∀ txin ∈ tx.vin, state.mapLockedInputs txin.prevout = none) ∧
        ∀ other old outpoint, state.mapTxLockReq other = some old → Spends tx outpoint →
          ¬Spends old outpoint)) :
    (state.rejectRequest context tx).Owned := by
  have ownedNext : ∀ {marked}, SameMaps state marked → marked.Owned := fun same => owned.grow
    ⟨same.requests, same.inputs, by rw [same.locks]; exact id, by rw [same.locks]; exact fun _ => id⟩
  rcases fits with taken | ⟨⟨lock, found, complete⟩, free, alone⟩
  · have locked : ∀ {marked}, SameMaps state marked →
        marked.lockInputs tx.getHash tx.vin = marked :=
      fun same => lockInputs_locked_all _ (by rw [same.inputs]; exact taken)
    apply rejectRequest_rule
    · intro marked same
      rw [locked same]
      exact ownedNext same
    · exact fun after before => before.grow (locksGrow_checkForConflictingLocks context after tx)
    · intro marked same peace
      rw [locked same] at peace ⊢
      exact (ownedNext same).insertRequest (not_spent_of_conflict_none peace)
  · obtain ⟨marked, same, entered⟩ := rejectRequest_free found complete free
    rw [entered]
    have asked : (marked.insertRequest tx.getHash tx).Owned := by
      apply (ownedNext same).insertRequest
      rintro outpoint other ⟨txin, member, rfl⟩ locked
      rw [same.inputs, free txin member] at locked
      contradiction
    apply asked.lockInputs
    · rw [insertRequest_fresh (by rw [same.requests]; exact fresh)]
      exact update_self ..
    · rw [(insertRequest_frame ..).1, same.locks, found]
      rfl
    · intro other old outpoint asked apart spends _
      rcases insertRequest_cases asked with before | ⟨here, _⟩
      · rw [same.requests] at before
        exact alone other old outpoint before spends
      · exact absurd here apart

theorem Owned.processRequest (owned : state.Owned)
    (fits : state.requestValid context tx = true → state.acceptToMemoryPool context tx = false →
      state.OwnRefusal context tx) :
    (state.processRequest context tx).Owned := by
  unfold SwiftState.processRequest
  cases valid : state.requestValid context tx with
  | false => exact owned
  | true =>
    have fresh := requestValid_fresh valid
    have made := owned.grow (locksGrow_createNewLock context state tx)
    obtain ⟨sameRequests, sameInputs⟩ := createNewLock_frame context state tx
    simp only [Bool.not_true, Bool.false_eq_true, if_false]
    split
    · rename_i accepted
      have voted := locksGrow_doConsensusVote context (state.createNewLock context tx).1 tx
        (state.createNewLock context tx).2
      apply (made.grow voted).insertRequest
      rw [voted.inputs]
      exact not_spent_of_accepted accepted
    · rename_i refused
      rw [acceptToMemoryPool_createNewLock] at refused
      apply made.rejectRequest
      · rw [sameRequests]
        exact fresh
      · rw [sameInputs, sameRequests]
        obtain ⟨reason, alone⟩ := fits valid (by simpa using refused)
        rcases reason with taken | ⟨⟨lock, found, complete⟩, free⟩
        · exact .inl taken
        · rcases alone with taken | alone
          · exact .inl taken
          · exact .inr ⟨⟨_, createNewLock_lookup found, complete⟩, free, alone⟩

/-- The vote does not complete the lock of a request that takes an input from another one. -/
def OwnVote (context : SwiftContext) (state : SwiftState) (ctx : CConsensusVote) : Prop :=
  (state.addVote context ctx).2.complete = true →
    ∀ tx other old outpoint, state.mapTxLockReq ctx.txHash = some tx →
      state.mapTxLockReq other = some old → other ≠ ctx.txHash → Spends tx outpoint →
      state.mapLockedInputs outpoint = none → ¬Spends old outpoint

omit [Crypto] in
theorem not_spends_of_empty {outpoint : COutPoint} (empty : tx.vin = []) :
    ¬Spends tx outpoint := by
  rintro ⟨txin, member, _⟩
  rw [empty] at member
  exact not_mem_nil member

theorem Owned.processConsensusVote (owned : state.Owned)
    (fits : state.OwnVote context ctx) : (state.processConsensusVote context ctx).Owned := by
  have voted := locksGrow_addVote context state ctx
  rcases processConsensusVote_cases context state ctx with
    same | ⟨_, same⟩ | ⟨complete, asked, request, enters, found, conflict⟩
  · rw [same]
    exact owned
  · rw [same]
    exact owned.grow voted
  have entered : asked.Owned := by
    rw [enters]
    apply (owned.grow voted).insertRequest
    intro outpoint other spends
    exact absurd spends (not_spends_of_empty rfl)
  rcases conflict with ⟨_, same⟩ | ⟨_, same⟩
  · rw [same]
    exact entered.grow (locksGrow_checkForConflictingLocks ..)
  rw [same]
  apply entered.lockInputs found
  · rw [enters, (insertRequest_frame ..).1]
    unfold addVote
    rw [AList.lookup_insert]
    rfl
  · intro other old outpoint askedOld apart spends free spendsOld
    rw [enters] at found askedOld free
    rw [(insertRequest_frame ..).2, voted.inputs] at free
    rcases insertRequest_cases found with own | ⟨_, rfl⟩
    · rcases insertRequest_cases askedOld with before | ⟨here, _⟩
      · rw [voted.requests] at own before
        exact fits complete request other old outpoint own before apart spends free spendsOld
      · exact apart here
    · exact not_spends_of_empty rfl spends

theorem Owned.processVote (owned : state.Owned)
    (fits : state.OwnVote context ctx) : (state.processVote context ctx).Owned := by
  unfold SwiftState.processVote
  split
  · exact owned
  · split
    · exact owned
    · apply Owned.processConsensusVote
      · exact owned.grow ⟨rfl, rfl, id, fun _ => id⟩
      · exact fits

theorem Owned.relayWalletTransaction (owned : state.Owned)
    (fits : ∀ outpoint other, Spends tx outpoint → state.mapLockedInputs outpoint = some other →
      other = tx.getHash) : (state.relayWalletTransaction context tx).Owned := by
  unfold SwiftState.relayWalletTransaction
  exact (owned.insertRequest fits).grow (locksGrow_createNewLock ..)

structure CleanReleasesOwn (context : SwiftContext) (state : SwiftState) : Prop where
  kept : ∀ outpoint hash,
    (state.cleanTransactionLocksList context).mapLockedInputs outpoint = some hash →
      ((state.cleanTransactionLocksList context).mapTxLocks.lookup hash).isSome = true
  released : ∀ before entry rest, state.mapTxLocks.entries = before ++ entry :: rest →
    ∀ outpoint hash, (before.foldl (cleanLock context) state).mapLockedInputs outpoint = some hash →
      ((before.foldl (cleanLock context) state).cleanLock context entry).mapLockedInputs outpoint =
          some hash ∨
        hash = entry.2.txHash

omit [Crypto] in
theorem Owned.cleanReleasesOwn (owned : state.Owned) (context : SwiftContext) :
    state.CleanReleasesOwn context where
  kept outpoint hash locked := by
    obtain ⟨_, _, _, lock⟩ := owned.cleanTransactionLocksList.held outpoint hash locked
    exact lock
  released before entry rest split outpoint hash := by
    have named : ∀ other ∈ before ++ entry :: rest, other.2.txHash = other.1 := by
      intro other member
      rw [← split] at member
      exact owned.named _ _ (AList.mem_lookup_iff.mpr member)
    have reached : (before.foldl (SwiftState.cleanLock context) state).Owned := by
      apply cleanLock_rule owned
      · exact fun other member => named other (mem_append_left _ member)
      · exact fun _ _ named before => (before.cleanLock named).1
    exact (reached.cleanLock (named entry (mem_append_right _ mem_cons_self))).2
      outpoint hash

theorem processVote_requests {other : Uint256}
    (request : (state.processVote context ctx).mapTxLockReq other = some old) :
    state.mapTxLockReq other = some old ∨ other = ctx.txHash := by
  unfold SwiftState.processVote at request
  split at request
  · exact .inl request
  split at request
  · exact .inl request
  rcases processConsensusVote_cases context _ ctx with
    same | ⟨_, same⟩ | ⟨_, asked, _, enters, _, conflict⟩
  · rw [same] at request
    exact .inl request
  · rw [same] at request
    exact .inl request
  have before : asked.mapTxLockReq other = some old := by
    rcases conflict with ⟨_, same⟩ | ⟨_, same⟩
    · rw [same, (locksGrow_checkForConflictingLocks ..).requests] at request
      exact request
    · rw [same] at request
      exact request
  rw [enters] at before
  exact (insertRequest_cases before).imp id And.left

end SwiftState

section

variable [Crypto]

/-- The call leaves the inputs of others alone. -/
def SwiftCall.Owns (state : SwiftState) : SwiftCall → Prop
  | ix context tx =>
    state.requestValid context tx = true → state.acceptToMemoryPool context tx = false →
      state.OwnRefusal context tx
  | txlvote context ctx => state.OwnVote context ctx
  | clean _ => True
  | relay _ tx => ∀ outpoint other, SwiftState.Spends tx outpoint →
      state.mapLockedInputs outpoint = some other → other = tx.getHash

/-- The states that calls reach from the empty maps, where every call owns what it locks. -/
inductive OwningRun : SwiftState → Prop
  | start : OwningRun {}
  | call {state : SwiftState} (run : OwningRun state) (call : SwiftCall)
      (owns : call.Owns state) : OwningRun (call.run state)

theorem OwningRun.owned {state : SwiftState} (run : OwningRun state) : state.Owned := by
  induction run with
  | start =>
    refine ⟨fun _ _ found => ?_, fun _ _ locked => ?_, fun _ _ _ _ request => ?_⟩ <;>
      contradiction
  | call run call owns ih =>
    cases call with
    | ix context tx => exact ih.processRequest owns
    | txlvote context ctx => exact ih.processVote owns
    | clean context => exact ih.cleanTransactionLocksList
    | relay context tx => exact ih.relayWalletTransaction owns

/-- **The clean-up releases what an expired lock holds.** In every run whose calls own what they
lock, in any order, the clean-up leaves no input locked for a transaction without a lock, and
the removal of an expired lock releases no input of another transaction. -/
theorem cleanReleasesOwn_of_run {state : SwiftState} (run : OwningRun state)
    (context : SwiftContext) : state.CleanReleasesOwn context :=
  run.owned.cleanReleasesOwn context

end

section

attribute [local instance] RefusedRequest.instCrypto

open RefusedRequest SwiftState

/-- The clean-up more than an hour later. -/
def RefusedRequest.later : SwiftContext := { context 6 true with time := 1400070200 + 3601 }

/-- The input of a refused request without a lock stays locked for it after the clean-up, and
the removal of the lock of an accepted request releases an input that a refused one holds. -/
theorem refusedRequest_leaks :
    ¬(SwiftCall.run {} (.ix (context 0 false) (spend 5))).CleanReleasesOwn later ∧
      ¬((SwiftCall.ix (context 0 false) (spend 6)).run
        (SwiftCall.run {} (.ix (context 6 true) (spend 5)))).CleanReleasesOwn later := by
  constructor
  · intro clean
    have locked : ((SwiftCall.run {} (.ix (context 0 false) (spend 5))).cleanTransactionLocksList
        later).mapLockedInputs ⟨7, 0⟩ = some (spend 5).getHash := by
      decide +kernel
    have lock := clean.kept _ _ locked
    revert lock
    decide +kernel
  · intro clean
    have step := clean.released [] _ [] rfl ⟨7, 0⟩ (spend 6).getHash (by decide +kernel)
    revert step
    decide +kernel

theorem RefusedRequest.votes_own (voters : List Nat) {state : SwiftState} (run : OwningRun state)
    (only : ∀ other old, state.mapTxLockReq other = some old → other = (spend 5).getHash) :
    OwningRun (voters.foldl (fun state n => (vote n).run state) state) := by
  induction voters generalizing state with
  | nil => exact run
  | cons n rest ih =>
    apply ih
    · apply run.call
      intro _ _ other old _ _ asked apart
      exact absurd (only other old asked) apart
    · intro other old asked
      rcases processVote_requests asked with before | here
      · exact only other old before
      · exact here

theorem cleanReleasesOwn_of_run_voted : RefusedRequest.voted.CleanReleasesOwn later := by
  apply cleanReleasesOwn_of_run
  apply votes_own
  · apply OwningRun.start.call
    intro _ refused
    have accepted : SwiftState.acceptToMemoryPool (context 6 true) {} (spend 5) = true := by
      decide +kernel
    rw [accepted] at refused
    contradiction
  · intro other old asked
    have request : (SwiftCall.run {} (.ix (context 6 true) (spend 5))).mapTxLockReq =
        Function.update (fun _ => none) (spend 5).getHash (some (spend 5)) := by
      rfl
    by_contra apart
    rw [request, update_of_ne apart] at asked
    contradiction

end

end Agouti
