import Agouti.Masternode.SwiftTX

/-! # Who locks an input

A locked input should belong to a transaction whose lock has the required votes
(`SwiftState.Founded`). The vote path asks for the votes before it locks. The error path of a
request locks the inputs of any transaction that the memory pool refused, and the wallet can
move the height of a complete lock, so that its votes no longer count. In a run without these
two (`SwiftCall.Fits`) every locked input is founded, and the memory pool refuses a spend only
against the required votes (`locksEarned_of_run`).
-/

namespace Agouti

open List Function Option

section

variable [Crypto]

namespace SwiftState

/-- The outpoint is an input of the transaction, and its lock has the required votes. -/
def Founded (state : SwiftState) (outpoint : COutPoint) (hash : Uint256) : Prop :=
  ∃ tx lock, state.mapTxLockReq hash = some tx ∧ tx.getHash = hash ∧
    (∃ txin ∈ tx.vin, txin.prevout = outpoint) ∧
    state.mapTxLocks.lookup hash = some lock ∧ lock.complete = true

/-- Locks stand under their transactions, requests under their hashes, and every locked input
is founded. -/
structure Sound (state : SwiftState) : Prop where
  locks : ∀ hash lock, state.mapTxLocks.lookup hash = some lock → lock.txHash = hash
  requests : ∀ hash tx, state.mapTxLockReq hash = some tx → tx.getHash = hash ∨ tx.vin = []
  founded : ∀ outpoint hash, state.mapLockedInputs outpoint = some hash →
    state.Founded outpoint hash

variable {state : SwiftState} {context : SwiftContext} {tx : CTransaction}

variable {hash : Uint256}

theorem Founded.keep {after : SwiftState} {outpoint : COutPoint}
    (founded : state.Founded outpoint hash)
    (requests : ∀ tx, state.mapTxLockReq hash = some tx → after.mapTxLockReq hash = some tx)
    (locks : ∀ lock, state.mapTxLocks.lookup hash = some lock → lock.complete = true →
      ∃ later, after.mapTxLocks.lookup hash = some later ∧ later.complete = true) :
    after.Founded outpoint hash := by
  obtain ⟨tx, lock, request, named, input, found, complete⟩ := founded
  obtain ⟨later, foundLater, completeLater⟩ := locks lock found complete
  exact ⟨tx, later, requests tx request, named, input, foundLater, completeLater⟩

theorem Sound.insertLock (sound : state.Sound) {lock : CTransactionLock}
    (named : lock.txHash = hash)
    (complete : ∀ outpoint old, state.mapLockedInputs outpoint = some hash →
      state.mapTxLocks.lookup hash = some old → old.complete = true → lock.complete = true) :
    { state with mapTxLocks := state.mapTxLocks.insert hash lock : SwiftState }.Sound := by
  refine ⟨fun other found here => ?_, sound.requests, fun outpoint other locked => ?_⟩
  · by_cases same : other = hash
    · subst same
      rw [AList.lookup_insert, some.injEq] at here
      rw [← here]
      exact named
    · rw [AList.lookup_insert_ne same] at here
      exact sound.locks other found here
  · refine (sound.founded outpoint other locked).keep (fun _ => id) fun old found earned => ?_
    by_cases same : other = hash
    · subst same
      exact ⟨lock, AList.lookup_insert _, complete outpoint old locked found earned⟩
    · exact ⟨old, (AList.lookup_insert_ne same).trans found, earned⟩

theorem Sound.changeLock (sound : state.Sound) (hash : Uint256)
    {change : CTransactionLock → CTransactionLock}
    (named : ∀ lock, (change lock).txHash = lock.txHash)
    (complete : ∀ lock, (change lock).complete = lock.complete) :
    (state.changeLock hash change).Sound := by
  unfold SwiftState.changeLock
  cases found : state.mapTxLocks.lookup hash with
  | none => exact sound
  | some lock =>
    apply sound.insertLock
    · rw [named]
      exact sound.locks hash lock found
    · intro _ old _ there earned
      rw [found, some.injEq] at there
      subst there
      rw [complete]
      exact earned

theorem Sound.of_same (sound : state.Sound) {after : SwiftState}
    (locks : after.mapTxLocks = state.mapTxLocks)
    (requests : after.mapTxLockReq = state.mapTxLockReq)
    (inputs : after.mapLockedInputs = state.mapLockedInputs) : after.Sound := by
  refine ⟨?_, ?_, fun outpoint hash locked => ?_⟩
  · rw [locks]
    exact sound.locks
  · rw [requests]
    exact sound.requests
  · rw [inputs] at locked
    apply (sound.founded outpoint hash locked).keep
    · intro tx request
      rw [requests]
      exact request
    · intro lock found complete
      exact ⟨lock, by rw [locks]; exact found, complete⟩

theorem Sound.insertRequest (sound : state.Sound)
    (named : tx.getHash = hash ∨ tx.vin = []) : (state.insertRequest hash tx).Sound := by
  obtain ⟨locks, inputs⟩ := insertRequest_frame state hash tx
  refine ⟨?_, fun other found request => ?_, fun outpoint other locked => ?_⟩
  · rw [locks]
    exact sound.locks
  · rcases insertRequest_cases request with before | ⟨rfl, rfl⟩
    · exact sound.requests other found before
    · exact named
  · rw [inputs] at locked
    apply (sound.founded outpoint other locked).keep
    · exact fun _ request => insertRequest_keeps request
    · intro lock found complete
      exact ⟨lock, by rw [locks]; exact found, complete⟩

omit [Crypto] in
theorem lockInputs_locked {vin : List CTxIn} {outpoint : COutPoint} {other : Uint256}
    (locked : (state.lockInputs hash vin).mapLockedInputs outpoint = some other) :
    state.mapLockedInputs outpoint = some other ∨
      state.mapLockedInputs outpoint = none ∧ other = hash ∧
        ∃ txin ∈ vin, txin.prevout = outpoint := by
  have loop : ∀ (rest : List CTxIn) (start : COutPoint → Option Uint256),
      (rest.foldl (fun locked txin => lockInput locked hash txin) start) outpoint = some other →
      start outpoint = some other ∨
        start outpoint = none ∧ other = hash ∧ ∃ txin ∈ rest, txin.prevout = outpoint := by
    intro rest
    induction rest with
    | nil => exact fun start there => .inl there
    | cons txin rest ih =>
      intro start there
      rw [foldl_cons] at there
      rcases ih _ there with kept | ⟨absent, same, later, member, place⟩
      · unfold lockInput at kept
        split at kept
        · exact .inl kept
        · rename_i free
          by_cases here : outpoint = txin.prevout
          · subst here
            rw [update_self, some.injEq] at kept
            exact .inr ⟨not_isSome_iff_eq_none.mp free, kept.symm, txin,
              mem_cons_self, rfl⟩
          · rw [update_of_ne here] at kept
            exact .inl kept
      · unfold lockInput at absent
        split at absent
        · exact .inr ⟨absent, same, later, mem_cons_of_mem _ member, place⟩
        · by_cases here : outpoint = txin.prevout
          · subst here
            rw [update_self] at absent
            contradiction
          · rw [update_of_ne here] at absent
            exact .inr ⟨absent, same, later, mem_cons_of_mem _ member, place⟩
  exact loop vin state.mapLockedInputs locked

theorem Sound.lockInputs (sound : state.Sound) {vin : List CTxIn}
    (earned : ∀ txin ∈ vin, state.mapLockedInputs txin.prevout = none →
      state.Founded txin.prevout hash) : (state.lockInputs hash vin).Sound := by
  refine ⟨sound.locks, sound.requests, fun outpoint other locked => ?_⟩
  rcases lockInputs_locked locked with old | ⟨free, rfl, txin, member, rfl⟩
  · exact sound.founded outpoint other old
  · exact earned txin member free

theorem Sound.createNewLock (sound : state.Sound)
    (stays : ∀ outpoint lock nBlockHeight, state.mapLockedInputs outpoint = some tx.getHash →
      state.mapTxLocks.lookup tx.getHash = some lock → lock.complete = true →
      lockHeight context tx = some nBlockHeight → nBlockHeight = lock.nBlockHeight) :
    (state.createNewLock context tx).1.Sound := by
  unfold SwiftState.createNewLock
  cases height : lockHeight context tx with
  | none => exact sound
  | some nBlockHeight =>
    cases found : state.mapTxLocks.lookup tx.getHash with
    | none =>
      apply sound.insertLock
      · rfl
      · intro _ old _ there
        rw [found] at there
        contradiction
    | some lock =>
      apply sound.insertLock
      · exact sound.locks _ lock found
      · intro outpoint old locked there earned
        rw [found, some.injEq] at there
        subst there
        rw [stays outpoint lock nBlockHeight locked found earned height]
        exact earned

theorem createNewLock_frame (context : SwiftContext) (state : SwiftState) (tx : CTransaction) :
    (state.createNewLock context tx).1.mapTxLockReq = state.mapTxLockReq ∧
      (state.createNewLock context tx).1.mapLockedInputs = state.mapLockedInputs := by
  unfold SwiftState.createNewLock
  split
  · exact ⟨rfl, rfl⟩
  · split <;> exact ⟨rfl, rfl⟩

theorem acceptToMemoryPool_createNewLock :
    (state.createNewLock context tx).1.acceptToMemoryPool context tx =
      state.acceptToMemoryPool context tx := by
  unfold acceptToMemoryPool lockConflict
  rw [(createNewLock_frame ..).2]

theorem Sound.doConsensusVote (sound : state.Sound) (nBlockHeight : Int) :
    (state.doConsensusVote context tx nBlockHeight).Sound := by
  apply doConsensusVote_rule sound
  exact fun _ => sound.of_same rfl rfl rfl

theorem Sound.checkForConflictingLocks (sound : state.Sound) :
    (state.checkForConflictingLocks context tx).1.Sound := by
  apply checkForConflictingLocks_rule sound
  exact fun _ hash before => before.changeLock hash (fun _ => rfl) fun _ => rfl

omit [Crypto] in
theorem complete_addSignature {lock : CTransactionLock} (complete : lock.complete = true)
    (cv : CConsensusVote) : (lock.addSignature cv).complete = true := by
  unfold CTransactionLock.complete CTransactionLock.countSignatures at complete ⊢
  rw [decide_eq_true_eq] at complete ⊢
  by_cases zero : lock.nBlockHeight = 0
  · rw [if_pos zero] at complete
    contradiction
  · rw [if_neg zero] at complete
    simp only [CTransactionLock.addSignature, if_neg zero, filter_append, length_append]
    push_cast
    omega

theorem addVote_sound (sound : state.Sound) (ctx : CConsensusVote) :
    (state.addVote context ctx).1.Sound := by
  unfold addVote
  apply sound.insertLock
  · cases found : state.mapTxLocks.lookup ctx.txHash with
    | none => rfl
    | some lock => exact sound.locks _ lock found
  · intro _ old _ found complete
    rw [found]
    exact complete_addSignature complete ctx

theorem Sound.processConsensusVote (sound : state.Sound) (ctx : CConsensusVote) :
    (state.processConsensusVote context ctx).Sound := by
  have voted : (state.addVote context ctx).1.Sound := addVote_sound sound ctx
  rcases processConsensusVote_cases context state ctx with
    same | ⟨_, same⟩ | ⟨complete, asked, request, enters, found, conflict⟩
  · rw [same]
    exact sound
  · rw [same]
    exact voted
  · have entered : asked.Sound := by
      rw [enters]
      exact voted.insertRequest (.inr rfl)
    rcases conflict with ⟨_, same⟩ | ⟨_, same⟩
    · rw [same]
      exact entered.checkForConflictingLocks
    · rw [same]
      apply entered.lockInputs
      intro txin member _
      have named : request.getHash = ctx.txHash := by
        rcases entered.requests _ _ found with named | empty
        · exact named
        · rw [empty] at member
          contradiction
      refine ⟨request, (state.addVote context ctx).2, found, named,
        ⟨txin, member, rfl⟩, ?_, complete⟩
      rw [enters, (insertRequest_frame ..).1]
      exact AList.lookup_insert _

/-- One `txlvote` message. -/
theorem Sound.processVote (sound : state.Sound) (ctx : CConsensusVote) :
    (state.processVote context ctx).Sound := by
  unfold SwiftState.processVote
  split
  · exact sound
  · split
    · exact sound
    · apply Sound.processConsensusVote
      exact sound.of_same rfl rfl rfl

omit [Crypto] in
theorem lockInputs_locked_all (hash : Uint256)
    (taken : ∀ txin ∈ tx.vin, (state.mapLockedInputs txin.prevout).isSome) :
    state.lockInputs hash tx.vin = state := by
  have loop : ∀ rest : List CTxIn,
      (∀ txin ∈ rest, (state.mapLockedInputs txin.prevout).isSome) →
      rest.foldl (fun locked txin => lockInput locked hash txin) state.mapLockedInputs =
        state.mapLockedInputs := by
    intro rest
    induction rest with
    | nil => exact fun _ => rfl
    | cons txin rest ih =>
      intro all
      rw [foldl_cons, lockInput, if_pos (all txin mem_cons_self)]
      exact ih fun later member => all later (mem_cons_of_mem _ member)
  unfold SwiftState.lockInputs
  rw [loop tx.vin taken]

theorem conflictingLock_lockInputs (peace : state.conflictingLock tx = none) :
    (state.lockInputs tx.getHash tx.vin).conflictingLock tx = none := by
  unfold conflictingLock at peace ⊢
  rw [List.findSome?_eq_none_iff] at peace ⊢
  intro txin member
  cases locked : (state.lockInputs tx.getHash tx.vin).mapLockedInputs txin.prevout with
  | none => rfl
  | some other =>
    rcases lockInputs_locked locked with old | ⟨_, same, _⟩
    · rw [← old]
      exact peace txin member
    · rw [same]
      simp

theorem rejectRequest_free {lock : CTransactionLock}
    (found : state.mapTxLocks.lookup tx.getHash = some lock) (complete : lock.complete = true)
    (free : ∀ txin ∈ tx.vin, state.mapLockedInputs txin.prevout = none) :
    ∃ marked, SameMaps state marked ∧ state.rejectRequest context tx =
      (marked.insertRequest tx.getHash tx).lockInputs tx.getHash tx.vin := by
  let marked := { state with
    mapTxLockReqRejected := Function.update state.mapTxLockReqRejected tx.getHash (some tx) }
  have there : (marked.lockInputs tx.getHash tx.vin).mapTxLocks.lookup tx.getHash = some lock :=
    found
  have peace : (marked.lockInputs tx.getHash tx.vin).conflictingLock tx = none := by
    apply conflictingLock_lockInputs
    unfold conflictingLock
    rw [List.findSome?_eq_none_iff]
    intro txin member
    rw [free txin member]
    rfl
  refine ⟨marked, ⟨rfl, rfl, rfl, rfl⟩, ?_⟩
  unfold rejectRequest
  simp only [there, complete, Bool.not_true, Bool.false_eq_true, if_false,
    checkForConflictingLocks, peace, insertRequest_lockInputs, marked]

theorem Sound.rejectRequest (sound : state.Sound)
    (fits : (∀ txin ∈ tx.vin, (state.mapLockedInputs txin.prevout).isSome) ∨
      ((∃ lock, state.mapTxLocks.lookup tx.getHash = some lock ∧ lock.complete = true) ∧
        ∀ txin ∈ tx.vin, state.mapLockedInputs txin.prevout = none))
    (fresh : state.mapTxLockReq tx.getHash = none) :
    (state.rejectRequest context tx).Sound := by
  have soundNext : ∀ {marked}, SameMaps state marked → marked.Sound :=
    fun same => sound.of_same same.locks same.requests same.inputs
  rcases fits with taken | ⟨⟨lock, found, complete⟩, free⟩
  · have locked : ∀ {marked}, SameMaps state marked →
        marked.lockInputs tx.getHash tx.vin = marked :=
      fun same => lockInputs_locked_all _ (by rw [same.inputs]; exact taken)
    apply rejectRequest_rule
    · intro marked same
      rw [locked same]
      exact soundNext same
    · exact fun _ before => before.checkForConflictingLocks
    · intro marked same _
      rw [locked same]
      exact (soundNext same).insertRequest (.inl rfl)
  · obtain ⟨marked, same, entered⟩ := rejectRequest_free found complete free
    rw [entered]
    have asked : (marked.insertRequest tx.getHash tx).Sound :=
      (soundNext same).insertRequest (.inl rfl)
    apply asked.lockInputs
    intro txin member _
    refine ⟨tx, lock, ?_, rfl, ⟨txin, member, rfl⟩, ?_, complete⟩
    · rw [insertRequest_fresh (by rw [same.requests]; exact fresh)]
      exact update_self ..
    · rw [(insertRequest_frame ..).1, same.locks]
      exact found

/-- Nothing is locked for a transaction without a request. -/
theorem Sound.unlocked (sound : state.Sound) (fresh : state.mapTxLockReq hash = none)
    (outpoint : COutPoint) :
    state.mapLockedInputs outpoint ≠ some hash := by
  intro locked
  obtain ⟨tx, lock, request, _⟩ := sound.founded outpoint hash locked
  rw [fresh] at request
  contradiction

end SwiftState

/-- The refusal of a request locks no input without the votes: every input is locked already,
or the lock of the transaction has the votes, counted at its new height, and no input is
locked. -/
def SwiftState.RefusalFits (context : SwiftContext) (state : SwiftState) (tx : CTransaction) :
    Prop :=
  (∀ txin ∈ tx.vin, (state.mapLockedInputs txin.prevout).isSome) ∨
    (∃ lock, state.mapTxLocks.lookup tx.getHash = some lock ∧
      { lock with
        nBlockHeight := (SwiftState.lockHeight context tx).getD lock.nBlockHeight
        : CTransactionLock }.complete = true) ∧
      ∀ txin ∈ tx.vin, state.mapLockedInputs txin.prevout = none

namespace SwiftState

variable {state : SwiftState} {context : SwiftContext} {tx : CTransaction}

theorem createNewLock_lookup {lock : CTransactionLock}
    (found : state.mapTxLocks.lookup tx.getHash = some lock) :
    (state.createNewLock context tx).1.mapTxLocks.lookup tx.getHash =
      some { lock with nBlockHeight := (lockHeight context tx).getD lock.nBlockHeight } := by
  unfold createNewLock
  cases height : lockHeight context tx with
  | none => exact found
  | some nBlockHeight =>
    simp only [found]
    exact AList.lookup_insert _

/-- One `ix` message. -/
theorem Sound.processRequest (sound : state.Sound)
    (fits : state.requestValid context tx = true → state.acceptToMemoryPool context tx = false →
      state.RefusalFits context tx) :
    (state.processRequest context tx).Sound := by
  unfold SwiftState.processRequest
  cases valid : state.requestValid context tx with
  | false => exact sound
  | true =>
    have fresh := requestValid_fresh valid
    obtain ⟨sameRequests, sameInputs⟩ := createNewLock_frame context state tx
    have made : (state.createNewLock context tx).1.Sound := by
      apply sound.createNewLock
      intro outpoint _ _ locked
      exact absurd locked (sound.unlocked fresh outpoint)
    simp only [Bool.not_true, Bool.false_eq_true, if_false]
    rw [acceptToMemoryPool_createNewLock]
    split
    · exact (made.doConsensusVote _).insertRequest (.inl rfl)
    · rename_i refused
      apply made.rejectRequest
      · rw [sameInputs]
        rcases fits valid (by simpa using refused) with
          taken | ⟨⟨lock, found, complete⟩, free⟩
        · exact .inl taken
        · exact .inr ⟨⟨_, createNewLock_lookup found, complete⟩, free⟩
      · rw [sameRequests]
        exact fresh

omit [Crypto] in
theorem unlock_some {vin : List CTxIn} {locked : COutPoint → Option Uint256}
    {outpoint : COutPoint} {hash : Uint256}
    (left : vin.foldl (fun locked (txin : CTxIn) => Function.update locked txin.prevout none)
      locked outpoint = some hash) :
    locked outpoint = some hash ∧ ∀ txin ∈ vin, txin.prevout ≠ outpoint := by
  induction vin generalizing locked with
  | nil => exact ⟨left, fun _ member => absurd member not_mem_nil⟩
  | cons txin rest ih =>
    rw [foldl_cons] at left
    obtain ⟨kept, others⟩ := ih left
    by_cases here : outpoint = txin.prevout
    · subst here
      rw [update_self] at kept
      contradiction
    · rw [update_of_ne here] at kept
      refine ⟨kept, fun later member => ?_⟩
      rcases mem_cons.mp member with rfl | member
      · exact Ne.symm here
      · exact others later member

theorem Sound.cleanLock (sound : state.Sound) {entry : Sigma fun _ : Uint256 => CTransactionLock}
    (named : entry.2.txHash = entry.1) : (state.cleanLock context entry).Sound := by
  unfold SwiftState.cleanLock
  simp only
  split
  · exact sound
  · rw [named]
    cases request : state.mapTxLockReq entry.1 with
    | none =>
      refine ⟨fun hash lock found => sound.locks hash lock (lookup_erase found).2,
        sound.requests, fun outpoint hash locked => ?_⟩
      apply (sound.founded outpoint hash locked).keep
      · exact fun _ => id
      · intro lock found complete
        refine ⟨lock, ?_, complete⟩
        refine (AList.lookup_erase_ne ?_).trans found
        rintro rfl
        exact sound.unlocked request outpoint locked
    | some tx =>
      refine ⟨fun hash lock found => sound.locks hash lock (lookup_erase found).2,
        fun hash other found => ?_, fun outpoint hash left => ?_⟩
      · by_cases here : hash = entry.1
        · subst here
          simp only [update_self] at found
          contradiction
        · simp only [update_of_ne here] at found
          exact sound.requests hash other found
      · obtain ⟨locked, others⟩ := unlock_some left
        have founded := sound.founded outpoint hash locked
        have here : hash ≠ entry.1 := by
          rintro rfl
          obtain ⟨own, _, found, _, ⟨txin, member, place⟩, _⟩ := founded
          rw [request, some.injEq] at found
          subst found
          exact others txin member place
        apply founded.keep
        · intro other found
          simp only [update_of_ne here]
          exact found
        · intro lock found complete
          exact ⟨lock, (AList.lookup_erase_ne here).trans found, complete⟩

theorem Sound.cleanTransactionLocksList (sound : state.Sound) :
    (state.cleanTransactionLocksList context).Sound := by
  apply cleanTransactionLocksList_rule sound sound.locks
  exact fun _ _ named before => before.cleanLock named

theorem Sound.relayWalletTransaction (sound : state.Sound)
    (stays : ∀ lock nBlockHeight, state.mapTxLocks.lookup tx.getHash = some lock →
      lock.complete = true → lockHeight context tx = some nBlockHeight →
      nBlockHeight = lock.nBlockHeight) :
    (state.relayWalletTransaction context tx).Sound := by
  unfold SwiftState.relayWalletTransaction
  have asked : (state.insertRequest tx.getHash tx).Sound := sound.insertRequest (.inl rfl)
  apply asked.createNewLock
  intro _ lock nBlockHeight _ found
  rw [(insertRequest_frame ..).1] at found
  exact stays lock nBlockHeight found

end SwiftState

/-- What changes the maps: a request or a vote of a peer, the clean-up, and a transaction of
the wallet. -/
inductive SwiftCall where
  | ix (context : SwiftContext) (tx : CTransaction)
  | txlvote (context : SwiftContext) (ctx : CConsensusVote)
  | clean (context : SwiftContext)
  | relay (context : SwiftContext) (tx : CTransaction)

def SwiftCall.run (state : SwiftState) : SwiftCall → SwiftState
  | ix context tx => state.processRequest context tx
  | txlvote context ctx => state.processVote context ctx
  | clean context => state.cleanTransactionLocksList context
  | relay context tx => state.relayWalletTransaction context tx

/-- The call is neither a refused request that locks inputs without the votes, nor a relay that
moves the height of a lock with the votes. -/
def SwiftCall.Fits (state : SwiftState) : SwiftCall → Prop
  | ix context tx =>
    state.requestValid context tx = true → state.acceptToMemoryPool context tx = false →
      state.RefusalFits context tx
  | txlvote _ _ => True
  | clean _ => True
  | relay context tx => ∀ lock nBlockHeight, state.mapTxLocks.lookup tx.getHash = some lock →
      lock.complete = true → SwiftState.lockHeight context tx = some nBlockHeight →
      nBlockHeight = lock.nBlockHeight

/-- The states that calls reach from the empty maps, the calls all fitting. -/
inductive SwiftRun : SwiftState → Prop
  | start : SwiftRun {}
  | call {state : SwiftState} (run : SwiftRun state) (call : SwiftCall) (fits : call.Fits state) :
      SwiftRun (call.run state)

/-- Every locked input belongs to a transaction whose lock has the required votes, and a
transaction is refused for a lock only where another one has them. -/
structure SwiftState.LocksEarned (state : SwiftState) : Prop where
  founded : ∀ outpoint hash, state.mapLockedInputs outpoint = some hash →
    state.Founded outpoint hash
  refused : ∀ tx, state.lockConflict tx = true →
    ∃ txin ∈ tx.vin, ∃ hash, hash ≠ tx.getHash ∧ state.Founded txin.prevout hash

theorem SwiftCall.run_sound {state : SwiftState} (sound : state.Sound) {call : SwiftCall}
    (fits : call.Fits state) : (call.run state).Sound := by
  cases call with
  | ix context tx => exact sound.processRequest fits
  | txlvote context ctx => exact sound.processVote ctx
  | clean context => exact sound.cleanTransactionLocksList
  | relay context tx => exact sound.relayWalletTransaction fits

theorem SwiftRun.sound {state : SwiftState} (run : SwiftRun state) : state.Sound := by
  induction run with
  | start =>
    refine ⟨fun _ _ found => ?_, fun _ _ found => ?_, fun _ _ locked => ?_⟩ <;> contradiction
  | call run call fits ih => exact call.run_sound ih fits

/-- The invariant gives the property. -/
theorem SwiftState.Sound.locksEarned {state : SwiftState} (sound : state.Sound) :
    state.LocksEarned := by
  refine ⟨sound.founded, fun tx conflict => ?_⟩
  unfold SwiftState.lockConflict at conflict
  obtain ⟨txin, member, other⟩ := any_eq_true.mp conflict
  cases locked : state.mapLockedInputs txin.prevout with
  | none =>
    rw [locked] at other
    contradiction
  | some hash =>
    rw [locked] at other
    exact ⟨txin, member, hash, by simpa using other, sound.founded _ _ locked⟩

/-- **A lock is earned by votes.** In every run whose calls all fit, in any order, an input is
locked only for a transaction whose lock has the required votes, so that the memory pool
refuses a spend for a lock only against that many votes. -/
theorem locksEarned_of_run {state : SwiftState} (run : SwiftRun state) : state.LocksEarned :=
  run.sound.locksEarned

end

namespace RefusedRequest

/-! Two transactions with the same input, and the votes of the masternodes. -/

/-- Every input is `age` blocks deep, and the memory pool accepts what `acceptable` says. -/
def context (age : Int) (acceptable : Bool) : SwiftContext where
  enabled := true
  time := 1400070200
  tipHeight := some 100
  getTransaction _ := none
  nMaxValue := 1000
  getInputAge _ := age
  acceptable _ := acceptable
  getMasternodeRank _ _ := 1
  signatureValid _ := true
  activeMasternode := none
  sign _ := none

def spend (nValue : Int) : CTransaction :=
  { nVersion := 1, vin := [{ prevout := ⟨7, 0⟩, scriptSig := [] }],
    vout := [{ nValue := nValue, scriptPubKey := [CScript.OP_RETURN] }], nLockTime := 0 }

end RefusedRequest

section

local instance RefusedRequest.instCrypto : Crypto := checksumCrypto

open RefusedRequest

/-- One request that the memory pool refuses locks its input without a vote, and another spend
of the input is refused for it. -/
theorem refusedRequest_locks :
    let state := SwiftCall.run {} (.ix (context 0 false) (spend 5))
    state.mapLockedInputs ⟨7, 0⟩ = some (spend 5).getHash ∧
      state.mapTxLocks.lookup (spend 5).getHash = none ∧
      ¬state.LocksEarned ∧
      state.acceptToMemoryPool (context 6 true) (spend 6) = false ∧
      SwiftState.acceptToMemoryPool (context 6 true) {} (spend 6) = true := by
  have locked : (SwiftCall.run {} (.ix (context 0 false) (spend 5))).mapLockedInputs ⟨7, 0⟩ =
      some (spend 5).getHash := by
    decide +kernel
  have lock : (SwiftCall.run {} (.ix (context 0 false) (spend 5))).mapTxLocks.lookup
      (spend 5).getHash = none := by
    decide +kernel
  refine ⟨locked, lock, fun earned => ?_, by decide +kernel, by decide +kernel⟩
  obtain ⟨_, _, _, _, _, found, _⟩ := earned.founded _ _ locked
  rw [lock] at found
  contradiction

def RefusedRequest.vote (n : Nat) : SwiftCall :=
  .txlvote (context 6 true)
    { vinMasternode := { prevout := ⟨9, n⟩, scriptSig := [] }, txHash := (spend 5).getHash,
      nBlockHeight := 98, vchMasterNodeSignature := [] }

/-- A request that the memory pool accepts, and six votes for it. -/
def RefusedRequest.voted : SwiftState :=
  [0, 1, 2, 3, 4, 5].foldl (fun state n => (vote n).run state)
    (SwiftCall.run {} (.ix (context 6 true) (spend 5)))

theorem locksEarned_of_run_voted :
    RefusedRequest.voted.mapLockedInputs ⟨7, 0⟩ = some (spend 5).getHash ∧
      RefusedRequest.voted.LocksEarned := by
  refine ⟨by decide +kernel, locksEarned_of_run ?_⟩
  have asked : SwiftRun (SwiftCall.run {} (.ix (context 6 true) (spend 5))) := by
    apply SwiftRun.start.call
    intro _ refused
    have accepted : SwiftState.acceptToMemoryPool (context 6 true) {} (spend 5) = true := by
      decide +kernel
    rw [accepted] at refused
    contradiction
  have votes : ∀ (voters : List Nat) (state : SwiftState), SwiftRun state →
      SwiftRun (voters.foldl (fun state n => (vote n).run state) state) := by
    intro voters
    induction voters with
    | nil => exact fun _ run => run
    | cons n rest ih => exact fun state run => ih _ (run.call (vote n) trivial)
  exact votes _ _ asked

end

end Agouti
