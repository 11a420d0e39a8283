import Agouti.Library.RunningTotal
import Agouti.Primitives.Serialize
import Mathlib.Data.List.AList

/-! # Transaction locks

`swifttx.cpp`: transactions that ask for a lock (`ix`), the votes of masternodes on them
(`txlvote`), the locks that enough votes complete, and the inputs that are locked. What a message
handler reads of the rest of the node (clock, chain, memory pool, masternode list) is given with
each call (`SwiftContext`), so blocks may arrive between any two calls.
-/

namespace Agouti

open Function Option

def SWIFTTX_SIGNATURES_REQUIRED : Int := 6
def SWIFTTX_SIGNATURES_TOTAL : Int := 10

/-- A vote for a lock. -/
structure CConsensusVote where
  vinMasternode : CTxIn
  txHash : Uint256
  nBlockHeight : Int
  vchMasterNodeSignature : List UInt8
  deriving DecidableEq, Repr

def CConsensusVote.getHash (vote : CConsensusVote) : Uint256 :=
  vote.vinMasternode.prevout.hash + BitVec.ofNat 256 vote.vinMasternode.prevout.n + vote.txHash

/-- The votes for a transaction. -/
structure CTransactionLock where
  nBlockHeight : Int
  txHash : Uint256
  vecConsensusVotes : List CConsensusVote := []
  nExpiration : Int
  nTimeout : Int
  deriving DecidableEq, Repr

namespace CTransactionLock

def addSignature (lock : CTransactionLock) (cv : CConsensusVote) : CTransactionLock :=
  { lock with vecConsensusVotes := lock.vecConsensusVotes ++ [cv] }

def countSignatures (lock : CTransactionLock) : Int :=
  if lock.nBlockHeight = 0 then -1
  else (lock.vecConsensusVotes.filter fun vote => vote.nBlockHeight == lock.nBlockHeight).length

def complete (lock : CTransactionLock) : Bool :=
  decide (SWIFTTX_SIGNATURES_REQUIRED ≤ lock.countSignatures)

end CTransactionLock

/-- The maps of `swifttx.cpp`. -/
structure SwiftState where
  mapTxLockReq : Uint256 → Option CTransaction := fun _ => none
  mapTxLockReqRejected : Uint256 → Option CTransaction := fun _ => none
  mapTxLockVote : Uint256 → Option CConsensusVote := fun _ => none
  mapTxLocks : AList fun _ : Uint256 => CTransactionLock := ∅
  mapLockedInputs : COutPoint → Option Uint256 := fun _ => none

/-- What a call reads of the rest of the node. -/
structure SwiftContext where
  /-- `!fLiteMode`, `IsSporkActive(SPORK_2_SWIFTTX)` and `IsBlockchainSynced()` -/
  enabled : Bool
  /-- `GetTime()` -/
  time : Int
  /-- `chainActive.Tip()->nHeight`, when there is a tip -/
  tipHeight : Option Int
  /-- `GetTransaction` -/
  getTransaction : Uint256 → Option CTransaction
  /-- `GetSporkValue(SPORK_5_MAX_VALUE)` -/
  nMaxValue : Int
  /-- `GetInputAge` -/
  getInputAge : CTxIn → Int
  /-- the checks of `AcceptToMemoryPool` besides the one for transaction locks -/
  acceptable : CTransaction → Bool
  /-- `GetMasternodeRank`, `-1` for an unknown masternode -/
  getMasternodeRank : CTxIn → Int → Int
  /-- `CConsensusVote::SignatureValid` -/
  signatureValid : CConsensusVote → Bool
  /-- the key of this node, when it is a masternode, and its signature of a vote -/
  activeMasternode : Option CTxIn
  sign : CConsensusVote → Option (List UInt8)

open RunningTotal in
/-- The amounts are added and subtracted in 64 bits, before their range is checked anywhere. -/
def isIXTXValid (context : SwiftContext) (txCollateral : CTransaction) : Bool :=
  let found := txCollateral.vin.map fun txin => (txin, context.getTransaction txin.prevout.hash)
  let nValueIn := runningTotal (2 ^ 63) (found.map fun (txin, tx2) =>
    ((tx2.bind fun tx2 => tx2.vout[txin.prevout.n]?).map CTxOut.nValue).getD 0)
  let nValueOut := runningTotal (2 ^ 63) (txCollateral.vout.map CTxOut.nValue)
  if txCollateral.vout.length < 1 then false
  else if txCollateral.nLockTime ≠ 0 then false
  else if (context.nMaxValue * COIN).bmod (2 ^ 64) < nValueOut then false
  else if found.any fun (_, tx2) => tx2.isNone then true
  else !decide ((nValueIn - nValueOut).bmod (2 ^ 64) < 1000000)

namespace SwiftState

/-- Insert an outpoint under a transaction, unless it is locked. -/
def lockInput (mapLockedInputs : COutPoint → Option Uint256) (hash : Uint256) (txin : CTxIn) :
    COutPoint → Option Uint256 :=
  if (mapLockedInputs txin.prevout).isSome then mapLockedInputs
  else update mapLockedInputs txin.prevout (some hash)

/-- The loops that lock the inputs of a transaction. -/
def lockInputs (state : SwiftState) (hash : Uint256) (vin : List CTxIn) : SwiftState :=
  { state with
    mapLockedInputs := vin.foldl (fun locked txin => lockInput locked hash txin)
      state.mapLockedInputs }

/-- `mapTxLockReq.insert`. -/
def insertRequest (state : SwiftState) (hash : Uint256) (tx : CTransaction) : SwiftState :=
  if (state.mapTxLockReq hash).isSome then state
  else { state with mapTxLockReq := update state.mapTxLockReq hash (some tx) }

def changeLock (state : SwiftState) (hash : Uint256)
    (change : CTransactionLock → CTransactionLock) : SwiftState :=
  match state.mapTxLocks.lookup hash with
  | none => state
  | some lock => { state with mapTxLocks := state.mapTxLocks.insert hash (change lock) }

variable [Crypto]

/-- The check of `AcceptToMemoryPool` for transaction locks fails. -/
def lockConflict (state : SwiftState) (tx : CTransaction) : Bool :=
  tx.vin.any fun txin =>
    ((state.mapLockedInputs txin.prevout).map fun hash => hash != tx.getHash).getD false

def acceptToMemoryPool (context : SwiftContext) (state : SwiftState) (tx : CTransaction) : Bool :=
  !state.lockConflict tx && context.acceptable tx

/-- The height that `CreateNewLock` gives a transaction; nothing when an input is too new. The
age of the first input is the last one that its loop reads. -/
def lockHeight (context : SwiftContext) (tx : CTransaction) : Option Int :=
  if tx.vin.any fun txin => decide (context.getInputAge txin < 5) then none
  else
    let nTxAge := (tx.vin.head?.map context.getInputAge).getD 0
    some (context.tipHeight.getD 0 - nTxAge + 4)

def createNewLock (context : SwiftContext) (state : SwiftState) (tx : CTransaction) :
    SwiftState × Int :=
  match lockHeight context tx with
  | none => (state, 0)
  | some nBlockHeight =>
    match state.mapTxLocks.lookup tx.getHash with
    | none =>
      ({ state with
        mapTxLocks := state.mapTxLocks.insert tx.getHash
          { nBlockHeight := nBlockHeight, txHash := tx.getHash,
            nExpiration := (context.time + 60 * 60).bmod (2 ^ 32),
            nTimeout := (context.time + 60 * 5).bmod (2 ^ 32) } }, nBlockHeight)
    | some lock =>
      ({ state with
        mapTxLocks := state.mapTxLocks.insert tx.getHash
          { lock with nBlockHeight := nBlockHeight } }, nBlockHeight)

def doConsensusVote (context : SwiftContext) (state : SwiftState) (tx : CTransaction)
    (nBlockHeight : Int) : SwiftState :=
  match context.activeMasternode with
  | none => state
  | some vin =>
    let n := context.getMasternodeRank vin nBlockHeight
    if n = -1 then state
    else if SWIFTTX_SIGNATURES_TOTAL < n then state
    else
      let ctx : CConsensusVote := ⟨vin, tx.getHash, nBlockHeight, []⟩
      match context.sign ctx with
      | none => state
      | some vchSig =>
        let ctx := { ctx with vchMasterNodeSignature := vchSig }
        if !context.signatureValid ctx then state
        else { state with
          mapTxLockVote := update state.mapTxLockVote ctx.getHash (some ctx) }

/-- The other transaction that locks an input, the first one. -/
def conflictingLock (state : SwiftState) (tx : CTransaction) : Option Uint256 :=
  tx.vin.findSome? fun txin =>
    (state.mapLockedInputs txin.prevout).filter fun hash => hash != tx.getHash

/-- `CheckForConflictingLocks`: both locks expire. -/
def checkForConflictingLocks (context : SwiftContext) (state : SwiftState) (tx : CTransaction) :
    SwiftState × Bool :=
  match state.conflictingLock tx with
  | none => (state, false)
  | some other =>
    let expire := fun lock : CTransactionLock =>
      { lock with nExpiration := context.time.bmod (2 ^ 32) }
    ((state.changeLock tx.getHash expire).changeLock other expire, true)

/-- The end of `ProcessMessageSwiftTX` for a request that the memory pool did not accept. -/
def rejectRequest (context : SwiftContext) (state : SwiftState) (tx : CTransaction) : SwiftState :=
  let state := { state with
    mapTxLockReqRejected := update state.mapTxLockReqRejected tx.getHash (some tx) }
  let state := state.lockInputs tx.getHash tx.vin
  match state.mapTxLocks.lookup tx.getHash with
  | none => state
  | some lock =>
    if !lock.complete then state
    else
      let (state, conflict) := state.checkForConflictingLocks context tx
      if conflict then state else state.insertRequest tx.getHash tx

/-- The request is new and passes the first checks of `ProcessMessageSwiftTX`. -/
def requestValid (context : SwiftContext) (state : SwiftState) (tx : CTransaction) : Bool :=
  context.enabled && (state.mapTxLockReq tx.getHash).isNone &&
    (state.mapTxLockReqRejected tx.getHash).isNone && isIXTXValid context tx &&
    tx.vout.all fun o => o.scriptPubKey.isNormalPaymentScript || o.scriptPubKey.isUnspendable

/-- `ProcessMessageSwiftTX` for `ix`. -/
def processRequest (context : SwiftContext) (state : SwiftState) (tx : CTransaction) :
    SwiftState :=
  if !state.requestValid context tx then state
  else
    let (state, nBlockHeight) := state.createNewLock context tx
    if state.acceptToMemoryPool context tx then
      (state.doConsensusVote context tx nBlockHeight).insertRequest tx.getHash tx
    else state.rejectRequest context tx

/-- The lock of `ProcessConsensusVote`, with the vote added. -/
def addVote (context : SwiftContext) (state : SwiftState) (ctx : CConsensusVote) :
    SwiftState × CTransactionLock :=
  let lock := (state.mapTxLocks.lookup ctx.txHash).getD
    { nBlockHeight := 0, nExpiration := (context.time + 60 * 60).bmod (2 ^ 32),
      nTimeout := (context.time + 60 * 5).bmod (2 ^ 32), txHash := ctx.txHash }
  let lock := lock.addSignature ctx
  ({ state with mapTxLocks := state.mapTxLocks.insert ctx.txHash lock }, lock)

/-- `ProcessConsensusVote`. The access `mapTxLockReq[ctx.txHash]` inserts an empty transaction
where there is none. -/
def processConsensusVote (context : SwiftContext) (state : SwiftState) (ctx : CConsensusVote) :
    SwiftState :=
  let n := context.getMasternodeRank ctx.vinMasternode ctx.nBlockHeight
  if n = -1 then state
  else if SWIFTTX_SIGNATURES_TOTAL < n then state
  else if !context.signatureValid ctx then state
  else
    let (state, lock) := state.addVote context ctx
    if !lock.complete then state
    else
      let state := state.insertRequest ctx.txHash
        { nVersion := 1, vin := [], vout := [], nLockTime := 0 }
      match state.mapTxLockReq ctx.txHash with
      | none => state
      | some tx =>
        let (state, conflict) := state.checkForConflictingLocks context tx
        if conflict then state else state.lockInputs ctx.txHash tx.vin

/-- `ProcessMessageSwiftTX` for `txlvote`. -/
def processVote (context : SwiftContext) (state : SwiftState) (ctx : CConsensusVote) :
    SwiftState :=
  if !context.enabled then state
  else if (state.mapTxLockVote ctx.getHash).isSome then state
  else
    { state with mapTxLockVote := update state.mapTxLockVote ctx.getHash (some ctx) }
      |>.processConsensusVote context ctx

/-- The body of the loop of `CleanTransactionLocksList`. -/
def cleanLock (context : SwiftContext) (state : SwiftState)
    (entry : Sigma fun _ : Uint256 => CTransactionLock) : SwiftState :=
  let lock := entry.2
  if context.time ≤ lock.nExpiration then state
  else
    let state :=
      match state.mapTxLockReq lock.txHash with
      | none => state
      | some tx =>
        { state with
          mapLockedInputs := tx.vin.foldl
            (fun locked (txin : CTxIn) => update locked txin.prevout none)
            state.mapLockedInputs,
          mapTxLockReq := update state.mapTxLockReq lock.txHash none,
          mapTxLockReqRejected := update state.mapTxLockReqRejected lock.txHash none,
          mapTxLockVote := lock.vecConsensusVotes.foldl
            (fun votes (vote : CConsensusVote) => update votes vote.getHash none)
            state.mapTxLockVote }
    { state with mapTxLocks := state.mapTxLocks.erase entry.1 }

def cleanTransactionLocksList (context : SwiftContext) (state : SwiftState) : SwiftState :=
  if context.tipHeight.isNone then state
  else state.mapTxLocks.entries.foldl (cleanLock context) state

/-- `CWalletTx::RelayWalletTransaction` of a transaction of the wallet as `ix`. -/
def relayWalletTransaction (context : SwiftContext) (state : SwiftState) (tx : CTransaction) :
    SwiftState :=
  ((state.insertRequest tx.getHash tx).createNewLock context tx).1

/-! What each operation can do, said once for the invariants of the other modules. -/

variable {state : SwiftState} {context : SwiftContext} {tx : CTransaction} {hash : Uint256}

theorem requestValid_new (valid : state.requestValid context tx = true) :
    state.mapTxLockReq tx.getHash = none ∧ state.mapTxLockReqRejected tx.getHash = none := by
  unfold requestValid at valid
  simp only [Bool.and_eq_true, isNone_iff_eq_none] at valid
  exact ⟨valid.1.1.1.2, valid.1.1.2⟩

theorem requestValid_fresh (valid : state.requestValid context tx = true) :
    state.mapTxLockReq tx.getHash = none := (requestValid_new valid).1

theorem doConsensusVote_rule {motive : SwiftState → Prop} {nBlockHeight : Int}
    (same : motive state)
    (voted : ∀ ctx : CConsensusVote, motive { state with
      mapTxLockVote := update state.mapTxLockVote ctx.getHash (some ctx) }) :
    motive (state.doConsensusVote context tx nBlockHeight) := by
  unfold doConsensusVote
  split
  · exact same
  simp only
  split
  · exact same
  split
  · exact same
  split
  · exact same
  split
  · exact same
  · exact voted _

theorem checkForConflictingLocks_rule {motive : SwiftState → Prop} (same : motive state)
    (expired : ∀ (state : SwiftState) hash, motive state → motive (state.changeLock hash
      fun lock => { lock with nExpiration := context.time.bmod (2 ^ 32) })) :
    motive (state.checkForConflictingLocks context tx).1 := by
  unfold checkForConflictingLocks
  split
  · exact same
  · exact expired _ _ (expired _ _ same)

theorem checkForConflictingLocks_none
    (peace : (state.checkForConflictingLocks context tx).2 = false) :
    state.conflictingLock tx = none ∧ (state.checkForConflictingLocks context tx).1 = state := by
  unfold checkForConflictingLocks at peace ⊢
  cases found : state.conflictingLock tx with
  | none => exact ⟨rfl, rfl⟩
  | some other =>
    rw [found] at peace
    contradiction

theorem checkForConflictingLocks_some
    (conflict : (state.checkForConflictingLocks context tx).2 = true) :
    (state.conflictingLock tx).isSome = true := by
  unfold checkForConflictingLocks at conflict
  split at conflict
  · contradiction
  · rename_i found
    rw [found]
    rfl

omit [Crypto]

theorem insertRequest_fresh (fresh : state.mapTxLockReq hash = none) :
    state.insertRequest hash tx =
      { state with mapTxLockReq := update state.mapTxLockReq hash (some tx) } := by
  simp only [insertRequest, fresh, isSome_none, Bool.false_eq_true, if_false]

theorem insertRequest_frame (state : SwiftState) (hash : Uint256) (tx : CTransaction) :
    (state.insertRequest hash tx).mapTxLocks = state.mapTxLocks ∧
      (state.insertRequest hash tx).mapLockedInputs = state.mapLockedInputs := by
  unfold insertRequest
  split <;> exact ⟨rfl, rfl⟩

theorem insertRequest_keeps {other : Uint256} {old : CTransaction}
    (request : state.mapTxLockReq other = some old) :
    (state.insertRequest hash tx).mapTxLockReq other = some old := by
  unfold insertRequest
  split
  · exact request
  · rename_i absent
    have here : other ≠ hash := by
      rintro rfl
      rw [request] at absent
      exact absent rfl
    simp only [update_of_ne here]
    exact request

theorem insertRequest_ne_none (state : SwiftState) (hash : Uint256) (tx : CTransaction) :
    (state.insertRequest hash tx).mapTxLockReq hash ≠ none := by
  unfold insertRequest
  split
  · rename_i there
    exact isSome_iff_ne_none.mp there
  · simp

theorem insertRequest_cases {other : Uint256} {old : CTransaction}
    (request : (state.insertRequest hash tx).mapTxLockReq other = some old) :
    state.mapTxLockReq other = some old ∨ other = hash ∧ old = tx := by
  cases before : state.mapTxLockReq hash with
  | some first =>
    unfold insertRequest at request
    rw [before] at request
    exact .inl request
  | none =>
    rw [insertRequest_fresh before] at request
    by_cases here : other = hash
    · subst here
      simp only [update_self, some.injEq] at request
      exact .inr ⟨rfl, request.symm⟩
    · simp only [update_of_ne here] at request
      exact .inl request

theorem insertRequest_lockInputs (state : SwiftState) (hash : Uint256) (tx : CTransaction)
    (vin : List CTxIn) : (state.lockInputs hash vin).insertRequest hash tx =
      (state.insertRequest hash tx).lockInputs hash vin := by
  unfold insertRequest lockInputs
  simp only
  split <;> rfl

theorem lookup_erase {locks : AList fun _ : Uint256 => CTransactionLock} {other : Uint256}
    {lock : CTransactionLock} (found : (locks.erase hash).lookup other = some lock) :
    other ≠ hash ∧ locks.lookup other = some lock := by
  by_cases here : other = hash
  · rw [here, AList.lookup_erase] at found
    contradiction
  · rw [AList.lookup_erase_ne here] at found
    exact ⟨here, found⟩

theorem cleanLock_rule {motive : SwiftState → Prop}
    {entries : List (Sigma fun _ : Uint256 => CTransactionLock)} (holds : motive state)
    (named : ∀ entry ∈ entries, entry.2.txHash = entry.1)
    (step : ∀ (state : SwiftState) entry, entry.2.txHash = entry.1 → motive state →
      motive (state.cleanLock context entry)) :
    motive (entries.foldl (cleanLock context) state) := by
  induction entries generalizing state with
  | nil => exact holds
  | cons entry rest ih =>
    apply ih
    · exact step state entry (named entry List.mem_cons_self) holds
    · exact fun later member => named later (List.mem_cons_of_mem _ member)

theorem cleanTransactionLocksList_rule {motive : SwiftState → Prop} (holds : motive state)
    (named : ∀ hash lock, state.mapTxLocks.lookup hash = some lock → lock.txHash = hash)
    (step : ∀ (state : SwiftState) entry, entry.2.txHash = entry.1 → motive state →
      motive (state.cleanLock context entry)) :
    motive (state.cleanTransactionLocksList context) := by
  unfold cleanTransactionLocksList
  split
  · exact holds
  · refine cleanLock_rule holds (fun entry member => ?_) step
    exact named _ _ (AList.mem_lookup_iff.mpr member)

variable [Crypto]

theorem processConsensusVote_cases (context : SwiftContext) (state : SwiftState)
    (ctx : CConsensusVote) :
    state.processConsensusVote context ctx = state ∨
      (state.addVote context ctx).2.complete = false ∧
        state.processConsensusVote context ctx = (state.addVote context ctx).1 ∨
      (state.addVote context ctx).2.complete = true ∧ ∃ asked tx,
        asked = (state.addVote context ctx).1.insertRequest ctx.txHash
          { nVersion := 1, vin := [], vout := [], nLockTime := 0 } ∧
        asked.mapTxLockReq ctx.txHash = some tx ∧
        ((asked.conflictingLock tx).isSome = true ∧ state.processConsensusVote context ctx =
            (asked.checkForConflictingLocks context tx).1 ∨
          asked.conflictingLock tx = none ∧
            state.processConsensusVote context ctx = asked.lockInputs ctx.txHash tx.vin) := by
  generalize made : state.processConsensusVote context ctx = after
  unfold processConsensusVote at made
  simp only at made
  split at made
  · exact .inl made.symm
  split at made
  · exact .inl made.symm
  split at made
  · exact .inl made.symm
  split at made
  · rename_i few
    exact .inr (.inl ⟨by simpa using few, made.symm⟩)
  rename_i enough
  generalize entered : SwiftState.insertRequest _ ctx.txHash _ = asked at made
  split at made
  · rename_i absent
    rw [← entered] at absent
    exact (insertRequest_ne_none _ _ _ absent).elim
  rename_i tx found
  refine .inr (.inr ⟨by simpa using enough, asked, tx, rfl, found, ?_⟩)
  split at made
  · rename_i conflict
    exact .inl ⟨checkForConflictingLocks_some conflict, made.symm⟩
  · rename_i peace
    rw [Bool.not_eq_true] at peace
    obtain ⟨free, unchanged⟩ := checkForConflictingLocks_none peace
    rw [unchanged] at made
    exact .inr ⟨free, made.symm⟩

/-- The same maps but for the rejected requests. -/
structure SameMaps (state marked : SwiftState) : Prop where
  requests : marked.mapTxLockReq = state.mapTxLockReq
  votes : marked.mapTxLockVote = state.mapTxLockVote
  locks : marked.mapTxLocks = state.mapTxLocks
  inputs : marked.mapLockedInputs = state.mapLockedInputs

theorem rejectRequest_rule {motive : SwiftState → Prop}
    (locked : ∀ marked, SameMaps state marked → motive (marked.lockInputs tx.getHash tx.vin))
    (checked : ∀ after, motive after → motive (after.checkForConflictingLocks context tx).1)
    (entered : ∀ marked, SameMaps state marked →
      (marked.lockInputs tx.getHash tx.vin).conflictingLock tx = none →
      motive ((marked.lockInputs tx.getHash tx.vin).insertRequest tx.getHash tx)) :
    motive (state.rejectRequest context tx) := by
  unfold rejectRequest
  generalize marks : { state with
    mapTxLockReqRejected := update state.mapTxLockReqRejected tx.getHash (some tx) } =
    marked
  have same : SameMaps state marked := by
    rw [← marks]
    exact ⟨rfl, rfl, rfl, rfl⟩
  simp only
  split
  · exact locked marked same
  split
  · exact locked marked same
  split
  · exact checked _ (locked marked same)
  · rename_i peace
    rw [Bool.not_eq_true] at peace
    obtain ⟨free, unchanged⟩ := checkForConflictingLocks_none peace
    rw [unchanged]
    exact entered marked same free

end SwiftState

end Agouti
