import Agouti.Library.Sweep
import Agouti.Masternode.CollateralRuns

/-! # Removing masternodes and what was seen of them

`CMasternodeMan::CheckAndRemove` of `masternodeman.cpp` with all the containers that it prunes, and
`CMasternode` with all its fields. `CMasternode::swap` leaves out six fields, and the loop over the
expired broadcasts reads the hash through an iterator that is already behind them: the function does
what it is for exactly when the six fields are the same for the masternodes that move, no broadcast
is left that is expired, and no ping or IP update is kept that belongs to a masternode that is
removed (`checkAndRemove_iff`).
-/

namespace Agouti

open List Option SharedCollateral

/-- `CMasternode` with the fields that the messages do not read. -/
structure MasternodeRecord extends CMasternode where
  sig : List UInt8 := []
  pubKeyCollateralAddress1 : CPubKey := .invalid
  pubKeyMasternode1 : CPubKey := .invalid
  cacheInputAge : Int := 0
  cacheInputAgeBlock : Int := 0
  unitTest : Bool := false
  allowFreeTx : Bool := true
  nActiveState : MasternodeState := .MASTERNODE_ENABLED
  nLastDsq : Int := 0
  nScanningErrorCount : Int := 0
  nLastScanningErrorBlockHeight : Int := 0
  nLastDsee : Int := 0
  nLastDseep : Int := 0
  deriving DecidableEq, Repr

namespace MasternodeRecord

/-- `CMasternode::operator=`: the fields that `CMasternode::swap` exchanges. -/
def assign (target source : MasternodeRecord) : MasternodeRecord :=
  { target with
    vin := source.vin
    addr := source.addr
    pubKeyCollateralAddress := source.pubKeyCollateralAddress
    pubKeyMasternode := source.pubKeyMasternode
    sig := source.sig
    activeState := source.activeState
    sigTime := source.sigTime
    lastPing := source.lastPing
    cacheInputAge := source.cacheInputAge
    cacheInputAgeBlock := source.cacheInputAgeBlock
    unitTest := source.unitTest
    allowFreeTx := source.allowFreeTx
    protocolVersion := source.protocolVersion
    nLastDsq := source.nLastDsq
    nScanningErrorCount := source.nScanningErrorCount
    nLastScanningErrorBlockHeight := source.nLastScanningErrorBlockHeight
    vchSignover := source.vchSignover
    nLastIPUpdateTime := source.nLastIPUpdateTime }

/-- The fields that `CMasternode::swap` leaves out. -/
structure Unswapped where
  lastTimeChecked : Int
  pubKeyCollateralAddress1 : CPubKey
  pubKeyMasternode1 : CPubKey
  nActiveState : MasternodeState
  nLastDsee : Int
  nLastDseep : Int
  deriving DecidableEq, Repr

def unswapped (mn : MasternodeRecord) : Unswapped :=
  ⟨mn.lastTimeChecked, mn.pubKeyCollateralAddress1, mn.pubKeyMasternode1, mn.nActiveState,
    mn.nLastDsee, mn.nLastDseep⟩

/-- The masternode without the fields that are left out. -/
def swapped (mn : MasternodeRecord) : MasternodeRecord :=
  { mn with
    lastTimeChecked := 0
    pubKeyCollateralAddress1 := .invalid
    pubKeyMasternode1 := .invalid
    nActiveState := .MASTERNODE_ENABLED
    nLastDsee := 0
    nLastDseep := 0 }

def withUnswapped (mn : MasternodeRecord) (fields : Unswapped) : MasternodeRecord :=
  { mn with
    lastTimeChecked := fields.lastTimeChecked
    pubKeyCollateralAddress1 := fields.pubKeyCollateralAddress1
    pubKeyMasternode1 := fields.pubKeyMasternode1
    nActiveState := fields.nActiveState
    nLastDsee := fields.nLastDsee
    nLastDseep := fields.nLastDseep }

def assignment : PartialAssign MasternodeRecord MasternodeRecord Unswapped where
  assign := assign
  carried := swapped
  kept := unswapped
  carried_assign _ _ := rfl
  kept_assign _ _ := rfl
  eq_of_fields first second sameCarried sameKept := by
    have whole (mn : MasternodeRecord) : mn.swapped.withUnswapped mn.unswapped = mn := rfl
    rw [← whole first, ← whole second, sameCarried, sameKept]

variable [Crypto] [ChainParams]

/-- `CMasternode::Check()`, with `unitTest`. -/
def check (context : MasternodeContext) (mn : MasternodeRecord) : MasternodeRecord :=
  if context.fShutdown then mn
  else if context.time - mn.lastTimeChecked < MASTERNODE_CHECK_SECONDS then mn
  else
    let mn := { mn with lastTimeChecked := context.time }
    if mn.activeState = .MASTERNODE_VIN_SPENT then mn
    else if !mn.isPingedWithin MASTERNODE_REMOVAL_SECONDS context.adjustedTime then
      { mn with activeState := .MASTERNODE_REMOVE }
    else if !mn.isPingedWithin MASTERNODE_EXPIRATION_SECONDS context.adjustedTime then
      { mn with activeState := .MASTERNODE_EXPIRED }
    else if mn.unitTest then { mn with activeState := .MASTERNODE_ENABLED }
    else if !context.lockMain then mn
    else
      match context.acceptableInputs (context.collateralSpend mn.vin) with
      | .error _ => { mn with activeState := .MASTERNODE_VIN_SPENT }
      | .ok () => { mn with activeState := .MASTERNODE_ENABLED }

end MasternodeRecord

/-- The containers of `CMasternodeMan`, and `masternodeSync.mapSeenSyncMNB`. -/
structure SeenMasternodes where
  vMasternodes : List MasternodeRecord
  mAskedUsForMasternodeList : List (CNetAddr × Int) := []
  mWeAskedForMasternodeList : List (CNetAddr × Int) := []
  mWeAskedForMasternodeListEntry : List (COutPoint × Int) := []
  mapSeenMasternodeBroadcast : List (Uint256 × CMasternodeBroadcast) := []
  mapSeenMasternodePing : List (Uint256 × CMasternodePing) := []
  mapSeenMasternodeIPUpdate : List (Uint256 × CMasternodeIPUpdate) := []
  mapLatestMasternodeIPUpdate : List (COutPoint × CMasternodeIPUpdate) := []
  mapSeenSyncMNB : List (Uint256 × Int) := []
  deriving DecidableEq, Repr

namespace SeenMasternodes

/-- `map::erase` of a key. -/
def eraseKey {Key Value : Type} [DecidableEq Key] (key : Key) (entries : List (Key × Value)) :
    List (Key × Value) :=
  entries.filter fun entry => entry.1 != key

variable (context : MasternodeContext) (forceExpiredRemoval : Bool)

/-- `CheckAndRemove` removes the masternode. -/
def isGone (mn : MasternodeRecord) : Bool :=
  mn.activeState == .MASTERNODE_REMOVE || mn.activeState == .MASTERNODE_VIN_SPENT ||
    (forceExpiredRemoval && mn.activeState == .MASTERNODE_EXPIRED) ||
    decide (mn.protocolVersion < context.minPaymentsProto)

/-- `sigTime < GetTime() - (MASTERNODE_REMOVAL_SECONDS * 2)`. -/
def isOld (sigTime : Int) : Bool :=
  decide (sigTime < context.time - MASTERNODE_REMOVAL_SECONDS * 2)

/-- What the loop over the masternodes changes besides them. -/
structure Records where
  mapSeenMasternodeBroadcast : List (Uint256 × CMasternodeBroadcast)
  mapSeenSyncMNB : List (Uint256 × Int)
  mWeAskedForMasternodeListEntry : List (COutPoint × Int)

/-- The two loops for a masternode that is removed. -/
def forget (mn : MasternodeRecord) (records : Records) : Records :=
  let seen := Sweep.erasing (fun entry => entry.2.vin == mn.vin)
    (fun entry => eraseKey entry.1) records.mapSeenMasternodeBroadcast records.mapSeenSyncMNB
  { mapSeenMasternodeBroadcast := seen.1
    mapSeenSyncMNB := seen.2
    mWeAskedForMasternodeListEntry := Sweep.erase (fun entry => entry.1 == mn.vin.prevout)
      records.mWeAskedForMasternodeListEntry }

variable (seen : SeenMasternodes)

/-- The loops behind the one over the expired broadcasts, and those in front of it that it does
not depend on. -/
def pruneOthers (vMasternodes : List MasternodeRecord) (records : Records)
    (left : List (Uint256 × CMasternodeBroadcast) × List (Uint256 × Int)) : SeenMasternodes where
  vMasternodes := vMasternodes
  mAskedUsForMasternodeList := Sweep.erase (fun entry => decide (entry.2 < context.time))
    seen.mAskedUsForMasternodeList
  mWeAskedForMasternodeList := Sweep.erase (fun entry => decide (entry.2 < context.time))
    seen.mWeAskedForMasternodeList
  mWeAskedForMasternodeListEntry := Sweep.erase (fun entry => decide (entry.2 < context.time))
    records.mWeAskedForMasternodeListEntry
  mapSeenMasternodeBroadcast := left.1
  mapSeenMasternodePing := Sweep.erase (fun entry => isOld context entry.2.sigTime)
    seen.mapSeenMasternodePing
  mapSeenMasternodeIPUpdate := Sweep.erase (fun entry => isOld context entry.2.sigTime)
    seen.mapSeenMasternodeIPUpdate
  mapLatestMasternodeIPUpdate := Sweep.erase
    (fun entry => (vMasternodes.find? fun mn => mn.vin.prevout == entry.1).isNone)
    seen.mapLatestMasternodeIPUpdate
  mapSeenSyncMNB := left.2

variable [Crypto]

/-- The loop over the expired broadcasts: `erase(it3++)` stands in front of
`(*it3).second.GetHash()`. -/
def pruneBroadcasts (records : Records) : List Sweep.Place ×
    Option (List (Uint256 × CMasternodeBroadcast) × List (Uint256 × Int)) :=
  Sweep.erasingLate (fun entry => isOld context entry.2.lastPing.sigTime)
    (fun entry => eraseKey entry.2.getHash) records.mapSeenMasternodeBroadcast records.mapSeenSyncMNB

variable [ChainParams]

/-- `CMasternodeMan::Check`. -/
def checked : List MasternodeRecord := seen.vMasternodes.map (MasternodeRecord.check context)

def pruneMasternodes : List MasternodeRecord × Records :=
  MasternodeRecord.assignment.prune (isGone context forceExpiredRemoval) forget
    (seen.checked context).length (seen.checked context)
    ⟨seen.mapSeenMasternodeBroadcast, seen.mapSeenSyncMNB, seen.mWeAskedForMasternodeListEntry⟩

/-- `CMasternodeMan::CheckAndRemove`: where the iterator of the loop over the expired broadcasts is
read, and the state when it is never read at the end. -/
def checkAndRemove : List Sweep.Place × Option SeenMasternodes :=
  let pruned := seen.pruneMasternodes context forceExpiredRemoval
  let broadcasts := pruneBroadcasts context pruned.2
  (broadcasts.1, broadcasts.2.map (seen.pruneOthers context pruned.1 pruned.2))

/-! ## What the function is for -/

def survivors : List MasternodeRecord :=
  (seen.checked context).filter fun mn => !isGone context forceExpiredRemoval mn

/-- The call removes the masternode. -/
def Leaves (mn : MasternodeRecord) : Prop :=
  mn ∈ seen.checked context ∧ isGone context forceExpiredRemoval mn = true

/-- No masternode that is removed has this collateral; `Find` compares no more of an input. -/
def NoneLeaves (prevout : COutPoint) : Prop :=
  ∀ mn, seen.Leaves context forceExpiredRemoval mn → prevout ≠ mn.vin.prevout

/-- The function has removed what it is to remove: what belongs to a masternode that is removed, and
what is expired. A latest IP update expires with its masternode. -/
structure Pruned (before after : SeenMasternodes) : Prop where
  /-- each masternode that stays is as `Check` has left it -/
  masternodes : after.vMasternodes = before.survivors context forceExpiredRemoval
  broadcasts : ∀ entry, entry ∈ after.mapSeenMasternodeBroadcast ↔
    entry ∈ before.mapSeenMasternodeBroadcast ∧
      (∀ mn, before.Leaves context forceExpiredRemoval mn → entry.2.vin ≠ mn.vin) ∧
      isOld context entry.2.lastPing.sigTime = false
  pings : ∀ entry, entry ∈ after.mapSeenMasternodePing ↔
    entry ∈ before.mapSeenMasternodePing ∧
      before.NoneLeaves context forceExpiredRemoval entry.2.vin.prevout ∧
      isOld context entry.2.sigTime = false
  ipUpdates : ∀ entry, entry ∈ after.mapSeenMasternodeIPUpdate ↔
    entry ∈ before.mapSeenMasternodeIPUpdate ∧
      before.NoneLeaves context forceExpiredRemoval entry.2.vin.prevout ∧
      isOld context entry.2.sigTime = false
  latestIPUpdates : ∀ entry, entry ∈ after.mapLatestMasternodeIPUpdate ↔
    entry ∈ before.mapLatestMasternodeIPUpdate ∧
      before.NoneLeaves context forceExpiredRemoval entry.1 ∧
      ∃ mn ∈ before.survivors context forceExpiredRemoval, mn.vin.prevout = entry.1
  askedUs : ∀ entry, entry ∈ after.mAskedUsForMasternodeList ↔
    entry ∈ before.mAskedUsForMasternodeList ∧ context.time ≤ entry.2
  weAsked : ∀ entry, entry ∈ after.mWeAskedForMasternodeList ↔
    entry ∈ before.mWeAskedForMasternodeList ∧ context.time ≤ entry.2
  weAskedEntry : ∀ entry, entry ∈ after.mWeAskedForMasternodeListEntry ↔
    entry ∈ before.mWeAskedForMasternodeListEntry ∧
      before.NoneLeaves context forceExpiredRemoval entry.1 ∧ context.time ≤ entry.2
  /-- a hash that is erased is that of a broadcast that is erased -/
  syncHashes : ∀ entry ∈ before.mapSeenSyncMNB, entry ∉ after.mapSeenSyncMNB →
    ∃ mnb, (entry.1, mnb) ∈ before.mapSeenMasternodeBroadcast ∧
      (entry.1, mnb) ∉ after.mapSeenMasternodeBroadcast

/-- The function reads iterators only at their entries, and removes what it is to remove. -/
def PrunesWell : Prop :=
  (∀ place ∈ (seen.checkAndRemove context forceExpiredRemoval).1, place = .here) ∧
    ∃ after, (seen.checkAndRemove context forceExpiredRemoval).2 = some after ∧
      Pruned context forceExpiredRemoval seen after

/-- Nothing moves that an assignment does not carry, no broadcast is left to the loop that reads
behind its entry, and what the loops over the pings and the IP updates keep belongs to no masternode
that is removed. -/
structure Movable : Prop where
  /-- the fields that are not swapped are, for the masternodes that stay, those of the
  masternodes at the places they come to -/
  unswapped : (seen.survivors context forceExpiredRemoval).map MasternodeRecord.unswapped <+:
    (seen.checked context).map MasternodeRecord.unswapped
  noneOld : ∀ entry ∈ seen.mapSeenMasternodeBroadcast,
    (∀ mn, seen.Leaves context forceExpiredRemoval mn → entry.2.vin ≠ mn.vin) →
      isOld context entry.2.lastPing.sigTime = false
  pings : ∀ entry ∈ seen.mapSeenMasternodePing, isOld context entry.2.sigTime = false →
    seen.NoneLeaves context forceExpiredRemoval entry.2.vin.prevout
  ipUpdates : ∀ entry ∈ seen.mapSeenMasternodeIPUpdate, isOld context entry.2.sigTime = false →
    seen.NoneLeaves context forceExpiredRemoval entry.2.vin.prevout
  latestIPUpdates : ∀ entry ∈ seen.mapLatestMasternodeIPUpdate,
    (∃ mn ∈ seen.survivors context forceExpiredRemoval, mn.vin.prevout = entry.1) →
      seen.NoneLeaves context forceExpiredRemoval entry.1

/-! ## The loops -/

section

omit [Crypto] [ChainParams]

theorem mem_eraseKey {Key Value : Type} [DecidableEq Key] {key : Key} {entries : List (Key × Value)}
    {entry : Key × Value} : entry ∈ eraseKey key entries ↔ entry ∈ entries ∧ entry.1 ≠ key := by
  rw [eraseKey, mem_filter, bne_iff_ne]

theorem mem_eraseKeys {Key Value Other : Type} [DecidableEq Key] {erased : List (Key × Other)}
    {entries : List (Key × Value)} {entry : Key × Value} :
    entry ∈ erased.foldl (fun entries other => eraseKey other.1 entries) entries ↔
      entry ∈ entries ∧ ∀ other ∈ erased, entry.1 ≠ other.1 := by
  induction erased generalizing entries with
  | nil => exact (and_iff_left fun _ member => nomatch member).symm
  | cons other erased ih =>
    rw [foldl_cons, ih, mem_eraseKey, forall_mem_cons, and_assoc]

theorem mem_filter_not {Entry : Type} {expired : Entry → Bool} {entries : List Entry}
    {entry : Entry} : entry ∈ Sweep.erase expired entries ↔
      entry ∈ entries ∧ expired entry = false := by
  rw [Sweep.erase_eq, mem_filter, Bool.not_eq_true']

variable {removed : List MasternodeRecord} (records : Records)

def forgetAll (removed : List MasternodeRecord) (records : Records) : Records :=
  removed.foldl (fun records mn => forget mn records) records

theorem mem_forget_broadcasts {mn : MasternodeRecord} {entry : Uint256 × CMasternodeBroadcast} :
    entry ∈ (forget mn records).mapSeenMasternodeBroadcast ↔
      entry ∈ records.mapSeenMasternodeBroadcast ∧ entry.2.vin ≠ mn.vin := by
  rw [forget, Sweep.erasing_eq, mem_filter, Bool.not_eq_true', beq_eq_false_iff_ne]

theorem mem_forgetAll_broadcasts {entry : Uint256 × CMasternodeBroadcast} :
    entry ∈ (forgetAll removed records).mapSeenMasternodeBroadcast ↔
      entry ∈ records.mapSeenMasternodeBroadcast ∧ ∀ mn ∈ removed, entry.2.vin ≠ mn.vin := by
  induction removed generalizing records with
  | nil => exact (and_iff_left fun _ member => nomatch member).symm
  | cons mn removed ih =>
    refine (ih (forget mn records)).trans ?_
    rw [mem_forget_broadcasts, forall_mem_cons, and_assoc]

theorem mem_forgetAll_entries {entry : COutPoint × Int} :
    entry ∈ (forgetAll removed records).mWeAskedForMasternodeListEntry ↔
      entry ∈ records.mWeAskedForMasternodeListEntry ∧
        ∀ mn ∈ removed, entry.1 ≠ mn.vin.prevout := by
  induction removed generalizing records with
  | nil => exact (and_iff_left fun _ member => nomatch member).symm
  | cons mn removed ih =>
    have first : entry ∈ (forget mn records).mWeAskedForMasternodeListEntry ↔
        entry ∈ records.mWeAskedForMasternodeListEntry ∧ entry.1 ≠ mn.vin.prevout := by
      refine mem_filter_not.trans ?_
      rw [beq_eq_false_iff_ne]
    refine (ih (forget mn records)).trans ?_
    rw [first, forall_mem_cons, and_assoc]

theorem erased_of_forgetAll {entry : Uint256 × Int} (before : entry ∈ records.mapSeenSyncMNB)
    (erased : entry ∉ (forgetAll removed records).mapSeenSyncMNB) :
    ∃ mnb, (entry.1, mnb) ∈ records.mapSeenMasternodeBroadcast ∧
      ∃ mn ∈ removed, mnb.vin = mn.vin := by
  induction removed generalizing records with
  | nil => exact absurd before erased
  | cons mn removed ih =>
    by_cases stays : entry ∈ (forget mn records).mapSeenSyncMNB
    · obtain ⟨mnb, listed, other, member, same⟩ := ih (forget mn records) stays erased
      exact ⟨mnb, ((mem_forget_broadcasts records).mp listed).1, other,
        mem_cons_of_mem mn member, same⟩
    · have gone : entry ∉ ((records.mapSeenMasternodeBroadcast.filter
          fun seen => seen.2.vin == mn.vin).foldl (fun entries other => eraseKey other.1 entries)
          records.mapSeenSyncMNB) := by
        rwa [forget, Sweep.erasing_eq] at stays
      rw [mem_eraseKeys, not_and] at gone
      have named := gone before
      simp only [not_forall, not_not, exists_prop] at named
      obtain ⟨⟨key, mnb⟩, listed, same⟩ := named
      obtain ⟨member, belongs⟩ := mem_filter.mp listed
      refine ⟨mnb, ?_, mn, mem_cons_self, beq_iff_eq.mp belongs⟩
      rwa [same]

end

/-! ## When the function does what it is for -/

def forgotten : Records :=
  forgetAll (((seen.checked context).map MasternodeRecord.swapped).filter
    (isGone context forceExpiredRemoval))
    ⟨seen.mapSeenMasternodeBroadcast, seen.mapSeenSyncMNB, seen.mWeAskedForMasternodeListEntry⟩

theorem pruneMasternodes_records : (seen.pruneMasternodes context forceExpiredRemoval).2 =
    seen.forgotten context forceExpiredRemoval :=
  (MasternodeRecord.assignment.prune_spec (isGone context forceExpiredRemoval) forget (fun _ => rfl)
    (fun _ => rfl) _ _ le_rfl _).2.2

theorem pruneMasternodes_eq_iff : (seen.pruneMasternodes context forceExpiredRemoval).1 =
      seen.survivors context forceExpiredRemoval ↔
    (seen.survivors context forceExpiredRemoval).map MasternodeRecord.unswapped <+:
      (seen.checked context).map MasternodeRecord.unswapped :=
  MasternodeRecord.assignment.prune_eq_iff (isGone context forceExpiredRemoval) forget
    (fun _ => rfl) (fun _ => rfl) _

variable {context forceExpiredRemoval seen}

theorem forall_leaves (holds : CTxIn → Prop) :
    (∀ mn ∈ ((seen.checked context).map MasternodeRecord.swapped).filter
      (isGone context forceExpiredRemoval), holds mn.vin) ↔
      ∀ mn, seen.Leaves context forceExpiredRemoval mn → holds mn.vin := by
  constructor
  · rintro all mn ⟨member, gone⟩
    exact all mn.swapped (mem_filter.mpr ⟨mem_map_of_mem member, gone⟩)
  · intro all mn member
    obtain ⟨listed, gone⟩ := mem_filter.mp member
    obtain ⟨origin, there, rfl⟩ := mem_map.mp listed
    exact all origin ⟨there, gone⟩

theorem mem_forgotten_broadcasts {entry : Uint256 × CMasternodeBroadcast} :
    entry ∈ (seen.forgotten context forceExpiredRemoval).mapSeenMasternodeBroadcast ↔
      entry ∈ seen.mapSeenMasternodeBroadcast ∧
        ∀ mn, seen.Leaves context forceExpiredRemoval mn → entry.2.vin ≠ mn.vin := by
  rw [forgotten, mem_forgetAll_broadcasts, forall_leaves fun vin => entry.2.vin ≠ vin]

theorem mem_forgotten_entries {entry : COutPoint × Int} :
    entry ∈ (seen.forgotten context forceExpiredRemoval).mWeAskedForMasternodeListEntry ↔
      entry ∈ seen.mWeAskedForMasternodeListEntry ∧
        seen.NoneLeaves context forceExpiredRemoval entry.1 := by
  rw [forgotten, mem_forgetAll_entries, forall_leaves fun vin => entry.1 ≠ vin.prevout, NoneLeaves]

theorem forgotten_noneOld : (∀ entry ∈
      (seen.forgotten context forceExpiredRemoval).mapSeenMasternodeBroadcast,
      isOld context entry.2.lastPing.sigTime = false) ↔
    ∀ entry ∈ seen.mapSeenMasternodeBroadcast,
      (∀ mn, seen.Leaves context forceExpiredRemoval mn → entry.2.vin ≠ mn.vin) →
        isOld context entry.2.lastPing.sigTime = false := by
  constructor
  · exact fun all entry member stays => all entry (mem_forgotten_broadcasts.mpr ⟨member, stays⟩)
  · intro all entry member
    obtain ⟨there, stays⟩ := mem_forgotten_broadcasts.mp member
    exact all entry there stays

omit [Crypto] [ChainParams] in
theorem find_isNone_iff {mns : List MasternodeRecord} {out : COutPoint} :
    (mns.find? fun mn => mn.vin.prevout == out).isNone = false ↔
      ∃ mn ∈ mns, mn.vin.prevout = out := by
  rw [isNone_eq_false_iff, List.find?_isSome]
  exact exists_congr fun mn => and_congr_right fun _ => beq_iff_eq

omit [Crypto] [ChainParams] in
/-- A loop that looks at the age alone also removes what else is to go exactly if nothing fresh is
to go. -/
theorem erase_iff {Entry : Type} {expired : Entry → Bool} {stays : Entry → Prop}
    {entries : List Entry} : (∀ entry, entry ∈ Sweep.erase expired entries ↔
        entry ∈ entries ∧ stays entry ∧ expired entry = false) ↔
      ∀ entry ∈ entries, expired entry = false → stays entry := by
  constructor
  · exact fun exact entry member fresh =>
      ((exact entry).mp (mem_filter_not.mpr ⟨member, fresh⟩)).2.1
  · intro all entry
    refine mem_filter_not.trans (and_congr_right fun member => ?_)
    exact (and_iff_right_of_imp (all entry member)).symm

theorem pruned_of_movable (movable : seen.Movable context forceExpiredRemoval) :
    Pruned context forceExpiredRemoval seen
      (seen.pruneOthers context (seen.survivors context forceExpiredRemoval)
        (seen.forgotten context forceExpiredRemoval)
        ((seen.forgotten context forceExpiredRemoval).mapSeenMasternodeBroadcast,
          (seen.forgotten context forceExpiredRemoval).mapSeenSyncMNB)) where
  masternodes := rfl
  broadcasts entry := by
    refine mem_forgotten_broadcasts.trans (and_congr_right fun member => ?_)
    exact (and_iff_left_of_imp fun stays => movable.noneOld entry member stays).symm
  pings := erase_iff.mpr movable.pings
  ipUpdates := erase_iff.mpr movable.ipUpdates
  latestIPUpdates := by
    simp only [← find_isNone_iff]
    refine erase_iff.mpr fun entry member kept => ?_
    exact movable.latestIPUpdates entry member (find_isNone_iff.mp kept)
  askedUs _ := mem_filter_not.trans (and_congr_right fun _ => by
    rw [decide_eq_false_iff_not, Int.not_lt])
  weAsked _ := mem_filter_not.trans (and_congr_right fun _ => by
    rw [decide_eq_false_iff_not, Int.not_lt])
  weAskedEntry _ := mem_filter_not.trans (by
    rw [mem_forgotten_entries, decide_eq_false_iff_not, Int.not_lt, and_assoc])
  syncHashes entry before erased := by
    obtain ⟨mnb, listed, mn, member, same⟩ := erased_of_forgetAll _ before erased
    refine ⟨mnb, listed, fun stays => ?_⟩
    exact (mem_forgetAll_broadcasts _ |>.mp stays).2 mn member same

variable (context forceExpiredRemoval seen)

/-- `CheckAndRemove` does what it is for exactly when the masternodes that move have the fields that
are not swapped in common with those whose places they take, no broadcast is left that is expired,
and no ping or IP update is kept that belongs to a masternode that is removed. -/
theorem checkAndRemove_iff : seen.PrunesWell context forceExpiredRemoval ↔
    seen.Movable context forceExpiredRemoval := by
  unfold PrunesWell checkAndRemove
  dsimp only
  rw [pruneMasternodes_records]
  constructor
  · rintro ⟨places, after, left, pruned⟩
    obtain ⟨broadcasts, -, rfl⟩ := map_eq_some_iff.mp left
    refine ⟨(pruneMasternodes_eq_iff context forceExpiredRemoval seen).mp pruned.masternodes,
      forgotten_noneOld.mp (Sweep.erasingLate_here.mp places), erase_iff.mp pruned.pings,
      erase_iff.mp pruned.ipUpdates, fun entry member kept => ?_⟩
    -- the loop over the latest updates looks at the list that is left
    have listed := pruned.masternodes
    refine ((pruned.latestIPUpdates entry).mp (mem_filter_not.mpr ⟨member, ?_⟩)).2.1
    rw [find_isNone_iff]
    rwa [← listed] at kept
  · intro movable
    have noneOld := forgotten_noneOld.mpr movable.noneOld
    refine ⟨Sweep.erasingLate_here.mpr noneOld, _, ?_, pruned_of_movable movable⟩
    rw [pruneBroadcasts, Sweep.erasingLate_eq noneOld,
      (pruneMasternodes_eq_iff context forceExpiredRemoval seen).mpr movable.unswapped]
    rfl

end SeenMasternodes

/-! ## Where it does not -/

namespace OldBroadcast

open SharedCollateral

/-- A masternode that is to be removed; `Check` has just been called. -/
def leaving : MasternodeRecord :=
  { (broadcast 0).toCMasternode with
    activeState := .MASTERNODE_REMOVE
    lastTimeChecked := 1400013000 }

def staying : MasternodeRecord :=
  { (broadcast 1).toCMasternode with
    lastTimeChecked := 1400013000
    nLastDsee := 7 }

def moved : SeenMasternodes := { vMasternodes := [leaving, staying] }

/-- A broadcast whose masternode is not listed, with a ping of the distant past. -/
def seenOld : SeenMasternodes :=
  { vMasternodes := [], mapSeenMasternodeBroadcast := [(1, broadcast 0)],
    mapSeenSyncMNB := [(1, 1)] }

/-- A masternode that is to be removed, and its ping of just now. -/
def ofLeaving : SeenMasternodes :=
  { vMasternodes := [leaving],
    mapSeenMasternodePing := [(1, { vin := leaving.vin, sigTime := 1400013000 })] }

end OldBroadcast

section

open OldBroadcast

local instance OldBroadcast.params : ChainParams := regTestParams 0
local instance OldBroadcast.crypto : Crypto := checksumCrypto

/-- The iterator behind the only broadcast is read at the end of the map, the masternode that moves
gets the time of the one that was removed, and the ping of a masternode that is removed stays. -/
theorem not_prunesWell :
    ¬ seenOld.PrunesWell context false ∧
      ¬ moved.PrunesWell context false ∧
      ¬ ofLeaving.PrunesWell context false := by
  refine ⟨?_, ?_, ?_⟩
  · rintro ⟨places, -⟩
    have read : (seenOld.checkAndRemove context false).1 = [.past] := by decide
    rw [read] at places
    exact nomatch places .past mem_cons_self
  · rintro ⟨-, after, left, pruned⟩
    have got : (moved.checkAndRemove context false).2.map
        (fun after => after.vMasternodes.map MasternodeRecord.nLastDsee) = some [0] := by decide
    have own : (moved.survivors context false).map MasternodeRecord.nLastDsee =
        [7] := by decide
    rw [left, map_some, pruned.masternodes, own] at got
    exact nomatch got
  · rintro ⟨-, after, left, pruned⟩
    have got : (ofLeaving.checkAndRemove context false).2.map
        (fun after => after.mapSeenMasternodePing.length) = some 1 := by decide
    rw [left, map_some, some.injEq] at got
    obtain ⟨entry, member⟩ := exists_mem_of_length_pos (got ▸ Nat.one_pos)
    obtain ⟨seen, stays, -⟩ := (pruned.pings entry).mp member
    obtain rfl := mem_singleton.mp seen
    exact stays (leaving.check context) ⟨mem_cons_self, by decide⟩ rfl

end

end Agouti
