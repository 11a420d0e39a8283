import Agouti.Masternode.AnnouncedAddress

/-! # Which address a masternode ends up with

Broadcasts and IP updates write one address. An accepted broadcast has the newest IP update applied
behind it, whichever of the two is newer, so the address is that of the newest accepted message as
long as broadcasts and updates come in the order of their times (`Converging`,
`address_converges`); a broadcast that is newer than the update has its address overwritten by it
(`address_overwritten`).
-/

namespace Agouti

open List Function

/-- The maps of messages seen, as they are when the masternode cache has been loaded. -/
structure SeenMaps where
  broadcasts : Uint256 → Bool
  pings : Uint256 → Bool
  ipUpdates : Uint256 → Bool

/-- A message comes, or the node is restarted. -/
inductive AddressEvent
  | message (context : MasternodeContext) (message : MasternodeMessage)
  | restart (context : MasternodeContext) (seen : SeenMaps)

/-- What has been accepted for a masternode. -/
structure AcceptedAddress where
  isUpdate : Bool
  sigTime : Int
  addr : CService
  deriving DecidableEq, Repr

namespace CMasternodeMan

variable [Crypto] [ChainParams]

/-- What of an entry is not in the masternode cache. -/
def loaded (mn : CMasternode) : CMasternode :=
  { mn with
    lastTimeChecked := 0
    nLastIPUpdateTime := 0 }

/-- `CheckAndRemove(true)` removes the entry. -/
def isRemoved (context : MasternodeContext) (mn : CMasternode) : Bool :=
  mn.activeState == .MASTERNODE_REMOVE || mn.activeState == .MASTERNODE_VIN_SPENT ||
    mn.activeState == .MASTERNODE_EXPIRED || decide (mn.protocolVersion < context.minPaymentsProto)

/-- `CMasternodeMan::CheckAndRemove(true)`, but for the messages seen. -/
def checkAndRemove (context : MasternodeContext) (man : CMasternodeMan) : CMasternodeMan :=
  let checked := man.vMasternodes.map (CMasternode.check context false)
  let man := { man with vMasternodes := checked.filter fun mn => !isRemoved context mn }
  { man with
    mapLatestMasternodeIPUpdate := fun out =>
      if (man.entryAt out).isSome then man.mapLatestMasternodeIPUpdate out else none }

/-- What `RebuildIPUpdateState` does to the entry of an IP update. -/
def restore (man : CMasternodeMan) (mn : CMasternode) : CMasternode :=
  match man.mapLatestMasternodeIPUpdate (outpoint mn) with
  | none => mn
  | some mnip =>
    if mn.nLastIPUpdateTime < mnip.sigTime then
      { mn with
        addr := mnip.addr
        nLastIPUpdateTime := mnip.sigTime }
    else mn

/-- `CMasternodeMan::RebuildIPUpdateState`, but for the messages seen. The outpoints of the list are
different, so that every entry is the one that `Find` returns. -/
def rebuildIPUpdateState (man : CMasternodeMan) : CMasternodeMan :=
  { man with vMasternodes := man.vMasternodes.map man.restore }

/-- The masternode cache is written, and `CMasternodeDB::Read` loads it. -/
def restart (man : CMasternodeMan) (context : MasternodeContext) (seen : SeenMaps) :
    CMasternodeMan :=
  let man :=
    { man with
      vMasternodes := man.vMasternodes.map loaded
      mapSeenMasternodeBroadcast := seen.broadcasts
      mapSeenMasternodePing := seen.pings
      mapSeenMasternodeIPUpdate := seen.ipUpdates
      activeMasternode := {} }
  (man.checkAndRemove context).rebuildIPUpdateState

def handle (man : CMasternodeMan) : AddressEvent → CMasternodeMan
  | .message context message => man.processMessage context message
  | .restart context seen => man.restart context seen

def acceptsBroadcast (man : CMasternodeMan) (context : MasternodeContext)
    (mnb : CMasternodeBroadcast) : Bool :=
  context.enabled && !man.mapSeenMasternodeBroadcast mnb.getHash &&
    ((man.setSeen mnb.getHash true).checkAndUpdate context mnb).2 &&
    isVinAssociatedWithPubkey context mnb.vin mnb.pubKeyCollateralAddress &&
    (((man.setSeen mnb.getHash true).checkAndUpdate context mnb).1.checkInputsAndAdd context mnb).2

def acceptsUpdate (man : CMasternodeMan) (context : MasternodeContext) (nVersion : Int)
    (mnip : CMasternodeIPUpdate) : Bool :=
  context.enabled && decide (MIN_MNIP_UPDATE_PROTO_VERSION ≤ nVersion) &&
    !man.mapSeenMasternodeIPUpdate mnip.getHash && (man.ipUpdateCheckAndUpdate context mnip).2

def acceptedIn (man : CMasternodeMan) (out : COutPoint) : AddressEvent → List AcceptedAddress
  | .message context (.mnb mnb) =>
    if mnb.vin.prevout = out ∧ man.acceptsBroadcast context mnb = true then
      [⟨false, mnb.sigTime, mnb.addr⟩]
    else []
  | .message context (.mnipupdate nVersion mnip) =>
    if mnip.vin.prevout = out ∧ man.acceptsUpdate context nVersion mnip = true then
      [⟨true, mnip.sigTime, mnip.addr⟩]
    else []
  | .message _ (.mnp _) | .restart _ _ => []

/-- The broadcast is taken into the list, in the place of the entry or as a new one. -/
def takesEntry (context : MasternodeContext) (man : CMasternodeMan) (mnb : CMasternodeBroadcast) :
    Bool :=
  replacesEntry context man mnb || !leavesEntry context man mnb

/-- An event comes in the order of the times. A broadcast that replaces the entry is one of the
owner of the collateral; an accepted one is not newer than the newest IP update, which is applied
again when the broadcast is taken into the list, and without an update it is the newest so far and
taken into the list, or not the newest. An accepted IP update is the newest so far. A restart keeps
the entry of an IP update. -/
def Converging (out : COutPoint) (history : List AcceptedAddress) (man : CMasternodeMan) :
    AddressEvent → Prop
  | .message context (.mnb mnb) => mnb.vin.prevout = out →
      (replacesEntry context man mnb = true →
        isVinAssociatedWithPubkey context mnb.vin mnb.pubKeyCollateralAddress = true) ∧
      (man.acceptsBroadcast context mnb = true →
        match man.mapLatestMasternodeIPUpdate out with
        | none =>
          (takesEntry context man mnb = true ∧ ∀ m ∈ history, m.sigTime ≤ mnb.sigTime) ∨
            (takesEntry context man mnb = false ∧ ∃ m ∈ history, mnb.sigTime ≤ m.sigTime)
        | some mnip => mnb.sigTime ≤ mnip.sigTime ∧ (takesEntry context man mnb = true →
            mnip.sigTime ≤ context.adjustedTime + 60 * 60 ∧
              context.ipUpdateSigned mnb.pubKeyMasternode mnip = true))
  | .message context (.mnipupdate nVersion mnip) => mnip.vin.prevout = out →
      man.acceptsUpdate context nVersion mnip = true → ∀ m ∈ history, m.sigTime ≤ mnip.sigTime
  | .message _ (.mnp _) => True
  | .restart context _ => (man.mapLatestMasternodeIPUpdate out).isSome = true →
      ∃ mn, man.entryAt out = some mn ∧
        isRemoved context ((loaded mn).check context false) = false

/-- What a sequence of events has accepted for an outpoint, and the state behind it. -/
def track (out : COutPoint) (events : List AddressEvent) :
    List AcceptedAddress × CMasternodeMan :=
  events.foldl (fun state event =>
    (state.2.acceptedIn out event ++ state.1, state.2.handle event)) ([], {})

/-- A run whose events come in the order of the times, with what it has accepted for an outpoint. -/
inductive ConvergingRun (out : COutPoint) (start : CMasternodeMan) :
    List AcceptedAddress → CMasternodeMan → Prop
  | start : ConvergingRun out start [] start
  | step {history : List AcceptedAddress} {man : CMasternodeMan}
      (run : ConvergingRun out start history man) (event : AddressEvent)
      (converging : Converging out history man event) :
      ConvergingRun out start (man.acceptedIn out event ++ history) (man.handle event)

/-- The address was accepted with the latest time. -/
def Newest (history : List AcceptedAddress) (addr : CService) : Prop :=
  ∃ m ∈ history, m.addr = addr ∧ ∀ other ∈ history, other.sigTime ≤ m.sigTime

/-- What holds behind every event of such a run. -/
structure Converged (out : COutPoint) (history : List AcceptedAddress) (man : CMasternodeMan) :
    Prop where
  distinct : man.Distinct
  keyed : ∀ other mnip, man.mapLatestMasternodeIPUpdate other = some mnip →
    mnip.vin.prevout = other
  without : man.mapLatestMasternodeIPUpdate out = none → ∀ m ∈ history, m.isUpdate = false
  latest : ∀ mnip, man.mapLatestMasternodeIPUpdate out = some mnip →
    ⟨true, mnip.sigTime, mnip.addr⟩ ∈ history ∧ (∀ m ∈ history, m.sigTime ≤ mnip.sigTime) ∧
      0 ≤ mnip.sigTime
  address : ∀ current, man.addressAt out = some current → Newest history current.addr ∧
    0 ≤ current.nLastIPUpdateTime ∧
    ∀ mnip, man.mapLatestMasternodeIPUpdate out = some mnip →
      current.nLastIPUpdateTime = mnip.sigTime

section

variable {out : COutPoint} {history : List AcceptedAddress} {man : CMasternodeMan}

omit [Crypto] [ChainParams] in
theorem Newest.older {addr : CService} (newest : Newest history addr) {m : AcceptedAddress}
    (older : ∃ other ∈ history, m.sigTime ≤ other.sigTime) : Newest (m :: history) addr := by
  obtain ⟨top, member, same, all⟩ := newest
  obtain ⟨other, there, before⟩ := older
  refine ⟨top, mem_cons_of_mem m member, same, ?_⟩
  intro any here
  rcases mem_cons.mp here with rfl | here
  · exact le_trans before (all other there)
  · exact all any here

omit [Crypto] [ChainParams] in
theorem Newest.first {m : AcceptedAddress} (newest : ∀ other ∈ history, other.sigTime ≤ m.sigTime) :
    Newest (m :: history) m.addr := by
  refine ⟨m, mem_cons_self, rfl, ?_⟩
  intro other here
  rcases mem_cons.mp here with rfl | here
  · exact le_rfl
  · exact newest other here

omit [Crypto] [ChainParams] in
/-- What holds depends on the list, the newest updates and what is accepted only; the entry may
go. -/
theorem Converged.of_less (converged : Converged out history man) {after : CMasternodeMan}
    (distinct : after.Distinct)
    (latest : after.mapLatestMasternodeIPUpdate = man.mapLatestMasternodeIPUpdate)
    (address : ∀ current, after.addressAt out = some current →
      man.addressAt out = some current) : Converged out history after := by
  refine ⟨distinct, ?_, ?_, ?_, ?_⟩
  · rw [latest]
    exact converged.keyed
  · rw [latest]
    exact converged.without
  · rw [latest]
    exact converged.latest
  · intro current there
    rw [latest]
    exact converged.address current (address current there)

omit [Crypto] [ChainParams] in
theorem Converged.of_same (converged : Converged out history man) {after : CMasternodeMan}
    (distinct : after.Distinct)
    (latest : after.mapLatestMasternodeIPUpdate = man.mapLatestMasternodeIPUpdate)
    (address : after.addressAt out = man.addressAt out) : Converged out history after := by
  apply converged.of_less distinct latest
  rw [address]
  exact fun current there => there

variable {mnip : CMasternodeIPUpdate} {mn : CMasternode}

omit [Crypto] [ChainParams] in
theorem Converged.newest (converged : Converged out history man)
    (latest : man.mapLatestMasternodeIPUpdate out = some mnip) : Newest history mnip.addr := by
  obtain ⟨member, all, _⟩ := converged.latest mnip latest
  exact ⟨_, member, rfl, all⟩

/-! ## IP updates -/

omit [ChainParams] in
theorem keyed_updateLatestIPUpdate
    (keyed : ∀ other latest, man.mapLatestMasternodeIPUpdate other = some latest →
      latest.vin.prevout = other) (other : COutPoint) (latest : CMasternodeIPUpdate)
    (found : (man.updateLatestIPUpdate mnip).mapLatestMasternodeIPUpdate other = some latest) :
    latest.vin.prevout = other := by
  unfold updateLatestIPUpdate at found
  dsimp only at found
  split at found
  · by_cases own : other = mnip.vin.prevout
    · rw [own, update_self] at found
      cases found
      exact own.symm
    · rw [update_of_ne own] at found
      exact keyed other latest found
  · exact keyed other latest found

omit [ChainParams] in
theorem Converged.accept {context : MasternodeContext} {mnip : CMasternodeIPUpdate}
    (converged : Converged out history man) (own : mnip.vin.prevout = out)
    (accepted : (man.ipUpdateCheckAndUpdate context mnip).2 = true)
    (newest : ∀ m ∈ history, m.sigTime ≤ mnip.sigTime) :
    Converged out (⟨true, mnip.sigTime, mnip.addr⟩ :: history)
      ((man.ipUpdateCheckAndUpdate context mnip).1.updateLatestIPUpdate mnip) := by
  obtain ⟨_, old, there, passed, _⟩ := (ipUpdate_accepted_iff mnip).mp accepted
  rw [own] at there
  obtain ⟨_, nonneg, watermark⟩ := converged.address old there
  have kept := (sameRecords_ipUpdateCheckAndUpdate context man mnip).latest
  have written := addressAt_ipUpdate man context out mnip
  rw [if_pos ⟨accepted, own⟩, there, Option.map_some] at written
  -- what is held as the newest update behind it
  have held : ∀ latest, ((man.ipUpdateCheckAndUpdate context mnip).1.updateLatestIPUpdate
      mnip).mapLatestMasternodeIPUpdate out = some latest → latest.sigTime = mnip.sigTime ∧
        ⟨true, latest.sigTime, latest.addr⟩ ∈
          (⟨true, mnip.sigTime, mnip.addr⟩ : AcceptedAddress) :: history := by
    intro latest found
    unfold updateLatestIPUpdate at found
    dsimp only at found
    rw [kept, own] at found
    split at found
    · rw [update_self] at found
      cases found
      exact ⟨rfl, mem_cons_self⟩
    · rename_i older
      rw [found, Option.map_some, Option.getD_some, decide_eq_true_eq] at older
      have time := watermark latest found
      exact ⟨by omega, mem_cons_of_mem _ (converged.latest latest found).1⟩
  have all : ∀ m ∈ (⟨true, mnip.sigTime, mnip.addr⟩ : AcceptedAddress) :: history,
      m.sigTime ≤ mnip.sigTime := by
    intro m member
    rcases mem_cons.mp member with rfl | before
    · exact le_rfl
    · exact newest m before
  refine ⟨converged.distinct.ipUpdate mnip, ?_, ?_, ?_, ?_⟩
  · apply keyed_updateLatestIPUpdate
    rw [kept]
    exact converged.keyed
  · intro absent
    unfold updateLatestIPUpdate at absent
    dsimp only at absent
    rw [kept, own] at absent
    split at absent
    · rw [update_self] at absent
      cases absent
    · rename_i older
      rw [absent] at older
      exact absurd rfl older
  · intro latest found
    obtain ⟨time, member⟩ := held latest found
    refine ⟨member, fun m here => ?_, by omega⟩
    rw [time]
    exact all m here
  · intro current found
    have same : current = ⟨mnip.addr, mnip.sigTime, old.pubKeyMasternode⟩ := by
      change (man.ipUpdateCheckAndUpdate context mnip).1.addressAt out = some current at found
      rw [written] at found
      exact (Option.some.inj found).symm
    subst same
    refine ⟨⟨_, mem_cons_self, rfl, all⟩, by dsimp only; omega, ?_⟩
    intro latest there
    exact (held latest there).1.symm

theorem Converged.processIPUpdate {context : MasternodeContext} {nVersion : Int}
    (converged : Converged out history man)
    (fits : Converging out history man (.message context (.mnipupdate nVersion mnip))) :
    Converged out (man.acceptedIn out (.message context (.mnipupdate nVersion mnip)) ++ history)
      (man.processIPUpdate context nVersion mnip) := by
  have kept := (sameRecords_ipUpdateCheckAndUpdate context man mnip).latest
  have written := addressAt_ipUpdate man context out mnip
  unfold acceptedIn
  dsimp only
  by_cases here : mnip.vin.prevout = out ∧ man.acceptsUpdate context nVersion mnip = true
  · rw [if_pos here]
    have newest := fits here.1 here.2
    obtain ⟨own, accepts⟩ := here
    simp only [acceptsUpdate, Bool.and_eq_true, Bool.not_eq_true', decide_eq_true_eq] at accepts
    obtain ⟨⟨⟨enabled, version⟩, fresh⟩, accepted⟩ := accepts
    have result : man.processIPUpdate context nVersion mnip =
        (man.ipUpdateCheckAndUpdate context mnip).1.updateLatestIPUpdate mnip := by
      unfold CMasternodeMan.processIPUpdate
      rw [enabled, fresh, if_neg (by simp), if_neg (by omega), if_neg Bool.false_ne_true]
      generalize man.ipUpdateCheckAndUpdate context mnip = outcome at accepted ⊢
      obtain ⟨after, verdict⟩ := outcome
      obtain rfl : verdict = true := accepted
      rfl
    rw [result]
    exact converged.accept own accepted newest
  · rw [if_neg here, nil_append]
    unfold CMasternodeMan.processIPUpdate
    split
    · exact converged
    · rename_i enabled
      split
      · exact converged
      · rename_i version
        split
        · exact converged
        · rename_i fresh
          have refused : (man.ipUpdateCheckAndUpdate context mnip).2 = true →
              mnip.vin.prevout ≠ out := by
            intro accepted own
            apply here
            refine ⟨own, ?_⟩
            rw [Bool.not_eq_true, Bool.not_eq_false'] at enabled
            rw [Bool.not_eq_true] at fresh
            unfold acceptsUpdate
            rw [enabled, fresh, accepted, decide_eq_true (Int.not_lt.mp version)]
            rfl
          have same : (man.ipUpdateCheckAndUpdate context mnip).1.addressAt out =
              man.addressAt out := by
            rw [written, if_neg fun both => refused both.1 both.2]
          have unchanged := converged.of_same (converged.distinct.ipUpdate mnip) kept same
          generalize man.ipUpdateCheckAndUpdate context mnip = outcome at refused unchanged kept ⊢
          obtain ⟨after, verdict⟩ := outcome
          cases verdict with
          | false => exact unchanged
          | true =>
            have other := refused rfl
            have elsewhere : (after.updateLatestIPUpdate mnip).mapLatestMasternodeIPUpdate out =
                after.mapLatestMasternodeIPUpdate out := by
              unfold updateLatestIPUpdate
              dsimp only
              split
              · exact update_of_ne (Ne.symm other) _ _
              · rfl
            refine ⟨unchanged.distinct, ?_, ?_, ?_, ?_⟩
            · exact keyed_updateLatestIPUpdate unchanged.keyed
            · intro absent
              exact unchanged.without (elsewhere ▸ absent)
            · intro latest found
              exact unchanged.latest latest (elsewhere ▸ found)
            · intro current found
              obtain ⟨newest, nonneg, watermark⟩ := unchanged.address current found
              exact ⟨newest, nonneg, fun latest there => watermark latest (elsewhere ▸ there)⟩

/-! ## Broadcasts -/

variable {context : MasternodeContext} {mnb : CMasternodeBroadcast}

theorem addressAt_taken (distinct : man.Distinct) (own : mnb.vin.prevout = out)
    (accepted : ((man.checkAndUpdate context mnb).1.checkInputsAndAdd context mnb).2 = true)
    (takes : takesEntry context man mnb = true) :
    ∃ time, ((man.checkAndUpdate context mnb).1.checkInputsAndAdd context mnb).1.addressAt out =
        some ⟨mnb.addr, time, mnb.pubKeyMasternode⟩ ∧
      (time = 0 ∨ ∃ old, man.addressAt out = some old ∧ time = old.nLastIPUpdateTime) := by
  have first := addressAt_checkAndUpdate man context mnb out
  have apart := distinct.checkAndUpdate context mnb
  by_cases leaves : leavesEntry context (man.checkAndUpdate context mnb).1 mnb = true
  · have second := (checkInputsAndAdd_leaves out leaves).2
    rcases checkAndUpdate_cases context man mnb with ⟨stays, same⟩ | ⟨replaced, _⟩
    · rw [same] at leaves
      rw [takesEntry, stays, leaves] at takes
      cases takes
    · rw [if_pos ⟨replaced, own⟩] at first
      rw [second, first]
      unfold replacesEntry at replaced
      rw [Bool.and_eq_true] at replaced
      obtain ⟨pmn, found, _⟩ := (Option.any_eq_true _ _).mp replaced.2
      have there : man.addressAt out = some (addressOf pmn) := by
        unfold addressAt
        rw [← own, found]
        rfl
      rw [there]
      exact ⟨pmn.nLastIPUpdateTime, rfl, .inr ⟨addressOf pmn, rfl, rfl⟩⟩
  · have second := checkInputsAndAdd_takes out apart (Bool.not_eq_true _ |>.mp leaves)
    rw [if_neg (not_not_intro own), if_pos accepted] at second
    exact ⟨0, second, .inl rfl⟩

variable (man context mnb out) in
theorem addressAt_notTaken (takes : takesEntry context man mnb = false) :
    ((man.checkAndUpdate context mnb).1.checkInputsAndAdd context mnb).1.addressAt out =
      man.addressAt out := by
  unfold takesEntry at takes
  rw [Bool.or_eq_false_iff, Bool.not_eq_false'] at takes
  rcases checkAndUpdate_cases context man mnb with ⟨_, same⟩ | ⟨replaced, _⟩
  · rw [same]
    exact (checkInputsAndAdd_leaves out takes.2).2
  · rw [takes.1] at replaced
    cases replaced

omit [Crypto] [ChainParams] in
theorem latest_applyLatest (vin : CTxIn) :
    (man.applyLatestIPUpdate context vin).mapLatestMasternodeIPUpdate =
      man.mapLatestMasternodeIPUpdate := by
  unfold applyLatestIPUpdate
  split
  · rfl
  · exact (sameRecords_ipUpdateCheckAndUpdate ..).latest

omit [ChainParams] in
theorem Distinct.applyLatest (distinct : man.Distinct) (vin : CTxIn) :
    (man.applyLatestIPUpdate context vin).Distinct := by
  unfold applyLatestIPUpdate
  split
  · exact distinct
  · exact distinct.ipUpdate _

omit [Crypto] [ChainParams] in
theorem addressAt_applyLatest_other (keyed : ∀ other mnip,
    man.mapLatestMasternodeIPUpdate other = some mnip → mnip.vin.prevout = other) {vin : CTxIn}
    (other : vin.prevout ≠ out) :
    (man.applyLatestIPUpdate context vin).addressAt out = man.addressAt out := by
  unfold applyLatestIPUpdate
  split
  · rfl
  · rename_i mnip found
    rw [addressAt_ipUpdate, keyed _ mnip found, if_neg fun both => other both.2]

theorem Converged.acceptBroadcast (converged : Converged out history man)
    (own : mnb.vin.prevout = out)
    (accepted : ((man.checkAndUpdate context mnb).1.checkInputsAndAdd context mnb).2 = true)
    (fits : match man.mapLatestMasternodeIPUpdate out with
      | none =>
        (takesEntry context man mnb = true ∧ ∀ m ∈ history, m.sigTime ≤ mnb.sigTime) ∨
          (takesEntry context man mnb = false ∧ ∃ m ∈ history, mnb.sigTime ≤ m.sigTime)
      | some mnip => mnb.sigTime ≤ mnip.sigTime ∧ (takesEntry context man mnb = true →
          mnip.sigTime ≤ context.adjustedTime + 60 * 60 ∧
            context.ipUpdateSigned mnb.pubKeyMasternode mnip = true)) :
    Converged out (⟨false, mnb.sigTime, mnb.addr⟩ :: history)
      (((man.checkAndUpdate context mnb).1.checkInputsAndAdd context mnb).1.applyLatestIPUpdate
        context mnb.vin) := by
  have latest : ((man.checkAndUpdate context mnb).1.checkInputsAndAdd context
      mnb).1.mapLatestMasternodeIPUpdate = man.mapLatestMasternodeIPUpdate := by
    rw [latest_checkInputsAndAdd, (sameRecords_checkAndUpdate ..).latest]
  have distinct : ((man.checkAndUpdate context mnb).1.checkInputsAndAdd context mnb).1.Distinct :=
    (converged.distinct.checkAndUpdate context mnb).checkInputsAndAdd context mnb
  have taken := addressAt_taken converged.distinct own accepted
  have notTaken := addressAt_notTaken out man context mnb
  generalize ((man.checkAndUpdate context mnb).1.checkInputsAndAdd context mnb).1 = after
    at latest distinct taken notTaken ⊢
  unfold applyLatestIPUpdate
  rw [latest, own]
  cases found : man.mapLatestMasternodeIPUpdate out with
  | none =>
    rw [found] at fits
    dsimp only at fits ⊢
    refine ⟨distinct, by rw [latest]; exact converged.keyed, ?_, ?_, ?_⟩
    · intro _ m member
      rcases mem_cons.mp member with rfl | before
      · rfl
      · exact converged.without found m before
    · intro mnip there
      rw [latest, found] at there
      cases there
    · intro current there
      rcases fits with ⟨takes, newest⟩ | ⟨leaves, older⟩
      · obtain ⟨time, written, origin⟩ := taken takes
        rw [written] at there
        cases there
        refine ⟨Newest.first newest, ?_, ?_⟩
        · rcases origin with zero | ⟨old, was, same⟩
          · exact zero.ge
          · have nonneg := (converged.address old was).2.1
            dsimp only
            omega
        · intro mnip contra
          rw [latest, found] at contra
          cases contra
      · rw [notTaken leaves] at there
        obtain ⟨newest, nonneg, _⟩ := converged.address current there
        refine ⟨newest.older older, nonneg, ?_⟩
        intro mnip contra
        rw [latest, found] at contra
        cases contra
  | some mnip =>
    rw [found] at fits
    dsimp only at fits ⊢
    obtain ⟨member, all, nonneg⟩ := converged.latest mnip found
    have older : ∃ other ∈ history, mnb.sigTime ≤ other.sigTime := ⟨_, member, fits.1⟩
    have held : ∀ other, man.mapLatestMasternodeIPUpdate out = some other →
        ⟨true, other.sigTime, other.addr⟩ ∈
            (⟨false, mnb.sigTime, mnb.addr⟩ : AcceptedAddress) :: history ∧
          (∀ m ∈ (⟨false, mnb.sigTime, mnb.addr⟩ : AcceptedAddress) :: history,
            m.sigTime ≤ other.sigTime) ∧ 0 ≤ other.sigTime := by
      intro other there
      rw [found] at there
      cases there
      refine ⟨mem_cons_of_mem _ member, fun m here => ?_, nonneg⟩
      rcases mem_cons.mp here with rfl | before
      · exact fits.1
      · exact all m before
    have kept := (sameRecords_ipUpdateCheckAndUpdate context after mnip).latest
    rw [latest] at kept
    have written := addressAt_ipUpdate after context out mnip
    have keyed := converged.keyed out mnip found
    refine ⟨distinct.ipUpdate mnip, by rw [kept]; exact converged.keyed, ?_,
      by rw [kept]; exact held, ?_⟩
    · intro absent
      rw [kept, found] at absent
      cases absent
    · intro current there
      rw [kept]
      have newest : Newest ((⟨false, mnb.sigTime, mnb.addr⟩ : AcceptedAddress) :: history)
          mnip.addr := (converged.newest found).older older
      by_cases again : (after.ipUpdateCheckAndUpdate context mnip).2 = true
      · rw [written, if_pos ⟨again, keyed⟩] at there
        obtain ⟨old, _, rfl⟩ := Option.map_eq_some_iff.mp there
        refine ⟨newest, nonneg, ?_⟩
        intro other same
        rw [found] at same
        cases same
        rfl
      · rw [written, if_neg fun both => again both.1] at there
        cases takes : takesEntry context man mnb with
        | false =>
          rw [notTaken takes] at there
          obtain ⟨was, nonnegative, watermark⟩ := converged.address current there
          exact ⟨was.older older, nonnegative, watermark⟩
        | true =>
          -- the update is of the key of the broadcast, and not older than the one in the entry
          exfalso
          apply again
          obtain ⟨time, now, origin⟩ := taken takes
          obtain ⟨inTime, verified⟩ := fits.2 takes
          refine (ipUpdate_accepted_iff mnip).mpr ⟨inTime, _, by rw [keyed]; exact now, ?_,
            verified⟩
          dsimp only
          rcases origin with zero | ⟨old, was, same⟩
          · omega
          · have watermark := (converged.address old was).2.2 mnip found
            omega

variable (context mnb out) in
theorem addressAt_checkInputsAndAdd_other (distinct : man.Distinct)
    (other : mnb.vin.prevout ≠ out) :
    (man.checkInputsAndAdd context mnb).1.addressAt out = man.addressAt out := by
  by_cases leaves : leavesEntry context man mnb = true
  · exact (checkInputsAndAdd_leaves out leaves).2
  · have taken := checkInputsAndAdd_takes out distinct (Bool.not_eq_true _ |>.mp leaves)
    rwa [if_pos other] at taken

variable (context mnb out) in
theorem addressAt_checkInputsAndAdd_refused (distinct : man.Distinct)
    (refused : (man.checkInputsAndAdd context mnb).2 ≠ true) (own : mnb.vin.prevout = out) :
    (man.checkInputsAndAdd context mnb).1.addressAt out = none := by
  by_cases leaves : leavesEntry context man mnb = true
  · exact absurd (checkInputsAndAdd_leaves out leaves).1 refused
  · rw [checkInputsAndAdd_takes out distinct (Bool.not_eq_true _ |>.mp leaves),
      if_neg (not_not_intro own), if_neg refused]

variable (context mnb) in
theorem Converged.checkAndUpdate (converged : Converged out history man)
    (stays : mnb.vin.prevout = out → replacesEntry context man mnb = false) :
    Converged out history (man.checkAndUpdate context mnb).1 := by
  apply converged.of_same (converged.distinct.checkAndUpdate context mnb)
    (sameRecords_checkAndUpdate context man mnb).latest
  rw [addressAt_checkAndUpdate]
  apply if_neg
  rintro ⟨replaced, own⟩
  rw [stays own] at replaced
  cases replaced

theorem Converged.processBroadcast (converged : Converged out history man)
    (fits : Converging out history man (.message context (.mnb mnb))) :
    Converged out (man.acceptedIn out (.message context (.mnb mnb)) ++ history)
      (man.processBroadcast context mnb) := by
  have recorded : Converged out history (man.setSeen mnb.getHash true) :=
    converged.of_same converged.distinct rfl rfl
  unfold acceptedIn
  dsimp only
  by_cases here : mnb.vin.prevout = out ∧ man.acceptsBroadcast context mnb = true
  · rw [if_pos here]
    obtain ⟨own, accepts⟩ := here
    have fitting := (fits own).2 accepts
    simp only [acceptsBroadcast, Bool.and_eq_true, Bool.not_eq_true'] at accepts
    obtain ⟨⟨⟨⟨enabled, fresh⟩, passed⟩, associated⟩, added⟩ := accepts
    have accepted := recorded.acceptBroadcast own added fitting
    unfold CMasternodeMan.processBroadcast
    rw [enabled, fresh, if_neg (by simp), if_neg Bool.false_ne_true]
    generalize (man.setSeen mnb.getHash true).checkAndUpdate context mnb = first
      at passed added accepted ⊢
    obtain ⟨after, verdict⟩ := first
    obtain rfl : verdict = true := passed
    dsimp only at added accepted ⊢
    rw [if_pos associated]
    unfold CMasternodeMan.acceptBroadcast
    generalize after.checkInputsAndAdd context mnb = second at added accepted ⊢
    obtain ⟨final, verdict⟩ := second
    obtain rfl : verdict = true := added
    exact accepted
  · rw [if_neg here, nil_append]
    unfold CMasternodeMan.processBroadcast
    split
    · exact converged
    · rename_i enabled
      split
      · exact converged
      · rename_i fresh
        rw [Bool.not_eq_true, Bool.not_eq_false'] at enabled
        rw [Bool.not_eq_true] at fresh
        unfold acceptsBroadcast at here
        rw [enabled, fresh, Bool.true_and, Bool.not_false, Bool.true_and] at here
        have passes : replacesEntry context (man.setSeen mnb.getHash true) mnb = true →
            ((man.setSeen mnb.getHash true).checkAndUpdate context mnb).2 = true := by
          intro replaced
          rcases checkAndUpdate_cases context (man.setSeen mnb.getHash true) mnb with
            ⟨stays, _⟩ | ⟨_, result⟩
          · rw [replaced] at stays
            cases stays
          · rw [result]
        have owned : mnb.vin.prevout = out →
            replacesEntry context (man.setSeen mnb.getHash true) mnb = true →
            isVinAssociatedWithPubkey context mnb.vin mnb.pubKeyCollateralAddress = true :=
          fun own => (fits own).1
        have checked := recorded.checkAndUpdate context mnb
        have distinct := recorded.distinct.checkAndUpdate context mnb
        have latest :=
          (sameRecords_checkAndUpdate context (man.setSeen mnb.getHash true) mnb).latest
        generalize (man.setSeen mnb.getHash true).checkAndUpdate context mnb = first
          at here passes checked distinct latest ⊢
        obtain ⟨after, passed⟩ := first
        cases passed with
        | false =>
          exact checked fun _ => Bool.not_eq_true _ |>.mp fun replaced => nomatch passes replaced
        | true =>
          dsimp only at here checked distinct latest ⊢
          rw [Bool.true_and] at here
          split
          · rename_i associated
            rw [associated, Bool.true_and] at here
            unfold CMasternodeMan.acceptBroadcast
            have kept : (after.checkInputsAndAdd context mnb).1.mapLatestMasternodeIPUpdate =
                after.mapLatestMasternodeIPUpdate := latest_checkInputsAndAdd
            have apart := distinct.checkInputsAndAdd context mnb
            have gone := addressAt_checkInputsAndAdd_refused out context mnb distinct
            have elsewhere := addressAt_checkInputsAndAdd_other out context mnb distinct
            generalize after.checkInputsAndAdd context mnb = second
              at here kept apart gone elsewhere ⊢
            obtain ⟨final, added⟩ := second
            by_cases own : mnb.vin.prevout = out
            · cases added with
              | false =>
                apply recorded.of_less apart (kept.trans latest)
                intro current there
                rw [gone Bool.false_ne_true own] at there
                cases there
              | true => exact absurd ⟨own, rfl⟩ here
            · have stays := checked fun same => absurd same own
              have unchanged := stays.of_same apart kept (elsewhere own)
              cases added with
              | false => exact unchanged
              | true =>
                apply unchanged.of_same
                · exact apart.applyLatest mnb.vin
                · exact latest_applyLatest mnb.vin
                · exact addressAt_applyLatest_other unchanged.keyed own
          · rename_i unassociated
            apply checked
            intro own
            exact Bool.not_eq_true _ |>.mp fun replaced => unassociated (owned own replaced)

/-! ## Pings and restarts -/

theorem Converged.processPing (converged : Converged out history man) (mnp : CMasternodePing) :
    Converged out history (man.processPing context mnp) := by
  unfold CMasternodeMan.processPing
  split
  · exact converged
  · split
    · exact converged
    · have recorded : Converged out history (man.setPingSeen mnp.getHash) :=
        converged.of_same converged.distinct rfl rfl
      exact recorded.of_same (recorded.distinct.ping mnp true)
        (sameRecords_pingCheckAndUpdate ..).latest (addressAt_ping mnp true)

omit [Crypto] [ChainParams] in
theorem Distinct.entryAt_of_mem (distinct : man.Distinct) (member : mn ∈ man.vMasternodes)
    (own : outpoint mn = out) : man.entryAt out = some mn := by
  unfold Distinct at distinct
  unfold entryAt
  generalize man.vMasternodes = list at distinct member ⊢
  induction list with
  | nil => cases member
  | cons first rest ih =>
    rw [map_cons, nodup_cons] at distinct
    rcases mem_cons.mp member with rfl | later
    · exact List.find?_cons_of_pos (beq_iff_eq.mpr own)
    · rw [List.find?_cons_of_neg, ih distinct.2 later]
      intro same
      apply distinct.1
      rw [beq_iff_eq.mp same, ← own]
      exact mem_map_of_mem later

theorem outpoint_check (mn : CMasternode) : outpoint (mn.check context false) = outpoint mn := by
  obtain ⟨time, state, same⟩ := check_eq context false mn
  rw [same]
  rfl

variable (context) in
theorem Distinct.checkAndRemove (distinct : man.Distinct) :
    (man.checkAndRemove context).Distinct := by
  unfold Distinct CMasternodeMan.checkAndRemove
  refine List.Nodup.sublist (filter_sublist.map outpoint) ?_
  rw [map_map]
  exact (map_congr_left fun mn _ => outpoint_check mn) ▸ distinct

theorem entryAt_checkAndRemove (distinct : man.Distinct) :
    (man.checkAndRemove context).entryAt out = some mn ↔
      ∃ old, man.entryAt out = some old ∧ mn = old.check context false ∧
        isRemoved context mn = false := by
  have apart := distinct.checkAndRemove context
  constructor
  · intro found
    have member := List.mem_of_find?_eq_some found
    have own := outpoint_of_entryAt found
    unfold checkAndRemove at member
    obtain ⟨checked, kept⟩ := mem_filter.mp member
    obtain ⟨old, there, rfl⟩ := mem_map.mp checked
    refine ⟨old, distinct.entryAt_of_mem there ((outpoint_check old).symm.trans own), rfl, ?_⟩
    simpa using kept
  · rintro ⟨old, found, rfl, stays⟩
    apply apart.entryAt_of_mem
    · apply mem_filter.mpr
      refine ⟨mem_map_of_mem (List.mem_of_find?_eq_some found), ?_⟩
      rw [stays]
      rfl
    · exact (outpoint_check old).trans (outpoint_of_entryAt found)

omit [Crypto] [ChainParams] in
theorem entryAt_map (other : CMasternodeMan) {update : CMasternode → CMasternode}
    (keeps : ∀ mn, outpoint (update mn) = outpoint mn)
    (list : other.vMasternodes = man.vMasternodes.map update) :
    other.entryAt out = (man.entryAt out).map update := by
  have same : ((fun mn => outpoint mn == out) ∘ update) = fun mn => outpoint mn == out := by
    funext mn
    exact congrArg (· == out) (keeps mn)
  unfold entryAt
  rw [list, List.find?_map, same]

omit [Crypto] [ChainParams] in
theorem Distinct.map (distinct : man.Distinct) {other : CMasternodeMan}
    (update : CMasternode → CMasternode) (keeps : ∀ mn, outpoint (update mn) = outpoint mn)
    (list : other.vMasternodes = man.vMasternodes.map update) : other.Distinct := by
  unfold Distinct
  rw [list, map_map]
  exact (map_congr_left fun mn _ => keeps mn) ▸ distinct

omit [Crypto] [ChainParams] in
theorem outpoint_restore (mn : CMasternode) : outpoint (man.restore mn) = outpoint mn := by
  unfold restore
  split
  · rfl
  · split
    · rfl
    · rfl

theorem Distinct.restart (distinct : man.Distinct) {seen : SeenMaps} :
    (man.restart context seen).Distinct := by
  unfold CMasternodeMan.restart
  dsimp only
  refine Distinct.map ?_ _ outpoint_restore rfl
  apply Distinct.checkAndRemove
  exact distinct.map loaded (fun _ => rfl) rfl

/-- The removal keeps the newest IP updates of the entries that stay. -/
theorem restore_checkAndRemove (found : (man.checkAndRemove context).entryAt out = some mn) :
    (man.checkAndRemove context).restore mn = man.restore mn := by
  have stays : (man.checkAndRemove context).mapLatestMasternodeIPUpdate out =
      man.mapLatestMasternodeIPUpdate out := by
    have listed : ((man.checkAndRemove context).entryAt out).isSome = true := by
      rw [found]
      rfl
    exact if_pos listed
  unfold restore
  rw [outpoint_of_entryAt found, stays]

variable (context) in
theorem entryAt_restart (seen : SeenMaps) (distinct : man.Distinct) :
    (man.restart context seen).entryAt out = some mn ↔
      ∃ old, man.entryAt out = some old ∧
        isRemoved context ((loaded old).check context false) = false ∧
        mn = man.restore ((loaded old).check context false) := by
  unfold CMasternodeMan.restart
  dsimp only
  generalize read : ({ man with
    vMasternodes := man.vMasternodes.map loaded
    mapSeenMasternodeBroadcast := seen.broadcasts
    mapSeenMasternodePing := seen.pings
    mapSeenMasternodeIPUpdate := seen.ipUpdates
    activeMasternode := {} } : CMasternodeMan) = base
  have latest : base.restore = man.restore := by
    subst read
    rfl
  have apart : base.Distinct := by
    subst read
    exact distinct.map loaded (fun _ => rfl) rfl
  have entries : base.entryAt out = (man.entryAt out).map loaded := by
    subst read
    exact entryAt_map _ (fun _ => rfl) rfl
  rw [entryAt_map ((base.checkAndRemove context).rebuildIPUpdateState)
    outpoint_restore rfl, Option.map_eq_some_iff]
  constructor
  · rintro ⟨kept, found, rfl⟩
    rw [restore_checkAndRemove found, latest]
    obtain ⟨first, there, rfl, stays⟩ := (entryAt_checkAndRemove apart).mp found
    rw [entries] at there
    obtain ⟨old, was, rfl⟩ := Option.map_eq_some_iff.mp there
    exact ⟨old, was, stays, rfl⟩
  · rintro ⟨old, was, stays, rfl⟩
    have found : (base.checkAndRemove context).entryAt out =
        some ((loaded old).check context false) := by
      refine (entryAt_checkAndRemove apart).mpr ⟨loaded old, ?_, rfl, stays⟩
      rw [entries, was]
      rfl
    refine ⟨_, found, ?_⟩
    rw [restore_checkAndRemove found, latest]

theorem latest_restart {seen : SeenMaps} :
    (man.restart context seen).mapLatestMasternodeIPUpdate out =
      if ((man.restart context seen).entryAt out).isSome then
        man.mapLatestMasternodeIPUpdate out else none := by
  unfold CMasternodeMan.restart
  dsimp only
  rw [entryAt_map (CMasternodeMan.checkAndRemove _ _).rebuildIPUpdateState
    outpoint_restore rfl, Option.isSome_map]
  rfl

theorem Converged.restart (converged : Converged out history man) {seen : SeenMaps}
    (fits : Converging out history man (.restart context seen)) :
    Converged out history (man.restart context seen) := by
  have fewer : ∀ other mnip,
      (man.restart context seen).mapLatestMasternodeIPUpdate other = some mnip →
      man.mapLatestMasternodeIPUpdate other = some mnip := by
    intro other mnip found
    rw [latest_restart] at found
    split at found
    · exact found
    · cases found
  refine ⟨converged.distinct.restart, ?_, ?_, ?_, ?_⟩
  · intro other mnip found
    exact converged.keyed other mnip (fewer other mnip found)
  · intro absent
    apply converged.without
    rw [latest_restart] at absent
    by_contra there
    obtain ⟨old, found, stays⟩ := fits (Option.isSome_iff_ne_none.mpr there)
    have listed := (entryAt_restart context seen converged.distinct).mpr
      ⟨old, found, stays, rfl⟩
    rw [listed, Option.isSome_some, if_pos rfl] at absent
    exact there absent
  · intro mnip found
    exact converged.latest mnip (fewer out mnip found)
  · intro current found
    unfold addressAt at found
    obtain ⟨mn, listed, rfl⟩ := Option.map_eq_some_iff.mp found
    obtain ⟨old, was, _, rfl⟩ := (entryAt_restart context seen converged.distinct).mp listed
    have there : man.addressAt out = some (addressOf old) := by
      unfold addressAt
      rw [was]
      rfl
    have old_own : outpoint old = out := outpoint_of_entryAt was
    have own : outpoint ((loaded old).check context false) = out :=
      (outpoint_check (loaded old)).trans old_own
    obtain ⟨newest, nonneg, watermark⟩ := converged.address _ there
    obtain ⟨time, state, checked⟩ := check_eq context false (loaded old)
    rw [restore, own, checked]
    cases latest : man.mapLatestMasternodeIPUpdate out with
    | none =>
      refine ⟨newest, le_rfl, ?_⟩
      intro mnip contra
      have contra := fewer out mnip contra
      rw [latest] at contra
      cases contra
    | some mnip =>
      have top := converged.newest latest
      obtain ⟨_, _, from_zero⟩ := converged.latest mnip latest
      dsimp only
      split
      · refine ⟨top, from_zero, ?_⟩
        intro other held
        have held := fewer out other held
        rw [latest] at held
        cases held
        rfl
      · rename_i notLater
        have notLater : ¬ 0 < mnip.sigTime := notLater
        refine ⟨newest, le_rfl, ?_⟩
        intro other held
        have held := fewer out other held
        rw [latest] at held
        cases held
        have none : (0 : Int) = mnip.sigTime := by omega
        exact none

theorem Converged.handle (converged : Converged out history man) {event : AddressEvent}
    (fits : Converging out history man event) :
    Converged out (man.acceptedIn out event ++ history) (man.handle event) := by
  cases event with
  | message context message =>
    cases message with
    | mnb mnb => exact converged.processBroadcast fits
    | mnp mnp => exact converged.processPing mnp
    | mnipupdate nVersion mnip => exact converged.processIPUpdate fits
  | restart context seen => exact converged.restart fits

theorem ConvergingRun.append {events : List AddressEvent}
    (run : ConvergingRun out {} (track out events).1 (track out events).2) (event : AddressEvent)
    (converging : Converging out (track out events).1 (track out events).2 event) :
    ConvergingRun out {} (track out (events ++ [event])).1 (track out (events ++ [event])).2 := by
  have next := run.step event converging
  unfold track at next ⊢
  rw [foldl_append]
  exact next

theorem ConvergingRun.converged {start : CMasternodeMan} (run : ConvergingRun out start history man)
    (empty : start.vMasternodes = []) (none : start.mapLatestMasternodeIPUpdate = fun _ => none) :
    Converged out history man := by
  induction run with
  | start =>
    refine ⟨?_, ?_, ?_, ?_, ?_⟩
    · unfold Distinct
      rw [empty]
      exact nodup_nil
    · intro other mnip found
      rw [none] at found
      cases found
    · exact fun _ m member => nomatch member
    · intro mnip found
      rw [none] at found
      cases found
    · intro current found
      unfold addressAt entryAt at found
      rw [empty] at found
      cases found
  | step run event converging ih => exact ih.handle converging

end

/-- **The address converges.** In a run from an empty list whose events come in the order of the
times, the entry has the address of the newest accepted message, and the newest accepted IP update
is held. -/
theorem address_converges (out : COutPoint) (start : CMasternodeMan)
    (history : List AcceptedAddress) (man : CMasternodeMan)
    (run : ConvergingRun out start history man) (empty : start.vMasternodes = [])
    (none : start.mapLatestMasternodeIPUpdate = fun _ => none) :
    (∀ mn, man.entryAt out = some mn → Newest history mn.addr) ∧
      ∀ m ∈ history, m.isUpdate = true →
        ∃ mnip, man.mapLatestMasternodeIPUpdate out = some mnip ∧
          ⟨true, mnip.sigTime, mnip.addr⟩ ∈ history ∧ ∀ other ∈ history,
            other.isUpdate = true → other.sigTime ≤ mnip.sigTime := by
  have converged := run.converged empty none
  constructor
  · intro mn found
    have there : man.addressAt out = some (addressOf mn) := by
      unfold addressAt
      rw [found]
      rfl
    exact (converged.address _ there).1
  · intro m member update
    cases latest : man.mapLatestMasternodeIPUpdate out with
    | none =>
      have broadcast := converged.without latest m member
      rw [update] at broadcast
      cases broadcast
    | some mnip =>
      obtain ⟨held, newest, _⟩ := converged.latest mnip latest
      exact ⟨mnip, rfl, held, fun other there _ => newest other there⟩

end CMasternodeMan

namespace Renamed

def context : MasternodeContext :=
  { TwoCollaterals.context with ipUpdateSigned := fun _ _ => true }

def out : COutPoint := ⟨TwoCollaterals.txid, 0⟩

def announced (sigTime : Int) (ip : BitVec 128) : AddressEvent :=
  .message context (.mnb
    { TwoCollaterals.broadcast 0 sigTime [1] with addr := { ip := ip } })

def updated (sigTime : Int) (ip : BitVec 128) : AddressEvent :=
  .message context (.mnipupdate PROTOCOL_VERSION
    { vin := { prevout := out, scriptSig := [] }
      addr := { ip := ip }
      sigTime := sigTime })

def shown [Crypto] [ChainParams] (events : List AddressEvent) : Option CService :=
  ((CMasternodeMan.track out events).2.entryAt out).map CMasternode.addr

def accepted [Crypto] [ChainParams] (events : List AddressEvent) : List AcceptedAddress :=
  (CMasternodeMan.track out events).1

end Renamed

section

open Renamed

local instance Renamed.params : ChainParams := regTestParams 0
local instance Renamed.instCrypto : Crypto := checksumCrypto

/-- A masternode is announced, changes its address by an IP update, and is announced again, later,
at a third address: the last broadcast is accepted, and the address stays that of the update. -/
theorem address_overwritten :
    ¬ (∀ (out : COutPoint) (events : List AddressEvent) (mn : CMasternode),
      (CMasternodeMan.track out events).2.entryAt out = some mn →
        CMasternodeMan.Newest (CMasternodeMan.track out events).1 mn.addr) ∧
    shown [announced 1400012000 1, updated 1400012100 2, announced 1400012900 3] =
      some { ip := 2 } ∧
    accepted [announced 1400012000 1, updated 1400012100 2, announced 1400012900 3] =
      [⟨false, 1400012900, { ip := 3 }⟩, ⟨true, 1400012100, { ip := 2 }⟩,
        ⟨false, 1400012000, { ip := 1 }⟩] := by
  have history : accepted [announced 1400012000 1, updated 1400012100 2,
      announced 1400012900 3] = [⟨false, 1400012900, { ip := 3 }⟩, ⟨true, 1400012100, { ip := 2 }⟩,
        ⟨false, 1400012000, { ip := 1 }⟩] := by
    decide +kernel
  have address : shown [announced 1400012000 1, updated 1400012100 2, announced 1400012900 3] =
      some { ip := 2 } := by
    decide +kernel
  refine ⟨fun claimed => ?_, address, history⟩
  obtain ⟨mn, found, same⟩ := Option.map_eq_some_iff.mp address
  obtain ⟨m, member, own, newest⟩ := claimed out _ mn found
  unfold accepted at history
  rw [history] at member newest
  rw [same] at own
  have last := newest ⟨false, 1400012900, { ip := 3 }⟩ mem_cons_self
  have theUpdate : m = ⟨true, 1400012100, { ip := 2 }⟩ := by
    simp only [mem_cons, not_mem_nil, or_false] at member
    rcases member with rfl | rfl | rfl
    · exact absurd own (by decide)
    · rfl
    · exact absurd own (by decide)
  rw [theUpdate] at last
  exact absurd last (by decide)

/-- A masternode that is announced and changes its address. -/
theorem address_converges_updated :
    shown [announced 1400012000 1, updated 1400012100 2] = some { ip := 2 } ∧
    (∀ mn, (CMasternodeMan.track out [announced 1400012000 1,
        updated 1400012100 2]).2.entryAt out = some mn →
      CMasternodeMan.Newest (accepted [announced 1400012000 1, updated 1400012100 2]) mn.addr) ∧
    ∀ m ∈ accepted [announced 1400012000 1, updated 1400012100 2], m.isUpdate = true →
      ∃ mnip, (CMasternodeMan.track out [announced 1400012000 1,
          updated 1400012100 2]).2.mapLatestMasternodeIPUpdate out = some mnip ∧
        ⟨true, mnip.sigTime, mnip.addr⟩ ∈
          accepted [announced 1400012000 1, updated 1400012100 2] ∧
        ∀ other ∈ accepted [announced 1400012000 1, updated 1400012100 2],
          other.isUpdate = true → other.sigTime ≤ mnip.sigTime := by
  have none : CMasternodeMan.ConvergingRun out {} (CMasternodeMan.track out []).1
      (CMasternodeMan.track out []).2 := .start
  have first := none.append (announced 1400012000 1)
    fun _ => ⟨fun _ => by decide +kernel, fun _ => .inl ⟨by decide +kernel,
      fun _ member => nomatch member⟩⟩
  have second := first.append (updated 1400012100 2) fun _ _ => by
    have history : accepted [announced 1400012000 1] = [⟨false, 1400012000, { ip := 1 }⟩] := by
      decide +kernel
    unfold accepted at history
    rw [nil_append, history]
    intro m member
    obtain rfl := mem_singleton.mp member
    exact (by decide : (1400012000 : Int) ≤ 1400012100)
  exact ⟨by decide +kernel, CMasternodeMan.address_converges out {} _ _ second rfl rfl⟩

end

end Agouti
