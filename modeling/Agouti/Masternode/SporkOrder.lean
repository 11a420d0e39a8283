import Agouti.Library.LatestWins
import Agouti.Masternode.Spork

/-! # The order of spork messages

`ProcessSpork` with the spork database, `LoadSporksFromDB` and the values that
`GetSporkValue` and `IsSporkActive` give. `ProcessSpork` takes a message only when its signing
time is later than that of the active one, so the active spork is always one with the newest
signing time, but of two messages with one time it is the one that came first
(`sporks_converge`).
-/

namespace Agouti

open List

/-- The values of `spork.h` for sporks that no message was seen for. -/
def sporkDefaults : List (Int32 × Int64) :=
  [(10001, 978307200), (10002, 1424217600), (10004, 1000), (10006, 978307200),
   (10007, 4070908800), (10008, 4070908800), (10009, 978307200), (10010, 4070908800),
   (10011, 4070908800), (10012, 4070908800), (10013, 4070908800), (10014, 4070908800)]

def getSporkValue (mapSporksActive : SporkMap) (nSporkID : Int32) : Int64 :=
  match mapSporksActive nSporkID with
  | some spork => spork.nValue
  | none => (sporkDefaults.lookup nSporkID).getD (-1)

/-- `IsSporkActive` at the time `now`. -/
def isSporkActive (mapSporksActive : SporkMap) (nSporkID : Int32) (now : Int64) : Bool :=
  if getSporkValue mapSporksActive nSporkID = -1 then false
  else decide (getSporkValue mapSporksActive nSporkID < now)

/-- The active sporks and the database `pSporkDB`. -/
structure SporkState where
  mapSporksActive : SporkMap
  pSporkDB : SporkMap

def SporkState.fresh : SporkState := ⟨fun _ => none, fun _ => none⟩

/-- The ids from `SPORK_START` to `SPORK_END`. -/
def sporkRange : List Int32 :=
  [10001, 10002, 10003, 10004, 10005, 10006, 10007, 10008, 10009, 10010, 10011, 10012, 10013,
   10014]

/-- `LoadSporksFromDB` for one id. -/
def loadSpork (pSporkDB : SporkMap) (mapSporksActive : SporkMap) (id : Int32) : SporkMap :=
  if getSporkNameByID id = "Unknown" then mapSporksActive
  else match pSporkDB id with
    | none => mapSporksActive
    | some spork => Function.update mapSporksActive spork.nSporkID (some spork)

/-- `LoadSporksFromDB` at a start of the node. -/
def loadSporksFromDB (pSporkDB : SporkMap) : SporkMap :=
  sporkRange.foldl (loadSpork pSporkDB) fun _ => none

/-- `ProcessSpork` with `CSporkDB::WriteSpork`: what is made active is written as well. -/
def SporkState.processSpork (verifies : SporkKey) (node : SporkState) (spork : CSporkMessage) :
    SporkState :=
  if getSporkNameByID spork.nSporkID = "Unknown" then node
  else if ((node.mapSporksActive spork.nSporkID).map fun active =>
      decide (spork.nTimeSigned ≤ active.nTimeSigned)).getD false then node
  else if !checkSporkSignature verifies spork then node
  else {
    mapSporksActive := Function.update node.mapSporksActive spork.nSporkID (some spork)
    pSporkDB := Function.update node.pSporkDB spork.nSporkID (some spork) }

/-- What changes the sporks of a node. -/
inductive SporkEvent
  | message (spork : CSporkMessage)
  | restart

def SporkState.step (verifies : SporkKey) (node : SporkState) : SporkEvent → SporkState
  | .message spork => node.processSpork verifies spork
  | .restart => { node with mapSporksActive := loadSporksFromDB node.pSporkDB }

def SporkState.run (verifies : SporkKey) (node : SporkState) (events : List SporkEvent) :
    SporkState :=
  events.foldl (SporkState.step verifies) node

def sporkMessages (events : List SporkEvent) : List CSporkMessage :=
  events.filterMap fun
    | .message spork => some spork
    | .restart => none

def sporkRegister (verifies : SporkKey) : LatestWins CSporkMessage Int32 Int where
  key := CSporkMessage.nSporkID
  time spork := spork.nTimeSigned.toInt
  admitted spork :=
    decide (getSporkNameByID spork.nSporkID ≠ "Unknown") && checkSporkSignature verifies spork

section

variable {verifies : SporkKey}

theorem processSpork_offer (mapSporksActive : SporkMap) (spork : CSporkMessage) :
    processSpork verifies false true mapSporksActive spork =
      (sporkRegister verifies).offer mapSporksActive spork := by
  have seen : ((mapSporksActive spork.nSporkID).map fun active =>
        decide (spork.nTimeSigned ≤ active.nTimeSigned)).getD false = true ↔
      ¬ (sporkRegister verifies).Fresh mapSporksActive spork := by
    unfold LatestWins.Fresh sporkRegister
    cases mapSporksActive spork.nSporkID with
    | none => simp
    | some active =>
      simp [Int64.le_iff_toInt_le]
  unfold LatestWins.offer processSpork
  rw [if_neg (by decide), if_neg (by decide)]
  by_cases unknown : getSporkNameByID spork.nSporkID = "Unknown"
  · simp [unknown, sporkRegister]
  · rw [if_neg unknown]
    by_cases fresh : (sporkRegister verifies).Fresh mapSporksActive spork
    · rw [if_neg fun held => seen.mp held fresh]
      by_cases checked : checkSporkSignature verifies spork = true
      · rw [if_neg (by simp [checked]), if_pos ⟨by simp [sporkRegister, unknown, checked], fresh⟩]
        rfl
      · rw [if_pos (by simpa using checked),
          if_neg fun both => checked (by simpa [sporkRegister, unknown] using both.1)]
    · rw [if_pos (seen.mpr fresh), if_neg fun both => fresh both.2]

theorem processSporks_offers (mapSporksActive : SporkMap) (sporks : List CSporkMessage) :
    processSporks verifies false true mapSporksActive sporks =
      (sporkRegister verifies).offers mapSporksActive sporks := by
  unfold processSporks LatestWins.offers
  congr 1
  funext active spork
  exact processSpork_offer active spork

/-! ### The database -/

/-- The database has the active sporks, all of them known. -/
structure SporkState.Mirrored (node : SporkState) : Prop where
  same : node.mapSporksActive = node.pSporkDB
  own : ∀ id spork, node.pSporkDB id = some spork → spork.nSporkID = id
  named : ∀ id spork, node.pSporkDB id = some spork → getSporkNameByID id ≠ "Unknown"

theorem mem_sporkRange {id : Int32} (named : getSporkNameByID id ≠ "Unknown") :
    id ∈ sporkRange := by
  have all : (sporkNames.map Prod.fst).all (fun id => sporkRange.contains id) = true := by decide
  refine contains_iff_mem.mp (all_eq_true.mp all id ?_)
  by_contra absent
  refine named ?_
  have missing : sporkNames.lookup id = none := by
    refine lookup_eq_none_iff.mpr fun entry member => ?_
    have apart : id ≠ entry.1 := by
      rintro rfl
      exact absent (mem_map_of_mem member)
    simpa using apart
  rw [getSporkNameByID, missing]
  rfl

variable {pSporkDB : SporkMap} {node : SporkState}

theorem loadSpork_cases (own : ∀ id spork, pSporkDB id = some spork → spork.nSporkID = id)
    (mapSporksActive : SporkMap) (first id : Int32) :
    loadSpork pSporkDB mapSporksActive first id = mapSporksActive id ∨
      loadSpork pSporkDB mapSporksActive first id = pSporkDB id := by
  unfold loadSpork
  by_cases unknown : getSporkNameByID first = "Unknown"
  · rw [if_pos unknown]
    exact .inl rfl
  · rw [if_neg unknown]
    cases found : pSporkDB first with
    | none => exact .inl rfl
    | some spork =>
      by_cases here : id = first
      · subst here
        refine .inr ?_
        rw [found, ← own id spork found]
        exact Function.update_self ..
      · refine .inl (Function.update_of_ne ?_ ..)
        rw [own first spork found]
        exact here

theorem foldl_loadSpork (own : ∀ id spork, pSporkDB id = some spork → spork.nSporkID = id)
    {id : Int32} {spork : CSporkMessage} (found : pSporkDB id = some spork)
    (named : getSporkNameByID id ≠ "Unknown") (ids : List Int32) {mapSporksActive : SporkMap}
    (loaded : id ∈ ids ∨ mapSporksActive id = some spork) :
    ids.foldl (loadSpork pSporkDB) mapSporksActive id = some spork := by
  induction ids generalizing mapSporksActive with
  | nil => exact loaded.resolve_left (not_mem_nil)
  | cons first rest ih =>
    refine ih ?_
    by_cases here : first = id
    · subst here
      refine .inr ?_
      simp only [loadSpork, if_neg named, found]
      rw [← own first spork found]
      exact Function.update_self ..
    · rcases loaded with member | before
      · exact .inl ((mem_cons.mp member).resolve_left fun same => here same.symm)
      · refine .inr ?_
        rcases loadSpork_cases own mapSporksActive first id with same | same
        · rw [same, before]
        · rw [same, found]

theorem foldl_loadSpork_none (own : ∀ id spork, pSporkDB id = some spork → spork.nSporkID = id)
    {id : Int32} (absent : pSporkDB id = none) (ids : List Int32) {mapSporksActive : SporkMap}
    (before : mapSporksActive id = none) :
    ids.foldl (loadSpork pSporkDB) mapSporksActive id = none := by
  induction ids generalizing mapSporksActive with
  | nil => exact before
  | cons first rest ih =>
    refine ih ?_
    rcases loadSpork_cases own mapSporksActive first id with same | same
    · rw [same, before]
    · rw [same, absent]

theorem loadSporksFromDB_mirrored (mirrored : node.Mirrored) :
    loadSporksFromDB node.pSporkDB = node.mapSporksActive := by
  funext id
  rw [mirrored.same]
  cases found : node.pSporkDB id with
  | none => exact foldl_loadSpork_none mirrored.own found _ rfl
  | some spork =>
    have named := mirrored.named id spork found
    exact foldl_loadSpork mirrored.own found named _ (.inl (mem_sporkRange named))

theorem SporkState.processSpork_cases (verifies : SporkKey) (node : SporkState)
    (spork : CSporkMessage) :
    node.processSpork verifies spork = node ∧
        Agouti.processSpork verifies false true node.mapSporksActive spork =
          node.mapSporksActive ∨
      getSporkNameByID spork.nSporkID ≠ "Unknown" ∧
        node.processSpork verifies spork =
          { mapSporksActive := Function.update node.mapSporksActive spork.nSporkID (some spork)
            pSporkDB := Function.update node.pSporkDB spork.nSporkID (some spork) } ∧
        Agouti.processSpork verifies false true node.mapSporksActive spork =
          Function.update node.mapSporksActive spork.nSporkID (some spork) := by
  unfold SporkState.processSpork Agouti.processSpork
  by_cases unknown : getSporkNameByID spork.nSporkID = "Unknown"
  · simp [unknown]
  · by_cases seen : ((node.mapSporksActive spork.nSporkID).map fun active =>
        decide (spork.nTimeSigned ≤ active.nTimeSigned)).getD false = true
    · simp [unknown, seen]
    · by_cases checked : checkSporkSignature verifies spork = true
      · simp [unknown, seen, checked]
      · simp [unknown, seen, checked]

theorem SporkState.Mirrored.processSpork (verifies : SporkKey) (mirrored : node.Mirrored)
    (spork : CSporkMessage) :
    (node.processSpork verifies spork).Mirrored ∧
      (node.processSpork verifies spork).mapSporksActive =
        Agouti.processSpork verifies false true node.mapSporksActive spork := by
  rcases SporkState.processSpork_cases verifies node spork with
    ⟨same, active⟩ | ⟨known, same, active⟩
  · rw [same, active]
    exact ⟨mirrored, rfl⟩
  · rw [same, active]
    have entry : ∀ id written,
        Function.update node.pSporkDB spork.nSporkID (some spork) id = some written →
        id = spork.nSporkID ∧ written = spork ∨ node.pSporkDB id = some written := by
      intro id written found
      by_cases here : id = spork.nSporkID
      · subst here
        rw [Function.update_self] at found
        exact .inl ⟨rfl, (Option.some.inj found).symm⟩
      · rw [Function.update_of_ne here] at found
        exact .inr found
    refine ⟨⟨?_, fun id written found => ?_, fun id written found => ?_⟩, rfl⟩
    · change Function.update node.mapSporksActive _ _ = Function.update node.pSporkDB _ _
      rw [mirrored.same]
    · rcases entry id written found with ⟨rfl, rfl⟩ | before
      · rfl
      · exact mirrored.own id written before
    · rcases entry id written found with ⟨rfl, rfl⟩ | before
      · exact known
      · exact mirrored.named id written before

theorem SporkState.run_messages (mirrored : node.Mirrored) (events : List SporkEvent) :
    (node.run verifies events).mapSporksActive =
      processSporks verifies false true node.mapSporksActive (sporkMessages events) := by
  induction events generalizing node with
  | nil => rfl
  | cons event rest ih =>
    cases event with
    | message spork =>
      obtain ⟨kept, same⟩ := mirrored.processSpork verifies spork
      change (SporkState.run verifies (node.processSpork verifies spork) rest).mapSporksActive =
        processSporks verifies false true
          (Agouti.processSpork verifies false true node.mapSporksActive spork)
          (sporkMessages rest)
      rw [ih kept, same]
    | restart =>
      have kept : (node.step verifies .restart) = node := by
        unfold SporkState.step
        rw [loadSporksFromDB_mirrored mirrored]
      change (SporkState.run verifies (node.step verifies .restart) rest).mapSporksActive = _
      rw [kept]
      exact ih mirrored

/-! ### The newest message -/

/-- Of the correctly signed messages for the spork none is newer than this one. -/
structure NewestSpork (verifies : SporkKey) (sporks : List CSporkMessage) (id : Int32)
    (spork : CSporkMessage) : Prop where
  member : spork ∈ sporks
  signed : checkSporkSignature verifies spork = true
  named : getSporkNameByID id ≠ "Unknown"
  id_eq : spork.nSporkID = id
  newest : ∀ other ∈ sporks, checkSporkSignature verifies other = true →
    other.nSporkID = id → other.nTimeSigned ≤ spork.nTimeSigned

/-- The newest messages of a spork look alike. -/
def NewestAgree {View : Type} (view : CSporkMessage → View) (verifies : SporkKey)
    (sporks : List CSporkMessage) : Prop :=
  ∀ id first second, NewestSpork verifies sporks id first → NewestSpork verifies sporks id second →
    view first = view second

theorem newestSpork_iff {sporks : List CSporkMessage} {id : Int32} {spork : CSporkMessage} :
    (sporkRegister verifies).Newest (fun _ => none) sporks id spork ↔
      NewestSpork verifies sporks id spork := by
  constructor
  · intro newest
    have admitted : getSporkNameByID spork.nSporkID ≠ "Unknown" ∧
        checkSporkSignature verifies spork = true := by
      simpa [sporkRegister] using newest.admitted
    have named : getSporkNameByID id ≠ "Unknown" := by
      have key : spork.nSporkID = id := newest.key_eq
      rw [← key]
      exact admitted.1
    refine ⟨newest.member, admitted.2, named, newest.key_eq, fun other member signed here => ?_⟩
    refine Int64.le_iff_toInt_le.mpr (newest.latest other member ?_ here)
    simp [sporkRegister, here, named, signed]
  · intro newest
    refine ⟨newest.member, ?_, newest.id_eq, fun held found => by contradiction, ?_⟩
    · simp [sporkRegister, newest.id_eq, newest.named, newest.signed]
    · intro other member admitted here
      have both : getSporkNameByID other.nSporkID ≠ "Unknown" ∧
          checkSporkSignature verifies other = true := by
        simpa [sporkRegister] using admitted
      exact Int64.le_iff_toInt_le.mp (newest.newest other member both.2 here)

theorem newestAgree_iff {View : Type} {view : CSporkMessage → View}
    {sporks : List CSporkMessage} :
    (sporkRegister verifies).Unambiguous view (fun _ => none) sporks ↔
      NewestAgree view verifies sporks := by
  unfold LatestWins.Unambiguous NewestAgree
  simp only [newestSpork_iff]

theorem SporkState.fresh_mirrored : SporkState.fresh.Mirrored :=
  ⟨rfl, fun _ _ found => by contradiction, fun _ _ found => by contradiction⟩

theorem SporkState.fresh_run (events : List SporkEvent) :
    (SporkState.fresh.run verifies events).mapSporksActive =
      (sporkRegister verifies).offers (fun _ => none) (sporkMessages events) := by
  rw [SporkState.run_messages SporkState.fresh_mirrored, processSporks_offers]
  rfl

theorem SporkState.fresh_run_cases (verifies : SporkKey) (events : List SporkEvent) (id : Int32) :
    (SporkState.fresh.run verifies events).mapSporksActive id = none ∧
        (∀ spork, ¬ NewestSpork verifies (sporkMessages events) id spork) ∨
      ∃ spork, (SporkState.fresh.run verifies events).mapSporksActive id = some spork ∧
        NewestSpork verifies (sporkMessages events) id spork := by
  rw [SporkState.fresh_run]
  rcases LatestWins.offers_newest (sporkRegister verifies) (fun _ => none)
    (sporkMessages events) id with ⟨settled, same⟩ | ⟨spork, newest, same⟩
  · refine .inl ⟨same, fun spork newest => ?_⟩
    have found := newestSpork_iff.mpr newest
    exact settled spork found.member found.admitted found.key_eq found.fresh
  · exact .inr ⟨spork, same, newestSpork_iff.mp newest⟩

/-- Messages in another order, with restarts elsewhere. -/
def SameSporks (events others : List SporkEvent) : Prop :=
  (sporkMessages others).Perm (sporkMessages events)

theorem sporkMessages_map (sporks : List CSporkMessage) :
    sporkMessages (sporks.map .message) = sporks := by
  induction sporks with
  | nil => rfl
  | cons first rest ih => exact congrArg (first :: ·) ih

theorem sporkRuns_agree_iff {View : Type} {view : CSporkMessage → View}
    {events : List SporkEvent} :
    (∀ others, SameSporks events others → ∀ id,
        ((SporkState.fresh.run verifies others).mapSporksActive id).map view =
          ((SporkState.fresh.run verifies events).mapSporksActive id).map view) ↔
      NewestAgree view verifies (sporkMessages events) := by
  rw [← newestAgree_iff, ← LatestWins.agrees_iff]
  constructor
  · intro agree others order id
    have same := agree (others.map .message) (by rwa [SameSporks, sporkMessages_map]) id
    rwa [SporkState.fresh_run, SporkState.fresh_run, sporkMessages_map] at same
  · intro agree others order id
    rw [SporkState.fresh_run, SporkState.fresh_run]
    exact agree _ order id

theorem sporkValues_agree_iff {events : List SporkEvent} :
    (∀ others, SameSporks events others → ∀ id,
        getSporkValue (SporkState.fresh.run verifies others).mapSporksActive id =
          getSporkValue (SporkState.fresh.run verifies events).mapSporksActive id) ↔
      NewestAgree CSporkMessage.nValue verifies (sporkMessages events) := by
  rw [← sporkRuns_agree_iff]
  refine forall₂_congr fun others order => forall_congr' fun id => ?_
  rcases SporkState.fresh_run_cases verifies others id with
    ⟨absent, nothing⟩ | ⟨spork, found, newest⟩
  · rcases SporkState.fresh_run_cases verifies events id with
      ⟨also, _⟩ | ⟨other, _, newest⟩
    · simp [getSporkValue, absent, also]
    · have member := order.mem_iff.mpr newest.member
      exact absurd ⟨member, newest.signed, newest.named, newest.id_eq,
        fun entry here => newest.newest entry (order.mem_iff.mp here)⟩ (nothing other)
  · rcases SporkState.fresh_run_cases verifies events id with
      ⟨_, nothing⟩ | ⟨other, also, _⟩
    · have member := order.mem_iff.mp newest.member
      exact absurd ⟨member, newest.signed, newest.named, newest.id_eq,
        fun entry here => newest.newest entry (order.mem_iff.mpr here)⟩ (nothing spork)
    · simp [getSporkValue, found, also]

/-- **Sporks in any order.** After every run of messages and restarts a spork has one of
its newest correctly signed messages, or none when there is none. Runs over the same messages
end with the same active sporks exactly when no spork has two different newest messages, and
with the same values exactly when no spork has newest messages with different values. Messages
that come more than once change nothing. -/
theorem sporks_converge (verifies : SporkKey) (events : List SporkEvent) :
    (∀ id, match (SporkState.fresh.run verifies events).mapSporksActive id with
      | some spork => NewestSpork verifies (sporkMessages events) id spork
      | none => ∀ spork, ¬ NewestSpork verifies (sporkMessages events) id spork) ∧
    ((∀ others, SameSporks events others →
        (SporkState.fresh.run verifies others).mapSporksActive =
          (SporkState.fresh.run verifies events).mapSporksActive) ↔
      NewestAgree id verifies (sporkMessages events)) ∧
    ((∀ others, SameSporks events others → ∀ id,
        getSporkValue (SporkState.fresh.run verifies others).mapSporksActive id =
          getSporkValue (SporkState.fresh.run verifies events).mapSporksActive id) ↔
      NewestAgree CSporkMessage.nValue verifies (sporkMessages events)) ∧
    (NewestAgree id verifies (sporkMessages events) → ∀ others,
      (∀ spork, spork ∈ sporkMessages events ↔ spork ∈ sporkMessages others) →
      (SporkState.fresh.run verifies others).mapSporksActive =
        (SporkState.fresh.run verifies events).mapSporksActive) := by
  refine ⟨fun id => ?_, ?_, sporkValues_agree_iff, fun clear others same => ?_⟩
  · rcases SporkState.fresh_run_cases verifies events id with
      ⟨absent, nothing⟩ | ⟨spork, found, newest⟩
    · rw [absent]
      exact nothing
    · rw [found]
      exact newest
  · rw [← sporkRuns_agree_iff]
    refine forall₂_congr fun others order => ?_
    simp only [Option.map_id, id_eq, funext_iff]
  · funext id
    rw [SporkState.fresh_run, SporkState.fresh_run]
    simpa only [Option.map_id, id_eq] using
      LatestWins.agrees_of_unambiguous (newestAgree_iff.mpr clear) same id

end

namespace TiedSporks

/-! Two messages about budget enforcement that were signed in one second. -/

def off : CSporkMessage :=
  { vchSig := [1], nSporkID := 10008, nValue := 4070908800, nTimeSigned := 1500000000 }

def on : CSporkMessage :=
  { vchSig := [2], nSporkID := 10008, nValue := 1424217600, nTimeSigned := 1500000000 }

def key : SporkKey := fun vchSig message =>
  decide (vchSig = off.vchSig ∧ message = off.signedString) ||
    decide (vchSig = on.vchSig ∧ message = on.signedString)

end TiedSporks

/-- Two correctly signed messages with one time: the node keeps the one that comes first, and
nodes that see them in different orders have different rules. -/
theorem tiedSporks_disagree :
    checkSporkSignature TiedSporks.key TiedSporks.off = true ∧
      checkSporkSignature TiedSporks.key TiedSporks.on = true ∧
      processSporks TiedSporks.key false true (fun _ => none) [TiedSporks.off, TiedSporks.on]
          10008 = some TiedSporks.off ∧
      processSporks TiedSporks.key false true (fun _ => none) [TiedSporks.on, TiedSporks.off]
          10008 = some TiedSporks.on ∧
      isSporkActive (processSporks TiedSporks.key false true (fun _ => none)
        [TiedSporks.off, TiedSporks.on]) 10008 1500000001 = false ∧
      isSporkActive (processSporks TiedSporks.key false true (fun _ => none)
        [TiedSporks.on, TiedSporks.off]) 10008 1500000001 = true :=
  ⟨by decide, by decide, by decide, by decide, by decide, by decide⟩

end Agouti
