import Agouti.Masternode.Broadcast

/-! # Masternode messages

`CMasternodeMan::ProcessMessage` for `mnb`, `mnp` and `mnipupdate` messages, and runs of them. The
messages seen are recorded in front of every check, under hashes of a few of their fields, and are
read nowhere else: two states that differ in the record of one hash treat every message with another
hash alike (`Alike.processMessage`).
-/

namespace Agouti

open Function

def MIN_MNIP_UPDATE_PROTO_VERSION : Int := 70052

/-- The messages about masternodes; an `mnipupdate` comes with the version of the peer. -/
inductive MasternodeMessage
  | mnb (mnb : CMasternodeBroadcast)
  | mnp (mnp : CMasternodePing)
  | mnipupdate (nVersion : Int) (mnip : CMasternodeIPUpdate)

namespace MasternodeMessage

def mnbHash [Crypto] : MasternodeMessage → Option Uint256
  | .mnb broadcast => some broadcast.getHash
  | .mnp _ | .mnipupdate _ _ => none

def mnpHash [Crypto] : MasternodeMessage → Option Uint256
  | .mnp ping => some ping.getHash
  | .mnb _ | .mnipupdate _ _ => none

end MasternodeMessage

namespace CMasternodeMan

def updateLatestIPUpdate [Crypto] (man : CMasternodeMan) (mnip : CMasternodeIPUpdate) :
    CMasternodeMan :=
  let newest := ((man.mapLatestMasternodeIPUpdate mnip.vin.prevout).map
    fun latest => decide (latest.sigTime < mnip.sigTime)).getD true
  { man with
    mapLatestMasternodeIPUpdate :=
      if newest then Function.update man.mapLatestMasternodeIPUpdate mnip.vin.prevout (some mnip)
      else man.mapLatestMasternodeIPUpdate
    mapSeenMasternodeIPUpdate :=
      Function.update man.mapSeenMasternodeIPUpdate mnip.getHash true }

variable [Crypto] [ChainParams]

/-- `CMasternodeMan::ProcessMessage` for an `mnp` message. -/
def processPing (man : CMasternodeMan) (context : MasternodeContext) (mnp : CMasternodePing) :
    CMasternodeMan :=
  if !context.enabled then man
  else if man.mapSeenMasternodePing mnp.getHash then man
  else ((man.setPingSeen mnp.getHash).pingCheckAndUpdate context mnp true).1

omit [ChainParams] in
/-- `CMasternodeMan::ProcessMessage` for an `mnipupdate` message. -/
def processIPUpdate (man : CMasternodeMan) (context : MasternodeContext) (nVersion : Int)
    (mnip : CMasternodeIPUpdate) : CMasternodeMan :=
  if !context.enabled then man
  else if nVersion < MIN_MNIP_UPDATE_PROTO_VERSION then man
  else if man.mapSeenMasternodeIPUpdate mnip.getHash then man
  else
    match man.ipUpdateCheckAndUpdate context mnip with
    | (man, false) => man
    | (man, true) => man.updateLatestIPUpdate mnip

def processMessage (man : CMasternodeMan) (context : MasternodeContext) :
    MasternodeMessage → CMasternodeMan
  | .mnb mnb => man.processBroadcast context mnb
  | .mnp mnp => man.processPing context mnp
  | .mnipupdate nVersion mnip => man.processIPUpdate context nVersion mnip

/-- The state after a sequence of messages, each with what the node knows when it comes. -/
def receive (man : CMasternodeMan) (messages : List (MasternodeContext × MasternodeMessage)) :
    CMasternodeMan :=
  messages.foldl (fun man message => man.processMessage message.1 message.2) man

/-! ## What is read of the messages seen -/

/-- Two states that may differ in what is recorded of one broadcast hash and one ping hash. -/
structure Alike (mnbHash mnpHash : Option Uint256) (a b : CMasternodeMan) : Prop where
  list : a.vMasternodes = b.vMasternodes
  own : a.activeMasternode = b.activeMasternode
  seenUpdates : a.mapSeenMasternodeIPUpdate = b.mapSeenMasternodeIPUpdate
  latest : a.mapLatestMasternodeIPUpdate = b.mapLatestMasternodeIPUpdate
  broadcasts : ∀ hash, some hash ≠ mnbHash →
    a.mapSeenMasternodeBroadcast hash = b.mapSeenMasternodeBroadcast hash
  pings : ∀ hash, some hash ≠ mnpHash →
    a.mapSeenMasternodePing hash = b.mapSeenMasternodePing hash

/-- Alike managers and one answer. -/
def AlikeResult (mnbHash mnpHash : Option Uint256) (a b : CMasternodeMan × Bool) : Prop :=
  Alike mnbHash mnpHash a.1 b.1 ∧ a.2 = b.2

section

variable {mnbHash mnpHash : Option Uint256} {a b : CMasternodeMan}

omit [Crypto] [ChainParams] in
theorem AlikeResult.next {first second : CMasternodeMan × Bool}
    {next : CMasternodeMan → CMasternodeMan}
    (goesOn : ∀ {left right}, Alike mnbHash mnpHash left right →
      Alike mnbHash mnpHash (next left) (next right)) :
    AlikeResult mnbHash mnpHash first second → Alike mnbHash mnpHash
      (match first with
        | (man, false) => man
        | (man, true) => next man)
      (match second with
        | (man, false) => man
        | (man, true) => next man) := by
  obtain ⟨left, accepted⟩ := first
  obtain ⟨right, verdict⟩ := second
  rintro ⟨after, same⟩
  obtain rfl : accepted = verdict := same
  cases accepted with
  | false => exact after
  | true => exact goesOn after

variable (alike : Alike mnbHash mnpHash a b) {context : MasternodeContext}
  {mnb : CMasternodeBroadcast}

include alike

omit [Crypto] [ChainParams]

theorem Alike.find (vin : CTxIn) : a.find vin = b.find vin := by
  unfold CMasternodeMan.find
  rw [alike.list]

theorem Alike.withList {list : List CMasternode} :
    Alike mnbHash mnpHash { a with vMasternodes := list } { b with vMasternodes := list } :=
  ⟨rfl, alike.own, alike.seenUpdates, alike.latest, alike.broadcasts, alike.pings⟩

theorem Alike.withOwn {own : CActiveMasternode} :
    Alike mnbHash mnpHash { a with activeMasternode := own }
      { b with activeMasternode := own } :=
  ⟨alike.list, rfl, alike.seenUpdates, alike.latest, alike.broadcasts, alike.pings⟩

theorem Alike.setSeen (hash : Uint256) (seen : Bool) :
    Alike mnbHash mnpHash (a.setSeen hash seen) (b.setSeen hash seen) := by
  refine ⟨alike.list, alike.own, alike.seenUpdates, alike.latest, ?_, alike.pings⟩
  intro other different
  simp only [CMasternodeMan.setSeen, update_apply, alike.broadcasts other different]

theorem Alike.setPingSeen (hash : Uint256) :
    Alike mnbHash mnpHash (a.setPingSeen hash) (b.setPingSeen hash) := by
  refine ⟨alike.list, alike.own, alike.seenUpdates, alike.latest, alike.broadcasts, ?_⟩
  intro other different
  simp only [CMasternodeMan.setPingSeen, update_apply, alike.pings other different]

theorem Alike.change (vin : CTxIn) (update : CMasternode → CMasternode) :
    Alike mnbHash mnpHash (a.change vin update) (b.change vin update) := by
  unfold CMasternodeMan.change
  rw [alike.list]
  exact alike.withList

theorem Alike.removeKnown (vin : CTxIn) :
    Alike mnbHash mnpHash (a.removeKnown vin) (b.removeKnown vin) := by
  unfold CMasternodeMan.removeKnown CMasternodeMan.remove
  rw [alike.find, alike.list]
  split
  · exact alike
  · exact alike.withList

theorem Alike.add (mn : CMasternode) : Alike mnbHash mnpHash (a.add mn) (b.add mn) := by
  unfold CMasternodeMan.add
  rw [alike.find, alike.list]
  split
  · exact alike.withList
  · exact alike

variable (context) in
theorem Alike.ipUpdateCheckAndUpdate (mnip : CMasternodeIPUpdate) :
    AlikeResult mnbHash mnpHash (a.ipUpdateCheckAndUpdate context mnip)
      (b.ipUpdateCheckAndUpdate context mnip) := by
  unfold CMasternodeMan.ipUpdateCheckAndUpdate
  rw [alike.find]
  split
  · exact ⟨alike, rfl⟩
  · split
    · exact ⟨alike, rfl⟩
    · split_ifs
      · exact ⟨alike, rfl⟩
      · exact ⟨alike, rfl⟩
      · exact ⟨alike.change _ _, rfl⟩
      · exact ⟨alike.change _ _, rfl⟩

theorem Alike.applyLatestIPUpdate (vin : CTxIn) :
    Alike mnbHash mnpHash (a.applyLatestIPUpdate context vin)
      (b.applyLatestIPUpdate context vin) := by
  unfold CMasternodeMan.applyLatestIPUpdate
  rw [alike.latest]
  split
  · exact alike
  · exact (alike.ipUpdateCheckAndUpdate _ _).1

end

section

variable {mnbHash mnpHash : Option Uint256} {a b : CMasternodeMan}
  (alike : Alike mnbHash mnpHash a b) {context : MasternodeContext} {mnb : CMasternodeBroadcast}

include alike

omit [ChainParams] in
theorem Alike.updateLatestIPUpdate (mnip : CMasternodeIPUpdate) :
    Alike mnbHash mnpHash (a.updateLatestIPUpdate mnip) (b.updateLatestIPUpdate mnip) := by
  unfold CMasternodeMan.updateLatestIPUpdate
  rw [alike.latest, alike.seenUpdates]
  exact ⟨alike.list, alike.own, rfl, rfl, alike.broadcasts, alike.pings⟩

theorem Alike.pingCheckAndUpdate (ping : CMasternodePing) (fRequireEnabled : Bool) :
    AlikeResult mnbHash mnpHash (a.pingCheckAndUpdate context ping fRequireEnabled)
      (b.pingCheckAndUpdate context ping fRequireEnabled) := by
  unfold CMasternodeMan.pingCheckAndUpdate
  rw [alike.find]
  split
  · exact ⟨alike, rfl⟩
  · split
    · exact ⟨alike, rfl⟩
    · split
      · exact ⟨alike, rfl⟩
      · split_ifs
        · exact ⟨alike, rfl⟩
        · exact ⟨alike, rfl⟩
        · exact ⟨alike, rfl⟩
        · exact ⟨alike, rfl⟩
        · split
          · exact ⟨alike, rfl⟩
          · split
            · exact ⟨alike, rfl⟩
            · refine ⟨alike.change _ _, ?_⟩
              simp only [(alike.change _ _).find]

variable (context mnb) in
theorem Alike.checkLastPing :
    AlikeResult mnbHash mnpHash (a.checkLastPing context mnb) (b.checkLastPing context mnb) := by
  unfold CMasternodeMan.checkLastPing
  split
  · exact ⟨alike, rfl⟩
  · exact alike.pingCheckAndUpdate _ _

theorem Alike.updateFromNewBroadcast :
    Alike mnbHash mnpHash (a.updateFromNewBroadcast context mnb)
      (b.updateFromNewBroadcast context mnb) := by
  have checked := (alike.change mnb.vin (renew mnb)).checkLastPing context mnb
  unfold CMasternodeMan.updateFromNewBroadcast
  exact checked.next fun after => (after.change _ _).setPingSeen _

variable (context mnb) in
theorem Alike.checkAndUpdate :
    AlikeResult mnbHash mnpHash (a.checkAndUpdate context mnb) (b.checkAndUpdate context mnb) := by
  unfold CMasternodeMan.checkAndUpdate
  rw [alike.find]
  split
  · exact ⟨alike, rfl⟩
  · split
    · exact ⟨alike, rfl⟩
    · split_ifs
      · exact ⟨alike, rfl⟩
      · exact ⟨alike, rfl⟩
      · exact ⟨alike.updateFromNewBroadcast.change _ _, rfl⟩
      · exact ⟨alike, rfl⟩
      · exact ⟨alike, rfl⟩

omit [ChainParams] in
theorem Alike.pickUpSignOver :
    Alike mnbHash mnpHash (a.pickUpSignOver mnb) (b.pickUpSignOver mnb) := by
  unfold CMasternodeMan.pickUpSignOver
  rw [alike.own]
  dsimp only
  split
  · exact alike.withOwn
  · exact alike

omit [Crypto] [ChainParams] in
theorem Alike.isOwnKey : a.isOwnKey mnb = b.isOwnKey mnb := by
  unfold CMasternodeMan.isOwnKey
  rw [alike.own]

omit [ChainParams] in
theorem Alike.addBroadcast :
    Alike mnbHash mnpHash (a.addBroadcast context mnb) (b.addBroadcast context mnb) := by
  have added := alike.add (.ofBroadcast mnb)
  unfold CMasternodeMan.addBroadcast
  dsimp only
  rw [added.isOwnKey]
  split
  · split
    · rw [added.own]
      exact added.withOwn.pickUpSignOver
    · exact added.pickUpSignOver
  · exact added

variable (context mnb) in
theorem Alike.checkInputsAndAdd :
    AlikeResult mnbHash mnpHash (a.checkInputsAndAdd context mnb)
      (b.checkInputsAndAdd context mnb) := by
  unfold CMasternodeMan.checkInputsAndAdd
  rw [alike.own, alike.isOwnKey, alike.find]
  dsimp only
  split
  · exact ⟨alike.pickUpSignOver, rfl⟩
  · split
    · have signed := alike.change mnb.vin fun mn =>
        if mn.vchSignover == [] then { mn with vchSignover := mnb.vchSignover } else mn
      rw [signed.isOwnKey]
      split
      · exact ⟨signed.pickUpSignOver, rfl⟩
      · exact ⟨signed, rfl⟩
    · have removed := alike.removeKnown mnb.vin
      split
      · exact ⟨removed.setSeen _ _, rfl⟩
      · split
        · exact ⟨removed, rfl⟩
        · split_ifs
          · exact ⟨removed.setSeen _ _, rfl⟩
          · exact ⟨removed, rfl⟩
          · exact ⟨removed.addBroadcast, rfl⟩

theorem Alike.acceptBroadcast :
    Alike mnbHash mnpHash (a.acceptBroadcast context mnb) (b.acceptBroadcast context mnb) := by
  have checked := alike.checkInputsAndAdd context mnb
  unfold CMasternodeMan.acceptBroadcast
  exact checked.next fun after => after.applyLatestIPUpdate _

theorem Alike.processBroadcast (different : some mnb.getHash ≠ mnbHash) :
    Alike mnbHash mnpHash (a.processBroadcast context mnb) (b.processBroadcast context mnb) := by
  have checked := (alike.setSeen mnb.getHash true).checkAndUpdate context mnb
  unfold CMasternodeMan.processBroadcast
  rw [alike.broadcasts _ different]
  split
  · exact alike
  · split
    · exact alike
    · apply checked.next
      intro left right after
      split
      · exact Alike.acceptBroadcast after
      · exact after

theorem Alike.processPing {mnp : CMasternodePing} (different : some mnp.getHash ≠ mnpHash) :
    Alike mnbHash mnpHash (a.processPing context mnp) (b.processPing context mnp) := by
  unfold CMasternodeMan.processPing
  rw [alike.pings _ different]
  split
  · exact alike
  · split
    · exact alike
    · exact ((alike.setPingSeen _).pingCheckAndUpdate _ _).1

omit [ChainParams] in
theorem Alike.processIPUpdate (nVersion : Int) (mnip : CMasternodeIPUpdate) :
    Alike mnbHash mnpHash (a.processIPUpdate context nVersion mnip)
      (b.processIPUpdate context nVersion mnip) := by
  have checked := alike.ipUpdateCheckAndUpdate context mnip
  unfold CMasternodeMan.processIPUpdate
  rw [alike.seenUpdates]
  split
  · exact alike
  · split
    · exact alike
    · split
      · exact alike
      · exact checked.next fun after => after.updateLatestIPUpdate _

end

theorem Alike.processMessage {first second : Option Uint256} {a b : CMasternodeMan}
    (alike : Alike first second a b) (context : MasternodeContext) (message : MasternodeMessage)
    (other : ∀ hash, message.mnbHash = some hash → some hash ≠ first)
    (ping : ∀ hash, message.mnpHash = some hash → some hash ≠ second) :
    Alike first second (a.processMessage context message) (b.processMessage context message) := by
  cases message with
  | mnb mnb => exact alike.processBroadcast (other mnb.getHash rfl)
  | mnp mnp => exact alike.processPing (ping mnp.getHash rfl)
  | mnipupdate nVersion mnip => exact alike.processIPUpdate nVersion mnip

theorem Alike.receive {first second : Option Uint256} {a b : CMasternodeMan}
    (alike : Alike first second a b) (messages : List (MasternodeContext × MasternodeMessage))
    (others : ∀ message ∈ messages,
      (∀ hash, message.2.mnbHash = some hash → some hash ≠ first) ∧
        ∀ hash, message.2.mnpHash = some hash → some hash ≠ second) :
    Alike first second (a.receive messages) (b.receive messages) := by
  induction messages generalizing a b with
  | nil => exact alike
  | cons message rest ih =>
    have here := others message List.mem_cons_self
    have next := alike.processMessage message.1 message.2 here.1 here.2
    exact ih next fun later member => others later (List.mem_cons_of_mem message member)

end CMasternodeMan

end Agouti
