import Agouti.Masternode.Shadowing

/-! # What the entries of the masternode list were signed for

The signature of a broadcast covers its address, its signing time, its keys and its protocol
version, neither the outpoint nor the sign-over nor the last ping. These are copied into the list by
three paths: a new entry, the replacement by a newer broadcast, and a sign-over for an entry that has
none. Where each path is taken by broadcasts that are as their signer made them (`Faithful`), every
entry is backed by a broadcast that was signed for its outpoint, a valid sign-over and a ping of its
own key (`receive_genuine`); where not, an altered message is listed (`receive_altered`).
-/

namespace Agouti

open List Option

namespace CMasternodeMan

/-! ## Entries -/

def outpoint (mn : CMasternode) : COutPoint := mn.vin.prevout

/-- No two entries have one outpoint. -/
def Distinct (man : CMasternodeMan) : Prop := (man.vMasternodes.map outpoint).Nodup

section

variable {vin : CTxIn} {update : CMasternode → CMasternode}

variable {mn : CMasternode}

theorem isAt_iff : isAt vin mn = true ↔ outpoint mn = vin.prevout :=
  beq_iff_eq

theorem mem_replaceF {list : List CMasternode} (distinct : (list.map outpoint).Nodup)
    (member : mn ∈ list.replaceF fun mn => if isAt vin mn then some (update mn) else none) :
    (∃ old, list.find? (isAt vin) = some old ∧ mn = update old) ∨
      (mn ∈ list ∧ outpoint mn ≠ vin.prevout) := by
  induction list with
  | nil => cases member
  | cons first rest ih =>
    rw [map_cons, nodup_cons] at distinct
    rw [replaceF_cons] at member
    by_cases here : isAt vin first = true
    · rw [if_pos here] at member
      rcases mem_cons.mp member with rfl | later
      · exact .inl ⟨first, List.find?_cons_of_pos here, rfl⟩
      · refine .inr ⟨mem_cons_of_mem first later, fun same => distinct.1 ?_⟩
        rw [isAt_iff.mp here, ← same]
        exact mem_map_of_mem later
    · rw [if_neg here] at member
      rcases mem_cons.mp member with rfl | later
      · exact .inr ⟨mem_cons_self, fun same => here (isAt_iff.mpr same)⟩
      · rcases ih distinct.2 later with ⟨old, found, changed⟩ | ⟨there, apart⟩
        · refine .inl ⟨old, ?_, changed⟩
          rw [List.find?_cons_of_neg here]
          exact found
        · exact .inr ⟨mem_cons_of_mem first there, apart⟩

theorem map_outpoint_replaceF (keeps : ∀ mn, (update mn).vin = mn.vin)
    (list : List CMasternode) :
    (list.replaceF fun mn => if isAt vin mn then some (update mn) else none).map outpoint =
      list.map outpoint := by
  induction list with
  | nil => rfl
  | cons first rest ih =>
    rw [replaceF_cons]
    by_cases here : isAt vin first = true
    · rw [if_pos here, map_cons, map_cons, outpoint, keeps, outpoint]
    · rw [if_neg here, map_cons, map_cons, ih]

variable {man : CMasternodeMan}

theorem Distinct.change (distinct : man.Distinct) (keeps : ∀ mn, (update mn).vin = mn.vin) :
    (man.change vin update).Distinct := by
  unfold Distinct CMasternodeMan.change
  rw [map_outpoint_replaceF keeps]
  exact distinct

theorem Distinct.mem_change (distinct : man.Distinct)
    (member : mn ∈ (man.change vin update).vMasternodes) :
    (∃ old, man.find vin = some old ∧ mn = update old) ∨
      (mn ∈ man.vMasternodes ∧ outpoint mn ≠ vin.prevout) :=
  mem_replaceF distinct member

variable (vin update) in
theorem Distinct.forall_change (distinct : man.Distinct) {good : CMasternode → Prop}
    (all : ∀ mn ∈ man.vMasternodes, good mn)
    (keeps : ∀ mn, man.find vin = some mn → good mn → good (update mn)) :
    ∀ mn ∈ (man.change vin update).vMasternodes, good mn := by
  intro mn member
  rcases distinct.mem_change member with ⟨old, found, rfl⟩ | ⟨there, _⟩
  · exact keeps old found (all old (List.mem_of_find?_eq_some found))
  · exact all mn there

theorem Distinct.removeKnown (distinct : man.Distinct) : (man.removeKnown vin).Distinct := by
  unfold CMasternodeMan.removeKnown
  split
  · exact distinct
  · exact List.Nodup.sublist (List.Sublist.map outpoint eraseP_sublist) distinct

theorem mem_removeKnown (member : mn ∈ (man.removeKnown vin).vMasternodes) :
    mn ∈ man.vMasternodes := by
  unfold CMasternodeMan.removeKnown at member
  split at member
  · exact member
  · exact mem_of_mem_eraseP member

theorem Distinct.add (distinct : man.Distinct) (mn : CMasternode) : (man.add mn).Distinct := by
  unfold CMasternodeMan.add
  split
  · rename_i fresh
    rw [Bool.and_eq_true, isNone_iff_eq_none] at fresh
    unfold Distinct
    rw [map_append, nodup_append]
    refine ⟨distinct, nodup_singleton _, ?_⟩
    intro out there other last same
    obtain ⟨known, member, rfl⟩ := mem_map.mp there
    obtain rfl := mem_singleton.mp last
    exact List.find?_eq_none.mp fresh.2 known member (isAt_iff.mpr same)
  · exact distinct

theorem mem_add {other : CMasternode} (member : other ∈ (man.add mn).vMasternodes) :
    other ∈ man.vMasternodes ∨ other = mn := by
  unfold CMasternodeMan.add at member
  split at member
  · rcases mem_append.mp member with there | last
    · exact .inl there
    · exact .inr (mem_singleton.mp last)
  · exact .inl member

end

/-! ## What an entry was signed for -/

section

variable [Crypto]

/-- A sign-over is signed with the collateral key. -/
def SignOverValid (mn : CMasternode) : Prop :=
  mn.vchSignover = [] ∨
    ({ StakePointer.null with
        pubKeyCollateral := mn.pubKeyCollateralAddress
        pubKeyProofOfStake := mn.pubKeyMasternode
        vchSigCollateralSignOver := mn.vchSignover }).verifyCollateralSignOver = true

/-- The entry has the identity, keys, version and time of a signed broadcast. -/
def SignedFor (signed : CMasternodeBroadcast → Prop) (mn : CMasternode) : Prop :=
  ∃ made, signed made ∧ made.vin.prevout = outpoint mn ∧
    made.pubKeyCollateralAddress = mn.pubKeyCollateralAddress ∧
    made.pubKeyMasternode = mn.pubKeyMasternode ∧ made.protocolVersion = mn.protocolVersion ∧
    made.sigTime = mn.sigTime

variable (signed : CMasternodeBroadcast → Prop) (holds : COutPoint → Uint160 → Prop)
  (pingSigned : CPubKey → CMasternodePing → Bool)

/-- An entry is backed by a signed broadcast for its outpoint, whose key the outpoint pays, and by a
sign-over. -/
structure Announced (mn : CMasternode) : Prop where
  signedFor : SignedFor signed mn
  held : holds (outpoint mn) mn.pubKeyCollateralAddress.getID
  signOver : SignOverValid mn

/-- The last ping is signed with the masternode key. -/
def Pinged (mn : CMasternode) : Prop := pingSigned mn.pubKeyMasternode mn.lastPing = true

/-- What the list promises of an entry. -/
def Genuine (mn : CMasternode) : Prop := Announced signed holds mn ∧ Pinged pingSigned mn

/-- A list of such entries. -/
structure Sound (man : CMasternodeMan) : Prop where
  distinct : man.Distinct
  genuine : ∀ mn ∈ man.vMasternodes, Genuine signed holds pingSigned mn

end

section

variable [Crypto] [ChainParams]

/-- The checks of a ping in front of the change of the entry. -/
def pingPasses (context : MasternodeContext) (man : CMasternodeMan) (ping : CMasternodePing) :
    Bool :=
  decide (ping.sigTime ≤ context.adjustedTime + 60 * 60) &&
    decide (context.adjustedTime - 60 * 60 < ping.sigTime) &&
    (man.find ping.vin).any fun pmn =>
      decide (context.minPaymentsProto ≤ pmn.protocolVersion) &&
        !pmn.isPingedWithin (MASTERNODE_MIN_MNP_SECONDS - 60) ping.sigTime &&
        context.pingSigned pmn.pubKeyMasternode ping &&
        (context.node.mapBlockIndex ping.blockHash).any fun pindex =>
          decide (context.node.height - 24 ≤ pindex.nHeight)

theorem pingCheckAndUpdate_passes {context : MasternodeContext} {man : CMasternodeMan}
    {ping : CMasternodePing} (passes : pingPasses context man ping = true) :
    (man.pingCheckAndUpdate context ping false).1 = man.withPing context ping := by
  unfold pingPasses at passes
  unfold pingCheckAndUpdate withPing
  cases found : man.find ping.vin with
  | none => simp [found] at passes
  | some pmn =>
    simp only [found, any_some, Bool.and_eq_true, decide_eq_true_eq,
      Bool.not_eq_true'] at passes
    obtain ⟨⟨early, late⟩, ⟨⟨version, fresh⟩, signed⟩, recent⟩ := passes
    obtain ⟨pindex, known, recent⟩ := (Option.any_eq_true _ _).mp recent
    have height := of_decide_eq_true recent
    rw [if_neg (by omega), if_neg (by omega)]
    dsimp only
    rw [if_neg (by omega), fresh, signed, known]
    simp only [Bool.false_and, Bool.false_eq_true, if_false, Bool.not_true]
    rw [if_neg (by omega)]

omit [Crypto] [ChainParams] in
theorem pingPasses_signed {context : MasternodeContext} {man : CMasternodeMan}
    {ping : CMasternodePing} (passes : pingPasses context man ping = true) {pmn : CMasternode}
    (found : man.find ping.vin = some pmn) :
    context.pingSigned pmn.pubKeyMasternode ping = true := by
  simp only [pingPasses, found, any_some, Bool.and_eq_true] at passes
  exact passes.2.1.2

/-! ## Pings and IP updates -/

section

variable {signed : CMasternodeBroadcast → Prop} {holds : COutPoint → Uint160 → Prop}
  {pingSigned : CPubKey → CMasternodePing → Bool} {man : CMasternodeMan}
  {context : MasternodeContext} {mnb : CMasternodeBroadcast}

theorem Distinct.withPing (distinct : man.Distinct) (ping : CMasternodePing) :
    (man.withPing context ping).Distinct := by
  apply distinct.change
  intro mn
  obtain ⟨time, state, same⟩ := check_eq context true { mn with lastPing := ping }
  rw [same]

variable (context) in
theorem Distinct.forall_ping (distinct : man.Distinct) {good : CMasternode → Prop}
    (ping : CMasternodePing) (fRequireEnabled : Bool)
    (all : ∀ mn ∈ man.vMasternodes, good mn)
    (keeps : ∀ mn, context.pingSigned mn.pubKeyMasternode ping = true → good mn →
      ∀ time state, good
        { mn with
          lastPing := ping
          lastTimeChecked := time
          activeState := state }) :
    (man.pingCheckAndUpdate context ping fRequireEnabled).1.Distinct ∧
      ∀ mn ∈ (man.pingCheckAndUpdate context ping fRequireEnabled).1.vMasternodes, good mn := by
  rcases pingCheckAndUpdate_cases context man ping fRequireEnabled with same | ⟨pinged, verified⟩
  · rw [same]
    exact ⟨distinct, all⟩
  · rw [pinged]
    refine ⟨distinct.withPing ping, distinct.forall_change _ _ all fun mn found before => ?_⟩
    obtain ⟨time, state, same⟩ := check_eq context true { mn with lastPing := ping }
    rw [same]
    exact keeps mn (verified mn found) before time state

theorem Sound.ping (sound : Sound signed holds pingSigned man)
    (agrees : context.pingSigned = pingSigned) (ping : CMasternodePing) (fRequireEnabled : Bool) :
    Sound signed holds pingSigned (man.pingCheckAndUpdate context ping fRequireEnabled).1 := by
  have kept := sound.distinct.forall_ping context ping fRequireEnabled
    sound.genuine ?_
  · exact ⟨kept.1, kept.2⟩
  · intro mn verified before time state
    rw [agrees] at verified
    obtain ⟨signedFor, held, signOver⟩ := before.1
    exact ⟨⟨signedFor, held, signOver⟩, verified⟩

omit [ChainParams] in
variable (context) in
theorem Sound.ipUpdate (sound : Sound signed holds pingSigned man) (mnip : CMasternodeIPUpdate) :
    Sound signed holds pingSigned (man.ipUpdateCheckAndUpdate context mnip).1 := by
  have changed : ∀ update : CMasternode → CMasternode,
      (∀ mn, ∃ addr time, update mn =
        { mn with
          addr := addr
          nLastIPUpdateTime := time }) →
      Sound signed holds pingSigned (man.change mnip.vin update) := by
    intro update moves
    constructor
    · apply sound.distinct.change
      intro mn
      obtain ⟨addr, time, same⟩ := moves mn
      rw [same]
    · apply sound.distinct.forall_change _ _ sound.genuine
      intro mn _ before
      obtain ⟨addr, time, same⟩ := moves mn
      obtain ⟨⟨signedFor, held, signOver⟩, pinged⟩ := before
      rw [same]
      exact ⟨⟨signedFor, held, signOver⟩, pinged⟩
  unfold ipUpdateCheckAndUpdate
  split
  · exact sound
  · split
    · exact sound
    · split_ifs
      · exact sound
      · exact sound
      · exact changed _ fun mn => ⟨mnip.addr, mn.nLastIPUpdateTime, rfl⟩
      · exact changed _ fun mn => ⟨mnip.addr, mnip.sigTime, rfl⟩

/-! ## Broadcasts -/

/-- A broadcast as its signer made it: it names an outpoint that it was signed for and whose own
output pays the key, its sign-over is valid and its last ping is of its masternode key. -/
structure AsMade (signed : CMasternodeBroadcast → Prop)
    (pingSigned : CPubKey → CMasternodePing → Bool) (context : MasternodeContext)
    (mnb : CMasternodeBroadcast) : Prop where
  signedFor : SignedFor signed mnb.toCMasternode
  owner : NoOtherCollateral context mnb.vin.prevout mnb.pubKeyCollateralAddress
  signOver : SignOverValid mnb.toCMasternode
  pinged : Pinged pingSigned mnb.toCMasternode

/-- The broadcast replaces an entry that is enabled. -/
def replaces (context : MasternodeContext) (mnb : CMasternodeBroadcast) (pmn : CMasternode) :
    Bool :=
  pmn.pubKeyCollateralAddress.same mnb.pubKeyCollateralAddress &&
    !pmn.isBroadcastedWithin context.adjustedTime MASTERNODE_MIN_MNB_SECONDS &&
    decide (pmn.sigTime < mnb.sigTime)

/-- The paths by which a broadcast comes into the list are taken as its signer meant: what is taken
over as a whole is as made, a new masternode key comes with a ping that is stored or the old ping is
of the new key, and a sign-over that is added to an entry is valid for its keys. -/
structure Faithful (signed : CMasternodeBroadcast → Prop)
    (pingSigned : CPubKey → CMasternodePing → Bool) (context : MasternodeContext)
    (man : CMasternodeMan) (mnb : CMasternodeBroadcast) : Prop where
  taken : (∀ pmn, man.find mnb.vin = some pmn → pmn.isEnabled = true →
      replaces context mnb pmn = true) → AsMade signed pingSigned context mnb
  replaced : ∀ pmn, man.find mnb.vin = some pmn → pmn.isEnabled = true →
    replaces context mnb pmn = true → pingSigned mnb.pubKeyMasternode pmn.lastPing = true ∨
      ((man.change mnb.vin (renew mnb)).checkLastPing context mnb).2 = true ∨
      (mnb.lastPing.vin.prevout = mnb.vin.prevout ∧ mnb.lastPing.same {} = false ∧
        pingPasses context (man.change mnb.vin (renew mnb)) mnb.lastPing = true)
  copied : ∀ pmn, man.find mnb.vin = some pmn → pmn.isEnabled = true →
    replaces context mnb pmn = false → pmn.vchSignover = [] →
      SignOverValid { pmn with vchSignover := mnb.vchSignover }

omit [Crypto] [ChainParams] in
theorem getID_of_same [Crypto] {a b : CPubKey} (same : a.same b = true) : a.getID = b.getID := by
  simp only [CPubKey.same, Bool.and_eq_true, beq_iff_eq] at same
  unfold CPubKey.getID
  rw [same.2]

theorem Sound.updateFromNewBroadcast (sound : Sound signed holds pingSigned man)
    (agrees : context.pingSigned = pingSigned) {old : CMasternode}
    (found : man.find mnb.vin = some old) (asMade : AsMade signed pingSigned context mnb)
    (sameKey : old.pubKeyCollateralAddress.same mnb.pubKeyCollateralAddress = true)
    (replaced : pingSigned mnb.pubKeyMasternode old.lastPing = true ∨
      ((man.change mnb.vin (renew mnb)).checkLastPing context mnb).2 = true ∨
      (mnb.lastPing.vin.prevout = mnb.vin.prevout ∧ mnb.lastPing.same {} = false ∧
        pingPasses context (man.change mnb.vin (renew mnb)) mnb.lastPing = true)) :
    Sound signed holds pingSigned (man.updateFromNewBroadcast context mnb) ∧
      ∀ mn ∈ (man.updateFromNewBroadcast context mnb).vMasternodes,
        outpoint mn = mnb.vin.prevout → mn.vchSignover = mnb.vchSignover := by
  have here : outpoint old = mnb.vin.prevout := isAt_iff.mp (List.find?_some found)
  have before := (sound.genuine old (List.mem_of_find?_eq_some found)).1
  -- the entry of the outpoint may have a ping of the old key for the time being
  let good : CMasternode → Prop := fun mn => Announced signed holds mn ∧
    (outpoint mn ≠ mnb.vin.prevout → Pinged pingSigned mn) ∧
    (outpoint mn = mnb.vin.prevout → mn.pubKeyMasternode = mnb.pubKeyMasternode ∧
      mn.vchSignover = mnb.vchSignover ∧ (mn.lastPing = old.lastPing ∨ Pinged pingSigned mn))
  have renewed : (man.change mnb.vin (renew mnb)).Distinct := sound.distinct.change fun _ => rfl
  have goods : ∀ mn ∈ (man.change mnb.vin (renew mnb)).vMasternodes, good mn := by
    intro mn member
    rcases sound.distinct.mem_change member with ⟨other, there, rfl⟩ | ⟨there, apart⟩
    · obtain rfl := some.inj (found.symm.trans there)
      refine ⟨⟨?_, ?_, asMade.signOver⟩, fun apart => absurd here apart,
        fun _ => ⟨rfl, rfl, .inl rfl⟩⟩
      · obtain ⟨made, isSigned, out, fields⟩ := asMade.signedFor
        exact ⟨made, isSigned, out.trans here.symm, fields⟩
      · have held := before.held
        rw [getID_of_same sameKey] at held
        exact held
    · obtain ⟨announced, pinged⟩ := sound.genuine mn there
      exact ⟨announced, fun _ => pinged, fun same => absurd same apart⟩
  have pinged : ((man.change mnb.vin (renew mnb)).checkLastPing context mnb).1.Distinct ∧
      ∀ mn ∈ ((man.change mnb.vin (renew mnb)).checkLastPing context mnb).1.vMasternodes,
        good mn := by
    unfold checkLastPing
    split
    · exact ⟨renewed, goods⟩
    · apply renewed.forall_ping context mnb.lastPing false goods
      intro mn verified was time state
      rw [agrees] at verified
      obtain ⟨⟨signedFor, held, signOver⟩, apart, same⟩ := was
      exact ⟨⟨signedFor, held, signOver⟩, fun _ => verified,
        fun at_ => ⟨(same at_).1, (same at_).2.1, .inr verified⟩⟩
  have stored : mnb.lastPing.vin.prevout = mnb.vin.prevout → mnb.lastPing.same {} = false →
      pingPasses context (man.change mnb.vin (renew mnb)) mnb.lastPing = true →
      ∀ mn ∈ ((man.change mnb.vin (renew mnb)).checkLastPing context mnb).1.vMasternodes,
        outpoint mn = mnb.vin.prevout → Pinged pingSigned mn := by
    intro own filled passes mn member at_
    rw [checkLastPing, filled, if_neg Bool.false_ne_true, pingCheckAndUpdate_passes passes]
      at member
    rcases renewed.mem_change member with ⟨other, there, rfl⟩ | ⟨_, apart⟩
    · have verified := pingPasses_signed passes there
      rw [agrees] at verified
      obtain ⟨time, state, same⟩ := check_eq context true { other with lastPing := mnb.lastPing }
      rw [same]
      exact verified
    · exact absurd (at_.trans own.symm) apart
  unfold CMasternodeMan.updateFromNewBroadcast
  generalize checked : (man.change mnb.vin (renew mnb)).checkLastPing context mnb = result
    at pinged replaced stored
  obtain ⟨after, accepted⟩ := result
  obtain ⟨distinct, all⟩ := pinged
  cases accepted with
  | false =>
    refine ⟨⟨distinct, fun mn member => ?_⟩, fun mn member at_ => ((all mn member).2.2 at_).2.1⟩
    obtain ⟨announced, apart, same⟩ := all mn member
    refine ⟨announced, ?_⟩
    by_cases at_ : outpoint mn = mnb.vin.prevout
    · obtain ⟨key, _, kept | fine⟩ := same at_
      · rcases replaced with oldPing | contra | ⟨own, filled, passes⟩
        · unfold Pinged
          rw [key, kept]
          exact oldPing
        · cases contra
        · exact stored own filled passes mn member at_
      · exact fine
    · exact apart at_
  | true =>
    have final : ∀ mn ∈ (after.change mnb.vin fun mn =>
        { mn with lastPing := mnb.lastPing }).vMasternodes,
        Genuine signed holds pingSigned mn ∧
          (outpoint mn = mnb.vin.prevout → mn.vchSignover = mnb.vchSignover) := by
      intro mn member
      rcases distinct.mem_change member with ⟨other, there, rfl⟩ | ⟨there, apart⟩
      · have at_ : outpoint other = mnb.vin.prevout := isAt_iff.mp (List.find?_some there)
        obtain ⟨⟨signedFor, held, signOver⟩, _, same⟩ :=
          all other (List.mem_of_find?_eq_some there)
        obtain ⟨key, withoutOne, _⟩ := same at_
        refine ⟨⟨⟨signedFor, held, signOver⟩, ?_⟩, fun _ => withoutOne⟩
        show pingSigned other.pubKeyMasternode mnb.lastPing = true
        rw [key]
        exact asMade.pinged
      · obtain ⟨announced, fine, _⟩ := all mn there
        exact ⟨⟨announced, fine apart⟩, fun same => absurd same apart⟩
    refine ⟨⟨?_, fun mn member => (final mn member).1⟩, fun mn member => (final mn member).2⟩
    exact distinct.change fun _ => rfl

/-- A broadcast that is looked at: it is valid and not older than the entry. -/
def Considered (context : MasternodeContext) (man : CMasternodeMan) (mnb : CMasternodeBroadcast) :
    Prop :=
  broadcastValid context mnb = true ∧
    ∀ pmn, man.find mnb.vin = some pmn → pmn.sigTime ≤ mnb.sigTime

theorem Sound.checkAndUpdate (sound : Sound signed holds pingSigned man)
    (agrees : context.pingSigned = pingSigned)
    (faithful : Considered context man mnb → Faithful signed pingSigned context man mnb) :
    Sound signed holds pingSigned (man.checkAndUpdate context mnb).1 ∧
      ((man.checkAndUpdate context mnb).2 = true →
        (∀ pmn, (man.checkAndUpdate context mnb).1.find mnb.vin = some pmn →
          pmn.isEnabled = true → pmn.vchSignover = [] →
          SignOverValid { pmn with vchSignover := mnb.vchSignover }) ∧
        ((∀ pmn, (man.checkAndUpdate context mnb).1.find mnb.vin = some pmn →
          pmn.isEnabled = false) → AsMade signed pingSigned context mnb)) := by
  unfold CMasternodeMan.checkAndUpdate
  split
  · exact ⟨sound, fun contra => (nomatch contra)⟩
  · rename_i valid
    rw [Bool.not_eq_true, Bool.not_eq_false'] at valid
    cases found : man.find mnb.vin with
    | none =>
      have made := (faithful ⟨valid, fun pmn there => by
        rw [found] at there
        cases there⟩).taken fun pmn there => by
          rw [found] at there
          cases there
      refine ⟨sound, fun _ => ⟨fun pmn there => ?_, fun _ => made⟩⟩
      rw [found] at there
      cases there
    | some pmn =>
      dsimp only
      split
      · exact ⟨sound, fun contra => (nomatch contra)⟩
      · rename_i newer
        have holds := faithful ⟨valid, fun other there => by
          obtain rfl := some.inj (found.symm.trans there)
          omega⟩
        have only : ∀ other, man.find mnb.vin = some other → other = pmn := fun other there =>
          some.inj (there.symm.trans found)
        split
        · rename_i disabled
          have off : pmn.isEnabled = false := by simpa using disabled
          have made := holds.taken fun other there enabled => by
            rw [only other there, off] at enabled
            cases enabled
          refine ⟨sound, fun _ => ⟨fun other there enabled => ?_, fun _ => made⟩⟩
          rw [only other there, off] at enabled
          cases enabled
        · rename_i enabled
          have on : pmn.isEnabled = true := by simpa using enabled
          have unchanged : replaces context mnb pmn = false →
              (∀ other, man.find mnb.vin = some other → other.isEnabled = true →
                other.vchSignover = [] →
                SignOverValid { other with vchSignover := mnb.vchSignover }) ∧
              ((∀ other, man.find mnb.vin = some other → other.isEnabled = false) →
                AsMade signed pingSigned context mnb) := by
            intro stays
            constructor
            · intro other there _ empty
              obtain rfl := only other there
              exact holds.copied other found on stays empty
            · intro off
              rw [off pmn found] at on
              cases on
          split
          · rename_i matching
            split
            · rename_i later
              have doesReplace : replaces context mnb pmn = true := by
                unfold replaces
                rw [matching, decide_eq_true later]
                rfl
              have made := holds.taken fun other there _ => by
                rw [only other there]
                exact doesReplace
              rw [Bool.and_eq_true] at matching
              obtain ⟨after, signedOver⟩ := sound.updateFromNewBroadcast agrees found made
                matching.1 (holds.replaced pmn found on doesReplace)
              have checked : ∀ mn : CMasternode,
                  (mn.check context false).vin = mn.vin := by
                intro mn
                obtain ⟨time, state, same⟩ := check_eq context false mn
                rw [same]
              refine ⟨⟨after.distinct.change checked, ?_⟩,
                fun _ => ⟨fun other there _ empty => ?_, fun _ => made⟩⟩
              · apply after.distinct.forall_change _ _ after.genuine
                intro mn _ before
                obtain ⟨time, state, same⟩ := check_eq context false mn
                obtain ⟨⟨signedFor, held, signOver⟩, pinged⟩ := before
                rw [same]
                exact ⟨⟨signedFor, held, signOver⟩, pinged⟩
              · have kept := after.distinct.forall_change mnb.vin
                  (CMasternode.check context false) signedOver (by
                    intro mn _ before
                    obtain ⟨time, state, same⟩ := check_eq context false mn
                    rw [same]
                    exact before)
                have none := kept other (List.mem_of_find?_eq_some there)
                  (isAt_iff.mp (List.find?_some there))
                rw [empty] at none
                exact .inl none.symm
            · rename_i same
              refine ⟨sound, fun _ => unchanged ?_⟩
              unfold replaces
              rw [decide_eq_false same, Bool.and_false]
          · rename_i other
            refine ⟨sound, fun _ => unchanged ?_⟩
            unfold replaces
            rw [Bool.not_eq_true] at other
            rw [other, Bool.false_and]

omit [ChainParams] in
theorem pickUpSignOver_list (man : CMasternodeMan) (mnb : CMasternodeBroadcast) :
    (man.pickUpSignOver mnb).vMasternodes = man.vMasternodes := by
  unfold pickUpSignOver
  dsimp only
  split
  · rfl
  · rfl

omit [ChainParams] in
theorem addBroadcast_list (context : MasternodeContext) (man : CMasternodeMan)
    (mnb : CMasternodeBroadcast) :
    (man.addBroadcast context mnb).vMasternodes = (man.add (.ofBroadcast mnb)).vMasternodes := by
  unfold addBroadcast
  dsimp only
  split
  · rw [pickUpSignOver_list]
    split
    · rfl
    · rfl
  · rfl

omit [ChainParams] in
theorem Sound.of_list (sound : Sound signed holds pingSigned man) {other : CMasternodeMan}
    (same : other.vMasternodes = man.vMasternodes) : Sound signed holds pingSigned other := by
  obtain ⟨distinct, genuine⟩ := sound
  constructor
  · unfold Distinct
    rw [same]
    exact distinct
  · rw [same]
    exact genuine

variable (context mnb) in
theorem Sound.checkInputsAndAdd (sound : Sound signed holds pingSigned man)
    (copied : ∀ pmn, man.find mnb.vin = some pmn → pmn.isEnabled = true →
      pmn.vchSignover = [] → SignOverValid { pmn with vchSignover := mnb.vchSignover })
    (added : (∀ pmn, man.find mnb.vin = some pmn → pmn.isEnabled = false) →
      Genuine signed holds pingSigned (.ofBroadcast mnb)) :
    Sound signed holds pingSigned (man.checkInputsAndAdd context mnb).1 := by
  unfold CMasternodeMan.checkInputsAndAdd
  dsimp only
  split
  · exact sound.of_list (pickUpSignOver_list man mnb)
  · split
    · rename_i enabled
      have signedOver : Sound signed holds pingSigned (man.change mnb.vin fun mn =>
          if mn.vchSignover == [] then { mn with vchSignover := mnb.vchSignover } else mn) := by
        constructor
        · apply sound.distinct.change
          intro mn
          split
          · rfl
          · rfl
        · apply sound.distinct.forall_change _ _ sound.genuine
          intro mn there before
          split
          · rename_i empty
            obtain ⟨⟨signedFor, held, _⟩, pinged⟩ := before
            rw [there] at enabled
            have valid := copied mn there enabled (beq_iff_eq.mp empty)
            exact ⟨⟨signedFor, held, valid⟩, pinged⟩
          · exact before
      split
      · exact signedOver.of_list (pickUpSignOver_list _ mnb)
      · exact signedOver
    · rename_i disabled
      have genuine := added fun pmn there => by
        rw [there] at disabled
        exact Bool.eq_false_iff.mpr disabled
      have removed : Sound signed holds pingSigned (man.removeKnown mnb.vin) :=
        ⟨sound.distinct.removeKnown, fun mn member => sound.genuine mn (mem_removeKnown member)⟩
      split
      · exact removed.of_list rfl
      · split
        · exact removed
        · split
          · exact removed.of_list rfl
          · split
            · exact removed
            · have joined : Sound signed holds pingSigned
                  ((man.removeKnown mnb.vin).add (.ofBroadcast mnb)) := by
                refine ⟨removed.distinct.add _, fun mn member => ?_⟩
                rcases mem_add member with there | rfl
                · exact removed.genuine mn there
                · exact genuine
              exact joined.of_list (addBroadcast_list context _ mnb)

/-- One `mnb` message. -/
theorem Sound.processBroadcast (sound : Sound signed holds pingSigned man)
    (agrees : context.pingSigned = pingSigned)
    (owned : ∀ out pubkey, OwnsCollateral context out pubkey → holds out pubkey.getID)
    (faithful : Considered context man mnb → Faithful signed pingSigned context man mnb) :
    Sound signed holds pingSigned (man.processBroadcast context mnb) := by
  have recorded : Sound signed holds pingSigned (man.setSeen mnb.getHash true) :=
    sound.of_list rfl
  have verdict := (((alike_setSeen man mnb.getHash).change mnb.vin (renew mnb)).checkLastPing
    context mnb).2
  have same : Faithful signed pingSigned context man mnb →
      Faithful signed pingSigned context (man.setSeen mnb.getHash true) mnb := by
    rintro ⟨taken, replaced, copied⟩
    refine ⟨taken, fun pmn found enabled replaces => ?_, copied⟩
    rw [verdict]
    exact replaced pmn found enabled replaces
  have checked := recorded.checkAndUpdate agrees fun considered => same (faithful considered)
  unfold CMasternodeMan.processBroadcast
  split
  · exact sound
  · split
    · exact sound
    · generalize (man.setSeen mnb.getHash true).checkAndUpdate context mnb = result at checked ⊢
      obtain ⟨after, accepted⟩ := result
      cases accepted with
      | false => exact checked.1
      | true =>
        obtain ⟨copied, made⟩ := checked.2 rfl
        dsimp only
        split
        · rename_i associated
          have inputs := checked.1.checkInputsAndAdd context mnb copied fun off => by
            obtain ⟨signedFor, owner, signOver, pinged⟩ := made off
            have own := (ownsCollateral_iff context mnb.vin _).mpr owner associated
            exact ⟨⟨signedFor, owned _ _ own, signOver⟩, pinged⟩
          unfold CMasternodeMan.acceptBroadcast
          generalize after.checkInputsAndAdd context mnb = result at inputs ⊢
          obtain ⟨final, verdict⟩ := result
          cases verdict with
          | false => exact inputs
          | true =>
            show Sound signed holds pingSigned (final.applyLatestIPUpdate context mnb.vin)
            unfold CMasternodeMan.applyLatestIPUpdate
            split
            · exact inputs
            · exact Sound.ipUpdate context inputs _
        · exact checked.1

/-! ## Runs -/

theorem Sound.processMessage (sound : Sound signed holds pingSigned man)
    (agrees : context.pingSigned = pingSigned)
    (owned : ∀ out pubkey, OwnsCollateral context out pubkey → holds out pubkey.getID)
    {message : MasternodeMessage}
    (faithful : ∀ mnb, message = .mnb mnb → Considered context man mnb →
      Faithful signed pingSigned context man mnb) :
    Sound signed holds pingSigned (man.processMessage context message) := by
  cases message with
  | mnb mnb => exact sound.processBroadcast agrees owned (faithful mnb rfl)
  | mnp mnp =>
    show Sound signed holds pingSigned (man.processPing context mnp)
    unfold CMasternodeMan.processPing
    have recorded : Sound signed holds pingSigned (man.setPingSeen mnp.getHash) :=
      sound.of_list rfl
    split
    · exact sound
    · split
      · exact sound
      · exact recorded.ping agrees mnp true
  | mnipupdate nVersion mnip =>
    have updated := sound.ipUpdate context mnip
    show Sound signed holds pingSigned (man.processIPUpdate context nVersion mnip)
    unfold CMasternodeMan.processIPUpdate
    split
    · exact sound
    · split
      · exact sound
      · split
        · exact sound
        · generalize man.ipUpdateCheckAndUpdate context mnip = result at updated ⊢
          obtain ⟨after, accepted⟩ := result
          cases accepted with
          | false => exact updated
          | true => exact updated.of_list rfl

/-- Every broadcast of the messages that is looked at takes its paths into the list faithfully. -/
def FaithfulRun (signed : CMasternodeBroadcast → Prop)
    (pingSigned : CPubKey → CMasternodePing → Bool) (man : CMasternodeMan)
    (messages : List (MasternodeContext × MasternodeMessage)) : Prop :=
  ∀ before context mnb after, messages = before ++ (context, .mnb mnb) :: after →
    Considered context (man.receive before) mnb →
    Faithful signed pingSigned context (man.receive before) mnb

/-- The output of the outpoint pays the collateral of the key, as one of the nodes of the messages
finds it. -/
def Holds (messages : List (MasternodeContext × MasternodeMessage)) (out : COutPoint)
    (keyID : Uint160) : Prop :=
  ∃ message ∈ messages, ∃ pubkey : CPubKey, pubkey.getID = keyID ∧
    OwnsCollateral message.1 out pubkey

end

/-- **Every entry of the list is what the holder of its outpoint signed.** In a run from an empty
list whose broadcasts take their paths into the list faithfully, every entry has the keys, the
version and the time of one broadcast that was signed for its outpoint by the key that the outpoint
pays, a sign-over that is empty or valid, and a last ping of its masternode key. -/
theorem receive_genuine (signed : CMasternodeBroadcast → Prop)
    (pingSigned : CPubKey → CMasternodePing → Bool) (man : CMasternodeMan)
    (messages : List (MasternodeContext × MasternodeMessage)) (empty : man.vMasternodes = [])
    (agree : ∀ message ∈ messages, message.1.pingSigned = pingSigned)
    (faithful : FaithfulRun signed pingSigned man messages) :
    ∀ mn ∈ (man.receive messages).vMasternodes, Genuine signed (Holds messages) pingSigned mn := by
  suffices sound : ∀ before after, messages = before ++ after →
      Sound signed (Holds messages) pingSigned (man.receive before) by
    exact (sound messages [] (append_nil messages).symm).genuine
  intro before
  induction before using List.reverseRecOn with
  | nil =>
    intro after _
    constructor
    · show (man.vMasternodes.map outpoint).Nodup
      rw [empty]
      exact nodup_nil
    · intro mn member
      have member : mn ∈ man.vMasternodes := member
      rw [empty] at member
      cases member
  | append_singleton before message ih =>
    intro after split
    obtain ⟨context, message⟩ := message
    have whole : messages = before ++ (context, message) :: after := by
      rw [split, append_assoc, singleton_append]
    have member : (context, message) ∈ messages := by
      rw [whole]
      exact mem_append_right _ mem_cons_self
    rw [receive_append]
    refine (ih _ whole).processMessage (agree _ member) ?_ ?_
    · intro out pubkey owns
      exact ⟨_, member, pubkey, rfl, owns⟩
    · rintro mnb rfl considered
      exact faithful before context mnb after whole considered

end

end CMasternodeMan

namespace Altered

open TwoCollaterals

/-- A signature of a key has at least eight bytes. -/
@[reducible] def crypto : Crypto :=
  { checksumCrypto with ecdsaVerify := fun _ _ vchSig => decide (8 ≤ vchSig.length) }

/-- What the node knows; a ping is signed when its signature has a byte. -/
def context : MasternodeContext :=
  { TwoCollaterals.context with pingSigned := fun _ ping => ping.vchSig != [] }

/-- The broadcast that the holder of the first output has signed, with its ping. -/
def made : CMasternodeBroadcast :=
  { broadcast 0 1400012500 [1] with
    lastPing :=
      { vin := { prevout := ⟨TwoCollaterals.txid, 0⟩, scriptSig := [] }
        blockHash := 20
        sigTime := 1400012500
        vchSig := [1] } }

/-- The announcements that key holders have signed. -/
def isSigned (mnb : CMasternodeBroadcast) : Prop := mnb = made

/-- The broadcast with the other output in the place of the one it was signed for. -/
def otherOutpoint : CMasternodeBroadcast :=
  { made with vin := { prevout := ⟨TwoCollaterals.txid, 1⟩, scriptSig := [] } }

def otherSignOver : CMasternodeBroadcast := { made with vchSignover := [7] }

def otherPing : CMasternodeBroadcast :=
  { made with lastPing := { made.lastPing with vchSig := [] } }

def listBehind [Crypto] [ChainParams] (mnb : CMasternodeBroadcast) : List CMasternode :=
  (CMasternodeMan.receive {} [(context, .mnb mnb)]).vMasternodes

end Altered

section

open Altered

local instance Altered.params : ChainParams := regTestParams 0
local instance Altered.instCrypto : Crypto := crypto

/-- The signature verifies behind each of three alterations, and each is listed: the entry of the
other output, which nobody has signed for, an entry with an invalid sign-over, and one with an
unsigned ping. -/
theorem receive_altered :
    (¬ ∀ (signed : CMasternodeBroadcast → Prop) (pingSigned : CPubKey → CMasternodePing → Bool)
      (messages : List (MasternodeContext × MasternodeMessage)),
      (∀ message ∈ messages, message.1.pingSigned = pingSigned ∧
        ∀ mnb, message.2 = .mnb mnb → message.1.broadcastSigned mnb = true →
          ∃ made, signed made ∧ made.addr = mnb.addr ∧ made.sigTime = mnb.sigTime ∧
            made.pubKeyCollateralAddress = mnb.pubKeyCollateralAddress ∧
            made.pubKeyMasternode = mnb.pubKeyMasternode ∧
            made.protocolVersion = mnb.protocolVersion) →
      ∀ mn ∈ (CMasternodeMan.receive {} messages).vMasternodes,
        CMasternodeMan.Genuine signed (CMasternodeMan.Holds messages) pingSigned mn) ∧
    (listBehind otherSignOver = [.ofBroadcast otherSignOver] ∧
      ¬ CMasternodeMan.SignOverValid (.ofBroadcast otherSignOver)) ∧
    (listBehind otherPing = [.ofBroadcast otherPing] ∧
      ¬ CMasternodeMan.Pinged Altered.context.pingSigned (.ofBroadcast otherPing)) := by
  refine ⟨fun claimed => ?_, ⟨by decide +kernel, ?_⟩, by decide +kernel, Bool.false_ne_true⟩
  · have listed : listBehind otherOutpoint = [.ofBroadcast otherOutpoint] := by decide +kernel
    have member : CMasternode.ofBroadcast otherOutpoint ∈ listBehind otherOutpoint := by
      rw [listed]
      exact mem_cons_self
    have genuine := claimed isSigned Altered.context.pingSigned
      [(Altered.context, .mnb otherOutpoint)] (fun message there => by
        obtain rfl := mem_singleton.mp there
        refine ⟨rfl, fun mnb same _ => ⟨made, rfl, ?_⟩⟩
        obtain rfl := MasternodeMessage.mnb.inj same
        exact ⟨rfl, rfl, rfl, rfl, rfl⟩) _ member
    obtain ⟨other, rfl, out, _⟩ := genuine.1.signedFor
    exact absurd out (by decide +kernel)
  · rintro (empty | valid)
    · cases empty
    · exact absurd valid (by decide +kernel)

/-- The broadcast as it was made. -/
theorem receive_genuine_made : listBehind made = [.ofBroadcast made] ∧
    ∀ mn ∈ listBehind made, CMasternodeMan.Genuine isSigned
      (CMasternodeMan.Holds [(Altered.context, .mnb made)]) Altered.context.pingSigned mn := by
  refine ⟨by decide +kernel, CMasternodeMan.receive_genuine isSigned Altered.context.pingSigned {}
    [(Altered.context, .mnb made)] rfl (fun message there => ?_) ?_⟩
  · obtain rfl := mem_singleton.mp there
    rfl
  · intro before context mnb after whole _
    have first : before = [] ∧ (context, MasternodeMessage.mnb mnb) =
        (Altered.context, .mnb made) ∧ after = [] := by
      cases before with
      | nil =>
        injection whole with head tail
        exact ⟨rfl, head.symm, tail.symm⟩
      | cons message rest =>
        have length := congrArg List.length whole
        simp at length
    obtain ⟨rfl, same, rfl⟩ := first
    obtain ⟨rfl, message⟩ := Prod.mk.inj same
    obtain rfl := MasternodeMessage.mnb.inj message
    refine ⟨fun _ => ⟨⟨made, rfl, rfl, rfl, rfl, rfl, rfl⟩, ?_, .inl rfl, rfl⟩, ?_, ?_⟩
    · intro tx hashBlock found n other _ _ _
      refine ⟨TwoCollaterals.txVin, 1, _, ?_, rfl, ?_⟩
      · decide +kernel
      · decide +kernel
    · intro pmn found
      cases found
    · intro pmn found
      cases found

end

end Agouti
