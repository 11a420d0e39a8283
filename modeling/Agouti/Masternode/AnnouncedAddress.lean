import Agouti.Masternode.ListIntegrity

/-! # The announced address of a masternode

The address of an entry, the time of the IP update in it and the key of IP updates (`addressAt`),
and what each step does to them. A broadcast writes the address and the key when it replaces the
entry or is added; an IP update writes the address and the time.
-/

namespace Agouti

open List CMasternodeMan

namespace CMasternodeMan

def entryAt (man : CMasternodeMan) (out : COutPoint) : Option CMasternode :=
  man.vMasternodes.find? fun mn => outpoint mn == out

/-- What an entry says of the address: the address, the time of the IP update in it, and the key
that IP updates are signed with. -/
structure Address where
  addr : CService
  nLastIPUpdateTime : Int
  pubKeyMasternode : CPubKey

def addressOf (mn : CMasternode) : Address :=
  ⟨mn.addr, mn.nLastIPUpdateTime, mn.pubKeyMasternode⟩

def addressAt (man : CMasternodeMan) (out : COutPoint) : Option Address :=
  (man.entryAt out).map addressOf

theorem find_eq_entryAt (man : CMasternodeMan) (vin : CTxIn) :
    man.find vin = man.entryAt vin.prevout := rfl

theorem outpoint_of_entryAt {man : CMasternodeMan} {out : COutPoint} {mn : CMasternode}
    (found : man.entryAt out = some mn) : outpoint mn = out := by
  have here := List.find?_some found
  exact beq_iff_eq.mp here

section

variable {man : CMasternodeMan} {vin : CTxIn} {update : CMasternode → CMasternode}
  {out : COutPoint}

theorem entryAt_change (keeps : ∀ mn, (update mn).vin = mn.vin) :
    (man.change vin update).entryAt out =
      if vin.prevout = out then (man.entryAt out).map update else man.entryAt out := by
  unfold entryAt change
  dsimp only
  generalize man.vMasternodes = list
  induction list with
  | nil => simp
  | cons first rest ih =>
    have moved : outpoint (update first) = outpoint first := congrArg CTxIn.prevout (keeps first)
    rw [replaceF_cons]
    by_cases here : isAt vin first = true
    · have own : outpoint first = vin.prevout := isAt_iff.mp here
      rw [if_pos here, List.find?_cons, List.find?_cons, moved, own]
      by_cases same : vin.prevout = out
      · simp [same]
      · have apart : (vin.prevout == out) = false := beq_false_of_ne same
        rw [apart, if_neg same]
    · have other : outpoint first ≠ vin.prevout := fun same => here (isAt_iff.mpr same)
      rw [if_neg here, List.find?_cons, List.find?_cons, ih]
      by_cases found : outpoint first = out
      · have apart : vin.prevout ≠ out := fun same => other (found.trans same.symm)
        simp [found, apart]
      · have no : (outpoint first == out) = false := beq_false_of_ne found
        simp only [no]

variable (update) in
theorem addressAt_change (keeps : ∀ mn, (update mn).vin = mn.vin)
    (write : Address → Address) (writes : ∀ mn, addressOf (update mn) = write (addressOf mn)) :
    (man.change vin update).addressAt out =
      if vin.prevout = out then (man.addressAt out).map write else man.addressAt out := by
  unfold addressAt
  rw [entryAt_change keeps]
  split
  · rw [Option.map_map, Option.map_map]
    congr 1
    funext mn
    exact writes mn
  · rfl

theorem addressAt_change_same (keeps : ∀ mn, (update mn).vin = mn.vin)
    (writes : ∀ mn, addressOf (update mn) = addressOf mn) :
    (man.change vin update).addressAt out = man.addressAt out := by
  rw [addressAt_change update keeps id writes, Option.map_id_fun, id]
  split
  · rfl
  · rfl

theorem entryAt_removeKnown (distinct : man.Distinct) :
    (man.removeKnown vin).entryAt out = if vin.prevout = out then none else man.entryAt out := by
  unfold removeKnown
  rw [find_eq_entryAt]
  cases found : man.entryAt vin.prevout with
  | none =>
    dsimp only
    split
    · rename_i same
      rw [← same, found]
    · rfl
  | some pmn =>
    have member : pmn ∈ man.vMasternodes := List.mem_of_find?_eq_some found
    have own := outpoint_of_entryAt found
    unfold Distinct at distinct
    unfold entryAt remove
    dsimp only
    generalize man.vMasternodes = list at distinct member
    induction list with
    | nil => cases member
    | cons first rest ih =>
      rw [map_cons, nodup_cons] at distinct
      by_cases here : (first.vin == pmn.vin) = true
      · have firstOwn : outpoint first = vin.prevout := by
          rw [← own, outpoint, outpoint, beq_iff_eq.mp here]
        rw [eraseP_cons, here, cond_true, List.find?_cons, firstOwn]
        split
        · rename_i same
          rw [List.find?_eq_none]
          intro mn there at_out
          apply distinct.1
          rw [firstOwn, same, ← beq_iff_eq.mp at_out]
          exact mem_map_of_mem there
        · rename_i apart
          rw [beq_false_of_ne apart]
      · have later : pmn ∈ rest := by
          rcases mem_cons.mp member with rfl | later
          · simp at here
          · exact later
        rw [eraseP_cons, Bool.not_eq_true _ |>.mp here, cond_false, List.find?_cons,
          List.find?_cons, ih distinct.2 later]
        by_cases same : vin.prevout = out
        · have apart : (outpoint first == out) = false := by
            apply beq_false_of_ne
            intro at_out
            apply distinct.1
            rw [at_out, ← same, ← own]
            exact mem_map_of_mem later
          rw [apart, if_pos same]
        · rw [if_neg same, if_neg same]

variable (vin out) in
theorem addressAt_removeKnown (distinct : man.Distinct) :
    (man.removeKnown vin).addressAt out =
      if vin.prevout = out then none else man.addressAt out := by
  unfold addressAt
  rw [entryAt_removeKnown distinct]
  split
  · rfl
  · rfl

variable (out) in
theorem entryAt_add {mn : CMasternode} (enabled : mn.isEnabled = true)
    (fresh : man.entryAt (outpoint mn) = none) :
    (man.add mn).entryAt out = if outpoint mn = out then some mn else man.entryAt out := by
  have adds : (mn.isEnabled && (man.find mn.vin).isNone) = true := by
    rw [enabled, find_eq_entryAt]
    rw [outpoint] at fresh
    rw [fresh]
    rfl
  unfold add
  rw [if_pos adds]
  unfold entryAt at fresh ⊢
  rw [List.find?_append]
  split
  · rename_i same
    rw [← same, fresh]
    simp
  · rename_i apart
    have no : (outpoint mn == out) = false := beq_false_of_ne apart
    simp [no]

end

/-! ## What each step does to the address -/

section

variable [Crypto] [ChainParams] {man : CMasternodeMan} {context : MasternodeContext}
  {mnb : CMasternodeBroadcast} {out : COutPoint}

theorem addressAt_ping (ping : CMasternodePing) (fRequireEnabled : Bool) :
    (man.pingCheckAndUpdate context ping fRequireEnabled).1.addressAt out =
      man.addressAt out := by
  rcases pingCheckAndUpdate_cases context man ping fRequireEnabled with same | ⟨pinged, _⟩
  · rw [same]
  · rw [pinged]
    apply addressAt_change_same
    · intro mn
      obtain ⟨time, state, same⟩ := check_eq context true { mn with lastPing := ping }
      rw [same]
    · intro mn
      obtain ⟨time, state, same⟩ := check_eq context true { mn with lastPing := ping }
      rw [same]
      rfl

omit [Crypto] [ChainParams] in
/-- What a broadcast that replaces an entry writes. -/
def announce (mnb : CMasternodeBroadcast) (old : Address) : Address :=
  ⟨mnb.addr, old.nLastIPUpdateTime, mnb.pubKeyMasternode⟩

theorem addressAt_updateFromNewBroadcast :
    (man.updateFromNewBroadcast context mnb).addressAt out =
      if mnb.vin.prevout = out then (man.addressAt out).map (announce mnb)
      else man.addressAt out := by
  have renewed : (man.change mnb.vin (renew mnb)).addressAt out =
      if mnb.vin.prevout = out then (man.addressAt out).map (announce mnb)
      else man.addressAt out :=
    addressAt_change (renew mnb) (fun _ => rfl) (announce mnb) fun _ => rfl
  have pinged : ((man.change mnb.vin (renew mnb)).checkLastPing context mnb).1.addressAt out =
      (man.change mnb.vin (renew mnb)).addressAt out := by
    unfold checkLastPing
    split
    · rfl
    · exact addressAt_ping _ _
  rw [← renewed, ← pinged]
  unfold updateFromNewBroadcast
  generalize (man.change mnb.vin (renew mnb)).checkLastPing context mnb = result
  obtain ⟨after, accepted⟩ := result
  cases accepted with
  | false => rfl
  | true => exact addressAt_change_same (fun _ => rfl) fun _ => rfl

def replacesEntry (context : MasternodeContext) (man : CMasternodeMan)
    (mnb : CMasternodeBroadcast) : Bool :=
  broadcastValid context mnb &&
    (man.entryAt mnb.vin.prevout).any fun pmn => pmn.isEnabled && replaces context mnb pmn

theorem checkAndUpdate_cases (context : MasternodeContext) (man : CMasternodeMan)
    (mnb : CMasternodeBroadcast) :
    (replacesEntry context man mnb = false ∧ (man.checkAndUpdate context mnb).1 = man) ∨
      (replacesEntry context man mnb = true ∧ man.checkAndUpdate context mnb =
        ((man.updateFromNewBroadcast context mnb).change mnb.vin (CMasternode.check context false),
          true)) := by
  unfold checkAndUpdate replacesEntry
  split
  · rename_i refused
    have invalid : broadcastValid context mnb = false := by simpa using refused
    rw [invalid]
    exact .inl ⟨rfl, rfl⟩
  · rename_i passed
    have valid : broadcastValid context mnb = true := by simpa using passed
    rw [find_eq_entryAt, valid, Bool.true_and]
    cases man.entryAt mnb.vin.prevout with
    | none => exact .inl ⟨rfl, rfl⟩
    | some pmn =>
      rw [Option.any_some, replaces]
      dsimp only
      split
      · rename_i older
        have late : ¬ pmn.sigTime < mnb.sigTime := by omega
        rw [decide_eq_false late, Bool.and_false, Bool.and_false]
        exact .inl ⟨rfl, rfl⟩
      · split
        · rename_i disabled
          have off : pmn.isEnabled = false := by simpa using disabled
          rw [off, Bool.false_and]
          exact .inl ⟨rfl, rfl⟩
        · rename_i enabled
          have on : pmn.isEnabled = true := by simpa using enabled
          rw [on, Bool.true_and]
          split
          · rename_i matching
            rw [matching, Bool.true_and]
            split
            · rename_i later
              exact .inr ⟨decide_eq_true later, rfl⟩
            · rename_i same
              exact .inl ⟨decide_eq_false same, rfl⟩
          · rename_i other
            rw [Bool.not_eq_true] at other
            rw [other, Bool.false_and]
            exact .inl ⟨rfl, rfl⟩

variable (man context mnb out) in
theorem addressAt_checkAndUpdate :
    (man.checkAndUpdate context mnb).1.addressAt out =
      if replacesEntry context man mnb = true ∧ mnb.vin.prevout = out then
        (man.addressAt out).map (announce mnb)
      else man.addressAt out := by
  rcases checkAndUpdate_cases context man mnb with ⟨stays, same⟩ | ⟨replaced, result⟩
  · rw [same, stays]
    simp
  · rw [result, replaced]
    have checked : ((man.updateFromNewBroadcast context mnb).change mnb.vin
        (CMasternode.check context false)).addressAt out =
        (man.updateFromNewBroadcast context mnb).addressAt out := by
      apply addressAt_change_same
      · intro mn
        obtain ⟨time, state, same⟩ := check_eq context false mn
        rw [same]
      · intro mn
        obtain ⟨time, state, same⟩ := check_eq context false mn
        rw [same]
        rfl
    rw [checked, addressAt_updateFromNewBroadcast]
    simp

def isOwnMasternode (context : MasternodeContext) (man : CMasternodeMan)
    (mnb : CMasternodeBroadcast) : Bool :=
  context.fMasterNode && mnb.vin.prevout == man.activeMasternode.vin.prevout && man.isOwnKey mnb

def leavesEntry (context : MasternodeContext) (man : CMasternodeMan) (mnb : CMasternodeBroadcast) :
    Bool :=
  isOwnMasternode context man mnb || (man.entryAt mnb.vin.prevout).any CMasternode.isEnabled

omit [Crypto] [ChainParams] in
theorem addressAt_of_list {other : CMasternodeMan}
    (same : other.vMasternodes = man.vMasternodes) : other.addressAt out = man.addressAt out := by
  unfold addressAt entryAt
  rw [same]

variable (out) in
theorem checkInputsAndAdd_leaves (leaves : leavesEntry context man mnb = true) :
    (man.checkInputsAndAdd context mnb).2 = true ∧
      (man.checkInputsAndAdd context mnb).1.addressAt out = man.addressAt out := by
  unfold leavesEntry isOwnMasternode at leaves
  unfold checkInputsAndAdd
  dsimp only
  split
  · exact ⟨rfl, addressAt_of_list (pickUpSignOver_list man mnb)⟩
  · rename_i notOwn
    rw [Bool.not_eq_true] at notOwn
    rw [notOwn, Bool.false_or] at leaves
    obtain ⟨pmn, found, on⟩ := (Option.any_eq_true _ _).mp leaves
    rw [find_eq_entryAt, found, Option.map_some, Option.getD_some, if_pos on]
    refine ⟨rfl, ?_⟩
    have signedOver : (man.change mnb.vin fun mn =>
        if mn.vchSignover == [] then
          { mn with vchSignover := mnb.vchSignover } else mn).addressAt out =
          man.addressAt out := by
      apply addressAt_change_same
      · intro mn
        split
        · rfl
        · rfl
      · intro mn
        split
        · rfl
        · rfl
    rw [← signedOver]
    split
    · exact addressAt_of_list (pickUpSignOver_list _ mnb)
    · rfl

theorem checkInputsAndAdd_cases (takes : leavesEntry context man mnb = false) :
    (∃ after, man.checkInputsAndAdd context mnb = (after, false) ∧
        after.vMasternodes = (man.removeKnown mnb.vin).vMasternodes) ∨
      man.checkInputsAndAdd context mnb =
        ((man.removeKnown mnb.vin).addBroadcast context mnb, true) := by
  unfold leavesEntry isOwnMasternode at takes
  rw [Bool.or_eq_false_iff] at takes
  unfold checkInputsAndAdd
  dsimp only
  have disabled : ((man.find mnb.vin).map CMasternode.isEnabled).getD false = false := by
    have off := takes.2
    rw [find_eq_entryAt]
    cases found : man.entryAt mnb.vin.prevout with
    | none => rfl
    | some pmn =>
      rw [found] at off
      exact off
  rw [takes.1, disabled, if_neg Bool.false_ne_true, if_neg Bool.false_ne_true]
  split
  · exact .inl ⟨_, rfl, rfl⟩
  · split
    · exact .inl ⟨_, rfl, rfl⟩
    · split
      · exact .inl ⟨_, rfl, rfl⟩
      · split
        · exact .inl ⟨_, rfl, rfl⟩
        · exact .inr rfl

variable (out) in
theorem checkInputsAndAdd_takes (distinct : man.Distinct)
    (takes : leavesEntry context man mnb = false) :
    (man.checkInputsAndAdd context mnb).1.addressAt out =
      if mnb.vin.prevout ≠ out then man.addressAt out
      else if (man.checkInputsAndAdd context mnb).2 = true then
        some ⟨mnb.addr, 0, mnb.pubKeyMasternode⟩
      else none := by
  have removed := addressAt_removeKnown mnb.vin out distinct
  rcases checkInputsAndAdd_cases takes with ⟨after, result, same⟩ | result
  · rw [result, addressAt_of_list same, removed]
    by_cases here : mnb.vin.prevout = out
    · simp [here]
    · simp [here]
  · have fresh : (man.removeKnown mnb.vin).entryAt (outpoint (.ofBroadcast mnb)) = none := by
      rw [entryAt_removeKnown distinct]
      exact if_pos rfl
    have there := entryAt_add out rfl fresh
    rw [result, addressAt_of_list (addBroadcast_list context _ mnb)]
    unfold addressAt at removed ⊢
    rw [there]
    have own : outpoint (.ofBroadcast mnb) = mnb.vin.prevout := rfl
    rw [own]
    by_cases here : mnb.vin.prevout = out
    · simp only [here, if_true, ne_eq, not_true_eq_false, if_false]
      rfl
    · rw [if_neg here] at removed ⊢
      rw [if_pos here]
      exact removed

/-! ## IP updates -/

omit [Crypto] [ChainParams] in
variable (man context out) in
theorem addressAt_ipUpdate (mnip : CMasternodeIPUpdate) :
    (man.ipUpdateCheckAndUpdate context mnip).1.addressAt out =
      if (man.ipUpdateCheckAndUpdate context mnip).2 = true ∧ mnip.vin.prevout = out then
        (man.addressAt out).map fun old => ⟨mnip.addr, mnip.sigTime, old.pubKeyMasternode⟩
      else man.addressAt out := by
  unfold ipUpdateCheckAndUpdate
  split
  · simp
  · rw [find_eq_entryAt]
    cases found : man.entryAt mnip.vin.prevout with
    | none => simp
    | some pmn =>
      dsimp only
      split
      · simp
      · split
        · simp
        · split
          · rename_i again
            rw [addressAt_change (fun mn => { mn with addr := mnip.addr }) (fun _ => rfl)
              (fun old => ⟨mnip.addr, old.nLastIPUpdateTime, old.pubKeyMasternode⟩)
              fun _ => rfl]
            by_cases here : mnip.vin.prevout = out
            · rw [if_pos here, if_pos ⟨rfl, here⟩]
              have there : man.addressAt out = some (addressOf pmn) := by
                unfold addressAt
                rw [← here, found]
                rfl
              rw [there, Option.map_some, Option.map_some, addressOf, again.1]
            · rw [if_neg here, if_neg fun both => here both.2]
          · rw [addressAt_change
              (fun mn =>
                { mn with
                  addr := mnip.addr
                  nLastIPUpdateTime := mnip.sigTime })
              (fun _ => rfl)
              (fun old => ⟨mnip.addr, mnip.sigTime, old.pubKeyMasternode⟩) fun _ => rfl]
            simp

omit [Crypto] [ChainParams] in
theorem ipUpdate_accepted_iff (mnip : CMasternodeIPUpdate) :
    (man.ipUpdateCheckAndUpdate context mnip).2 = true ↔
      mnip.sigTime ≤ context.adjustedTime + 60 * 60 ∧
        ∃ old, man.addressAt mnip.vin.prevout = some old ∧ old.nLastIPUpdateTime ≤ mnip.sigTime ∧
          context.ipUpdateSigned old.pubKeyMasternode mnip = true := by
  unfold ipUpdateCheckAndUpdate
  rw [find_eq_entryAt]
  unfold addressAt
  split
  · rename_i future
    constructor
    · exact fun contra => (nomatch contra)
    · rintro ⟨inTime, -⟩
      omega
  · rename_i inTime
    cases man.entryAt mnip.vin.prevout with
    | none =>
      constructor
      · exact fun contra => (nomatch contra)
      · rintro ⟨-, old, absent, -⟩
        cases absent
    | some pmn =>
      dsimp only
      split
      · rename_i older
        constructor
        · exact fun contra => (nomatch contra)
        · rintro ⟨-, old, there, newer, -⟩
          cases there
          have newer : pmn.nLastIPUpdateTime ≤ mnip.sigTime := newer
          omega
      · rename_i newer
        split
        · rename_i unsigned
          constructor
          · exact fun contra => (nomatch contra)
          · rintro ⟨-, old, there, -, verified⟩
            cases there
            have verified : context.ipUpdateSigned pmn.pubKeyMasternode mnip = true := verified
            rw [verified] at unsigned
            cases unsigned
        · rename_i verified
          have accepted : mnip.sigTime ≤ context.adjustedTime + 60 * 60 ∧
              ∃ old, Option.map addressOf (some pmn) = some old ∧
                old.nLastIPUpdateTime ≤ mnip.sigTime ∧
                context.ipUpdateSigned old.pubKeyMasternode mnip = true := by
            have signed : context.ipUpdateSigned pmn.pubKeyMasternode mnip = true := by
              simpa using verified
            exact ⟨by omega, addressOf pmn, rfl, Int.not_lt.mp newer, signed⟩
          split
          · exact ⟨fun _ => accepted, fun _ => rfl⟩
          · exact ⟨fun _ => accepted, fun _ => rfl⟩

/-! ## The newest IP updates -/

theorem latest_checkInputsAndAdd :
    (man.checkInputsAndAdd context mnb).1.mapLatestMasternodeIPUpdate =
      man.mapLatestMasternodeIPUpdate := by
  have removed := (sameRecords_removeKnown man mnb.vin).latest
  unfold checkInputsAndAdd
  dsimp only
  split
  · exact (sameRecords_pickUpSignOver ..).latest
  · split
    · split
      · exact (sameRecords_pickUpSignOver ..).latest
      · rfl
    · split
      · exact removed
      · split
        · exact removed
        · split_ifs
          · exact removed
          · exact removed
          · exact (sameRecords_addBroadcast ..).latest.trans removed

/-! ## Different outpoints -/

omit [ChainParams] in
theorem distinct_iff_deeds : man.Distinct ↔ (man.deeds.map Prod.fst).Nodup := by
  unfold Distinct deeds
  rw [map_map]
  rfl

variable (context mnb) in
theorem Distinct.checkAndUpdate (distinct : man.Distinct) :
    (man.checkAndUpdate context mnb).1.Distinct := by
  rw [distinct_iff_deeds, deeds_checkAndUpdate, ← distinct_iff_deeds]
  exact distinct

variable (context mnb) in
theorem Distinct.checkInputsAndAdd (distinct : man.Distinct) :
    (man.checkInputsAndAdd context mnb).1.Distinct := by
  rw [distinct_iff_deeds] at distinct ⊢
  obtain ⟨kept, sub, same | ⟨added, fresh, _⟩⟩ := deeds_checkInputsAndAdd context man mnb
  · rw [same]
    exact distinct.sublist (sub.map Prod.fst)
  · rw [added, map_append, nodup_append]
    refine ⟨distinct.sublist (sub.map Prod.fst), nodup_singleton _, ?_⟩
    intro out there other last same
    obtain rfl := mem_singleton.mp last
    have own : out = mnb.vin.prevout := same
    rw [own] at there
    exact fresh there

theorem Distinct.ping (distinct : man.Distinct) (ping : CMasternodePing)
    (fRequireEnabled : Bool) :
    (man.pingCheckAndUpdate context ping fRequireEnabled).1.Distinct := by
  rw [distinct_iff_deeds, deeds_pingCheckAndUpdate, ← distinct_iff_deeds]
  exact distinct

omit [ChainParams] in
theorem Distinct.ipUpdate (distinct : man.Distinct) (mnip : CMasternodeIPUpdate) :
    (man.ipUpdateCheckAndUpdate context mnip).1.Distinct := by
  rw [distinct_iff_deeds, deeds_ipUpdateCheckAndUpdate, ← distinct_iff_deeds]
  exact distinct

end

end CMasternodeMan

end Agouti
