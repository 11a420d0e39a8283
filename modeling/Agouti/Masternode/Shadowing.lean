import Agouti.Masternode.CollateralRuns
import Agouti.Masternode.Messages

/-! # Announcements that hide others

A broadcast and a ping are recorded as seen in front of every check, a broadcast under its signing
time and its collateral key, a ping under its input and its signing time. What is badly signed
changes nothing but the record (`BadlySigned.alike`), so the list is the same without it when no
later message has its hash, and an announcement whose hash no badly signed one and none of another
outpoint has had is looked at, unless one of its own outpoint was (`receive_notShadowed`). A badly
signed copy hides the announcement that it was copied from, and an announcement hides that of
another collateral of the same second and key (`receive_shadowed`).
-/

namespace Agouti

open List Function CMasternodeMan

namespace CMasternodeMan

variable [Crypto] [ChainParams]

/-- The signature check of a message fails; of a ping it is made with the key of the masternode, if
there is one. -/
def BadlySigned (man : CMasternodeMan) (context : MasternodeContext) : MasternodeMessage → Prop
  | .mnb mnb => context.broadcastSigned mnb = false
  | .mnp mnp => ∀ pmn, man.find mnp.vin = some pmn →
      context.pingSigned pmn.pubKeyMasternode mnp = false
  | .mnipupdate _ _ => False

omit [Crypto] [ChainParams] in
theorem Alike.refl {first second : Option Uint256} (man : CMasternodeMan) :
    Alike first second man man :=
  ⟨rfl, rfl, rfl, rfl, fun _ _ => rfl, fun _ _ => rfl⟩

omit [Crypto] [ChainParams] in
theorem alike_setSeen (man : CMasternodeMan) (hash : Uint256) :
    Alike (some hash) none (man.setSeen hash true) man := by
  refine ⟨rfl, rfl, rfl, rfl, ?_, fun _ _ => rfl⟩
  intro other different
  exact update_of_ne (fun same => different (congrArg some same)) _ _

omit [Crypto] [ChainParams] in
theorem alike_setPingSeen (man : CMasternodeMan) (hash : Uint256) :
    Alike none (some hash) (man.setPingSeen hash) man := by
  refine ⟨rfl, rfl, rfl, rfl, fun _ _ => rfl, ?_⟩
  intro other different
  exact update_of_ne (fun same => different (congrArg some same)) _ _

variable {man : CMasternodeMan} {context : MasternodeContext} {message : MasternodeMessage}

theorem pingCheckAndUpdate_unsigned {ping : CMasternodePing} {fRequireEnabled : Bool}
    (unsigned : ∀ pmn, man.find ping.vin = some pmn →
      context.pingSigned pmn.pubKeyMasternode ping = false) :
    man.pingCheckAndUpdate context ping fRequireEnabled = (man, false) := by
  unfold pingCheckAndUpdate
  split
  · rfl
  · split
    · rfl
    · split
      · rfl
      · rename_i pmn found
        rw [unsigned pmn found]
        split_ifs
        · rfl
        · rfl
        · rfl
        · rfl
        · contradiction

theorem BadlySigned.alike (bad : man.BadlySigned context message) :
    Alike message.mnbHash message.mnpHash (man.processMessage context message) man := by
  cases message with
  | mnb mnb =>
    have unsigned : context.broadcastSigned mnb = false := bad
    have invalid : broadcastValid context mnb = false := by
      simp only [broadcastValid, unsigned, Bool.and_false, Bool.false_and]
    have refused : (man.setSeen mnb.getHash true).checkAndUpdate context mnb =
        (man.setSeen mnb.getHash true, false) := by
      unfold checkAndUpdate
      rw [invalid]
      rfl
    show Alike (some mnb.getHash) none (man.processBroadcast context mnb) man
    unfold processBroadcast
    rw [refused]
    split
    · exact Alike.refl man
    · split
      · exact Alike.refl man
      · exact alike_setSeen man _
  | mnp mnp =>
    have unsigned : ∀ pmn, (man.setPingSeen mnp.getHash).find mnp.vin = some pmn →
        context.pingSigned pmn.pubKeyMasternode mnp = false := bad
    show Alike none (some mnp.getHash) (man.processPing context mnp) man
    unfold processPing
    rw [pingCheckAndUpdate_unsigned unsigned]
    split
    · exact Alike.refl man
    · split
      · exact Alike.refl man
      · exact alike_setPingSeen man _
  | mnipupdate nVersion mnip => exact bad.elim

theorem receive_append (man : CMasternodeMan)
    (before after : List (MasternodeContext × MasternodeMessage)) :
    man.receive (before ++ after) = (man.receive before).receive after :=
  foldl_append

/-- Two messages are recorded under one hash. -/
def SameHash (message other : MasternodeMessage) : Prop :=
  (∃ hash, message.mnbHash = some hash ∧ other.mnbHash = some hash) ∨
    ∃ hash, message.mnpHash = some hash ∧ other.mnpHash = some hash

theorem receive_without {before after : List (MasternodeContext × MasternodeMessage)}
    (bad : (man.receive before).BadlySigned context message)
    (apart : ∀ later ∈ after, ¬ SameHash message later.2) :
    (man.receive (before ++ (context, message) :: after)).vMasternodes =
      (man.receive (before ++ after)).vMasternodes := by
  rw [receive_append, receive_append]
  refine (bad.alike.receive after ?_).list
  intro later member
  constructor
  · intro hash there same
    exact apart later member (.inl ⟨hash, same.symm, there⟩)
  · intro hash there same
    exact apart later member (.inr ⟨hash, same.symm, there⟩)

/-! ## What is recorded -/

/-- The seen broadcasts and the newest IP updates are the same. -/
structure SameRecords (man after : CMasternodeMan) : Prop where
  seen : after.mapSeenMasternodeBroadcast = man.mapSeenMasternodeBroadcast
  latest : after.mapLatestMasternodeIPUpdate = man.mapLatestMasternodeIPUpdate

omit [Crypto] [ChainParams] in
theorem SameRecords.refl (man : CMasternodeMan) : SameRecords man man := ⟨rfl, rfl⟩

omit [Crypto] [ChainParams] in
theorem SameRecords.trans {between after : CMasternodeMan} (first : SameRecords man between)
    (second : SameRecords between after) : SameRecords man after :=
  ⟨second.seen.trans first.seen, second.latest.trans first.latest⟩

theorem sameRecords_pingCheckAndUpdate (context : MasternodeContext) (man : CMasternodeMan)
    (ping : CMasternodePing) (fRequireEnabled : Bool) :
    SameRecords man (man.pingCheckAndUpdate context ping fRequireEnabled).1 := by
  rcases pingCheckAndUpdate_cases context man ping fRequireEnabled with same | ⟨pinged, _⟩
  · rw [same]
    exact .refl man
  · rw [pinged]
    exact ⟨rfl, rfl⟩

theorem sameRecords_updateFromNewBroadcast (context : MasternodeContext) (man : CMasternodeMan)
    (mnb : CMasternodeBroadcast) : SameRecords man (man.updateFromNewBroadcast context mnb) := by
  have checked : SameRecords man
      ((man.change mnb.vin (renew mnb)).checkLastPing context mnb).1 := by
    have renewed : SameRecords man (man.change mnb.vin (renew mnb)) := ⟨rfl, rfl⟩
    unfold checkLastPing
    split
    · exact renewed
    · exact renewed.trans (sameRecords_pingCheckAndUpdate ..)
  unfold updateFromNewBroadcast
  generalize (man.change mnb.vin (renew mnb)).checkLastPing context mnb = result at checked ⊢
  obtain ⟨after, accepted⟩ := result
  cases accepted with
  | false => exact checked
  | true => exact checked.trans ⟨rfl, rfl⟩

theorem sameRecords_checkAndUpdate (context : MasternodeContext) (man : CMasternodeMan)
    (mnb : CMasternodeBroadcast) : SameRecords man (man.checkAndUpdate context mnb).1 := by
  unfold checkAndUpdate
  split
  · exact .refl man
  · split
    · exact .refl man
    · split_ifs
      · exact .refl man
      · exact .refl man
      · exact (sameRecords_updateFromNewBroadcast context man mnb).trans ⟨rfl, rfl⟩
      · exact .refl man
      · exact .refl man

omit [ChainParams] in
theorem sameRecords_pickUpSignOver (man : CMasternodeMan) (mnb : CMasternodeBroadcast) :
    SameRecords man (man.pickUpSignOver mnb) := by
  unfold pickUpSignOver
  dsimp only
  split
  · exact ⟨rfl, rfl⟩
  · exact .refl man

omit [ChainParams] in
theorem sameRecords_addBroadcast (context : MasternodeContext) (man : CMasternodeMan)
    (mnb : CMasternodeBroadcast) : SameRecords man (man.addBroadcast context mnb) := by
  have added : SameRecords man (man.add (.ofBroadcast mnb)) := by
    unfold add
    split
    · exact ⟨rfl, rfl⟩
    · exact .refl man
  unfold addBroadcast
  dsimp only
  split
  · refine SameRecords.trans ?_ (sameRecords_pickUpSignOver _ mnb)
    split
    · exact added.trans ⟨rfl, rfl⟩
    · exact added
  · exact added

omit [Crypto] [ChainParams] in
theorem sameRecords_removeKnown (man : CMasternodeMan) (vin : CTxIn) :
    SameRecords man (man.removeKnown vin) := by
  unfold removeKnown
  split
  · exact .refl man
  · exact ⟨rfl, rfl⟩

omit [Crypto] [ChainParams] in
theorem sameRecords_ipUpdateCheckAndUpdate (context : MasternodeContext) (man : CMasternodeMan)
    (mnip : CMasternodeIPUpdate) :
    SameRecords man (man.ipUpdateCheckAndUpdate context mnip).1 := by
  unfold ipUpdateCheckAndUpdate
  split
  · exact .refl man
  · split
    · exact .refl man
    · split_ifs
      · exact .refl man
      · exact .refl man
      · exact ⟨rfl, rfl⟩
      · exact ⟨rfl, rfl⟩

theorem seen_checkInputsAndAdd (context : MasternodeContext) (man : CMasternodeMan)
    (mnb : CMasternodeBroadcast) (hash : Uint256)
    (seen : (man.checkInputsAndAdd context mnb).1.mapSeenMasternodeBroadcast hash = true) :
    man.mapSeenMasternodeBroadcast hash = true := by
  have forgotten : ∀ before : CMasternodeMan,
      (before.setSeen mnb.getHash false).mapSeenMasternodeBroadcast hash = true →
        before.mapSeenMasternodeBroadcast hash = true := by
    intro before there
    simp only [setSeen, update_apply] at there
    split at there
    · contradiction
    · exact there
  have removed := (sameRecords_removeKnown man mnb.vin).seen
  rw [← removed]
  unfold checkInputsAndAdd at seen
  dsimp only at seen
  split at seen
  · rw [removed]
    rwa [(sameRecords_pickUpSignOver ..).seen] at seen
  · split at seen
    · rw [removed]
      split at seen
      · rwa [(sameRecords_pickUpSignOver ..).seen] at seen
      · exact seen
    · split at seen
      · exact forgotten _ seen
      · split at seen
        · exact seen
        · split at seen
          · exact forgotten _ seen
          · split at seen
            · exact seen
            · rwa [(sameRecords_addBroadcast ..).seen] at seen

theorem seen_acceptBroadcast {mnb : CMasternodeBroadcast} {hash : Uint256}
    (seen : (man.acceptBroadcast context mnb).mapSeenMasternodeBroadcast hash = true) :
    man.mapSeenMasternodeBroadcast hash = true := by
  have before := seen_checkInputsAndAdd context man mnb hash
  unfold acceptBroadcast at seen
  generalize man.checkInputsAndAdd context mnb = result at before seen
  obtain ⟨after, accepted⟩ := result
  cases accepted with
  | false => exact before seen
  | true =>
    apply before
    have kept : (after.applyLatestIPUpdate context mnb.vin).mapSeenMasternodeBroadcast =
        after.mapSeenMasternodeBroadcast := by
      unfold applyLatestIPUpdate
      split
      · rfl
      · exact (sameRecords_ipUpdateCheckAndUpdate ..).seen
    rw [← kept]
    exact seen

theorem seen_processMessage {hash : Uint256}
    (seen : (man.processMessage context message).mapSeenMasternodeBroadcast hash = true) :
    man.mapSeenMasternodeBroadcast hash = true ∨ message.mnbHash = some hash := by
  cases message with
  | mnb mnb =>
    have checked := (sameRecords_checkAndUpdate context (man.setSeen mnb.getHash true) mnb).seen
    have recorded : (man.setSeen mnb.getHash true).mapSeenMasternodeBroadcast hash = true →
        man.mapSeenMasternodeBroadcast hash = true ∨ some mnb.getHash = some hash := by
      intro there
      by_cases same : hash = mnb.getHash
      · exact .inr (congrArg some same.symm)
      · left
        simp only [setSeen, update_of_ne same] at there
        exact there
    change (man.processBroadcast context mnb).mapSeenMasternodeBroadcast hash = true at seen
    unfold processBroadcast at seen
    split at seen
    · exact .inl seen
    · split at seen
      · exact .inl seen
      · generalize (man.setSeen mnb.getHash true).checkAndUpdate context mnb = result
          at checked seen
        obtain ⟨after, accepted⟩ := result
        have same : after.mapSeenMasternodeBroadcast =
          (man.setSeen mnb.getHash true).mapSeenMasternodeBroadcast := checked
        apply recorded
        rw [← same]
        cases accepted with
        | false => exact seen
        | true =>
          dsimp only at seen
          split at seen
          · exact seen_acceptBroadcast seen
          · exact seen
  | mnp mnp =>
    left
    change (man.processPing context mnp).mapSeenMasternodeBroadcast hash = true at seen
    unfold processPing at seen
    split at seen
    · exact seen
    · split at seen
      · exact seen
      · rwa [(sameRecords_pingCheckAndUpdate ..).seen] at seen
  | mnipupdate nVersion mnip =>
    left
    have checked := (sameRecords_ipUpdateCheckAndUpdate context man mnip).seen
    change (man.processIPUpdate context nVersion mnip).mapSeenMasternodeBroadcast hash = true
      at seen
    unfold processIPUpdate at seen
    split at seen
    · exact seen
    · split at seen
      · exact seen
      · split at seen
        · exact seen
        · rw [← checked]
          generalize man.ipUpdateCheckAndUpdate context mnip = result at seen ⊢
          obtain ⟨after, accepted⟩ := result
          cases accepted with
          | false => exact seen
          | true => exact seen

theorem seen_receive {messages : List (MasternodeContext × MasternodeMessage)} {hash : Uint256}
    (seen : (man.receive messages).mapSeenMasternodeBroadcast hash = true) :
    man.mapSeenMasternodeBroadcast hash = true ∨
      ∃ message ∈ messages, message.2.mnbHash = some hash := by
  induction messages generalizing man with
  | nil => exact .inl seen
  | cons message rest ih =>
    rcases ih seen with before | ⟨later, member, has⟩
    · rcases seen_processMessage before with earlier | here
      · exact .inl earlier
      · exact .inr ⟨message, mem_cons_self, here⟩
    · exact .inr ⟨later, mem_cons_of_mem message member, has⟩

/-- No announcement with the hash of this one comes that is badly signed or of another outpoint. -/
def Unshadowed (messages : List (MasternodeContext × MasternodeMessage))
    (mnb : CMasternodeBroadcast) : Prop :=
  ∀ earlier ∈ messages, ∀ other, earlier.2 = .mnb other → other.getHash = mnb.getHash →
    other.vin.prevout = mnb.vin.prevout ∧ earlier.1.broadcastSigned other = true

/-- **No announcement is hidden.** A badly signed message whose hash does not come again makes no
difference to the list, whatever comes before it and behind it. From a node that has seen nothing,
an announcement whose hash no badly signed announcement and none of another outpoint has had is
looked at, unless a well signed one of its own outpoint has been recorded under its hash. -/
theorem receive_notShadowed :
    (∀ (man : CMasternodeMan) (before after : List (MasternodeContext × MasternodeMessage))
      (context : MasternodeContext) (message : MasternodeMessage),
      (man.receive before).BadlySigned context message →
      (∀ later ∈ after, ¬ SameHash message later.2) →
      (man.receive (before ++ (context, message) :: after)).vMasternodes =
        (man.receive (before ++ after)).vMasternodes) ∧
    ∀ (man : CMasternodeMan) (messages : List (MasternodeContext × MasternodeMessage))
      (mnb : CMasternodeBroadcast),
      (∀ hash, man.mapSeenMasternodeBroadcast hash = false) → Unshadowed messages mnb →
      (man.receive messages).mapSeenMasternodeBroadcast mnb.getHash = true →
      ∃ earlier ∈ messages, ∃ other, earlier.2 = .mnb other ∧ other.getHash = mnb.getHash ∧
        other.vin.prevout = mnb.vin.prevout ∧ earlier.1.broadcastSigned other = true := by
  refine ⟨fun man before after context message => receive_without, ?_⟩
  intro man messages mnb fresh unshadowed seen
  rcases seen_receive seen with earlier | ⟨earlier, member, has⟩
  · rw [fresh] at earlier
    contradiction
  · rcases earlier with ⟨context, other | other | ⟨nVersion, mnip⟩⟩
    · have same : other.getHash = mnb.getHash := Option.some.inj has
      obtain ⟨own, signed⟩ := unshadowed _ member other rfl same
      exact ⟨_, member, other, rfl, same, own, signed⟩
    · cases has
    · cases has

end CMasternodeMan

namespace TwoCollaterals

/-! A transaction of height 1 with two outputs of 3000 coins for one key. -/

def txVin : CTransaction :=
  { SharedCollateral.txVin with
    vout := List.replicate 2
      { nValue := 3000 * COIN
        scriptPubKey :=
          getScriptForKeyID (@CPubKey.getID checksumCrypto SharedCollateral.collateralKey) } }

def txid : Uint256 := @CTransaction.getHash checksumCrypto txVin

/-- What the node knows; a broadcast is signed when its signature has a byte. -/
def context : MasternodeContext :=
  { SharedCollateral.context with
    node := { SharedCollateral.node with
      pcoinsTip := ⟨fun hash => if hash = txid then .fromTx txVin 1 else {}, 20⟩ }
    readTxIndex := fun hash => if hash = txid then some (some (txVin, 1)) else none
    broadcastSigned := fun mnb => mnb.sig != [] }

/-- The broadcast of a masternode with an output of the transaction. -/
def broadcast (n : Nat) (sigTime : Int) (sig : List UInt8) : CMasternodeBroadcast :=
  { SharedCollateral.broadcast n with
    vin := { prevout := ⟨txid, n⟩, scriptSig := [] }
    sigTime := sigTime
    sig := sig }

def message (n : Nat) (sigTime : Int) (sig : List UInt8) : MasternodeContext × MasternodeMessage :=
  (context, .mnb (broadcast n sigTime sig))

def outpoints [Crypto] [ChainParams] (messages : List (MasternodeContext × MasternodeMessage)) :
    List Nat :=
  (receive {} messages).vMasternodes.map fun mn => mn.vin.prevout.n

end TwoCollaterals

section

open TwoCollaterals

local instance TwoCollaterals.params : ChainParams := regTestParams 0
local instance TwoCollaterals.instCrypto : Crypto := checksumCrypto

/-- A badly signed copy keeps the announcement out of the list, and of two collaterals of one key
that are announced with one signing time only the first comes into it. -/
theorem receive_shadowed :
    ¬ (∀ (man : CMasternodeMan) (before after : List (MasternodeContext × MasternodeMessage))
      (context : MasternodeContext) (message : MasternodeMessage),
      (man.receive before).BadlySigned context message →
      (man.receive (before ++ (context, message) :: after)).vMasternodes =
        (man.receive (before ++ after)).vMasternodes) ∧
    outpoints [message 0 1400012500 [1], message 1 1400012500 [1]] = [0] ∧
    outpoints [message 0 1400012500 [1], message 1 1400012501 [1]] = [0, 1] := by
  refine ⟨fun claimed => ?_, by decide +kernel, by decide +kernel⟩
  have same := congrArg List.length (claimed {} [] [message 0 1400012500 [1]] context
    (.mnb (broadcast 0 1400012500 [])) rfl)
  have hidden : (receive {} ([] ++ (context, .mnb (broadcast 0 1400012500 [])) ::
      [message 0 1400012500 [1]])).vMasternodes.length = 0 := by
    decide +kernel
  have shown : (receive {} ([] ++
      [message 0 1400012500 [1]])).vMasternodes.length = 1 := by
    decide +kernel
  rw [hidden, shown] at same
  contradiction

/-- A badly signed announcement of another second makes no difference. -/
theorem receive_notShadowed_other :
    (receive {} ([] ++ (context, .mnb (broadcast 1 1400012501 [])) ::
        [message 0 1400012500 [1]])).vMasternodes =
      (receive {} ([] ++ [message 0 1400012500 [1]])).vMasternodes := by
  apply receive_notShadowed.1
  · rfl
  · intro later member
    obtain rfl := mem_singleton.mp member
    rintro (⟨hash, first, second⟩ | ⟨hash, first, _⟩)
    · have same := first.trans second.symm
      exact absurd same (by decide +kernel)
    · cases first

end

end Agouti
