import Agouti.Masternode.Broadcast

/-! # What the masternode list rests on

A broadcast passes the ownership check when some output of the transaction pays 3000 coins to
the collateral key, the amount check when its own output has about as much, and the spend
check when its own output is unspent. The three are about one output exactly when the
transaction has no other output that pays the collateral (`ownsCollateral_iff`); in a run of
such broadcasts every masternode of the list has a collateral of its own
(`collateralOwned_of_run`).
-/

namespace Agouti

open List

namespace CMasternodeMan

section

variable [Crypto]

/-- The outpoint that a masternode rests on and the key that has to own it. -/
def deed (mn : CMasternode) : COutPoint × Uint160 :=
  (mn.vin.prevout, mn.pubKeyCollateralAddress.getID)

def deeds (man : CMasternodeMan) : List (COutPoint × Uint160) := man.vMasternodes.map deed

theorem map_deed_replaceF {vin : CTxIn} {update : CMasternode → CMasternode}
    {list : List CMasternode}
    (keeps : ∀ mn, list.find? (isAt vin) = some mn → deed (update mn) = deed mn) :
    (list.replaceF fun mn => if isAt vin mn then some (update mn) else none).map deed =
      list.map deed := by
  induction list with
  | nil => rfl
  | cons mn rest ih =>
    rw [replaceF_cons]
    by_cases here : isAt vin mn = true
    · rw [if_pos here, map_cons, map_cons, keeps mn (List.find?_cons_of_pos here)]
    · rw [if_neg here, map_cons, map_cons, ih]
      intro other found
      apply keeps
      rw [List.find?_cons_of_neg here]
      exact found

theorem deeds_change {man : CMasternodeMan} {vin : CTxIn} {update : CMasternode → CMasternode}
    (keeps : ∀ mn, man.find vin = some mn → deed (update mn) = deed mn) :
    (man.change vin update).deeds = man.deeds :=
  map_deed_replaceF keeps

@[simp] theorem deeds_setSeen (man : CMasternodeMan) (hash : Uint256) (seen : Bool) :
    (man.setSeen hash seen).deeds = man.deeds := rfl

@[simp] theorem deeds_pickUpSignOver (man : CMasternodeMan) (mnb : CMasternodeBroadcast) :
    (man.pickUpSignOver mnb).deeds = man.deeds := by
  unfold pickUpSignOver
  simp only
  split
  · rfl
  · rfl

theorem deeds_remove (man : CMasternodeMan) (vin : CTxIn) :
    (man.remove vin).deeds.Sublist man.deeds :=
  List.Sublist.map deed eraseP_sublist

theorem deeds_removeKnown (man : CMasternodeMan) (vin : CTxIn) :
    (man.removeKnown vin).deeds.Sublist man.deeds := by
  unfold removeKnown
  split
  · exact List.Sublist.refl _
  · exact deeds_remove man _

theorem deeds_add (man : CMasternodeMan) (mn : CMasternode) :
    (man.add mn).deeds = man.deeds ∨
      ((man.add mn).deeds = man.deeds ++ [deed mn] ∧
        mn.vin.prevout ∉ man.deeds.map Prod.fst) := by
  unfold add
  split
  · rename_i fresh
    right
    refine ⟨map_append, ?_⟩
    rw [Bool.and_eq_true, Option.isNone_iff_eq_none] at fresh
    simp only [deeds, map_map]
    intro known
    obtain ⟨other, member, same⟩ := mem_map.mp known
    have absent := List.find?_eq_none.mp fresh.2 other member
    exact absent (beq_iff_eq.mpr same)
  · exact .inl rfl

variable [ChainParams]

theorem check_eq (context : MasternodeContext) (forceCheck : Bool) (mn : CMasternode) :
    ∃ time state, mn.check context forceCheck =
      { mn with
        lastTimeChecked := time
        activeState := state } := by
  unfold CMasternode.check
  dsimp only
  split_ifs
  · exact ⟨mn.lastTimeChecked, mn.activeState, rfl⟩
  · exact ⟨mn.lastTimeChecked, mn.activeState, rfl⟩
  · exact ⟨context.time, mn.activeState, rfl⟩
  · exact ⟨context.time, _, rfl⟩
  · exact ⟨context.time, _, rfl⟩
  · exact ⟨context.time, mn.activeState, rfl⟩
  · split
    · exact ⟨context.time, _, rfl⟩
    · exact ⟨context.time, _, rfl⟩

theorem deed_check (context : MasternodeContext) (forceCheck : Bool) (mn : CMasternode) :
    deed (mn.check context forceCheck) = deed mn := by
  obtain ⟨time, state, same⟩ := check_eq context forceCheck mn
  rw [same]
  rfl

def withPing (context : MasternodeContext) (man : CMasternodeMan) (ping : CMasternodePing) :
    CMasternodeMan :=
  man.change ping.vin fun mn => CMasternode.check context true { mn with lastPing := ping }

theorem pingCheckAndUpdate_cases (context : MasternodeContext) (man : CMasternodeMan)
    (ping : CMasternodePing) (fRequireEnabled : Bool) :
    (man.pingCheckAndUpdate context ping fRequireEnabled).1 = man ∨
      ((man.pingCheckAndUpdate context ping fRequireEnabled).1 = man.withPing context ping ∧
        ∀ pmn, man.find ping.vin = some pmn →
          context.pingSigned pmn.pubKeyMasternode ping = true) := by
  unfold pingCheckAndUpdate withPing
  split
  · exact .inl rfl
  · split
    · exact .inl rfl
    · split
      · exact .inl rfl
      · rename_i pmn found
        split_ifs with outdated disabled early unsigned
        · exact .inl rfl
        · exact .inl rfl
        · exact .inl rfl
        · exact .inl rfl
        · split
          · exact .inl rfl
          · split
            · exact .inl rfl
            · refine .inr ⟨rfl, fun other there => ?_⟩
              obtain rfl := Option.some.inj (found.symm.trans there)
              rw [Bool.not_eq_true, Bool.not_eq_false'] at unsigned
              exact unsigned

theorem deeds_pingCheckAndUpdate (context : MasternodeContext) (man : CMasternodeMan)
    (ping : CMasternodePing) (fRequireEnabled : Bool) :
    (man.pingCheckAndUpdate context ping fRequireEnabled).1.deeds = man.deeds := by
  rcases pingCheckAndUpdate_cases context man ping fRequireEnabled with same | ⟨pinged, _⟩
  · rw [same]
  · rw [pinged]
    apply deeds_change
    intro mn _
    exact deed_check context true _

theorem deeds_checkLastPing (context : MasternodeContext) (man : CMasternodeMan)
    (mnb : CMasternodeBroadcast) : (man.checkLastPing context mnb).1.deeds = man.deeds := by
  unfold checkLastPing
  split
  · rfl
  · exact deeds_pingCheckAndUpdate ..

theorem deeds_updateFromNewBroadcast {context : MasternodeContext} {man : CMasternodeMan}
    {mnb : CMasternodeBroadcast} {pmn : CMasternode} (found : man.find mnb.vin = some pmn)
    (same : pmn.pubKeyCollateralAddress.same mnb.pubKeyCollateralAddress = true) :
    (man.updateFromNewBroadcast context mnb).deeds = man.deeds := by
  have keys : mnb.pubKeyCollateralAddress.getID = pmn.pubKeyCollateralAddress.getID := by
    simp only [CPubKey.same, Bool.and_eq_true, beq_iff_eq] at same
    unfold CPubKey.getID
    rw [same.2]
  have renewed : (man.change mnb.vin (renew mnb)).deeds = man.deeds := by
    apply deeds_change
    intro mn there
    obtain rfl := Option.some.inj (found.symm.trans there)
    exact Prod.ext rfl keys
  have pinged := deeds_checkLastPing context (man.change mnb.vin (renew mnb)) mnb
  unfold updateFromNewBroadcast
  split
  · rename_i after checked
    rw [checked] at pinged
    exact pinged.trans renewed
  · rename_i after checked
    rw [checked] at pinged
    refine Eq.trans (deeds_change fun _ _ => rfl) ?_
    exact pinged.trans renewed

theorem deeds_checkAndUpdate (context : MasternodeContext) (man : CMasternodeMan)
    (mnb : CMasternodeBroadcast) : (man.checkAndUpdate context mnb).1.deeds = man.deeds := by
  unfold checkAndUpdate
  split
  · rfl
  · split
    · rfl
    · rename_i pmn found
      split_ifs with older disabled matching newer
      · rfl
      · rfl
      · rw [Bool.and_eq_true] at matching
        rw [deeds_change fun mn _ => deed_check context false mn]
        exact deeds_updateFromNewBroadcast found matching.1
      · rfl
      · rfl

end

end CMasternodeMan

section

variable [ChainParams] [Crypto]

/-- The output of the outpoint is available and no transaction of the pool spends it. -/
structure MasternodeContext.Unspent (context : MasternodeContext) (out : COutPoint) : Prop where
  available : (context.viewMemPool.coins out.hash).isAvailable out.n = true
  unspent : context.mempool.mapNextTx out = false

theorem MasternodeContext.unspent_of_acceptable {context : MasternodeContext} {vin : CTxIn}
    (accepted : context.acceptableInputs (context.collateralSpend vin) = .ok ()) :
    context.Unspent vin.prevout := by
  simp only [acceptableInputs, Verdict.bind_eq_ok, Verdict.reject_eq_ok] at accepted
  obtain ⟨_, _, _, _, _, plain, _, _, _, _, _, unspent, _, _, _, _, _, have_, _⟩ := accepted
  constructor
  · simp only [CCoinsViewCache.haveInputs, plain, Bool.false_or, Bool.not_eq_false',
      all_eq_true] at have_
    exact have_ vin mem_cons_self
  · exact Bool.eq_false_iff.mpr fun spent =>
      absurd spent (any_eq_false.mp unspent vin mem_cons_self)

namespace CMasternodeMan

omit [ChainParams] in
theorem deeds_addBroadcast (context : MasternodeContext) (man : CMasternodeMan)
    (mnb : CMasternodeBroadcast) : (man.addBroadcast context mnb).deeds = man.deeds ∨
      ((man.addBroadcast context mnb).deeds = man.deeds ++ [deed mnb.toCMasternode] ∧
        mnb.vin.prevout ∉ man.deeds.map Prod.fst) := by
  have added := deeds_add man (.ofBroadcast mnb)
  unfold addBroadcast
  simp only
  split
  · rw [deeds_pickUpSignOver]
    split
    · exact added
    · exact added
  · exact added

theorem deeds_checkInputsAndAdd (context : MasternodeContext) (man : CMasternodeMan)
    (mnb : CMasternodeBroadcast) : ∃ kept, kept.Sublist man.deeds ∧
      ((man.checkInputsAndAdd context mnb).1.deeds = kept ∨
        ((man.checkInputsAndAdd context mnb).1.deeds = kept ++ [deed mnb.toCMasternode] ∧
          mnb.vin.prevout ∉ kept.map Prod.fst ∧ context.Unspent mnb.vin.prevout)) := by
  unfold checkInputsAndAdd
  split
  · exact ⟨man.deeds, List.Sublist.refl _, .inl (deeds_pickUpSignOver man mnb)⟩
  · simp only
    split
    · have updated : (man.change mnb.vin fun mn =>
          if mn.vchSignover == [] then { mn with vchSignover := mnb.vchSignover } else mn).deeds =
            man.deeds := by
        apply deeds_change
        intro mn _
        split
        · rfl
        · rfl
      refine ⟨man.deeds, List.Sublist.refl _, .inl ?_⟩
      split
      · rw [deeds_pickUpSignOver, updated]
      · exact updated
    · -- the entry of the outpoint that is not enabled goes first
      have removed := deeds_removeKnown man mnb.vin
      generalize man.removeKnown mnb.vin = rest at removed ⊢
      refine ⟨rest.deeds, removed, ?_⟩
      split
      · exact .inl rfl
      · split
        · exact .inl rfl
        · rename_i accepted
          split
          · exact .inl rfl
          · split
            · exact .inl rfl
            · rcases deeds_addBroadcast context rest mnb with same | ⟨added, fresh⟩
              · exact .inl same
              · exact .inr ⟨added, fresh, MasternodeContext.unspent_of_acceptable accepted⟩

omit [ChainParams] in
theorem deeds_ipUpdateCheckAndUpdate (context : MasternodeContext) (man : CMasternodeMan)
    (mnip : CMasternodeIPUpdate) :
    (man.ipUpdateCheckAndUpdate context mnip).1.deeds = man.deeds := by
  unfold ipUpdateCheckAndUpdate
  split
  · rfl
  · split
    · rfl
    · split_ifs
      · rfl
      · rfl
      · exact deeds_change fun _ _ => rfl
      · exact deeds_change fun _ _ => rfl

omit [ChainParams] in
theorem deeds_applyLatestIPUpdate (context : MasternodeContext) (man : CMasternodeMan)
    (vin : CTxIn) : (man.applyLatestIPUpdate context vin).deeds = man.deeds := by
  unfold applyLatestIPUpdate
  split
  · rfl
  · exact deeds_ipUpdateCheckAndUpdate ..

theorem deeds_acceptBroadcast (context : MasternodeContext) (man : CMasternodeMan)
    (mnb : CMasternodeBroadcast) :
    (man.acceptBroadcast context mnb).deeds = (man.checkInputsAndAdd context mnb).1.deeds := by
  unfold acceptBroadcast
  rcases man.checkInputsAndAdd context mnb with ⟨after, _ | _⟩
  · rfl
  · exact deeds_applyLatestIPUpdate ..

end CMasternodeMan

/-! ## Ownership -/

/-- The output of the outpoint itself pays the collateral of the key. -/
def OwnsCollateral (context : MasternodeContext) (out : COutPoint) (pubkey : CPubKey) : Prop :=
  ∃ txVin hashBlock own, context.getTransaction out.hash = some (txVin, hashBlock) ∧
    txVin.vout[out.n]? = some own ∧ CMasternodeMan.paysCollateral pubkey own = true

/-- Where another output of the transaction pays the collateral of the key, so does the one of
the outpoint. -/
def NoOtherCollateral (context : MasternodeContext) (out : COutPoint) (pubkey : CPubKey) : Prop :=
  ∀ txVin hashBlock, context.getTransaction out.hash = some (txVin, hashBlock) →
    ∀ n other, n ≠ out.n → txVin.vout[n]? = some other →
      CMasternodeMan.paysCollateral pubkey other = true → OwnsCollateral context out pubkey

omit [ChainParams] in
/-- The ownership check looks at the right output exactly when no other output of the
transaction pays the collateral alone. -/
theorem ownsCollateral_iff (context : MasternodeContext) (vin : CTxIn) (pubkey : CPubKey) :
    (CMasternodeMan.isVinAssociatedWithPubkey context vin pubkey = true →
        OwnsCollateral context vin.prevout pubkey) ↔
      NoOtherCollateral context vin.prevout pubkey := by
  unfold CMasternodeMan.isVinAssociatedWithPubkey
  constructor
  · intro owns txVin hashBlock found n other _ there pays
    apply owns
    rw [found]
    exact any_eq_true.mpr ⟨other, mem_of_getElem? there, pays⟩
  · intro single passed
    cases found : context.getTransaction vin.prevout.hash with
    | none =>
      rw [found] at passed
      contradiction
    | some transaction =>
      obtain ⟨txVin, hashBlock⟩ := transaction
      rw [found] at passed
      obtain ⟨other, member, pays⟩ := any_eq_true.mp passed
      obtain ⟨n, there⟩ := List.getElem?_of_mem member
      by_cases own : n = vin.prevout.n
      · subst own
        exact ⟨txVin, hashBlock, other, found, there, pays⟩
      · exact single txVin hashBlock found n other own there pays

/-! ## Runs -/

/-- The list after a sequence of `mnb` messages, each with what the node knows when it comes. -/
def CMasternodeMan.run (man : CMasternodeMan)
    (messages : List (MasternodeContext × CMasternodeBroadcast)) : CMasternodeMan :=
  messages.foldl (fun man message => man.processBroadcast message.1 message.2) man

/-- A message brought the unspent output with a key that owns it. -/
def Brought (messages : List (MasternodeContext × CMasternodeBroadcast))
    (deed : COutPoint × Uint160) : Prop :=
  ∃ message ∈ messages, message.1.Unspent deed.1 ∧
    ∃ pubkey : CPubKey, pubkey.getID = deed.2 ∧ OwnsCollateral message.1 deed.1 pubkey

/-- Messages brought every deed, and no output twice. -/
structure Backed (messages : List (MasternodeContext × CMasternodeBroadcast))
    (deeds : List (COutPoint × Uint160)) : Prop where
  different : (deeds.map Prod.fst).Nodup
  brought : ∀ deed ∈ deeds, Brought messages deed

variable {messages : List (MasternodeContext × CMasternodeBroadcast)}

omit [ChainParams] in
theorem Backed.sublist {deeds kept : List (COutPoint × Uint160)} (backed : Backed messages deeds)
    (sub : kept.Sublist deeds) : Backed messages kept where
  different := backed.different.sublist (sub.map Prod.fst)
  brought deed member := backed.brought deed (sub.subset member)

omit [ChainParams] in
theorem Backed.later {deeds : List (COutPoint × Uint160)} (backed : Backed messages deeds)
    (message : MasternodeContext × CMasternodeBroadcast) :
    Backed (messages ++ [message]) deeds where
  different := backed.different
  brought deed member := by
    obtain ⟨earlier, there, rest⟩ := backed.brought deed member
    exact ⟨earlier, mem_append_left _ there, rest⟩

theorem Backed.processBroadcast {man : CMasternodeMan} {context : MasternodeContext}
    {mnb : CMasternodeBroadcast} (backed : Backed messages man.deeds)
    (single : NoOtherCollateral context mnb.vin.prevout mnb.pubKeyCollateralAddress) :
    Backed (messages ++ [(context, mnb)]) (man.processBroadcast context mnb).deeds := by
  unfold CMasternodeMan.processBroadcast
  split
  · exact backed.later _
  · split
    · exact backed.later _
    · have checked := CMasternodeMan.deeds_checkAndUpdate context
        (man.setSeen mnb.getHash true) mnb
      rw [CMasternodeMan.deeds_setSeen] at checked
      split
      · rename_i after refused
        rw [refused] at checked
        rw [show after.deeds = man.deeds from checked]
        exact backed.later _
      · rename_i after passed
        rw [passed] at checked
        have same : after.deeds = man.deeds := checked
        split
        · rename_i associated
          have owns := (ownsCollateral_iff context mnb.vin _).mpr single associated
          obtain ⟨kept, sub, left⟩ := CMasternodeMan.deeds_checkInputsAndAdd context after mnb
          rw [same] at sub
          have before := (backed.sublist sub).later (context, mnb)
          rw [CMasternodeMan.deeds_acceptBroadcast]
          rcases left with left | ⟨added, fresh, unspent⟩
          · rw [left]
            exact before
          · rw [added]
            constructor
            · rw [map_append, nodup_append]
              refine ⟨before.different, nodup_singleton _, ?_⟩
              intro out member other last equal
              apply fresh
              rw [map_singleton, mem_singleton] at last
              have here : other = mnb.vin.prevout := last
              rwa [← here, ← equal]
            · intro deed member
              rcases mem_append.mp member with earlier | last
              · exact before.brought deed earlier
              · obtain rfl := mem_singleton.mp last
                exact ⟨(context, mnb), mem_append_right _ mem_cons_self, unspent,
                  mnb.pubKeyCollateralAddress, rfl, owns⟩
        · rw [same]
          exact backed.later _

/-- **Every masternode has a collateral of its own.** The ownership check looks at the right
output exactly when no other output of the transaction pays the collateral alone. In a run of
`mnb` messages of which this holds, the masternodes of the list have different outpoints, and
each of them was unspent, of exactly 3000 coins and owned by the collateral key when the
message came that brought it. -/
theorem collateralOwned_of_run :
    (∀ context vin pubkey, (CMasternodeMan.isVinAssociatedWithPubkey context vin pubkey = true →
        OwnsCollateral context vin.prevout pubkey) ↔
      NoOtherCollateral context vin.prevout pubkey) ∧
    ∀ (man : CMasternodeMan) (messages : List (MasternodeContext × CMasternodeBroadcast)),
      man.vMasternodes = [] →
      (∀ message ∈ messages, NoOtherCollateral message.1 message.2.vin.prevout
        message.2.pubKeyCollateralAddress) →
      Backed messages (man.run messages).deeds := by
  refine ⟨ownsCollateral_iff, ?_⟩
  intro man messages empty single
  induction messages using List.reverseRecOn with
  | nil =>
    have none : (man.run []).deeds = [] := by
      change man.vMasternodes.map CMasternodeMan.deed = []
      rw [empty]
      rfl
    rw [none]
    exact ⟨nodup_nil, fun deed absent => absurd absent not_mem_nil⟩
  | append_singleton messages message ih =>
    have before := ih fun earlier member => single earlier (mem_append_left _ member)
    have last := single message (mem_append_right _ mem_cons_self)
    have step := before.processBroadcast last
    rw [CMasternodeMan.run, foldl_append]
    exact step

end

namespace SharedCollateral

/-! A transaction of height 1 with an output of 3000 coins for a key and one of 4000 coins for
somebody else, and 20 blocks. -/

def collateralKey : CPubKey := ⟨2 :: List.replicate 32 7⟩

def masternodeKey : CPubKey := ⟨2 :: List.replicate 32 9⟩

def txVin : CTransaction :=
  { nVersion := 1, vin := [{ prevout := ⟨5, 0⟩, scriptSig := [0x51] }],
    vout := [{ nValue := 3000 * COIN,
               scriptPubKey := getScriptForKeyID (@CPubKey.getID checksumCrypto collateralKey) },
             { nValue := 4000 * COIN, scriptPubKey := [0x51] }],
    nLockTime := 0 }

def txid : Uint256 := @CTransaction.getHash checksumCrypto txVin

def index (n : Nat) : CBlockIndex :=
  { phashBlock := some (BitVec.ofNat 256 n),
    pprev := if n = 0 then none else some (BitVec.ofNat 256 (n - 1)), nHeight := n,
    nTime := 1400000000 + 600 * n }

def node : Node where
  mapBlockIndex hash := if hash.toNat ≤ 20 then some (index hash.toNat) else none
  vChain := (List.range 21).map (BitVec.ofNat 256)
  diskBlocks _ := none
  diskUndo _ := none
  pcoinsTip := ⟨fun hash => if hash = txid then .fromTx txVin 1 else {}, 20⟩
  mapProofOfStake := []
  setStakeSeen := []
  mapUsedStakePointers _ := none
  setBlockIndexCandidates := []
  mapBlocksUnlinked := []
  nBlockSequenceId := 0

def context : MasternodeContext where
  enabled := true
  fMasterNode := false
  fMainNet := false
  fShutdown := false
  lockMain := true
  time := 1400013000
  adjustedTime := 1400013000
  minPaymentsProto := PROTOCOL_VERSION
  node := node
  mempool := ⟨fun _ => none, fun _ => false⟩
  readTxIndex hash := if hash = txid then some (some (txVin, 1)) else none
  mapLockedInputs _ := none
  lowPriority _ _ := false
  collateralPubKey := [0x51]
  broadcastSigned _ := true
  pingSigned _ _ := true
  ipUpdateSigned _ _ := true

/-- The broadcast of a masternode with an output of the transaction. -/
def broadcast (n : Nat) : CMasternodeBroadcast where
  vin := { prevout := ⟨txid, n⟩, scriptSig := [] }
  pubKeyCollateralAddress := collateralKey
  pubKeyMasternode := masternodeKey
  sigTime := 1400012500 + n
  protocolVersion := PROTOCOL_VERSION
  addr := ⟨0, 8888⟩

def messages : List (MasternodeContext × CMasternodeBroadcast) :=
  [(context, broadcast 0), (context, broadcast 1)]

end SharedCollateral

section

local instance SharedCollateral.params : ChainParams := regTestParams 0
local instance SharedCollateral.instCrypto : Crypto := checksumCrypto

namespace SharedCollateral

theorem deeds_messages : (CMasternodeMan.run {} messages).deeds =
    [(⟨txid, 0⟩, collateralKey.getID), (⟨txid, 1⟩, collateralKey.getID)] := by
  decide +kernel

theorem notOwned (pubkey : CPubKey) : ¬OwnsCollateral context ⟨txid, 1⟩ pubkey := by
  rintro ⟨tx, hashBlock, own, found, there, pays⟩
  have transaction : context.getTransaction txid = some (txVin, 1) := by
    decide +kernel
  obtain ⟨rfl, rfl⟩ := Prod.mk.inj (Option.some.inj (transaction.symm.trans found))
  obtain rfl := Option.some.inj there
  unfold CMasternodeMan.paysCollateral at pays
  rw [Bool.and_eq_true] at pays
  exact absurd pays.1 (by decide)

end SharedCollateral

open SharedCollateral

/-- Two masternodes of the list rest on the one output of 3000 coins: the second broadcast names
the other output of its transaction, which the collateral key does not own. -/
theorem sharedCollateral_listed :
    ¬Backed messages
      (CMasternodeMan.run {} messages).deeds ∧
    CMasternodeMan.isVinAssociatedWithPubkey context
      (broadcast 1).vin collateralKey = true ∧
    ¬OwnsCollateral context (broadcast 1).vin.prevout
      collateralKey := by
  refine ⟨?_, by decide +kernel, notOwned _⟩
  rw [deeds_messages]
  intro backed
  obtain ⟨message, member, _, pubkey, _, owns⟩ :=
    backed.brought _ (mem_cons_of_mem _ mem_cons_self)
  have same : message.1 = context := by
    rcases mem_cons.mp member with rfl | member
    · rfl
    · obtain rfl := mem_singleton.mp member
      rfl
  rw [same] at owns
  exact notOwned pubkey owns

/-- The first of the two broadcasts alone. -/
theorem collateralOwned_of_run_first :
    Backed [(context, broadcast 0)]
      (CMasternodeMan.run {} [(context, broadcast 0)]).deeds := by
  apply collateralOwned_of_run.2 {} _ rfl
  intro message member
  obtain rfl := mem_singleton.mp member
  intro tx hashBlock found n other _ _ _
  refine ⟨txVin, 1, _, ?_, rfl, ?_⟩
  · decide +kernel
  · decide +kernel

end

end Agouti
