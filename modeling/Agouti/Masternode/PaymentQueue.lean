import Agouti.Library.Shortlist
import Agouti.Masternode.BlockHashCache
import Agouti.Masternode.CheckAndRemove
import Agouti.Masternode.PaymentVotes

/-! # The queue for payment

`GetNextMasternodeInQueueForPayment` of `masternodeman.cpp`, with `SecondsSincePayment`,
`GetLastPaid` and `GetMasternodeInputAge` of a masternode and `IsScheduled`, `GetPayee` and
`HasPayeeWithVotes` of the payments. The masternodes that may be paid are sorted by the time since
their payment, and the best score among the first tenth is chosen. Neither the sort nor the choice
looks at who a masternode is, `IsScheduled` answers no when it cannot lock `cs_main`, and the age of
a collateral is computed once. The masternode that is chosen is a right one in every order of the
list exactly when nothing of this shows (`nextInQueue_iff`).
-/

namespace Agouti

open List Function Ranking

namespace CMasternodeBlockPayees

def getPayee (payees : CMasternodeBlockPayees) : Option CScript :=
  (champion CMasternodePayee.nVotes (-1) none payees.vecPayments).map
    CMasternodePayee.scriptPubKey

def hasPayeeWithVotes (payees : CMasternodeBlockPayees) (payee : CScript) (nVotesReq : Int) :
    Bool :=
  payees.vecPayments.any fun p => decide (nVotesReq ≤ p.nVotes) && p.scriptPubKey == payee

end CMasternodeBlockPayees

section

variable [Crypto]

def MasternodeRecord.mnpayee (mn : MasternodeRecord) : CScript :=
  getScriptForKeyID mn.pubKeyCollateralAddress.getID

namespace CMasternodePayments

def pays (payments : CMasternodePayments) (mnpayee : CScript) (nHeight : Int) : Bool :=
  (payments.mapMasternodeBlocks nHeight).any fun payees => payees.getPayee == some mnpayee

/-- The loop of `IsScheduled` from the height of the tip. -/
def scheduledFrom (payments : CMasternodePayments) (mnpayee : CScript)
    (nHeight nNotBlockHeight : Int) : Bool :=
  (List.range 9).any fun ahead =>
    nHeight + ahead != nNotBlockHeight && payments.pays mnpayee (nHeight + ahead)

def isScheduled (context : MasternodeContext) (payments : CMasternodePayments)
    (mn : MasternodeRecord) (nNotBlockHeight : Int) : Bool :=
  match context.node.tip with
  | none => false
  | some tip =>
    context.lockMain && payments.scheduledFrom mn.mnpayee tip.nHeight nNotBlockHeight

end CMasternodePayments

namespace MasternodeRecord

/-- The hash that `GetLastPaid` and `SecondsSincePayment` take. -/
def paymentHash (mn : MasternodeRecord) : Uint256 :=
  Hash (Serialize.txin mn.vin ++ Serialize.leInt 8 mn.sigTime)

/-- The loop of `GetLastPaid`; the number counts the blocks that it still looks at. -/
def readPaid (node : Node) (payments : CMasternodePayments) (mnpayee : CScript) (nOffset : Int) :
    Nat → Option CBlockIndex → Int
  | 0, _ => 0
  | _, none => 0
  | n + 1, some BlockReading =>
    if 0 < BlockReading.nHeight then
      if (payments.mapMasternodeBlocks BlockReading.nHeight).any
          fun payees => payees.hasPayeeWithVotes mnpayee 2 then
        BlockReading.nTime + nOffset
      else readPaid node payments mnpayee nOffset n (node.mapBlockIndex.prev BlockReading)
    else 0

/-- `CMasternode::GetLastPaid`, for the result of `CountEnabled`. -/
def getLastPaid (context : MasternodeContext) (payments : CMasternodePayments) (nEnabled : Nat)
    (mn : MasternodeRecord) : Int :=
  match context.node.tip with
  | none => 0
  | some tip =>
    readPaid context.node payments mn.mnpayee (mn.paymentHash.getCompact % 150 : Nat)
      (5 * nEnabled / 4) (some tip)

/-- `CMasternode::SecondsSincePayment`. -/
def secondsSincePayment (context : MasternodeContext) (payments : CMasternodePayments)
    (nEnabled : Nat) (mn : MasternodeRecord) : Int :=
  let sec := context.adjustedTime - mn.getLastPaid context payments nEnabled
  let month : Int := 60 * 60 * 24 * 30
  if sec < month then sec else month + (mn.paymentHash.getCompact : Int)

omit [Crypto] in
/-- `CMasternode::GetMasternodeInputAge`, with the age that it keeps. -/
def getMasternodeInputAge (context : MasternodeContext) (mn : MasternodeRecord) :
    MasternodeRecord × Int :=
  match context.node.tip with
  | none => (mn, 0)
  | some tip =>
    let mn :=
      if mn.cacheInputAge = 0 then
        { mn with
          cacheInputAge := context.getInputAge mn.vin
          cacheInputAgeBlock := tip.nHeight }
      else mn
    (mn, mn.cacheInputAge + (tip.nHeight - mn.cacheInputAgeBlock))

end MasternodeRecord

variable [ChainParams]

/-- A call of `GetNextMasternodeInQueueForPayment`, without `fFilterSigTime`. -/
structure QueueCall where
  context : MasternodeContext
  payments : CMasternodePayments
  nBlockHeight : Int

namespace QueueCall

variable (call : QueueCall)

/-- `CountEnabled()`, for masternodes that are checked. -/
def countEnabled (vMasternodes : List MasternodeRecord) : Nat :=
  vMasternodes.countP fun mn =>
    !decide (mn.protocolVersion < call.context.minPaymentsProto) && mn.isEnabled

/-- The body of the loop over the masternodes: the masternode as the loop leaves it, and its entry
in `vecMasternodeLastPaid`. -/
def visit (nMnCount : Nat) (fFilterSigTime : Bool) (mn : MasternodeRecord) :
    MasternodeRecord × Option (Int × CTxIn) :=
  let mn := mn.check call.context
  if !mn.isEnabled then (mn, none)
  else if mn.protocolVersion < call.context.minPaymentsProto then (mn, none)
  else if call.payments.isScheduled call.context mn call.nBlockHeight then (mn, none)
  else if fFilterSigTime &&
      decide (call.context.adjustedTime < mn.sigTime + nMnCount * 156) then (mn, none)
  else
    let (mn, age) := mn.getMasternodeInputAge call.context
    if age < nMnCount then (mn, none)
    else (mn, some (mn.secondsSincePayment call.context call.payments nMnCount, mn.vin))

/-- What a pass over the list has found. -/
structure Pass where
  vMasternodes : List MasternodeRecord
  nMnCount : Nat
  vecMasternodeLastPaid : List (Int × CTxIn)

/-- `CountEnabled()` and the loop over the masternodes. -/
def pass (fFilterSigTime : Bool) (vMasternodes : List MasternodeRecord) : Pass :=
  let vMasternodes := vMasternodes.map (·.check call.context)
  let nMnCount := call.countEnabled vMasternodes
  let visited := vMasternodes.map (call.visit nMnCount fFilterSigTime)
  { vMasternodes := visited.map Prod.fst
    nMnCount := nMnCount
    vecMasternodeLastPaid := visited.filterMap Prod.snd }

def payBest (vMasternodes : List MasternodeRecord) (nTenthNetwork : Nat) :
    BlockHashCache → Nat → Uint256 → Option MasternodeRecord → List (Int × CTxIn) →
      BlockHashCache × Option MasternodeRecord
  | mapCacheBlockHashes, _, _, pBestMasternode, [] => (mapCacheBlockHashes, pBestMasternode)
  | mapCacheBlockHashes, nCountTenth, nHigh, pBestMasternode, s :: rest =>
    match vMasternodes.find? fun mn => mn.vin.prevout == s.2.prevout with
    | none => (mapCacheBlockHashes, pBestMasternode)
    | some pmn =>
      let (after, n) := pmn.calculateScore call.context.node mapCacheBlockHashes
        (call.nBlockHeight - 100)
      let (nHigh, pBestMasternode) :=
        if nHigh < n then (n, some pmn) else (nHigh, pBestMasternode)
      if nTenthNetwork ≤ nCountTenth + 1 then (after, pBestMasternode)
      else payBest vMasternodes nTenthNetwork after (nCountTenth + 1) nHigh pBestMasternode rest

/-- The second half of the function. -/
def choose (sort : List (Int × CTxIn) → List (Int × CTxIn)) (mapCacheBlockHashes : BlockHashCache)
    (passed : Pass) : BlockHashCache × Option MasternodeRecord :=
  let vMasternodes := passed.vMasternodes.map (·.check call.context)
  call.payBest vMasternodes (call.countEnabled vMasternodes / 10) mapCacheBlockHashes 0 0 none
    (sort passed.vecMasternodeLastPaid)

/-- The pass whose masternodes are chosen from: when too few are left, the times of their
announcements do not count. -/
def lastPass (fFilterSigTime : Bool) (vMasternodes : List MasternodeRecord) : Pass :=
  let passed := call.pass fFilterSigTime vMasternodes
  if fFilterSigTime &&
      decide (passed.vecMasternodeLastPaid.length < passed.nMnCount / 3) then
    call.pass false passed.vMasternodes
  else passed

end QueueCall

/-- `CMasternodeMan::GetNextMasternodeInQueueForPayment`: the cache of hashes, the masternodes as
the passes leave them, the result and `nCount`. -/
def getNextMasternodeInQueueForPayment (sort : List (Int × CTxIn) → List (Int × CTxIn))
    (call : QueueCall) (mapCacheBlockHashes : BlockHashCache)
    (vMasternodes : List MasternodeRecord) (fFilterSigTime : Bool) :
    BlockHashCache × List MasternodeRecord × Option MasternodeRecord × Nat :=
  let passed := call.lastPass fFilterSigTime vMasternodes
  let (after, pBestMasternode) := call.choose sort mapCacheBlockHashes passed
  (after, passed.vMasternodes.map (·.check call.context), pBestMasternode,
    passed.vecMasternodeLastPaid.length)

/-! ### Checks and visits -/

namespace MasternodeRecord

variable (context : MasternodeContext) (mn : MasternodeRecord)

/-- The check of this moment is done. -/
def Settled : Prop :=
  context.fShutdown = true ∨ context.time - mn.lastTimeChecked < MASTERNODE_CHECK_SECONDS

theorem check_eq : ∃ time state, mn.check context =
    { mn with
      lastTimeChecked := time
      activeState := state } := by
  unfold check
  dsimp only
  split_ifs
  · exact ⟨mn.lastTimeChecked, mn.activeState, rfl⟩
  · exact ⟨mn.lastTimeChecked, mn.activeState, rfl⟩
  · exact ⟨context.time, mn.activeState, rfl⟩
  · exact ⟨context.time, _, rfl⟩
  · exact ⟨context.time, _, rfl⟩
  · exact ⟨context.time, _, rfl⟩
  · exact ⟨context.time, mn.activeState, rfl⟩
  · split
    · exact ⟨context.time, _, rfl⟩
    · exact ⟨context.time, _, rfl⟩

theorem settled_check : (mn.check context).Settled context := by
  unfold Settled
  by_cases down : context.fShutdown = true
  · exact .inl down
  right
  by_cases recent : context.time - mn.lastTimeChecked < MASTERNODE_CHECK_SECONDS
  · unfold check
    rwa [if_neg down, if_pos recent]
  · have now : (mn.check context).lastTimeChecked = context.time := by
      unfold check
      rw [if_neg down, if_neg recent]
      dsimp only
      split_ifs <;> try rfl
      split <;> rfl
    rw [now, Int.sub_self]
    decide

omit [Crypto] [ChainParams] in
theorem getMasternodeInputAge_fst : ∃ age block, (mn.getMasternodeInputAge context).1 =
    { mn with
      cacheInputAge := age
      cacheInputAgeBlock := block } := by
  unfold getMasternodeInputAge
  split
  · exact ⟨mn.cacheInputAge, mn.cacheInputAgeBlock, rfl⟩
  · dsimp only
    split_ifs
    · exact ⟨_, _, rfl⟩
    · exact ⟨mn.cacheInputAge, mn.cacheInputAgeBlock, rfl⟩

variable {context mn}

theorem Settled.check_eq_self (settled : mn.Settled context) : mn.check context = mn := by
  unfold check
  rcases settled with down | recent
  · exact if_pos down
  · rw [if_pos recent, ite_self]

end MasternodeRecord

namespace QueueCall

variable (call : QueueCall)

theorem visit_fst (nMnCount : Nat) (fFilterSigTime : Bool) (mn : MasternodeRecord) :
    ∃ age block, (call.visit nMnCount fFilterSigTime mn).1 =
      { mn.check call.context with
        cacheInputAge := age
        cacheInputAgeBlock := block } := by
  unfold visit
  dsimp only
  generalize mn.check call.context = checked
  split_ifs
  · exact ⟨checked.cacheInputAge, checked.cacheInputAgeBlock, rfl⟩
  · exact ⟨checked.cacheInputAge, checked.cacheInputAgeBlock, rfl⟩
  · exact ⟨checked.cacheInputAge, checked.cacheInputAgeBlock, rfl⟩
  · exact ⟨checked.cacheInputAge, checked.cacheInputAgeBlock, rfl⟩
  · exact checked.getMasternodeInputAge_fst call.context
  · exact checked.getMasternodeInputAge_fst call.context

theorem visit_settled (nMnCount : Nat) (fFilterSigTime : Bool) (mn : MasternodeRecord) :
    (call.visit nMnCount fFilterSigTime mn).1.Settled call.context := by
  obtain ⟨age, block, same⟩ := call.visit_fst nMnCount fFilterSigTime mn
  rw [same]
  exact mn.settled_check call.context

theorem visit_vin (nMnCount : Nat) (fFilterSigTime : Bool) (mn : MasternodeRecord) :
    (call.visit nMnCount fFilterSigTime mn).1.vin = mn.vin ∧
      (call.visit nMnCount fFilterSigTime mn).1.mnpayee = mn.mnpayee := by
  obtain ⟨age, block, same⟩ := call.visit_fst nMnCount fFilterSigTime mn
  obtain ⟨time, state, checked⟩ := mn.check_eq call.context
  rw [same, checked]
  exact ⟨rfl, rfl⟩

theorem visit_entry {nMnCount : Nat} {fFilterSigTime : Bool} {mn : MasternodeRecord}
    {entry : Int × CTxIn} (entered : (call.visit nMnCount fFilterSigTime mn).2 = some entry) :
    entry.2 = mn.vin ∧ (call.visit nMnCount fFilterSigTime mn).1.isEnabled = true ∧
      call.payments.isScheduled call.context (mn.check call.context) call.nBlockHeight = false := by
  obtain ⟨age, block, same⟩ := call.visit_fst nMnCount fFilterSigTime mn
  obtain ⟨kept, _⟩ := call.visit_vin nMnCount fFilterSigTime mn
  rw [same] at kept ⊢
  unfold visit at entered
  dsimp only at entered
  split_ifs at entered with off old scheduled young unripe
  obtain rfl := Option.some.inj entered
  refine ⟨?_, by simpa using off, by simpa using scheduled⟩
  obtain ⟨age, block, aged⟩ := (mn.check call.context).getMasternodeInputAge_fst call.context
  rw [aged]
  exact kept

theorem countEnabled_visited (nMnCount : Nat) (fFilterSigTime : Bool)
    (vMasternodes : List MasternodeRecord) :
    call.countEnabled ((vMasternodes.map fun mn =>
        (call.visit nMnCount fFilterSigTime (mn.check call.context)).1).map
          (·.check call.context)) =
      call.countEnabled (vMasternodes.map (·.check call.context)) := by
  unfold countEnabled
  rw [map_map, countP_map, countP_map]
  refine countP_congr fun mn _ => ?_
  obtain ⟨age, block, same⟩ :=
    call.visit_fst nMnCount fFilterSigTime (mn.check call.context)
  have settled := call.visit_settled nMnCount fFilterSigTime (mn.check call.context)
  simp only [comp_apply, settled.check_eq_self]
  rw [same, (mn.settled_check call.context).check_eq_self]

def visits (nMnCount : Nat) (fFilterSigTime retried : Bool) (mn : MasternodeRecord) :
    MasternodeRecord × Option (Int × CTxIn) :=
  let visited := call.visit nMnCount fFilterSigTime (mn.check call.context)
  if retried then call.visit nMnCount false (visited.1.check call.context) else visited

theorem pass_eq (fFilterSigTime : Bool) (vMasternodes : List MasternodeRecord) :
    call.pass fFilterSigTime vMasternodes =
      let nMnCount := call.countEnabled (vMasternodes.map (·.check call.context))
      { vMasternodes := vMasternodes.map fun mn =>
          (call.visit nMnCount fFilterSigTime (mn.check call.context)).1
        nMnCount := nMnCount
        vecMasternodeLastPaid := vMasternodes.filterMap fun mn =>
          (call.visit nMnCount fFilterSigTime (mn.check call.context)).2 } := by
  unfold pass
  simp only [map_map, filterMap_map]
  rfl

theorem lastPass_eq (fFilterSigTime : Bool) (vMasternodes : List MasternodeRecord) :
    ∃ retried, ∀ others, vMasternodes.Perm others →
      call.lastPass fFilterSigTime others =
        let nMnCount := call.countEnabled (vMasternodes.map (·.check call.context))
        { vMasternodes := others.map fun mn => (call.visits nMnCount fFilterSigTime retried mn).1
          nMnCount := nMnCount
          vecMasternodeLastPaid := others.filterMap fun mn =>
            (call.visits nMnCount fFilterSigTime retried mn).2 } := by
  have passes {others : List MasternodeRecord} (order : vMasternodes.Perm others) :
      call.countEnabled (others.map (·.check call.context)) =
        call.countEnabled (vMasternodes.map (·.check call.context)) :=
    ((order.map _).countP_eq _).symm
  generalize whole : call.countEnabled (vMasternodes.map (·.check call.context)) = nMnCount
    at passes
  have short {others : List MasternodeRecord} (order : vMasternodes.Perm others) :
      (others.filterMap fun mn =>
        (call.visit nMnCount fFilterSigTime (mn.check call.context)).2).length =
      (vMasternodes.filterMap fun mn =>
        (call.visit nMnCount fFilterSigTime (mn.check call.context)).2).length :=
    (order.filterMap _).length_eq.symm
  refine ⟨fFilterSigTime && decide ((vMasternodes.filterMap fun mn =>
    (call.visit nMnCount fFilterSigTime (mn.check call.context)).2).length < nMnCount / 3),
    fun others order => ?_⟩
  have count := passes order
  unfold lastPass
  rw [call.pass_eq fFilterSigTime others]
  dsimp only
  rw [count, short order]
  split
  · rename_i few
    simp only [few, visits, if_true]
    rw [call.pass_eq false, call.countEnabled_visited, count]
    dsimp only
    rw [map_map, filterMap_map]
    rfl
  · rename_i enough
    simp only [enough, visits, if_false, Bool.false_eq_true]

/-- The masternode is not scheduled for a coming block. -/
def Unscheduled (mn : MasternodeRecord) : Prop :=
  ∀ tip, call.context.node.tip = some tip →
    call.payments.scheduledFrom mn.mnpayee tip.nHeight call.nBlockHeight = false

omit [ChainParams] in
theorem unscheduled_of_isScheduled {mn : MasternodeRecord} (locked : call.context.lockMain = true)
    (free : call.payments.isScheduled call.context mn call.nBlockHeight = false) :
    call.Unscheduled mn := by
  intro tip top
  unfold CMasternodePayments.isScheduled at free
  rw [top, locked] at free
  exact free

theorem visits_fst (nMnCount : Nat) (fFilterSigTime retried : Bool) (mn : MasternodeRecord) :
    (call.visits nMnCount fFilterSigTime retried mn).1.Settled call.context ∧
      (call.visits nMnCount fFilterSigTime retried mn).1.vin = mn.vin ∧
      (call.visits nMnCount fFilterSigTime retried mn).1.mnpayee = mn.mnpayee := by
  have checked (mn : MasternodeRecord) :
      (mn.check call.context).vin = mn.vin ∧ (mn.check call.context).mnpayee = mn.mnpayee := by
    obtain ⟨time, state, same⟩ := mn.check_eq call.context
    rw [same]
    exact ⟨rfl, rfl⟩
  have once (fFilterSigTime : Bool) (mn : MasternodeRecord) :
      (call.visit nMnCount fFilterSigTime (mn.check call.context)).1.vin = mn.vin ∧
        (call.visit nMnCount fFilterSigTime (mn.check call.context)).1.mnpayee = mn.mnpayee := by
    obtain ⟨vin, payee⟩ := call.visit_vin nMnCount fFilterSigTime (mn.check call.context)
    rw [vin, payee]
    exact checked mn
  unfold visits
  dsimp only
  split
  · refine ⟨call.visit_settled .., ?_⟩
    obtain ⟨vin, payee⟩ := once false (call.visit nMnCount fFilterSigTime (mn.check call.context)).1
    rw [vin, payee]
    exact once fFilterSigTime mn
  · exact ⟨call.visit_settled .., once fFilterSigTime mn⟩

theorem visits_entry {nMnCount : Nat} {fFilterSigTime retried : Bool} {mn : MasternodeRecord}
    {entry : Int × CTxIn}
    (entered : (call.visits nMnCount fFilterSigTime retried mn).2 = some entry) :
    entry.2 = mn.vin ∧ (call.visits nMnCount fFilterSigTime retried mn).1.isEnabled = true ∧
      (call.context.lockMain = true → call.Unscheduled mn) := by
  obtain ⟨_, keptVin, keptPayee⟩ := call.visits_fst nMnCount fFilterSigTime retried mn
  have visited {fFilterSigTime : Bool} {other : MasternodeRecord} {entry : Int × CTxIn}
      (entered : (call.visit nMnCount fFilterSigTime other).2 = some entry)
      (vin : (call.visit nMnCount fFilterSigTime other).1.vin = mn.vin)
      (payee : (call.visit nMnCount fFilterSigTime other).1.mnpayee = mn.mnpayee) :
      entry.2 = mn.vin ∧ (call.visit nMnCount fFilterSigTime other).1.isEnabled = true ∧
        (call.context.lockMain = true → call.Unscheduled mn) := by
    obtain ⟨same, ready, free⟩ := call.visit_entry entered
    obtain ⟨sameVin, samePayee⟩ := call.visit_vin nMnCount fFilterSigTime other
    refine ⟨same.trans (sameVin.symm.trans vin), ready, fun locked => ?_⟩
    have unscheduled := call.unscheduled_of_isScheduled locked free
    obtain ⟨time, state, checked⟩ := other.check_eq call.context
    unfold Unscheduled at unscheduled ⊢
    rw [checked] at unscheduled
    rw [← payee, samePayee]
    exact unscheduled
  unfold visits at entered keptVin keptPayee ⊢
  dsimp only at entered keptVin keptPayee ⊢
  split at entered
  · rename_i again
    rw [if_pos again] at keptVin keptPayee ⊢
    exact visited entered keptVin keptPayee
  · rename_i once
    rw [if_neg once] at keptVin keptPayee ⊢
    exact visited entered keptVin keptPayee

/-! ### The choice -/

/-- What decides among the first ones: the score for the block hash. -/
def merit (answer : Option Uint256) (vin : CTxIn) : Uint256 :=
  (answer.map (scoreOf vin.prevout)).getD 0

variable {vMasternodes : List MasternodeRecord}

omit [ChainParams] in
theorem payBest_vin {answer : Option Uint256} {nTenthNetwork nCountTenth : Nat}
    {cache : BlockHashCache} {nHigh : Uint256} {best : Option MasternodeRecord}
    {entries : List (Int × CTxIn)}
    (answered : (call.context.node.getBlockHash cache (toInt32 (call.nBlockHeight - 100))).2 =
      answer) (found : ∀ s ∈ entries, ∃ pmn,
      (vMasternodes.find? fun mn => mn.vin.prevout == s.2.prevout) = some pmn ∧ pmn.vin = s.2) :
    (call.payBest vMasternodes nTenthNetwork cache nCountTenth nHigh best entries).2.map (·.vin) =
      champion (merit answer) nHigh (best.map (·.vin))
        ((entries.take (max 1 (nTenthNetwork - nCountTenth))).map Prod.snd) := by
  induction entries generalizing cache nCountTenth nHigh best with
  | nil =>
    rw [take_nil]
    rfl
  | cons s rest ih =>
    obtain ⟨⟨pmn, here, same⟩, later⟩ := forall_mem_cons.mp found
    have again := Node.getBlockHash_again call.context.node cache
      (toInt32 (call.nBlockHeight - 100))
    unfold payBest
    simp only [here, CMasternode.calculateScore_eq, answered, same]
    obtain ⟨first, size⟩ : ∃ first, max 1 (nTenthNetwork - nCountTenth) = first + 1 :=
      ⟨max 1 (nTenthNetwork - nCountTenth) - 1, by omega⟩
    rw [size, take_succ_cons, map_cons, champion]
    have better : merit answer s.2 = (answer.map (scoreOf s.2.prevout)).getD 0 := rfl
    rw [← better]
    have step (nHigh : Uint256) (best : Option MasternodeRecord) :
        Option.map (·.vin) (if nTenthNetwork ≤ nCountTenth + 1 then
          ((call.context.node.getBlockHash cache (toInt32 (call.nBlockHeight - 100))).1, best)
        else call.payBest vMasternodes nTenthNetwork
          (call.context.node.getBlockHash cache (toInt32 (call.nBlockHeight - 100))).1
          (nCountTenth + 1) nHigh best rest).2 =
        champion (merit answer) nHigh (best.map (·.vin))
          ((rest.take first).map Prod.snd) := by
      split
      · obtain rfl : first = 0 := by omega
        rfl
      · obtain rfl : first = max 1 (nTenthNetwork - (nCountTenth + 1)) := by omega
        exact ih ((congrArg Prod.snd again).trans answered) later
    by_cases higher : nHigh < merit answer s.2
    · simp only [if_pos higher]
      rw [step, Option.map_some, same]
    · simp only [if_neg higher]
      exact step nHigh best

omit [ChainParams] in
theorem payBest_mem {nTenthNetwork nCountTenth : Nat} {cache : BlockHashCache} {nHigh : Uint256}
    {best : Option MasternodeRecord} {entries : List (Int × CTxIn)} {mn : MasternodeRecord}
    (known : ∀ mn, best = some mn → mn ∈ vMasternodes)
    (paid : (call.payBest vMasternodes nTenthNetwork cache nCountTenth nHigh best entries).2 =
      some mn) : mn ∈ vMasternodes := by
  induction entries generalizing cache nCountTenth nHigh best with
  | nil => exact known mn paid
  | cons s rest ih =>
    unfold payBest at paid
    split at paid
    · exact known mn paid
    · rename_i pmn here
      have listed := List.mem_of_find?_eq_some here
      dsimp only at paid
      generalize (pmn.calculateScore call.context.node cache (call.nBlockHeight - 100)).2 = n
        at paid
      have kept : ∀ mn, (if nHigh < n then (n, some pmn) else (nHigh, best)).2 = some mn →
          mn ∈ vMasternodes := by
        intro mn chosen
        split at chosen
        · rwa [← Option.some.inj chosen]
        · exact known mn chosen
      split at paid
      · exact kept mn paid
      · exact ih kept paid

theorem lastPass_count (fFilterSigTime : Bool) (vMasternodes : List MasternodeRecord) :
    call.countEnabled ((call.lastPass fFilterSigTime vMasternodes).vMasternodes.map
        (·.check call.context)) =
      (call.lastPass fFilterSigTime vMasternodes).nMnCount := by
  have passed (fFilterSigTime : Bool) (vMasternodes : List MasternodeRecord) :
      call.countEnabled ((call.pass fFilterSigTime vMasternodes).vMasternodes.map
        (·.check call.context)) = (call.pass fFilterSigTime vMasternodes).nMnCount := by
    rw [call.pass_eq]
    exact call.countEnabled_visited ..
  unfold lastPass
  dsimp only
  split
  · exact passed false _
  · exact passed fFilterSigTime vMasternodes

omit [Crypto] [ChainParams] in
theorem find_of_mem {pmn : MasternodeRecord} (distinct : (vMasternodes.map (·.vin.prevout)).Nodup)
    (member : pmn ∈ vMasternodes) :
    (vMasternodes.find? fun mn => mn.vin.prevout == pmn.vin.prevout) = some pmn := by
  have there : (vMasternodes.find? fun mn => mn.vin.prevout == pmn.vin.prevout).isSome :=
    List.find?_isSome.mpr ⟨pmn, member, beq_self_eq_true _⟩
  obtain ⟨other, found⟩ := Option.isSome_iff_exists.mp there
  have same : other.vin.prevout = pmn.vin.prevout := by simpa using List.find?_some found
  rw [found, inj_on_of_nodup_map distinct (List.mem_of_find?_eq_some found) member same]

/-- The result for a call, and what it was before the passes. -/
structure Outcome (sort : List (Int × CTxIn) → List (Int × CTxIn)) (cache : BlockHashCache)
    (fFilterSigTime : Bool) (vMasternodes : List MasternodeRecord) : Prop where
  /-- The choice from the first tenth. -/
  chosen : (getNextMasternodeInQueueForPayment sort call cache vMasternodes
      fFilterSigTime).2.2.1.map (·.vin) =
    chosen (merit (call.context.node.getBlockHash cache
        (toInt32 (call.nBlockHeight - 100))).2) 0 sort
      (max 1 ((call.lastPass fFilterSigTime vMasternodes).nMnCount / 10))
      (call.lastPass fFilterSigTime vMasternodes).vecMasternodeLastPaid
  /-- Who is chosen was enabled, and no vote schedules it if `cs_main` was locked. -/
  fit : ∀ mn time, (getNextMasternodeInQueueForPayment sort call cache vMasternodes
      fFilterSigTime).2.2.1 = some mn →
    (time, mn.vin) ∈ (call.lastPass fFilterSigTime vMasternodes).vecMasternodeLastPaid →
    ∃ listed ∈ vMasternodes, listed.vin = mn.vin ∧ listed.mnpayee = mn.mnpayee ∧
      mn.isEnabled = true ∧ (call.context.lockMain = true → call.Unscheduled mn)

theorem outcome {sort : List (Int × CTxIn) → List (Int × CTxIn)} (sorts : Ranking.Sorts sort)
    (cache : BlockHashCache) (fFilterSigTime : Bool)
    (distinct : (vMasternodes.map (·.vin.prevout)).Nodup) :
    call.Outcome sort cache fFilterSigTime vMasternodes := by
  obtain ⟨retried, passes⟩ := call.lastPass_eq fFilterSigTime vMasternodes
  have passed := passes vMasternodes (.refl _)
  have count := call.lastPass_count fFilterSigTime vMasternodes
  dsimp only at passed
  generalize call.countEnabled (vMasternodes.map (·.check call.context)) = nMnCount at passed
  have left : (call.lastPass fFilterSigTime vMasternodes).vMasternodes.map (·.check call.context) =
      vMasternodes.map fun mn => (call.visits nMnCount fFilterSigTime retried mn).1 := by
    rw [passed, map_map]
    refine map_congr_left fun mn _ => ?_
    exact (call.visits_fst nMnCount fFilterSigTime retried mn).1.check_eq_self
  have entries : (call.lastPass fFilterSigTime vMasternodes).vecMasternodeLastPaid =
      vMasternodes.filterMap fun mn => (call.visits nMnCount fFilterSigTime retried mn).2 := by
    rw [passed]
  have vin (mn : MasternodeRecord) :=
    (call.visits_fst nMnCount fFilterSigTime retried mn).2.1
  have outpoints : ((vMasternodes.map fun mn =>
      (call.visits nMnCount fFilterSigTime retried mn).1).map (·.vin.prevout)).Nodup := by
    rw [map_map]
    simpa [comp_def, vin] using distinct
  constructor
  · unfold getNextMasternodeInQueueForPayment choose
    dsimp only
    rw [count, call.payBest_vin rfl, Nat.sub_zero]
    · rfl
    · intro s member
      rw [(sorts.perm _).mem_iff, entries] at member
      obtain ⟨mn, listed, entered⟩ := mem_filterMap.mp member
      have same := (call.visits_entry entered).1
      rw [left]
      refine ⟨(call.visits nMnCount fFilterSigTime retried mn).1, ?_, (vin mn).trans same.symm⟩
      rw [same, ← vin mn]
      exact find_of_mem outpoints (mem_map_of_mem listed)
  · intro mn time chose entered
    unfold getNextMasternodeInQueueForPayment choose at chose
    dsimp only at chose
    have member := call.payBest_mem (fun mn none => absurd none (Option.some_ne_none mn).symm) chose
    rw [left] at member
    obtain ⟨listed, here, rfl⟩ := mem_map.mp member
    rw [entries] at entered
    obtain ⟨other, there, entry⟩ := mem_filterMap.mp entered
    obtain ⟨same, ready, free⟩ := call.visits_entry entry
    obtain rfl : other = listed := by
      refine inj_on_of_nodup_map distinct there here (congrArg CTxIn.prevout ?_)
      rw [← vin listed, ← same]
    have payee := (call.visits_fst nMnCount fFilterSigTime retried other).2.2
    refine ⟨other, here, (vin other).symm, payee.symm, ready, fun locked => ?_⟩
    unfold Unscheduled
    rw [payee]
    exact free locked

theorem values_nodup (nMnCount : Nat) (fFilterSigTime retried : Bool)
    (distinct : (vMasternodes.map (·.vin.prevout)).Nodup) :
    ((vMasternodes.filterMap fun mn =>
      (call.visits nMnCount fFilterSigTime retried mn).2).map Prod.snd).Nodup := by
  have part : ((vMasternodes.filterMap fun mn =>
      (call.visits nMnCount fFilterSigTime retried mn).2).map Prod.snd).Sublist
        (vMasternodes.map (·.vin)) := by
    clear distinct
    induction vMasternodes with
    | nil => exact List.Sublist.refl []
    | cons mn rest ih =>
      rw [filterMap_cons]
      cases entered : (call.visits nMnCount fFilterSigTime retried mn).2 with
      | none => exact ih.trans (sublist_cons_self _ _)
      | some entry =>
        rw [map_cons, map_cons, (call.visits_entry entered).1]
        exact ih.cons_cons _
  refine part.nodup (List.Nodup.of_map CTxIn.prevout ?_)
  rwa [map_map]

/-! ### When the choice is right -/

/-- What a right choice is: in every order of the list the same masternode is chosen, and one is
whenever one is eligible; it is enabled, no vote schedules it for another of the next blocks, its
collateral has as many confirmations as masternodes are enabled, and fewer eligible ones than a
tenth of those, or none, are longer unpaid. -/
def PaysRight (sort : List (Int × CTxIn) → List (Int × CTxIn)) (cache : BlockHashCache)
    (vMasternodes : List MasternodeRecord) (fFilterSigTime : Bool) : Prop :=
  ∀ others, vMasternodes.Perm others →
    let result (vMasternodes : List MasternodeRecord) : Option MasternodeRecord :=
      (getNextMasternodeInQueueForPayment sort call cache vMasternodes fFilterSigTime).2.2.1
    let eligible := (call.lastPass fFilterSigTime others).vecMasternodeLastPaid
    let nMnCount := (call.lastPass fFilterSigTime others).nMnCount
    (result others).map (·.vin) = (result vMasternodes).map (·.vin) ∧
    (eligible ≠ [] → result others ≠ none) ∧
    ∀ mn, result others = some mn →
      mn.isEnabled = true ∧ call.Unscheduled mn ∧
      (nMnCount : Int) ≤ call.context.getInputAge mn.vin ∧
      ∃ time, (time, mn.vin) ∈ eligible ∧ above eligible time < max 1 (nMnCount / 10)

/-- One masternode is among the first tenth however equal times are ordered, and beats every other
one that may be; when `cs_main` was not locked no vote schedules it, and the age of its collateral
does not only come from the time before a reorganisation. -/
structure Decided (answer : Option Uint256) (vMasternodes : List MasternodeRecord)
    (passed : Pass) (winner : Int × CTxIn) : Prop where
  unrivalled : Ranking.Unrivalled (merit answer) 0 (max 1 (passed.nMnCount / 10))
    passed.vecMasternodeLastPaid winner
  unscheduled : call.context.lockMain = false →
    ∀ mn ∈ vMasternodes, mn.vin = winner.2 → call.Unscheduled mn
  confirmed : (passed.nMnCount : Int) ≤ call.context.getInputAge winner.2

/-- **When the masternode for payment is a right one.** The choice is right and the same for every
order of the masternodes exactly when nobody is eligible or one of the eligible decides it. -/
theorem nextInQueue_iff {sort : List (Int × CTxIn) → List (Int × CTxIn)}
    (sorts : Ranking.Sorts sort) (cache : BlockHashCache) (fFilterSigTime : Bool)
    {vMasternodes : List MasternodeRecord}
    (distinct : (vMasternodes.map (·.vin.prevout)).Nodup) :
    call.PaysRight sort cache vMasternodes fFilterSigTime ↔
      ((call.lastPass fFilterSigTime vMasternodes).vecMasternodeLastPaid ≠ [] →
        ∃ winner, call.Decided
          (call.context.node.getBlockHash cache (toInt32 (call.nBlockHeight - 100))).2
          vMasternodes (call.lastPass fFilterSigTime vMasternodes) winner) := by
  obtain ⟨retried, passes⟩ := call.lastPass_eq fFilterSigTime vMasternodes
  dsimp only at passes
  generalize call.countEnabled (vMasternodes.map (·.check call.context)) = nMnCount at passes
  have outcomes {others : List MasternodeRecord} (order : vMasternodes.Perm others) :=
    call.outcome sorts cache fFilterSigTime ((order.map _).nodup_iff.mp distinct)
  have values := call.values_nodup nMnCount fFilterSigTime retried distinct
  have choice {others : List MasternodeRecord} (order : vMasternodes.Perm others) :=
    (outcomes order).chosen
  generalize (call.context.node.getBlockHash cache (toInt32 (call.nBlockHeight - 100))).2 = answer
    at choice ⊢
  have here := passes vMasternodes (.refl _)
  constructor
  · intro right some
    have chose := choice (.refl _)
    obtain ⟨_, somebody, fit⟩ := right vMasternodes (.refl _)
    dsimp only at somebody fit
    rw [here] at some chose somebody fit ⊢
    have decides : ∃ winner, Ranking.Unrivalled (merit answer) 0 (max 1 (nMnCount / 10))
        (vMasternodes.filterMap fun mn => (call.visits nMnCount fFilterSigTime retried mn).2)
        winner := by
      refine (sorts.chosen_orderless_iff _ vMasternodes values).mp
        ⟨fun some => ?_, fun others order => ?_⟩ some
      · rw [← chose, Ne, Option.map_eq_none_iff]
        exact somebody some
      · have same := (right others order).1
        have first := choice order
        rw [passes others order] at first
        rw [← first, ← chose]
        exact same
    obtain ⟨winner, unrivalled⟩ := decides
    rw [sorts.chosen_of_unrivalled values unrivalled] at chose
    obtain ⟨mn, paid, vin⟩ := Option.map_eq_some_iff.mp chose
    obtain ⟨_, free, confirmed, time, member, _⟩ := fit mn paid
    rw [← congrArg Pass.vecMasternodeLastPaid here] at member
    obtain ⟨listed, there, same, payee, _⟩ := (outcomes (.refl _)).fit mn time paid member
    refine ⟨winner, unrivalled, fun _ other present alike => ?_, vin ▸ confirmed⟩
    obtain rfl : other = listed := by
      refine inj_on_of_nodup_map distinct present there (congrArg CTxIn.prevout ?_)
      rw [alike, same, vin]
    unfold Unscheduled
    rw [payee]
    exact free
  · intro decided others order
    have chose := choice order
    have choseHere := choice (.refl _)
    have perm := order.filterMap fun mn => (call.visits nMnCount fFilterSigTime retried mn).2
    have there := passes others order
    dsimp only
    rw [there] at chose ⊢
    rw [here] at choseHere decided
    by_cases nobody : (vMasternodes.filterMap fun mn =>
        (call.visits nMnCount fFilterSigTime retried mn).2) = []
    · have empty : (others.filterMap fun mn =>
          (call.visits nMnCount fFilterSigTime retried mn).2) = [] :=
        perm_nil.mp (nobody ▸ perm.symm)
      have noneHere : chosen (merit answer) 0 sort (max 1 (nMnCount / 10)) [] = none := by
        rw [chosen, shortlist, perm_nil.mp (sorts.perm []), take_nil]
        rfl
      dsimp only at chose choseHere ⊢
      rw [empty] at chose ⊢
      rw [nobody] at choseHere
      rw [noneHere] at chose choseHere
      refine ⟨by rw [chose, choseHere], fun some => absurd rfl some, fun mn paid => ?_⟩
      rw [paid] at chose
      exact absurd chose (Option.some_ne_none _)
    · obtain ⟨winner, unrivalled, free, confirmed⟩ := decided nobody
      have chooses := sorts.chosen_of_unrivalled values unrivalled
      have choosesThere := sorts.chosen_of_unrivalled ((perm.map _).nodup_iff.mp values)
        (unrivalled.perm perm)
      rw [chooses] at choseHere
      rw [choosesThere] at chose
      refine ⟨by rw [chose, choseHere], fun _ none => ?_, fun mn paid => ?_⟩
      · rw [none] at chose
        exact absurd chose.symm (Option.some_ne_none _)
      · rw [paid] at chose
        have vin : mn.vin = winner.2 := Option.some.inj chose
        have entered := (unrivalled.perm perm).entered
        have member : (winner.1, mn.vin) ∈
            (call.lastPass fFilterSigTime others).vecMasternodeLastPaid := by
          rw [there, vin]
          exact entered
        obtain ⟨listed, present, same, payee, ready, locked⟩ :=
          (outcomes order).fit mn winner.1 paid member
        have longer := (above_lt_notBelow entered).trans_le (unrivalled.perm perm).certain
        refine ⟨ready, ?_, vin ▸ confirmed, winner.1, vin ▸ entered, longer⟩
        by_cases lock : call.context.lockMain = true
        · exact locked lock
        · have unscheduled := free (Bool.eq_false_iff.mpr lock) listed
            (order.mem_iff.mpr present) (same.trans vin)
          unfold Unscheduled at unscheduled ⊢
          rwa [← payee]

end QueueCall

end

namespace TiedTimes

/-! Two masternodes that were never paid, with hashes of one compact form. -/

def first : MasternodeRecord :=
  { MovedHash.masternode 1 with
    lastTimeChecked := 1499999999
    cacheInputAge := 100
    cacheInputAgeBlock := 2 }

def second : MasternodeRecord :=
  { MovedHash.masternode 2 with
    lastTimeChecked := 1499999999
    cacheInputAge := 100
    cacheInputAgeBlock := 2 }

end TiedTimes

section

local instance TiedTimes.params : ChainParams := regTestParams 0
local instance TiedTimes.crypto : Crypto := StakedTip.crypto
local instance TiedTimes.legacy : Legacy := VotedPayee.legacy

namespace TiedTimes

def call : QueueCall where
  context :=
    { MovedHash.context MovedHash.before with
      time := 1500000000
      adjustedTime := 1500000000 }
  payments := {}
  nBlockHeight := 12

end TiedTimes

open TiedTimes

namespace QueueCall

theorem nextInQueue_iff_tied :
    call.PaysRight stable (fun _ => none) [first, second] true ↔
      ((call.lastPass true [first, second]).vecMasternodeLastPaid ≠ [] →
        ∃ winner, call.Decided
          (call.context.node.getBlockHash (fun _ => none) (toInt32 (call.nBlockHeight - 100))).2
          [first, second] (call.lastPass true [first, second]) winner) :=
  call.nextInQueue_iff sorts_stable (fun _ => none) true (by decide)

/-- Each of the two is chosen when it stands in front. -/
theorem not_paysRight :
    (getNextMasternodeInQueueForPayment stable call (fun _ => none) [first, second]
        true).2.2.1.map (·.vin) = some first.vin ∧
      (getNextMasternodeInQueueForPayment stable call (fun _ => none) [second, first]
        true).2.2.1.map (·.vin) = some second.vin ∧
      ¬ call.PaysRight stable (fun _ => none) [first, second] true := by
  have here : (getNextMasternodeInQueueForPayment stable call (fun _ => none)
      [first, second] true).2.2.1.map (·.vin) = some first.vin := by
    decide +kernel
  have swapped : (getNextMasternodeInQueueForPayment stable call (fun _ => none)
      [second, first] true).2.2.1.map (·.vin) = some second.vin := by
    decide +kernel
  refine ⟨here, swapped, fun right => ?_⟩
  have same := (right [second, first] (List.Perm.swap second first [])).1
  exact absurd (swapped.symm.trans (same.trans here)) (by decide)

end QueueCall

end

end Agouti
