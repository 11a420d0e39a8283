import Agouti.Masternode.GetBudget

/-! # A veto is permanent

`CBudgetManager::AddVetoVote` records the veto of the chain owner against a proposal. No message,
new block, re-synchronization or restart removes it or adds a second one, and from the veto fork
on the proposal is not in the budget, is not paid and makes no budget payment block
(`veto_permanent`). Only `IsTransactionValid` does not pass over a finalized budget that pays the
proposal: it stops there for good, unless it returns before.
-/

namespace Agouti

open List BudgetView

/-- `CVetoVote`. -/
structure VetoVote extends CVetoVote where
  nTime : Int
  vchSig : List UInt8
  fSynced : Bool := false
  deriving DecidableEq

/-- `CVetoVote::GetHash`. -/
def VetoVote.getHash [Crypto] (vote : VetoVote) : Uint256 :=
  Hash (Serialize.uint256 vote.nProposalHash ++ Serialize.leInt 8 vote.nTime)

/-- Why a veto is not recorded: the texts that `strError` is set to. -/
inductive VetoError where
  /-- "Invalid proposal hash" -/
  | invalidHash
  /-- "Veto already recorded for this proposal" -/
  | alreadyRecorded
  /-- "Duplicate veto vote" -/
  | duplicate
  /-- "Invalid veto signature" -/
  | invalidSignature
  deriving DecidableEq, Repr

/-- `CBudgetManager` with its vetoes. -/
structure VetoManager extends CBudgetManager where
  mapSeenVetoVotes : SortedMap Uint256 VetoVote := .empty

/-- What a call about a veto reads of the rest of the node. -/
structure VetoContext where
  /-- `!fLiteMode` and `masternodeSync.IsBlockchainSynced()` -/
  enabled : Bool
  /-- `GetAdjustedTime()` -/
  adjustedTime : Int
  /-- the time of the block of the fee transaction of a stored proposal -/
  proposalTime : CBudgetProposalBroadcast → Int
  /-- `CBudgetProposal::IsValid` -/
  isValid : CBudgetProposalBroadcast → Bool
  /-- `CVetoVote::IsSignatureValid` -/
  signatureValid : VetoVote → Bool

/-- `budget.dat`: what `CBudgetManager::SerializationOp` writes. An old file ends before the
vetoes. -/
structure BudgetFile where
  proposals : VoteStore CBudgetProposalBroadcast CBudgetVote
  budgets : VoteStore CFinalizedBudgetBroadcast CFinalizedBudgetVote
  mapSeenVetoVotes : Option (SortedMap Uint256 VetoVote)

/-- What reading a file leaves of a store: the flags are those of the constructors, and what is
not serialized is empty. -/
def VoteStore.loaded {Item Vote : Type} [BudgetVote Vote] (store : VoteStore Item Vote) :
    VoteStore Item Vote :=
  { store with
    mapItems := fun hash => (store.mapItems hash).map fun entry =>
      { item := entry.item,
        mapVotes := fun key => (entry.mapVotes key).map (BudgetVote.setValid true) },
    vecImmature := [] }

/-- The part of `CBudgetManager::CheckAndRemove` for one of the stores. -/
def VoteStore.checkAndRemove {Item Vote : Type} (context : BudgetContext Item Vote)
    (store : VoteStore Item Vote) : VoteStore Item Vote :=
  { store with
    mapItems := fun hash => (store.mapItems hash).map fun entry =>
      { entry with fValid := context.isValid entry.item } }

namespace VetoManager

/-- `CBudgetManager::HasVetoVoteForProposalNoLock`. -/
def hasVetoVoteForProposal (manager : VetoManager) (nProposalHash : Uint256) : Bool :=
  manager.mapSeenVetoVotes.entries.any fun entry =>
    entry.2.nProposalHash == nProposalHash && entry.2.fValid

/-- The vetoes as the selection of payments reads them. -/
def vetoVotes (manager : VetoManager) : List CVetoVote :=
  manager.mapSeenVetoVotes.entries.map fun entry => entry.2.toCVetoVote

/-- `CBudgetManager::ClearSeen`. -/
def clearSeen (manager : VetoManager) : VetoManager :=
  { manager with
    proposals := manager.proposals.clearSeen, budgets := manager.budgets.clearSeen }

/-- `CBudgetManager::ResetSync`, for the vetoes. -/
def resetSync (manager : VetoManager) : VetoManager :=
  { manager with
    mapSeenVetoVotes := manager.mapSeenVetoVotes.mapValues fun vote =>
      { vote with fSynced := false } }

/-- `CBudgetManager::MarkSynced`, for the vetoes. -/
def markSynced (manager : VetoManager) : VetoManager :=
  { manager with
    mapSeenVetoVotes := manager.mapSeenVetoVotes.mapValues fun vote =>
      { vote with fSynced := vote.fValid || vote.fSynced } }

/-- `CBudgetDB::Write`. -/
def write (manager : VetoManager) : BudgetFile where
  proposals := manager.proposals
  budgets := manager.budgets
  mapSeenVetoVotes := some manager.mapSeenVetoVotes

variable [Crypto]

/-- `CBudgetDB::Read` into a manager, with the cleaning at its end. -/
def read (context : ProposalContext) (finalized : FinalizedContext) (file : BudgetFile)
    (manager : VetoManager) : VetoManager where
  proposals := file.proposals.loaded.checkAndRemove context
  budgets := file.budgets.loaded.checkAndRemove finalized
  -- `SerReadOptionalTrailing`
  mapSeenVetoVotes :=
    match file.mapSeenVetoVotes with
    | none => manager.mapSeenVetoVotes
    | some mapSeenVetoVotes => mapSeenVetoVotes.mapValues fun vote =>
      { vote with fValid := true, fSynced := false }

/-- `DumpBudgets` when the node stops, and what it loads when it starts again. -/
def restart (context : ProposalContext) (finalized : FinalizedContext) (manager : VetoManager) :
    VetoManager :=
  (read context finalized manager.write {}).resetSync.clearSeen

/-- `CBudgetManager::NewBlock` in a block where it does something; `synced` is
`masternodeSync.IsSynced()`, and `clears` is whether it calls `ClearSeen`. -/
def newBlock (context : ProposalContext) (finalized : FinalizedContext) (synced clears : Bool)
    (manager : VetoManager) : VetoManager :=
  let manager := if synced && clears then manager.clearSeen.resetSync else manager
  let manager := if synced then manager.markSynced else manager
  { manager with
    toCBudgetManager := manager.toCBudgetManager.newBlock context finalized false }

/-- `CBudgetManager::AddVetoVote`. -/
def addVetoVote (context : VetoContext) (manager : VetoManager) (vote : VetoVote) :
    VetoManager × Except VetoError Unit :=
  if vote.nProposalHash = 0 then (manager, .error .invalidHash)
  else if manager.hasVetoVoteForProposal vote.nProposalHash then
    (manager, .error .alreadyRecorded)
  else if (manager.mapSeenVetoVotes.lookup vote.getHash).isSome then (manager, .error .duplicate)
  else if !context.signatureValid vote then (manager, .error .invalidSignature)
  else
    ({ manager with
      mapSeenVetoVotes := manager.mapSeenVetoVotes.insert vote.getHash vote,
      proposals := { manager.proposals with
        mapItems := fun hash =>
          if hash = vote.nProposalHash then
            (manager.proposals.mapItems hash).map fun entry =>
              { entry with fValid := context.isValid entry.item }
          else manager.proposals.mapItems hash } }, .ok ())

/-- `CBudgetManager::ProcessMessage` for `gveto`. -/
def processGveto (context : VetoContext) (manager : VetoManager) (vote : VetoVote) : VetoManager :=
  let vote := { vote with fValid := true }
  let early := ((manager.proposals.mapItems vote.nProposalHash).map fun entry =>
    decide (vote.nTime < context.proposalTime entry.item)).getD false
  if !context.enabled then manager
  else if vote.nProposalHash = 0 then manager
  else if vote.vchSig.length ≠ 65 then manager
  else if vote.nTime ≤ 0 then manager
  else if early then manager
  else if context.adjustedTime + 10 * 60 < vote.nTime then manager
  else if (manager.mapSeenVetoVotes.lookup vote.getHash).isSome ||
      manager.hasVetoVoteForProposal vote.nProposalHash then manager
  else if !context.signatureValid vote then manager
  else (manager.addVetoVote context vote).1

end VetoManager

/-- What changes the budget manager: the messages of peers, what this node submits, a new block,
and a restart. -/
inductive BudgetEvent where
  | mprop (context : ProposalContext) (proposal : CBudgetProposalBroadcast)
  | fbs (context : FinalizedContext) (finalized : CFinalizedBudgetBroadcast)
  | mvote (context : ProposalContext) (vote : CBudgetVote)
  | fbvote (context : FinalizedContext) (vote : CFinalizedBudgetVote)
  | gveto (context : VetoContext) (vote : VetoVote)
  | submitProposal (context : ProposalContext) (proposal : CBudgetProposalBroadcast)
  | submitBudget (context : FinalizedContext) (finalized : CFinalizedBudgetBroadcast)
  | castVote (context : ProposalContext) (vote : CBudgetVote)
  | castBudgetVote (context : FinalizedContext) (vote : CFinalizedBudgetVote)
  | veto (context : VetoContext) (vote : VetoVote)
  | newBlock (context : ProposalContext) (finalized : FinalizedContext) (synced clears : Bool)
  | resetSync
  | restart (context : ProposalContext) (finalized : FinalizedContext)

section

variable [Crypto]

def BudgetEvent.run (manager : VetoManager) : BudgetEvent → VetoManager
  | mprop context proposal =>
    { manager with
      toCBudgetManager := manager.toCBudgetManager.processMprop context proposal }
  | fbs context finalized =>
    { manager with
      toCBudgetManager := manager.toCBudgetManager.processFbs context finalized }
  | mvote context vote =>
    { manager with toCBudgetManager := manager.toCBudgetManager.processMvote context vote }
  | fbvote context vote =>
    { manager with toCBudgetManager := manager.toCBudgetManager.processFbvote context vote }
  | gveto context vote => manager.processGveto context vote
  | submitProposal context proposal =>
    { manager with proposals := manager.proposals.submitItem context proposal }
  | submitBudget context finalized =>
    { manager with budgets := manager.budgets.submitItem context finalized }
  | castVote context vote =>
    { manager with proposals := manager.proposals.castVote context vote }
  | castBudgetVote context vote =>
    { manager with budgets := manager.budgets.castVote context vote }
  | veto context vote => (manager.addVetoVote context { vote with fValid := true }).1
  | newBlock context finalized synced clears =>
    manager.newBlock context finalized synced clears
  | resetSync => manager.resetSync
  | restart context finalized => manager.restart context finalized

/-- What an event does to the vetoes: a recorded one stays, but for its `fSynced`, and a new one
is for a proposal without a valid one. -/
structure VetoStep (manager after : VetoManager) : Prop where
  kept : ∀ hash old, manager.mapSeenVetoVotes.lookup hash = some old → old.fValid = true →
    ∃ later, after.mapSeenVetoVotes.lookup hash = some later ∧
      { later with fSynced := old.fSynced } = old
  fresh : ∀ hash later, after.mapSeenVetoVotes.lookup hash = some later →
    (∃ old, manager.mapSeenVetoVotes.lookup hash = some old ∧
        old.nProposalHash = later.nProposalHash ∧ (old.fValid = true → later.fValid = true)) ∨
      manager.hasVetoVoteForProposal later.nProposalHash = false ∧ later.fValid = true

/-- Only flags of the vetoes change: a valid one stays as it is, but for its `fSynced`. -/
def OnlyFlags (manager after : VetoManager) : Prop :=
  ∃ change : VetoVote → VetoVote,
    after.mapSeenVetoVotes = manager.mapSeenVetoVotes.mapValues change ∧
      (∀ vote, vote.fValid = true → { change vote with fSynced := vote.fSynced } = vote) ∧
      ∀ vote, (change vote).nProposalHash = vote.nProposalHash

/-- The vote is the one recorded for its proposal. -/
structure VetoManager.RecordedOnce (manager : VetoManager) (vote : VetoVote) : Prop where
  recorded : ∃ kept, manager.mapSeenVetoVotes.lookup vote.getHash = some kept ∧
    { kept with fSynced := vote.fSynced } = vote
  only : ∀ hash other, manager.mapSeenVetoVotes.lookup hash = some other →
    other.nProposalHash = vote.nProposalHash → hash = vote.getHash

def VetoManager.AllValid (manager : VetoManager) : Prop :=
  ∀ hash vote, manager.mapSeenVetoVotes.lookup hash = some vote → vote.fValid = true

section

variable {manager after : VetoManager} {vote : VetoVote}

omit [Crypto] in
theorem hasVetoVoteForProposal_iff {nProposalHash : Uint256} :
    manager.hasVetoVoteForProposal nProposalHash = true ↔
      ∃ hash vote, manager.mapSeenVetoVotes.lookup hash = some vote ∧
        vote.nProposalHash = nProposalHash ∧ vote.fValid = true := by
  unfold VetoManager.hasVetoVoteForProposal
  simp only [any_eq_true, Bool.and_eq_true, beq_iff_eq]
  constructor
  · rintro ⟨⟨hash, vote⟩, member, same, valid⟩
    exact ⟨hash, vote, SortedMap.mem_entries_iff.mp member, same, valid⟩
  · rintro ⟨hash, vote, found, same, valid⟩
    exact ⟨(hash, vote), SortedMap.mem_entries_iff.mpr found, same, valid⟩

omit [Crypto] in
theorem OnlyFlags.of_same (same : after.mapSeenVetoVotes = manager.mapSeenVetoVotes) :
    OnlyFlags manager after :=
  ⟨id, by rw [SortedMap.mapValues_id, same], fun _ _ => rfl, fun _ => rfl⟩

omit [Crypto] in
theorem OnlyFlags.trans {middle : VetoManager} (first : OnlyFlags manager middle)
    (second : OnlyFlags middle after) : OnlyFlags manager after := by
  obtain ⟨change, flags, keeps, named⟩ := first
  obtain ⟨next, later, keepsLater, namedLater⟩ := second
  refine ⟨next ∘ change, ?_, fun vote valid => ?_, fun vote => ?_⟩
  · rw [later, flags, SortedMap.mapValues_mapValues]
  · have changed := keeps vote valid
    have stays : (change vote).fValid = true :=
      (congrArg (fun vote : VetoVote => vote.fValid) changed).trans valid
    have twice := congrArg (fun changed : VetoVote => { changed with fSynced := vote.fSynced })
      (keepsLater (change vote) stays)
    exact twice.trans changed
  · exact (namedLater (change vote)).trans (named vote)

omit [Crypto] in
theorem OnlyFlags.vetoStep (flags : OnlyFlags manager after) : VetoStep manager after := by
  obtain ⟨change, flags, keeps, named⟩ := flags
  refine ⟨fun hash old found valid => ?_, fun hash later found => ?_⟩
  · refine ⟨change old, ?_, keeps old valid⟩
    rw [flags, SortedMap.lookup_mapValues, found]
    rfl
  · rw [flags, SortedMap.lookup_mapValues, Option.map_eq_some_iff] at found
    obtain ⟨old, before, rfl⟩ := found
    refine .inl ⟨old, before, (named old).symm, fun valid => ?_⟩
    exact (congrArg (fun vote : VetoVote => vote.fValid) (keeps old valid)).trans valid

omit [Crypto] in
theorem onlyFlags_resetSync (manager : VetoManager) : OnlyFlags manager manager.resetSync :=
  ⟨fun vote => { vote with fSynced := false }, rfl, fun _ _ => rfl, fun _ => rfl⟩

omit [Crypto] in
theorem onlyFlags_markSynced (manager : VetoManager) : OnlyFlags manager manager.markSynced :=
  ⟨fun vote => { vote with fSynced := vote.fValid || vote.fSynced }, rfl, fun _ _ => rfl,
    fun _ => rfl⟩

theorem onlyFlags_newBlock (context : ProposalContext) (finalized : FinalizedContext)
    (synced clears : Bool) (manager : VetoManager) :
    OnlyFlags manager (manager.newBlock context finalized synced clears) := by
  have cleared : OnlyFlags manager manager.clearSeen.resetSync :=
    (OnlyFlags.of_same rfl).trans (onlyFlags_resetSync manager.clearSeen)
  unfold VetoManager.newBlock
  cases synced with
  | false => exact .of_same rfl
  | true =>
    cases clears with
    | false => exact (onlyFlags_markSynced manager).trans (.of_same rfl)
    | true => exact (cleared.trans (onlyFlags_markSynced _)).trans (.of_same rfl)

theorem onlyFlags_restart (context : ProposalContext) (finalized : FinalizedContext)
    (manager : VetoManager) : OnlyFlags manager (manager.restart context finalized) := by
  have loaded : OnlyFlags manager
      (VetoManager.read context finalized manager.write {}) := by
    refine ⟨fun vote => { vote with fValid := true, fSynced := false }, rfl,
      fun vote valid => ?_, fun _ => rfl⟩
    obtain ⟨⟨nProposalHash, fValid⟩, nTime, vchSig, fSynced⟩ := vote
    obtain rfl : fValid = true := valid
    rfl
  exact (loaded.trans (onlyFlags_resetSync _)).trans (.of_same rfl)

theorem addVetoVote_cases (context : VetoContext) (manager : VetoManager) (vote : VetoVote) :
    ((∃ error, (manager.addVetoVote context vote).2 = .error error) ∧
        (manager.addVetoVote context vote).1 = manager) ∨
      (manager.addVetoVote context vote).2 = .ok () ∧
        manager.hasVetoVoteForProposal vote.nProposalHash = false ∧
        manager.mapSeenVetoVotes.lookup vote.getHash = none ∧
        (manager.addVetoVote context vote).1.mapSeenVetoVotes =
          manager.mapSeenVetoVotes.insert vote.getHash vote := by
  unfold VetoManager.addVetoVote
  split
  · exact .inl ⟨⟨_, rfl⟩, rfl⟩
  · split
    · exact .inl ⟨⟨_, rfl⟩, rfl⟩
    · rename_i unvetoed
      split
      · exact .inl ⟨⟨_, rfl⟩, rfl⟩
      · rename_i absent
        split
        · exact .inl ⟨⟨_, rfl⟩, rfl⟩
        · exact .inr ⟨rfl, Bool.eq_false_iff.mpr unvetoed,
            Option.not_isSome_iff_eq_none.mp absent, rfl⟩

theorem vetoStep_addVetoVote (context : VetoContext) (manager : VetoManager)
    (valid : vote.fValid = true) : VetoStep manager (manager.addVetoVote context vote).1 := by
  rcases addVetoVote_cases context manager vote with
    ⟨_, same⟩ | ⟨_, unvetoed, absent, inserted⟩
  · rw [same]
    exact (OnlyFlags.of_same rfl).vetoStep
  · refine ⟨fun hash old found _ => ⟨old, ?_, rfl⟩, fun hash later found => ?_⟩
    · rw [inserted, SortedMap.lookup_insert, if_neg]
      · exact found
      · rintro rfl
        rw [absent] at found
        contradiction
    · rw [inserted, SortedMap.lookup_insert] at found
      split at found
      · rw [absent, Option.getD_none, Option.some.injEq] at found
        subst found
        exact .inr ⟨unvetoed, valid⟩
      · exact .inl ⟨later, found, rfl, id⟩

theorem vetoStep_processGveto (context : VetoContext) (manager : VetoManager)
    (vote : VetoVote) : VetoStep manager (manager.processGveto context vote) := by
  have stays : VetoStep manager manager := (OnlyFlags.of_same rfl).vetoStep
  unfold VetoManager.processGveto
  simp only
  split
  · exact stays
  · split
    · exact stays
    · split
      · exact stays
      · split
        · exact stays
        · split
          · exact stays
          · split
            · exact stays
            · split
              · exact stays
              · split
                · exact stays
                · exact vetoStep_addVetoVote context manager rfl

theorem vetoStep_run (manager : VetoManager) (event : BudgetEvent) :
    VetoStep manager (event.run manager) := by
  cases event with
  | gveto context vote => exact vetoStep_processGveto context manager vote
  | veto context vote => exact vetoStep_addVetoVote context manager rfl
  | newBlock context finalized synced clears =>
    exact (onlyFlags_newBlock context finalized synced clears manager).vetoStep
  | resetSync => exact (onlyFlags_resetSync manager).vetoStep
  | restart context finalized => exact (onlyFlags_restart context finalized manager).vetoStep
  | mprop | fbs | mvote | fbvote | submitProposal | submitBudget | castVote | castBudgetVote =>
    exact OnlyFlags.vetoStep (.of_same rfl)

omit [Crypto] in
theorem VetoManager.AllValid.step (valid : manager.AllValid) (step : VetoStep manager after) :
    after.AllValid := by
  intro hash later found
  rcases step.fresh hash later found with ⟨old, before, _, stays⟩ | ⟨_, new⟩
  · exact stays (valid hash old before)
  · exact new

theorem VetoManager.RecordedOnce.step (once : manager.RecordedOnce vote)
    (valid : vote.fValid = true) (step : VetoStep manager after) : after.RecordedOnce vote := by
  obtain ⟨kept, found, same⟩ := once.recorded
  have proposal : kept.nProposalHash = vote.nProposalHash := by
    rw [← same]
  have still : kept.fValid = true := by
    rw [← same] at valid
    exact valid
  refine ⟨?_, fun hash other there named => ?_⟩
  · obtain ⟨later, foundLater, sameLater⟩ := step.kept vote.getHash kept found still
    refine ⟨later, foundLater, ?_⟩
    have twice := congrArg (fun changed : VetoVote => { changed with fSynced := vote.fSynced })
      sameLater
    exact twice.trans same
  · rcases step.fresh hash other there with ⟨old, before, namedOld, _⟩ | ⟨unvetoed, _⟩
    · exact once.only hash old before (namedOld.trans named)
    · have vetoed : manager.hasVetoVoteForProposal other.nProposalHash = true :=
        hasVetoVoteForProposal_iff.mpr
          ⟨vote.getHash, kept, found, proposal.trans named.symm, still⟩
      rw [vetoed] at unvetoed
      contradiction

theorem recordedOnce_addVetoVote {context : VetoContext} (valid : manager.AllValid)
    (recorded : (manager.addVetoVote context vote).2 = .ok ()) :
    (manager.addVetoVote context vote).1.RecordedOnce vote := by
  rcases addVetoVote_cases context manager vote with
    ⟨⟨_, failed⟩, _⟩ | ⟨_, unvetoed, absent, inserted⟩
  · rw [failed] at recorded
    contradiction
  · refine ⟨⟨vote, ?_, rfl⟩, fun hash other found named => ?_⟩
    · rw [inserted, SortedMap.lookup_insert, if_pos rfl, absent]
      rfl
    · rw [inserted, SortedMap.lookup_insert] at found
      split at found
      · assumption
      · have vetoed : manager.hasVetoVoteForProposal vote.nProposalHash = true :=
          hasVetoVoteForProposal_iff.mpr ⟨hash, other, found, named, valid hash other found⟩
        rw [vetoed] at unvetoed
        contradiction

theorem allValid_run (events : List BudgetEvent) (valid : manager.AllValid) :
    (events.foldl BudgetEvent.run manager).AllValid := by
  induction events generalizing manager with
  | nil => exact valid
  | cons event rest ih => exact ih (valid.step (vetoStep_run manager event))

/-- A recorded vote stays, whatever comes. -/
theorem recordedOnce_run (events : List BudgetEvent) (once : manager.RecordedOnce vote)
    (valid : vote.fValid = true) :
    (events.foldl BudgetEvent.run manager).RecordedOnce vote := by
  induction events generalizing manager with
  | nil => exact once
  | cons event rest ih => exact ih (once.step valid (vetoStep_run manager event))

end

end

/-! ## What a veto forbids

From the veto fork on, `GetBudget` leaves the vetoed proposals out, and `FillBlockPayee` and
`IsBudgetPaymentBlock` do what they would do if the node had no finalized budget whose payment of
the height is vetoed (`LocalData.withoutVetoed`). `IsTransactionValid` does so exactly where its
loop does not come to a counted budget of that kind (`veto_permanent`).
-/

section

variable [ChainParams]

def LocalData.withoutVetoed (data : LocalData) (nHeight : Int) : LocalData :=
  { data with
    mapFinalizedBudgets :=
      data.mapFinalizedBudgets.filter fun budget => !data.paymentVetoed budget nHeight }

namespace LocalData

variable {data : LocalData} {txNew : CTransaction} {nHeight threshold : Int}

theorem foldl_withoutVetoed {Best : Type} (look : Best → CFinalizedBudget → Best)
    (passes : ∀ best budget, data.eligible nHeight budget = false → look best budget = best)
    (start : Best) :
    (data.withoutVetoed nHeight).mapFinalizedBudgets.foldl look start =
      data.mapFinalizedBudgets.foldl look start := by
  unfold withoutVetoed
  rw [foldl_filter]
  congr 1
  funext best budget
  split
  · rfl
  · rename_i vetoed
    symm
    apply passes
    unfold eligible
    rw [Bool.not_eq_true', Bool.not_eq_false] at vetoed
    rw [vetoed, Bool.not_true, Bool.and_false]

theorem highestCount_withoutVetoed (start : Int) :
    (data.withoutVetoed nHeight).highestCount nHeight start = data.highestCount nHeight start := by
  apply foldl_withoutVetoed
  intro best budget ineligible
  rw [if_neg]
  exact fun both => Bool.false_ne_true (ineligible.symm.trans both.2)

theorem isBudgetPaymentBlock_withoutVetoed :
    (data.withoutVetoed nHeight).isBudgetPaymentBlock nHeight =
      data.isBudgetPaymentBlock nHeight := by
  unfold isBudgetPaymentBlock
  rw [highestCount_withoutVetoed]
  rfl

theorem scanPayments_withoutVetoed :
    (data.withoutVetoed nHeight).scanPayments nHeight = data.scanPayments nHeight := by
  apply foldl_withoutVetoed
  intro best budget ineligible
  rw [if_neg]
  exact fun both => Bool.false_ne_true (ineligible.symm.trans both.2)

theorem fillBudgetPayee_withoutVetoed {node : Node} {pindexPrev : CBlockIndex}
    (tip : node.tip = some pindexPrev) (fProofOfStake : Bool) :
    (data.withoutVetoed (pindexPrev.nHeight + 1)).fillBudgetPayee node txNew fProofOfStake =
      data.fillBudgetPayee node txNew fProofOfStake := by
  unfold fillBudgetPayee
  simp only [tip, scanPayments_withoutVetoed]

theorem anyBudgetPaid_withoutVetoed (data : LocalData) (txNew : CTransaction)
    (nHeight threshold : Int) (it : List CFinalizedBudget) :
    ∃ result, (data.withoutVetoed nHeight).anyBudgetPaid txNew nHeight threshold
        (it.filter fun budget => !data.paymentVetoed budget nHeight) = some result ∧
      (data.anyBudgetPaid txNew nHeight threshold it = none ∨
        data.anyBudgetPaid txNew nHeight threshold it = some result) := by
  induction it with
  | nil => exact ⟨false, rfl, .inr rfl⟩
  | cons budget rest ih =>
    obtain ⟨result, found, either⟩ := ih
    cases vetoed : data.paymentVetoed budget nHeight with
    | true =>
      rw [filter_cons_of_neg (by rw [vetoed]; exact Bool.false_ne_true)]
      refine ⟨result, found, ?_⟩
      unfold anyBudgetPaid
      split
      · exact .inl rfl
      · exact either
    | false =>
      rw [filter_cons_of_pos (by rw [vetoed]; rfl)]
      have clear : (data.withoutVetoed nHeight).paymentVetoed budget nHeight = false := vetoed
      have paid : (data.withoutVetoed nHeight).budgetPaid budget txNew nHeight =
          data.budgetPaid budget txNew nHeight := rfl
      unfold anyBudgetPaid
      simp only [clear, paid, vetoed, Bool.false_eq_true, if_false]
      split
      · split
        · exact ⟨true, rfl, .inr rfl⟩
        · exact ⟨result, found, either⟩
      · exact ⟨result, found, either⟩

theorem budgetTransactionValid_withoutVetoed :
    data.budgetTransactionValid txNew nHeight =
        (data.withoutVetoed nHeight).budgetTransactionValid txNew nHeight ↔
      data.budgetTransactionValid txNew nHeight ≠ none := by
  unfold budgetTransactionValid
  rw [highestCount_withoutVetoed]
  have few : (data.withoutVetoed nHeight).nEnabled = data.nEnabled := rfl
  simp only [few]
  split
  · simp
  · split
    · simp
    · obtain ⟨result, found, either⟩ := data.anyBudgetPaid_withoutVetoed txNew nHeight
        (data.highestCount nHeight 0 - (data.nEnabled / 10 : Nat)) data.mapFinalizedBudgets
      have shorter : (data.withoutVetoed nHeight).mapFinalizedBudgets =
          data.mapFinalizedBudgets.filter fun budget => !data.paymentVetoed budget nHeight := rfl
      rw [shorter, found]
      rcases either with never | returned
      · rw [never]
        simp
      · rw [returned]
        simp

theorem isVetoed_of_recorded [Crypto] {manager : VetoManager} {vote : VetoVote}
    (once : manager.RecordedOnce vote) (valid : vote.fValid = true)
    (vetoes : data.mapSeenVetoVotes = manager.vetoVotes)
    (fork : ChainParams.nVetoForkHeight ≤ nHeight) :
    data.isVetoed vote.nProposalHash nHeight = true := by
  obtain ⟨kept, found, same⟩ := once.recorded
  unfold isVetoed
  rw [decide_eq_true fork, Bool.true_and, vetoes, any_eq_true]
  refine ⟨kept.toCVetoVote,
    mem_map.mpr ⟨_, SortedMap.mem_entries_iff.mpr found, rfl⟩, ?_⟩
  rw [← same] at valid ⊢
  rw [Bool.and_eq_true, beq_iff_eq]
  exact ⟨rfl, valid⟩

theorem payment_withoutVetoed {nProposalHash : Uint256}
    (vetoed : data.isVetoed nProposalHash nHeight = true) {budget : CFinalizedBudget}
    (member : budget ∈ (data.withoutVetoed nHeight).mapFinalizedBudgets)
    {payment : CTxBudgetPayment} (paid : budget.payment nHeight = some payment) :
    payment.nProposalHash ≠ nProposalHash := by
  rintro rfl
  have clear := (mem_filter.mp member).2
  unfold paymentVetoed at clear
  rw [paid, Option.map_some, Option.getD_some, vetoed] at clear
  contradiction

end LocalData

section

variable [Crypto] {view : BudgetView} {nBlockStart : Int}

theorem allot_unvetoed {state : BudgetAllotment} {entry : Uint256 × Int}
    (clear : ∀ key ∈ state.vBudgetProposalsRet, ∀ proposal,
      state.mapProposals.lookup key = some proposal →
      view.data.isVetoed (BudgetItem.getHash proposal.toCBudgetProposalBroadcast) nBlockStart =
        false) :
    ∀ key ∈ (view.allot nBlockStart state entry).vBudgetProposalsRet, ∀ proposal,
      (view.allot nBlockStart state entry).mapProposals.lookup key = some proposal →
      view.data.isVetoed (BudgetItem.getHash proposal.toCBudgetProposalBroadcast) nBlockStart =
        false := by
  unfold allot
  cases here : state.mapProposals.lookup entry.1 with
  | none => exact clear
  | some proposal =>
    simp only
    -- an amount is set, and the broadcast stays
    have set : ∀ nAlloted, ∀ key ∈ state.vBudgetProposalsRet, ∀ other,
        (state.mapProposals.set entry.1
          { proposal with nAlloted := nAlloted }).lookup key = some other →
        view.data.isVetoed (BudgetItem.getHash other.toCBudgetProposalBroadcast) nBlockStart =
          false := by
      intro nAlloted key member other found
      rw [SortedMap.lookup_set] at found
      split at found
      · rename_i same
        subst same
        obtain rfl := Option.some.inj found
        exact clear _ member proposal here
      · exact clear key member other found
    split
    · rename_i passed
      have unvetoed : view.data.isVetoed
          (BudgetItem.getHash proposal.toCBudgetProposalBroadcast) nBlockStart = false := by
        unfold passes at passed
        simp only [Bool.and_eq_true, Bool.not_eq_true'] at passed
        exact passed.1.1.1.1.2
      split
      · intro key member other found
        rcases mem_append.mp member with before | last
        · exact set _ key before other found
        · rw [mem_singleton.mp last] at found
          have same : _ = some other := (SortedMap.lookup_set ..).symm.trans found
          rw [if_pos rfl] at same
          obtain rfl := Option.some.inj same
          exact unvetoed
      · exact set _
    · exact clear

variable [StdSort]

theorem getBudget_unvetoed {pindexPrev : CBlockIndex} (tip : view.node.tip = some pindexPrev)
    (mapProposals : ProposalMap) :
    ∀ key ∈ (view.getBudget mapProposals).2, ∀ proposal,
      (view.getBudget mapProposals).1.lookup key = some proposal →
      view.data.isVetoed (BudgetItem.getHash proposal.toCBudgetProposalBroadcast)
        (nextBlockStart pindexPrev) = false := by
  have run : ∀ (entries : List (Uint256 × Int)) (state : BudgetAllotment),
      (∀ key ∈ state.vBudgetProposalsRet, ∀ proposal,
        state.mapProposals.lookup key = some proposal →
        view.data.isVetoed (BudgetItem.getHash proposal.toCBudgetProposalBroadcast)
          (nextBlockStart pindexPrev) = false) →
      let last := entries.foldl (view.allot (nextBlockStart pindexPrev)) state
      ∀ key ∈ last.vBudgetProposalsRet, ∀ proposal,
        last.mapProposals.lookup key = some proposal →
        view.data.isVetoed (BudgetItem.getHash proposal.toCBudgetProposalBroadcast)
          (nextBlockStart pindexPrev) = false := by
    intro entries
    induction entries with
    | nil => exact fun _ clear => clear
    | cons entry rest ih => exact fun state clear => ih _ (allot_unvetoed clear)
  unfold getBudget
  simp only [tip]
  exact run _ _ fun key member => absurd member not_mem_nil

end

/-- What the selection of payments does with a vetoed proposal: `GetBudget` does not return it
and the finalized budgets that pay it at a height are passed over there, where
`IsTransactionValid` returns. -/
structure VetoEnforced [Crypto] [StdSort] (data : LocalData) (nProposalHash : Uint256) : Prop where
  budget : ∀ (view : BudgetView) (mapProposals : ProposalMap) (pindexPrev : CBlockIndex),
    view.data = data → view.node.tip = some pindexPrev →
    ChainParams.nVetoForkHeight ≤ nextBlockStart pindexPrev →
    ∀ key ∈ (view.getBudget mapProposals).2, ∀ proposal,
      (view.getBudget mapProposals).1.lookup key = some proposal →
      BudgetItem.getHash proposal.toCBudgetProposalBroadcast ≠ nProposalHash
  unpaid : ∀ nHeight, ChainParams.nVetoForkHeight ≤ nHeight →
    ∀ budget ∈ (data.withoutVetoed nHeight).mapFinalizedBudgets, ∀ payment,
      budget.payment nHeight = some payment → payment.nProposalHash ≠ nProposalHash
  fill : ∀ (node : Node) (pindexPrev : CBlockIndex) (txNew : CTransaction) (fProofOfStake : Bool),
    node.tip = some pindexPrev →
    data.fillBudgetPayee node txNew fProofOfStake =
      (data.withoutVetoed (pindexPrev.nHeight + 1)).fillBudgetPayee node txNew fProofOfStake
  block : ∀ nHeight, data.isBudgetPaymentBlock nHeight =
    (data.withoutVetoed nHeight).isBudgetPaymentBlock nHeight

/-- **A veto is permanent.** Once `AddVetoVote` has recorded a valid veto, the same veto is the
only one for its proposal after any later events, and from the fork on nothing selects or pays the
proposal. `IsTransactionValid` does what it would do without the finalized budgets whose payment
is vetoed exactly where its second loop does not stay at one of them. -/
theorem veto_permanent [Crypto] [StdSort] (before : List BudgetEvent) (context : VetoContext)
    (vote : VetoVote) (valid : vote.fValid = true)
    (recorded : ((before.foldl BudgetEvent.run {}).addVetoVote context vote).2 = .ok ())
    (after : List BudgetEvent) :
    let manager := after.foldl BudgetEvent.run
      ((before.foldl BudgetEvent.run {}).addVetoVote context vote).1
    manager.RecordedOnce vote ∧
      ∀ data : LocalData, data.mapSeenVetoVotes = manager.vetoVotes →
        VetoEnforced data vote.nProposalHash ∧
          ∀ txNew nHeight, ChainParams.nVetoForkHeight ≤ nHeight →
            (data.budgetTransactionValid txNew nHeight =
                (data.withoutVetoed nHeight).budgetTransactionValid txNew nHeight ↔
              ¬(data.highestCount nHeight 0 ≠ 0 ∧
                (data.nEnabled / 20 : Nat) ≤ data.highestCount nHeight 0 ∧
                data.VetoedFirst txNew nHeight
                  (data.highestCount nHeight 0 - (data.nEnabled / 10 : Nat))
                  data.mapFinalizedBudgets)) := by
  intro manager
  have begin : ({} : VetoManager).AllValid := fun hash vote found => by
    cases found
  have once : manager.RecordedOnce vote :=
    recordedOnce_run after (recordedOnce_addVetoVote (allValid_run before begin) recorded) valid
  refine ⟨once, fun data vetoes => ⟨⟨?_, ?_, ?_, ?_⟩, fun txNew nHeight _ => ?_⟩⟩
  · intro view mapProposals pindexPrev same tip fork key member proposal found named
    have clear := getBudget_unvetoed tip mapProposals key member proposal found
    rw [same, named, LocalData.isVetoed_of_recorded once valid vetoes fork] at clear
    contradiction
  · intro nHeight fork budget member payment paid
    exact LocalData.payment_withoutVetoed
      (LocalData.isVetoed_of_recorded once valid vetoes fork) member paid
  · exact fun node pindexPrev txNew fProofOfStake tip =>
      (LocalData.fillBudgetPayee_withoutVetoed tip fProofOfStake).symm
  · exact fun nHeight => LocalData.isBudgetPaymentBlock_withoutVetoed.symm
  · rw [LocalData.budgetTransactionValid_withoutVetoed, ← LocalData.scanTerminates_iff,
      LocalData.budgetScan_terminates_iff]

end

namespace VetoedPayment

/-- What a node reads when the owner's signature verifies. -/
def owner : VetoContext where
  enabled := true
  adjustedTime := 100000
  proposalTime _ := 0
  isValid _ := true
  signatureValid vote := vote.vchSig.length == 65

def veto : VetoVote where
  nProposalHash := 1
  fValid := true
  nTime := 100000
  vchSig := List.replicate 65 0

end VetoedPayment

section

attribute [local instance] VetoedPayment.params TwoFees.instStdSort TwoFees.instCrypto

open VetoedPayment

/-- With the veto recorded, `IsTransactionValid` does not come past the finalized budget that
pays the proposal, to the one that the transaction pays. -/
theorem veto_stopsTransactionValid :
    (({} : VetoManager).addVetoVote owner veto).2 = .ok () ∧
      data.mapSeenVetoVotes = (({} : VetoManager).addVetoVote owner veto).1.vetoVotes ∧
      ¬data.ScanTerminates tx 3000000 ∧
      (data.withoutVetoed 3000000).budgetTransactionValid tx 3000000 = some true := by
  refine ⟨rfl, by decide +kernel, ?_, by decide +kernel⟩
  rw [LocalData.scanTerminates_iff]
  exact not_not.mpr (by decide +kernel)

def VetoedPayment.restarted : BudgetEvent :=
  .restart
    { enabled := true, synced := true, time := 100000, isBudgetCollateralValid _ := (true, 6),
      isValid _ := true, knowsMasternode _ := true, verifies _ := true }
    { enabled := true, synced := true, time := 100000, isBudgetCollateralValid _ := (true, 6),
      isValid _ := true, knowsMasternode _ := true, verifies _ := true }

theorem veto_permanent_restart :
    VetoManager.RecordedOnce
        ([restarted].foldl BudgetEvent.run (({} : VetoManager).addVetoVote owner veto).1) veto ∧
      VetoEnforced data 1 := by
  obtain ⟨once, enforced⟩ := veto_permanent [] owner veto rfl rfl [restarted]
  have vetoes : data.mapSeenVetoVotes = VetoManager.vetoVotes
      ([restarted].foldl BudgetEvent.run (({} : VetoManager).addVetoVote owner veto).1) := by
    decide +kernel
  exact ⟨once, (enforced data vetoes).1⟩

end

end Agouti
