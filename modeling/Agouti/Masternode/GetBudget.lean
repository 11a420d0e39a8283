import Agouti.Library.SortedMap
import Agouti.Masternode.BudgetFill
import Agouti.Masternode.BudgetVotes
import Agouti.Primitives.StdSort

/-! # Which proposals are funded

`CBudgetManager::GetBudget` ranks the proposals by their votes, breaks a tie by the hash of the
fee transaction, and allots the budget in that order. The fee transaction is not among the
fields under `CBudgetProposal::GetHash`, and the first broadcast with a hash is kept. So two
nodes may hold a proposal under one hash with two fee transactions, and then fund different
proposals. Where the fee transactions are the same, so is the budget (`getBudget_agrees`).
-/

namespace Agouti

open List

def VOTE_ABSTAIN : Int := 0
def VOTE_YES : Int := 1
def VOTE_NO : Int := 2

/-- `CBudgetProposal`. Its constructors leave `nAlloted` open. -/
structure CBudgetProposal extends CBudgetProposalBroadcast where
  fValid : Bool := true
  nTime : Int
  nAlloted : Option CAmount := none
  mapVotes : SortedMap Uint256 CBudgetVote

namespace CBudgetProposal

/-- `CBudgetProposal::CleanAndRemove(false)`. -/
def cleanAndRemove (knowsMasternode : CTxIn → Bool) (proposal : CBudgetProposal) :
    CBudgetProposal :=
  { proposal with
    mapVotes := proposal.mapVotes.mapValues fun vote =>
      { vote with fValid := knowsMasternode vote.vin } }

def countVotes (nVote : Int) (proposal : CBudgetProposal) : Int :=
  proposal.mapVotes.entries.countP fun entry => entry.2.nVote == nVote && entry.2.fValid

def getYeas (proposal : CBudgetProposal) : Int := proposal.countVotes VOTE_YES

def getNays (proposal : CBudgetProposal) : Int := proposal.countVotes VOTE_NO

/-- The votes, whether they are counted now or not. -/
def votes (proposal : CBudgetProposal) : SortedMap Uint256 CBudgetVote :=
  proposal.mapVotes.mapValues fun vote => { vote with fValid := true }

end CBudgetProposal

/-- What `GetBudget` reads. -/
structure BudgetView where
  data : LocalData
  node : Node
  /-- `mnodeman.Find` has the masternode -/
  knowsMasternode : CTxIn → Bool
  /-- `GetTime()` -/
  time : Int
  /-- `Params().NetworkID()` is the main network -/
  fMain : Bool

/-- `mapProposals`. A pointer to one of its values is the key of that value. -/
abbrev ProposalMap := SortedMap Uint256 CBudgetProposal

/-- The state of the loop of `GetBudget` that allots the budget. -/
structure BudgetAllotment where
  mapProposals : ProposalMap
  nBudgetAllocated : CAmount := 0
  vBudgetProposalsRet : List Uint256 := []

/-- `CBudgetManager::AddProposal`, where `isValid` stands for `IsValid`. The copy constructor
makes the proposal valid. -/
def ProposalMap.addProposal [Crypto] (isValid : CBudgetProposal → Bool) (mapProposals : ProposalMap)
    (budgetProposal : CBudgetProposal) : ProposalMap :=
  if !isValid budgetProposal then mapProposals
  else mapProposals.insert (BudgetItem.getHash budgetProposal.toCBudgetProposalBroadcast)
    { budgetProposal with fValid := true, nAlloted := none }

namespace BudgetView

def isEstablished (view : BudgetView) (proposal : CBudgetProposal) : Bool :=
  decide (proposal.nTime < view.time - (if view.fMain then 60 * 60 * 24 else 60 * 5))

/-- The comparison of `sortProposalsByVotes`. -/
def sortProposalsByVotes (mapProposals : ProposalMap) (left right : Uint256 × Int) : Bool :=
  let nFeeTXHash (key : Uint256) : Uint256 :=
    ((mapProposals.lookup key).map fun proposal => proposal.nFeeTXHash).getD 0
  if left.2 ≠ right.2 then decide (right.2 < left.2)
  else decide (nFeeTXHash right.1 < nFeeTXHash left.1)

variable [ChainParams]

/-- `CBudgetManager::GetTotalBudget`. -/
def getTotalBudget (view : BudgetView) (nHeight : Int) : CAmount :=
  match view.node.tip with
  | none => 0
  | some _ =>
    let nSubsidy := getBlockValue view.node.tipMoneySupply nHeight
    let nBudgetPct : Int := if nStakePointerForkHeight ≤ nHeight then 10 else 2
    nSubsidy.tdiv 100 * nBudgetPct * ChainParams.nBudgetPaymentCycleBlocks

def nextBlockStart (pindexPrev : CBlockIndex) : Int :=
  pindexPrev.nHeight - pindexPrev.nHeight.tmod ChainParams.nBudgetPaymentCycleBlocks +
    ChainParams.nBudgetPaymentCycleBlocks

variable [Crypto]

def passes (view : BudgetView) (nBlockStart : Int) (proposal : CBudgetProposal) : Bool :=
  let nBlockEnd := nBlockStart + ChainParams.nBudgetPaymentCycleBlocks - 1
  proposal.fValid &&
    !view.data.isVetoed (BudgetItem.getHash proposal.toCBudgetProposalBroadcast) nBlockStart &&
    decide (proposal.nBlockStart ≤ nBlockStart) && decide (nBlockEnd ≤ proposal.nBlockEnd) &&
    decide ((view.data.nEnabled / 10 : Nat) < proposal.getYeas - proposal.getNays) &&
    view.isEstablished proposal

/-- One proposal in the loop of `GetBudget`. -/
def allot (view : BudgetView) (nBlockStart : Int) (state : BudgetAllotment)
    (entry : Uint256 × Int) : BudgetAllotment :=
  match state.mapProposals.lookup entry.1 with
  | none => state
  | some proposal =>
    if view.passes nBlockStart proposal then
      if proposal.nAmount + state.nBudgetAllocated ≤ view.getTotalBudget nBlockStart then
        { mapProposals := state.mapProposals.set entry.1
            { proposal with nAlloted := some proposal.nAmount },
          nBudgetAllocated := state.nBudgetAllocated + proposal.nAmount,
          vBudgetProposalsRet := state.vBudgetProposalsRet ++ [entry.1] }
      else
        { state with
          mapProposals := state.mapProposals.set entry.1 { proposal with nAlloted := some 0 } }
    else state

variable [StdSort]

/-- `CBudgetManager::GetBudget`: the proposals after it, and pointers to those in the budget. -/
def getBudget (view : BudgetView) (mapProposals : ProposalMap) : ProposalMap × List Uint256 :=
  let mapProposals := mapProposals.mapValues (CBudgetProposal.cleanAndRemove view.knowsMasternode)
  let vBudgetPorposalsSort := StdSort.sort (sortProposalsByVotes mapProposals)
    (mapProposals.entries.map fun entry => (entry.1, entry.2.getYeas - entry.2.getNays))
  match view.node.tip with
  | none => (mapProposals, [])
  | some pindexPrev =>
    let state := vBudgetPorposalsSort.foldl (view.allot (nextBlockStart pindexPrev))
      { mapProposals := mapProposals }
    (state.mapProposals, state.vBudgetProposalsRet)

/-- The proposals of the budget in their order, each with its hash and what it is allotted. -/
def funded (view : BudgetView) (mapProposals : ProposalMap) : List (Uint256 × Option CAmount) :=
  let (after, pointers) := view.getBudget mapProposals
  pointers.map fun key => (key, (after.lookup key).bind fun proposal => proposal.nAlloted)

end BudgetView

/-- Two nodes hold the same votes on a proposal with the same fields under `GetHash`, and judge
it alike. -/
structure SameProposal (view other : BudgetView) (proposal mirror : CBudgetProposal) : Prop where
  hashed : { proposal.toCBudgetProposalBroadcast with nFeeTXHash := 0 } =
    { mirror.toCBudgetProposalBroadcast with nFeeTXHash := 0 }
  votes : proposal.votes = mirror.votes
  valid : proposal.fValid = mirror.fValid
  established : view.isEstablished proposal = other.isEstablished mirror

/-- Two nodes with the same proposals, vetoes, masternodes and tip. -/
structure HoldSame (view other : BudgetView) (first second : ProposalMap) : Prop where
  proposals : ∀ hash,
    Option.Rel (SameProposal view other) (first.lookup hash) (second.lookup hash)
  vetoes : ∀ vote, vote ∈ view.data.mapSeenVetoVotes ↔ vote ∈ other.data.mapSeenVetoVotes
  nEnabled : view.data.nEnabled = other.data.nEnabled
  masternodes : view.knowsMasternode = other.knowsMasternode
  tip : (view.node.tip.map fun pindex => (pindex.nHeight, pindex.nMoneySupply)) =
    other.node.tip.map fun pindex => (pindex.nHeight, pindex.nMoneySupply)

/-- The proposals have the same fee transactions. -/
def SameFees (first second : ProposalMap) : Prop :=
  ∀ hash, ((first.lookup hash).map fun proposal => proposal.nFeeTXHash) =
    (second.lookup hash).map fun proposal => proposal.nFeeTXHash

/-- Two proposals are alike to the loop of `GetBudget`. -/
structure Alike (view other : BudgetView) (proposal mirror : CBudgetProposal) : Prop where
  item : proposal.toCBudgetProposalBroadcast = mirror.toCBudgetProposalBroadcast
  votes : proposal.mapVotes = mirror.mapVotes
  valid : proposal.fValid = mirror.fValid
  established : view.isEstablished proposal = other.isEstablished mirror

section

variable {view other : BudgetView} {first second : ProposalMap}
  {proposal mirror : CBudgetProposal}

theorem cleanAndRemove_votes (knowsMasternode : CTxIn → Bool) (proposal : CBudgetProposal) :
    (proposal.cleanAndRemove knowsMasternode).mapVotes =
      proposal.votes.mapValues fun vote => { vote with fValid := knowsMasternode vote.vin } := by
  apply SortedMap.ext_lookup
  intro key
  unfold CBudgetProposal.cleanAndRemove CBudgetProposal.votes
  rw [SortedMap.lookup_mapValues, SortedMap.lookup_mapValues, SortedMap.lookup_mapValues,
    Option.map_map]
  rfl

theorem SameProposal.alike (same : SameProposal view other proposal mirror)
    (fee : proposal.nFeeTXHash = mirror.nFeeTXHash) {knowsMasternode : CTxIn → Bool} :
    Alike view other (proposal.cleanAndRemove knowsMasternode)
      (mirror.cleanAndRemove knowsMasternode) where
  item := by
    have hashed := same.hashed
    rw [CBudgetProposalBroadcast.mk.injEq] at hashed
    obtain ⟨name, url, start, stop, amount, address, _⟩ := hashed
    have whole : proposal.toCBudgetProposalBroadcast = mirror.toCBudgetProposalBroadcast := by
      cases here : proposal.toCBudgetProposalBroadcast
      cases there : mirror.toCBudgetProposalBroadcast
      rw [here, there] at name url start stop amount address fee
      simp only at name url start stop amount address fee
      rw [name, url, start, stop, amount, address, fee]
    exact whole
  votes := by rw [cleanAndRemove_votes, cleanAndRemove_votes, same.votes]
  valid := same.valid
  established := same.established

theorem Alike.votes_count (alike : Alike view other proposal mirror) :
    proposal.getYeas - proposal.getNays = mirror.getYeas - mirror.getNays := by
  simp only [CBudgetProposal.getYeas, CBudgetProposal.getNays, CBudgetProposal.countVotes,
    alike.votes]

theorem map_eq_of_rel {relation : CBudgetProposal → CBudgetProposal → Prop} {Value : Type}
    {read : CBudgetProposal → Value}
    (keeps : ∀ proposal mirror, relation proposal mirror → read proposal = read mirror)
    {left right : Option CBudgetProposal} (related : Option.Rel relation left right) :
    left.map read = right.map read := by
  cases related with
  | none => rfl
  | some here => exact congrArg some (keeps _ _ here)

theorem HoldSame.cleaned (same : HoldSame view other first second)
    (fees : SameFees first second) (hash : Uint256) :
    Option.Rel (Alike view other)
      ((first.mapValues (CBudgetProposal.cleanAndRemove view.knowsMasternode)).lookup hash)
      ((second.mapValues (CBudgetProposal.cleanAndRemove other.knowsMasternode)).lookup hash) := by
  rw [SortedMap.lookup_mapValues, SortedMap.lookup_mapValues, same.masternodes]
  have fee := fees hash
  have related := same.proposals hash
  generalize first.lookup hash = left at fee related
  generalize second.lookup hash = right at fee related
  cases related with
  | none => exact .none
  | some here => exact .some (here.alike (Option.some.inj fee))

variable [ChainParams]

theorem HoldSame.isVetoed (same : HoldSame view other first second) (nProposalHash : Uint256)
    (nHeight : Int) :
    view.data.isVetoed nProposalHash nHeight = other.data.isVetoed nProposalHash nHeight := by
  unfold LocalData.isVetoed
  congr 1
  rw [Bool.eq_iff_iff, any_eq_true, any_eq_true]
  exact exists_congr fun vote => and_congr_left fun _ => same.vetoes vote

theorem HoldSame.getTotalBudget (same : HoldSame view other first second) (nHeight : Int) :
    view.getTotalBudget nHeight = other.getTotalBudget nHeight := by
  have tip := same.tip
  unfold BudgetView.getTotalBudget Node.tipMoneySupply
  cases here : view.node.tip with
  | none =>
    rw [here, Option.map_none, eq_comm, Option.map_eq_none_iff] at tip
    rw [tip]
  | some pindex =>
    rw [here, Option.map_some, eq_comm, Option.map_eq_some_iff] at tip
    obtain ⟨mirror, there, alike⟩ := tip
    rw [there]
    simp only [Option.map_some, Option.getD_some, (Prod.mk.inj alike).2]

variable [Crypto]

theorem HoldSame.passes (same : HoldSame view other first second)
    (alike : Alike view other proposal mirror) (nBlockStart : Int) :
    view.passes nBlockStart proposal = other.passes nBlockStart mirror := by
  unfold BudgetView.passes
  simp only
  rw [alike.valid, alike.item, same.isVetoed, alike.votes_count, alike.established, same.nEnabled]

/-- The loops of two nodes have come equally far. -/
structure SameAllotment (view other : BudgetView) (state mirror : BudgetAllotment) : Prop where
  proposals : ∀ hash, Option.Rel (Alike view other) (state.mapProposals.lookup hash)
    (mirror.mapProposals.lookup hash)
  allocated : state.nBudgetAllocated = mirror.nBudgetAllocated
  returned : state.vBudgetProposalsRet = mirror.vBudgetProposalsRet
  allotted : ∀ key ∈ state.vBudgetProposalsRet,
    ((state.mapProposals.lookup key).bind fun proposal => proposal.nAlloted) =
      (mirror.mapProposals.lookup key).bind fun proposal => proposal.nAlloted

theorem SameAllotment.allot (same : HoldSame view other first second)
    {state mirror : BudgetAllotment} (equal : SameAllotment view other state mirror)
    (nBlockStart : Int) (entry : Uint256 × Int) :
    SameAllotment view other (view.allot nBlockStart state entry)
      (other.allot nBlockStart mirror entry) := by
  have related := equal.proposals entry.1
  unfold BudgetView.allot
  cases here : state.mapProposals.lookup entry.1 with
  | none =>
    rw [here] at related
    cases there : mirror.mapProposals.lookup entry.1 with
    | none => exact equal
    | some proposal =>
      rw [there] at related
      cases related
  | some proposal =>
    rw [here] at related
    cases there : mirror.mapProposals.lookup entry.1 with
    | none =>
      rw [there] at related
      cases related
    | some twin =>
      rw [there] at related
      cases related with
      | some alike =>
        have amount : proposal.nAmount = twin.nAmount := by rw [alike.item]
        -- the entry is given the same amount on both nodes
        have proposals : ∀ nAlloted hash, Option.Rel (Alike view other)
            ((state.mapProposals.set entry.1
              { proposal with nAlloted := nAlloted }).lookup hash)
            ((mirror.mapProposals.set entry.1
              { twin with nAlloted := nAlloted }).lookup hash) := by
          intro nAlloted hash
          rw [SortedMap.lookup_set, SortedMap.lookup_set]
          split
          · exact .some ⟨alike.item, alike.votes, alike.valid, alike.established⟩
          · exact equal.proposals hash
        have allotted : ∀ (nAlloted : Option CAmount) (key : Uint256),
            key ∈ state.vBudgetProposalsRet ∨ key = entry.1 →
            (((state.mapProposals.set entry.1
              { proposal with nAlloted := nAlloted }).lookup key).bind fun proposal =>
                proposal.nAlloted) =
              ((mirror.mapProposals.set entry.1
                { twin with nAlloted := nAlloted }).lookup key).bind fun proposal =>
                  proposal.nAlloted := by
          intro nAlloted key member
          rw [SortedMap.lookup_set, SortedMap.lookup_set]
          by_cases same : key = entry.1
          · rw [if_pos same, if_pos same]
            rfl
          · rw [if_neg same, if_neg same]
            exact equal.allotted key (member.resolve_right same)
        simp only [same.passes alike, same.getTotalBudget, amount, equal.allocated]
        split
        · split
          · refine ⟨proposals _, rfl, ?_, fun key member => allotted _ key ?_⟩
            · simp only [equal.returned]
            · exact (mem_append.mp member).imp_right mem_singleton.mp
          · exact ⟨proposals _, rfl, equal.returned,
              fun key member => allotted _ key (.inl member)⟩
        · exact equal

theorem SameAllotment.foldl {state mirror : BudgetAllotment}
    (equal : SameAllotment view other state mirror) (same : HoldSame view other first second)
    (nBlockStart : Int) (entries : List (Uint256 × Int)) :
    SameAllotment view other (entries.foldl (view.allot nBlockStart) state)
      (entries.foldl (other.allot nBlockStart) mirror) := by
  induction entries generalizing state mirror with
  | nil => exact equal
  | cons entry rest ih => exact ih (SameAllotment.allot same equal nBlockStart entry)

variable [StdSort]

/-- **Two nodes fund the same proposals.** Two nodes at the same tip that hold the same proposals
with the same fee transactions, the same votes and the same vetoes, in whatever order they
received them, get the same proposals from `GetBudget`, in the same order and with the same
amounts. -/
theorem getBudget_agrees (same : HoldSame view other first second)
    (fees : SameFees first second) : view.funded first = other.funded second := by
  have cleaned := same.cleaned fees
  unfold BudgetView.funded BudgetView.getBudget
  simp only
  generalize first.mapValues _ = left at cleaned
  generalize second.mapValues _ = right at cleaned
  -- both nodes sort the same vector by the same comparison
  have counts : (left.entries.map fun entry =>
      (entry.1, entry.2.getYeas - entry.2.getNays)) =
        right.entries.map fun entry => (entry.1, entry.2.getYeas - entry.2.getNays) := by
    have maps : left.mapValues (fun proposal => proposal.getYeas - proposal.getNays) =
        right.mapValues fun proposal => proposal.getYeas - proposal.getNays := by
      apply SortedMap.ext_lookup
      intro key
      rw [SortedMap.lookup_mapValues, SortedMap.lookup_mapValues]
      exact map_eq_of_rel (fun _ _ alike => alike.votes_count) (cleaned key)
    exact congrArg SortedMap.entries maps
  have compares : BudgetView.sortProposalsByVotes left =
      BudgetView.sortProposalsByVotes right := by
    have fee : ∀ key, ((left.lookup key).map fun proposal => proposal.nFeeTXHash) =
        (right.lookup key).map fun proposal => proposal.nFeeTXHash := fun key =>
      map_eq_of_rel (fun _ _ alike => congrArg (·.nFeeTXHash) alike.item) (cleaned key)
    funext entry next
    simp only [BudgetView.sortProposalsByVotes, fee]
  rw [counts, compares]
  have tip := same.tip
  cases here : view.node.tip with
  | none =>
    rw [here, Option.map_none, eq_comm, Option.map_eq_none_iff] at tip
    rw [tip]
    rfl
  | some pindexPrev =>
    rw [here, Option.map_some, eq_comm, Option.map_eq_some_iff] at tip
    obtain ⟨mirror, there, alike⟩ := tip
    rw [there]
    have start : BudgetView.nextBlockStart pindexPrev = BudgetView.nextBlockStart mirror := by
      simp only [BudgetView.nextBlockStart, (Prod.mk.inj alike).1]
    simp only [start]
    have begin : SameAllotment view other { mapProposals := left } { mapProposals := right } :=
      ⟨cleaned, rfl, rfl, fun key member => absurd member not_mem_nil⟩
    have run := begin.foldl same (BudgetView.nextBlockStart mirror)
      (StdSort.sort (BudgetView.sortProposalsByVotes right)
        (right.entries.map fun entry => (entry.1, entry.2.getYeas - entry.2.getNays)))
    rw [← run.returned]
    apply map_congr_left
    intro key member
    rw [run.allotted key member]

end

namespace TwoFees

/-! Two proposals with one vote each, and money for one of them. The first one was broadcast
with two fee transactions. -/

def proposal (name : UInt8) (nFeeTXHash : Uint256) : CBudgetProposal where
  strProposalName := [name]
  strURL := []
  nBlockStart := 2678013
  nBlockEnd := 2682395
  nAmount := 30 * COIN
  address := [0x51]
  nFeeTXHash := nFeeTXHash
  nTime := 0
  mapVotes := .empty

def vote : CBudgetVote where
  vin := { prevout := ⟨9, 0⟩, scriptSig := [] }
  nProposalHash := 0
  nVote := VOTE_YES
  nTime := 50000
  vchSig := []

def view : BudgetView where
  data := FewMasternodes.data 0
  node := { FewMasternodes.node with vChain := [BitVec.ofNat 256 2678012] }
  knowsMasternode _ := true
  time := 100000
  fMain := true

/-- The proposals that a node holds after it received some, and a vote for each. -/
def received [Crypto] (broadcasts : List CBudgetProposal) : ProposalMap :=
  (broadcasts.foldl (ProposalMap.addProposal fun _ => true) .empty).mapValues fun proposal =>
    { proposal with
      mapVotes := SortedMap.empty.set (VoteStore.voteKey vote)
        { vote with nProposalHash := BudgetItem.getHash proposal.toCBudgetProposalBroadcast } }

end TwoFees

section

local instance TwoFees.instStdSort : StdSort := StdSort.insertion

local instance TwoFees.instCrypto : Crypto := checksumCrypto

attribute [local instance] VetoedPayment.params

open TwoFees

def TwoFees.hash (name : UInt8) : Uint256 :=
  BudgetItem.getHash (proposal name 0).toCBudgetProposalBroadcast

theorem TwoFees.lookup_add (mapProposals : ProposalMap) (name : UInt8) (nFeeTXHash key : Uint256) :
    (mapProposals.addProposal (fun _ => true) (proposal name nFeeTXHash)).lookup key =
      if key = hash name then
        some ((mapProposals.lookup (hash name)).getD (proposal name nFeeTXHash))
      else mapProposals.lookup key :=
  SortedMap.lookup_insert mapProposals (hash name) _ key

theorem TwoFees.hash_apart : hash 66 ≠ hash 65 := by
  decide +kernel

theorem TwoFees.lookup_three (kept late : Uint256) (key : Uint256) :
    (([proposal 65 kept, proposal 65 late, proposal 66 3].foldl
        (ProposalMap.addProposal fun _ => true) .empty).lookup key) =
      if key = hash 66 then some (proposal 66 3)
      else if key = hash 65 then some (proposal 65 kept) else none := by
  have start : ∀ key, (SortedMap.empty : ProposalMap).lookup key = none := fun _ => rfl
  simp only [foldl_cons, foldl_nil, lookup_add, start, hash_apart, if_false, if_true,
    Option.getD_none, Option.getD_some]
  split
  · rfl
  · split <;> rfl

theorem TwoFees.lookup_two (fee : Uint256) (key : Uint256) :
    (([proposal 66 3, proposal 65 fee].foldl
        (ProposalMap.addProposal fun _ => true) .empty).lookup key) =
      if key = hash 66 then some (proposal 66 3)
      else if key = hash 65 then some (proposal 65 fee) else none := by
  have start : ∀ key, (SortedMap.empty : ProposalMap).lookup key = none := fun _ => rfl
  simp only [foldl_cons, foldl_nil, lookup_add, start, Ne.symm hash_apart, if_false,
    Option.getD_none]
  by_cases first : key = hash 66
  · rw [if_neg (first ▸ hash_apart), if_pos first, if_pos first]
  · rw [if_neg first, if_neg first]

/-- Two nodes hold the same proposals by their hashes, and fund different ones. -/
theorem feeTransactions_split :
    let first := received [proposal 65 5, proposal 65 1, proposal 66 3]
    let second := received [proposal 65 1, proposal 65 5, proposal 66 3]
    HoldSame view view first second ∧ view.funded first ≠ view.funded second := by
  refine ⟨⟨fun key => ?_, fun _ => Iff.rfl, rfl, rfl, rfl⟩, ?_⟩
  · unfold received
    rw [SortedMap.lookup_mapValues, SortedMap.lookup_mapValues, lookup_three, lookup_three]
    split
    · exact .some ⟨rfl, rfl, rfl, rfl⟩
    · split
      · exact .some ⟨rfl, rfl, rfl, rfl⟩
      · exact .none
  · decide +kernel

/-- With one fee transaction for each proposal, the order in which they come makes no
difference. -/
theorem getBudget_agrees_oneFee :
    view.funded (received [proposal 65 5, proposal 65 1, proposal 66 3]) =
      view.funded (received [proposal 66 3, proposal 65 5]) := by
  apply getBudget_agrees
  · refine ⟨fun key => ?_, fun _ => Iff.rfl, rfl, rfl, rfl⟩
    unfold received
    rw [SortedMap.lookup_mapValues, SortedMap.lookup_mapValues, lookup_three, lookup_two]
    split
    · exact .some ⟨rfl, rfl, rfl, rfl⟩
    · split
      · exact .some ⟨rfl, rfl, rfl, rfl⟩
      · exact .none
  · intro key
    unfold received
    rw [SortedMap.lookup_mapValues, SortedMap.lookup_mapValues, lookup_three, lookup_two]

end

end Agouti
