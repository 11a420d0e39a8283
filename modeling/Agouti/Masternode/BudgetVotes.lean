import Agouti.Chain.Node
import Mathlib.Data.List.AList

/-! # Votes on proposals and on finalized budgets

`CBudgetManager` keeps its proposals and its finalized budgets in two sets of maps with the same
code around them, so one store (`VoteStore`) models either. What a message handler reads of the rest
of the node is given with each call (`BudgetContext`).
-/

namespace Agouti

def BUDGET_VOTE_UPDATE_MIN : Int := 60 * 60

/-- A vote on a proposal. -/
structure CBudgetVote where
  fValid : Bool := true
  vin : CTxIn
  nProposalHash : Uint256
  nVote : Int
  nTime : Int
  vchSig : List UInt8
  deriving DecidableEq

/-- A vote for a finalized budget. -/
structure CFinalizedBudgetVote where
  fValid : Bool := true
  vin : CTxIn
  nBudgetHash : Uint256
  nTime : Int
  vchSig : List UInt8
  deriving DecidableEq

/-- A proposal. -/
structure CBudgetProposalBroadcast where
  strProposalName : List UInt8
  strURL : List UInt8
  nBlockStart : Int
  nBlockEnd : Int
  nAmount : CAmount
  address : CScript
  nFeeTXHash : Uint256
  deriving DecidableEq

/-- A finalized budget. -/
structure CFinalizedBudgetBroadcast where
  strBudgetName : List UInt8
  nBlockStart : Int
  vecBudgetPayments : List CTxBudgetPayment
  nFeeTXHash : Uint256
  deriving DecidableEq

/-- A proposal or a finalized budget. -/
class BudgetItem (Item : Type) where
  /-- `GetHash` -/
  getHash : Item → Uint256

/-- What both kinds of votes have. -/
class BudgetVote (Vote : Type) where
  vin : Vote → CTxIn
  /-- `nProposalHash` or `nBudgetHash` -/
  itemHash : Vote → Uint256
  nTime : Vote → Int
  /-- `GetHash` -/
  getHash : Vote → Uint256
  /-- sets `fValid` -/
  setValid : Bool → Vote → Vote
  setValid_vin : ∀ fValid vote, vin (setValid fValid vote) = vin vote
  setValid_itemHash : ∀ fValid vote, itemHash (setValid fValid vote) = itemHash vote
  setValid_nTime : ∀ fValid vote, nTime (setValid fValid vote) = nTime vote
  setValid_getHash : ∀ fValid vote, getHash (setValid fValid vote) = getHash vote

attribute [simp] BudgetVote.setValid_vin BudgetVote.setValid_itemHash BudgetVote.setValid_nTime
  BudgetVote.setValid_getHash

section

variable [Crypto]

def COutPoint.getHash (outpoint : COutPoint) : Uint256 := Hash (Serialize.outpoint outpoint)

open Serialize

/-- `CBudgetProposal::GetHash`. -/
instance : BudgetItem CBudgetProposalBroadcast where
  getHash proposal := Hash (bytes proposal.strProposalName ++
    bytes proposal.strURL ++ leInt 4 proposal.nBlockStart ++
    leInt 4 proposal.nBlockEnd ++ leInt 8 proposal.nAmount ++
    bytes proposal.address)

/-- `CFinalizedBudget::GetHash`. -/
instance : BudgetItem CFinalizedBudgetBroadcast where
  getHash budget := Hash (bytes budget.strBudgetName ++
    leInt 4 budget.nBlockStart ++
    vector (fun payment => bytes payment.payee ++
      leInt 8 payment.nAmount ++ uint256 payment.nProposalHash)
      budget.vecBudgetPayments)

/-- `CBudgetVote::GetHash`. -/
instance : BudgetVote CBudgetVote where
  vin := CBudgetVote.vin
  itemHash := CBudgetVote.nProposalHash
  nTime := CBudgetVote.nTime
  getHash vote := Hash (txin vote.vin ++ uint256 vote.nProposalHash ++
    leInt 4 vote.nVote ++ leInt 8 vote.nTime)
  setValid fValid vote := { vote with fValid := fValid }
  setValid_vin _ _ := rfl
  setValid_itemHash _ _ := rfl
  setValid_nTime _ _ := rfl
  setValid_getHash _ _ := rfl

/-- `CFinalizedBudgetVote::GetHash`. -/
instance : BudgetVote CFinalizedBudgetVote where
  vin := CFinalizedBudgetVote.vin
  itemHash := CFinalizedBudgetVote.nBudgetHash
  nTime := CFinalizedBudgetVote.nTime
  getHash vote := Hash (txin vote.vin ++ uint256 vote.nBudgetHash ++
    leInt 8 vote.nTime)
  setValid fValid vote := { vote with fValid := fValid }
  setValid_vin _ _ := rfl
  setValid_itemHash _ _ := rfl
  setValid_nTime _ _ := rfl
  setValid_getHash _ _ := rfl

end

/-- Why a vote is not entered: the texts that `strError` is set to. -/
inductive VoteError where
  /-- the item is not known, and the node asks for none before it is synced -/
  | syncing
  /-- "Proposal not found!", "Finalized Budget … not found!" -/
  | notFound
  /-- "new vote older than existing vote" -/
  | older
  /-- "time between votes is too soon" -/
  | tooSoon
  /-- "new vote is too far ahead of current time" -/
  | tooFarAhead
  deriving DecidableEq, Repr

/-- `CBudgetProposal` or `CFinalizedBudget`: what was broadcast and the votes for it. -/
structure BudgetEntry (Item Vote : Type) where
  item : Item
  fValid : Bool := true
  mapVotes : Uint256 → Option Vote := fun _ => none

/-- The items of one kind and their votes. -/
structure VoteStore (Item Vote : Type) where
  /-- `mapProposals`, `mapFinalizedBudgets` -/
  mapItems : Uint256 → Option (BudgetEntry Item Vote) := fun _ => none
  /-- `mapSeenMasternodeBudgetProposals`, `mapSeenFinalizedBudgets` -/
  mapSeenItems : Uint256 → Option Item := fun _ => none
  /-- `mapSeenMasternodeBudgetVotes`, `mapSeenFinalizedBudgetVotes` -/
  mapSeenVotes : Uint256 → Option Vote := fun _ => none
  /-- `mapOrphanMasternodeBudgetVotes`, `mapOrphanFinalizedBudgetVotes` -/
  mapOrphanVotes : AList fun _ : Uint256 => Vote := ∅
  /-- `vecImmatureBudgetProposals`, `vecImmatureFinalizedBudgets` -/
  vecImmature : List Item := []

/-- What a call reads of the rest of the node. -/
structure BudgetContext (Item Vote : Type) where
  /-- `!fLiteMode` and `masternodeSync.IsBlockchainSynced()` -/
  enabled : Bool
  /-- `masternodeSync.IsSynced()` -/
  synced : Bool
  /-- `GetTime()` -/
  time : Int
  /-- `IsBudgetCollateralValid`, and the confirmations that it finds -/
  isBudgetCollateralValid : Item → Bool × Int
  /-- `IsValid` -/
  isValid : Item → Bool
  /-- `mnodeman.Find` has the masternode -/
  knowsMasternode : CTxIn → Bool
  /-- the signature is one of the masternode's key -/
  verifies : Vote → Bool

namespace VoteStore

variable {Item Vote : Type} [BudgetItem Item] [BudgetVote Vote]

open BudgetVote

def signatureValid (context : BudgetContext Item Vote) (fSignatureCheck : Bool) (vote : Vote) :
    Bool :=
  context.knowsMasternode (vin vote) && (!fSignatureCheck || context.verifies vote)

/-- `AddProposal`, `AddFinalizedBudget`. -/
def addItem (context : BudgetContext Item Vote) (store : VoteStore Item Vote) (item : Item) :
    VoteStore Item Vote × Bool :=
  if !context.isValid item then (store, false)
  else if (store.mapItems (BudgetItem.getHash item)).isSome then (store, false)
  else
    ({ store with
      mapItems := Function.update store.mapItems (BudgetItem.getHash item)
        (some { item := item }) }, true)

def insertSeenItem (store : VoteStore Item Vote) (item : Item) : VoteStore Item Vote :=
  if (store.mapSeenItems (BudgetItem.getHash item)).isSome then store
  else { store with
    mapSeenItems := Function.update store.mapSeenItems (BudgetItem.getHash item) (some item) }

def insertSeenVote (store : VoteStore Item Vote) (vote : Vote) : VoteStore Item Vote :=
  if (store.mapSeenVotes (getHash vote)).isSome then store
  else { store with
    mapSeenVotes := Function.update store.mapSeenVotes (getHash vote) (some vote) }

def clearSeen (store : VoteStore Item Vote) : VoteStore Item Vote :=
  { store with mapSeenItems := fun _ => none, mapSeenVotes := fun _ => none }

/-- `CheckAndRemove` and `CleanAndRemove(false)`: both only set flags. -/
def cleanItems (context : BudgetContext Item Vote) (store : VoteStore Item Vote) :
    VoteStore Item Vote :=
  { store with
    mapItems := fun hash => (store.mapItems hash).map fun entry =>
      { entry with
        fValid := context.isValid entry.item,
        mapVotes := fun key => (entry.mapVotes key).map fun vote =>
          setValid (signatureValid context false vote) vote } }

/-- The body of the loop of `NewBlock` over the immature items, which rebuilds their vector. -/
def addImmatureItem (context : BudgetContext Item Vote) (store : VoteStore Item Vote)
    (item : Item) : VoteStore Item Vote :=
  if !(context.isBudgetCollateralValid item).1 then
    { store with vecImmature := store.vecImmature ++ [item] }
  else if !context.isValid item then store
  else (store.addItem context item).1

/-- The part of `NewBlock` after the synchronization. -/
def newBlock (context : BudgetContext Item Vote) (store : VoteStore Item Vote) :
    VoteStore Item Vote :=
  let store := store.cleanItems context
  store.vecImmature.foldl (addImmatureItem context) { store with vecImmature := [] }

/-- An item of this node: `SubmitFinalBudget` and the command that submits a proposal. -/
def submitItem (context : BudgetContext Item Vote) (store : VoteStore Item Vote) (item : Item) :
    VoteStore Item Vote :=
  ((store.insertSeenItem item).addItem context item).1

/-- `ProcessMessage` for `mprop` or `fbs`, up to `CheckOrphanVotes`: the new store, and whether
`CheckOrphanVotes` comes next. -/
def processItem (context : BudgetContext Item Vote) (store : VoteStore Item Vote) (item : Item) :
    VoteStore Item Vote × Bool :=
  if !context.enabled then (store, false)
  else if (store.mapSeenItems (BudgetItem.getHash item)).isSome then (store, false)
  else
    let (valid, nConf) := context.isBudgetCollateralValid item
    if !valid then
      if 1 ≤ nConf then ({ store with vecImmature := store.vecImmature ++ [item] }, false)
      else (store, false)
    else
      let store := store.insertSeenItem item
      if !context.isValid item then (store, false)
      else ((store.addItem context item).1, true)

variable [Crypto]

/-- The key of a masternode in `mapVotes`. -/
def voteKey (vote : Vote) : Uint256 := (vin vote).prevout.getHash

def addOrUpdateVote (time : Int) (mapVotes : Uint256 → Option Vote) (vote : Vote) :
    Except VoteError (Uint256 → Option Vote) :=
  let hash := voteKey vote
  let refused : Option VoteError := (mapVotes hash).bind fun old =>
    if nTime vote < nTime old then some .older
    else if (nTime vote - nTime old).bmod (2 ^ 64) < BUDGET_VOTE_UPDATE_MIN then some .tooSoon
    else none
  match refused with
  | some error => .error error
  | none =>
    if time + 60 * 60 < nTime vote then .error .tooFarAhead
    else .ok (Function.update mapVotes hash (some vote))

/-- `UpdateProposal`, `UpdateFinalizedBudget`; `pfrom` is whether there is a peer. -/
def updateItem (time : Int) (pfrom synced : Bool) (store : VoteStore Item Vote) (vote : Vote) :
    VoteStore Item Vote × Except VoteError Unit :=
  match store.mapItems (itemHash vote) with
  | none =>
    if pfrom then
      if !synced then (store, .error .syncing)
      else
        ({ store with
          mapOrphanVotes := store.mapOrphanVotes.insert (itemHash vote) vote },
          .error .notFound)
    else (store, .error .notFound)
  | some entry =>
    match addOrUpdateVote time entry.mapVotes vote with
    | .error error => (store, .error error)
    | .ok mapVotes =>
      ({ store with
        mapItems := Function.update store.mapItems (itemHash vote)
          (some { entry with mapVotes := mapVotes }) }, .ok ())

/-- The body of a loop of `CheckOrphanVotes`. -/
def checkOrphanVote (time : Int) (store : VoteStore Item Vote)
    (orphan : Sigma fun _ : Uint256 => Vote) : VoteStore Item Vote :=
  match store.updateItem time false false orphan.2 with
  | (store, .ok _) => { store with mapOrphanVotes := store.mapOrphanVotes.erase orphan.1 }
  | (store, .error _) => store

/-- One of the two loops of `CheckOrphanVotes`. -/
def checkOrphanVotes (time : Int) (store : VoteStore Item Vote) : VoteStore Item Vote :=
  store.mapOrphanVotes.entries.foldl (checkOrphanVote time) store

/-- `ProcessMessage` for `mvote` or `fbvote`. -/
def processVote (context : BudgetContext Item Vote) (store : VoteStore Item Vote) (vote : Vote) :
    VoteStore Item Vote :=
  let vote := setValid true vote
  if !context.enabled then store
  else if (store.mapSeenVotes (getHash vote)).isSome then store
  else if !context.knowsMasternode (vin vote) then store
  else
    let store := store.insertSeenVote vote
    if !signatureValid context true vote then store
    else (store.updateItem context.time true context.synced vote).1

/-- A vote of this node: the commands that vote and `CFinalizedBudget::SubmitVote`. -/
def castVote (context : BudgetContext Item Vote) (store : VoteStore Item Vote) (vote : Vote) :
    VoteStore Item Vote :=
  match store.updateItem context.time false context.synced vote with
  | (store, .ok _) => store.insertSeenVote vote
  | (store, .error _) => store

end VoteStore

/-- Proposals and finalized budgets. -/
structure CBudgetManager where
  proposals : VoteStore CBudgetProposalBroadcast CBudgetVote := {}
  budgets : VoteStore CFinalizedBudgetBroadcast CFinalizedBudgetVote := {}

abbrev ProposalContext := BudgetContext CBudgetProposalBroadcast CBudgetVote

abbrev FinalizedContext := BudgetContext CFinalizedBudgetBroadcast CFinalizedBudgetVote

namespace CBudgetManager

variable [Crypto]

def checkOrphanVotes (time : Int) (budget : CBudgetManager) : CBudgetManager where
  proposals := budget.proposals.checkOrphanVotes time
  budgets := budget.budgets.checkOrphanVotes time

/-- `CBudgetManager::ProcessMessage` for `mprop`. -/
def processMprop (context : ProposalContext) (budget : CBudgetManager)
    (proposal : CBudgetProposalBroadcast) : CBudgetManager :=
  let (proposals, added) := budget.proposals.processItem context proposal
  let budget := { budget with proposals := proposals }
  if added then budget.checkOrphanVotes context.time else budget

/-- `CBudgetManager::ProcessMessage` for `fbs`. -/
def processFbs (context : FinalizedContext) (budget : CBudgetManager)
    (finalized : CFinalizedBudgetBroadcast) : CBudgetManager :=
  let (budgets, added) := budget.budgets.processItem context finalized
  let budget := { budget with budgets := budgets }
  if added then budget.checkOrphanVotes context.time else budget

/-- `CBudgetManager::ProcessMessage` for `mvote`. -/
def processMvote (context : ProposalContext) (budget : CBudgetManager) (vote : CBudgetVote) :
    CBudgetManager :=
  { budget with proposals := budget.proposals.processVote context vote }

/-- `CBudgetManager::ProcessMessage` for `fbvote`. -/
def processFbvote (context : FinalizedContext) (budget : CBudgetManager)
    (vote : CFinalizedBudgetVote) : CBudgetManager :=
  { budget with budgets := budget.budgets.processVote context vote }

/-- `CBudgetManager::NewBlock` in a block where it does something; `clears` is whether it calls
`ClearSeen`. -/
def newBlock (context : ProposalContext) (finalized : FinalizedContext) (clears : Bool)
    (budget : CBudgetManager) : CBudgetManager :=
  let budget : CBudgetManager :=
    if clears then ⟨budget.proposals.clearSeen, budget.budgets.clearSeen⟩ else budget
  ⟨budget.proposals.newBlock context, budget.budgets.newBlock finalized⟩

end CBudgetManager

end Agouti
