import Agouti.Chain.Node
import Mathlib.Data.List.AList

/-! # Votes on the payment of masternodes

`CMasternodePayments`: the winners that masternodes announce for a block height (`mnw`), the tally
of each height, the last height that each masternode is remembered with, and the file that keeps the
first two. What a call reads of the rest of the node is given with it (`PaymentContext`), so blocks
and masternodes may change between any two calls.
-/

namespace Agouti

def MNPAYMENTS_SIGNATURES_TOTAL : Int := 10

/-- A vote for the payee of a block. -/
structure CMasternodePaymentWinner where
  vinMasternode : CTxIn
  nBlockHeight : Int
  payee : CScript
  vchSig : List UInt8
  deriving DecidableEq, Repr

/-- `CMasternodePaymentWinner::GetHash`; the signature is no part of it. -/
def CMasternodePaymentWinner.getHash [Crypto] (winner : CMasternodePaymentWinner) : Uint256 :=
  Hash (Serialize.bytes winner.payee ++ Serialize.leInt 4 winner.nBlockHeight ++
    Serialize.outpoint winner.vinMasternode.prevout)

/-- The payees of a block. -/
structure CMasternodeBlockPayees where
  nBlockHeight : Int
  vecPayments : List CMasternodePayee := []
  deriving DecidableEq, Repr

namespace CMasternodeBlockPayees

/-- The loop of `AddPayee`: the first entry of the payee counts the vote, a new entry is
made at the end. -/
def addVotes (payeeIn : CScript) (nIncrement : Int) : List CMasternodePayee → List CMasternodePayee
  | [] => [⟨payeeIn, nIncrement⟩]
  | payee :: rest =>
    if payee.scriptPubKey = payeeIn then
      { payee with nVotes := payee.nVotes + nIncrement } :: rest
    else payee :: addVotes payeeIn nIncrement rest

def addPayee (payees : CMasternodeBlockPayees) (payeeIn : CScript) (nIncrement : Int) :
    CMasternodeBlockPayees :=
  { payees with vecPayments := addVotes payeeIn nIncrement payees.vecPayments }

/-- The vote counter of a payee; `0` for a payee without an entry. -/
def votesOf (payees : CMasternodeBlockPayees) (payee : CScript) : Int :=
  ((payees.vecPayments.find? fun entry => entry.scriptPubKey == payee).map
    CMasternodePayee.nVotes).getD 0

end CMasternodeBlockPayees

/-- What a call reads of the rest of the node. -/
structure PaymentContext where
  /-- `!fLiteMode`, `IsBlockchainSynced()`, and the version of the peer is an active one -/
  enabled : Bool
  /-- `chainActive.Tip()->nHeight`, when `cs_main` is locked and there is a tip -/
  tipHeight : Option Int
  /-- `mnodeman.CountEnabled()` -/
  nEnabled : Nat
  /-- `mnodeman.size()` -/
  nMasternodes : Nat
  /-- `ActiveProtocol()` -/
  activeProtocol : Int
  /-- the protocol version of the masternode that `mnodeman.Find` returns -/
  protocolVersion : CTxIn → Option Int
  /-- `GetMasternodeRank`, `-1` for an unknown masternode -/
  getMasternodeRank : CTxIn → Int → Int
  /-- the signature of a winner is one of the masternode's key -/
  verifies : CMasternodePaymentWinner → Bool
  /-- `GetBlockHash` finds a block -/
  hasBlockHash : Int → Bool

/-- The votes and their tallies. -/
structure CMasternodePayments where
  mapMasternodePayeeVotes : AList fun _ : Uint256 => CMasternodePaymentWinner := ∅
  mapMasternodeBlocks : Int → Option CMasternodeBlockPayees := fun _ => none
  mapMasternodesLastVote : Uint256 → Option Int := fun _ => none

namespace PaymentContext

variable (context : PaymentContext) (winner : CMasternodePaymentWinner)

/-- `CMasternodePaymentWinner::IsValid`. -/
def isValid : Bool :=
  match context.protocolVersion winner.vinMasternode with
  | none => false
  | some protocolVersion =>
    decide (context.activeProtocol ≤ protocolVersion) &&
      decide (context.getMasternodeRank winner.vinMasternode (winner.nBlockHeight - 100) ≤
        MNPAYMENTS_SIGNATURES_TOTAL)

/-- `CMasternodePaymentWinner::SignatureValid`. -/
def signatureValid : Bool :=
  (context.protocolVersion winner.vinMasternode).isSome && context.verifies winner

/-- The height of a winner is near the one of the tip; the lower bound is a floating point
number that is cut off. -/
def inRange (nHeight : Int) : Bool :=
  decide ((4 * nHeight - 5 * context.nEnabled).tdiv 4 ≤ winner.nBlockHeight) &&
    decide (winner.nBlockHeight ≤ nHeight + 20)

end PaymentContext

namespace CMasternodePayments

def clear (payments : CMasternodePayments) : CMasternodePayments :=
  { payments with mapMasternodePayeeVotes := ∅, mapMasternodeBlocks := fun _ => none }

/-- The key of `mapMasternodesLastVote`. -/
def voterKey (outMasternode : COutPoint) : Uint256 :=
  outMasternode.hash + BitVec.ofNat 256 outMasternode.n

def canVote (payments : CMasternodePayments) (outMasternode : COutPoint) (nBlockHeight : Int) :
    CMasternodePayments × Bool :=
  if payments.mapMasternodesLastVote (voterKey outMasternode) = some nBlockHeight then
    (payments, false)
  else
    ({ payments with
      mapMasternodesLastVote := Function.update payments.mapMasternodesLastVote
        (voterKey outMasternode) (some nBlockHeight) }, true)

/-- The entry of a height in `mapMasternodeBlocks`, made when there is none. -/
def blockPayees (payments : CMasternodePayments) (nBlockHeight : Int) : CMasternodeBlockPayees :=
  (payments.mapMasternodeBlocks nBlockHeight).getD { nBlockHeight := nBlockHeight }

/-- The body of the loop of `CleanPaymentList`. -/
def cleanWinner (nHeight nLimit : Int) (payments : CMasternodePayments)
    (entry : Sigma fun _ : Uint256 => CMasternodePaymentWinner) : CMasternodePayments :=
  if nLimit < nHeight - entry.2.nBlockHeight then
    { payments with
      mapMasternodePayeeVotes := payments.mapMasternodePayeeVotes.erase entry.1
      mapMasternodeBlocks :=
        Function.update payments.mapMasternodeBlocks entry.2.nBlockHeight none }
  else payments

def cleanPaymentList (context : PaymentContext) (payments : CMasternodePayments) :
    CMasternodePayments :=
  match context.tipHeight with
  | none => payments
  | some nHeight =>
    let nLimit := max (5 * context.nMasternodes / 4 : Nat) 1000
    payments.mapMasternodePayeeVotes.entries.foldl (cleanWinner nHeight nLimit) payments

variable [Crypto]

def addWinningMasternode (context : PaymentContext) (payments : CMasternodePayments)
    (winnerIn : CMasternodePaymentWinner) : CMasternodePayments × Bool :=
  if !context.hasBlockHash (winnerIn.nBlockHeight - 100) then (payments, false)
  else if (payments.mapMasternodePayeeVotes.lookup winnerIn.getHash).isSome then (payments, false)
  else
    ({ payments with
      mapMasternodePayeeVotes := payments.mapMasternodePayeeVotes.insert winnerIn.getHash winnerIn
      mapMasternodeBlocks := Function.update payments.mapMasternodeBlocks winnerIn.nBlockHeight
        (some ((payments.blockPayees winnerIn.nBlockHeight).addPayee winnerIn.payee 1)) }, true)

/-- The checks of `ProcessMessageMasternodePayments` for `mnw` in front of `CanVote`. -/
def winnerValid (context : PaymentContext) (payments : CMasternodePayments)
    (winner : CMasternodePaymentWinner) : Bool :=
  context.enabled &&
    ((context.tipHeight.map fun nHeight =>
      (payments.mapMasternodePayeeVotes.lookup winner.getHash).isNone &&
        context.inRange winner nHeight).getD false) &&
    context.isValid winner

/-- `ProcessMessageMasternodePayments` for `mnw`. -/
def processWinner (context : PaymentContext) (payments : CMasternodePayments)
    (winner : CMasternodePaymentWinner) : CMasternodePayments :=
  if !payments.winnerValid context winner then payments
  else
    match payments.canVote winner.vinMasternode.prevout winner.nBlockHeight with
    | (payments, false) => payments
    | (payments, true) =>
      if !context.signatureValid winner then payments
      else (payments.addWinningMasternode context winner).1

/-- A sequence of `mnw` messages, each with what its handler reads of the node. -/
def processWinners (payments : CMasternodePayments)
    (messages : List (PaymentContext × CMasternodePaymentWinner)) : CMasternodePayments :=
  messages.foldl (fun payments message => payments.processWinner message.1 message.2) payments

end CMasternodePayments

/-- `CMasternodePaymentDB::ReadResult`. -/
inductive ReadResult
  | Ok
  | FileError
  | HashReadError
  | IncorrectHash
  | IncorrectMagicMessage
  | IncorrectMagicNumber
  | IncorrectFormat
  deriving DecidableEq, Repr

/-- The data in `mnpayments.dat`. -/
structure PaymentFile where
  mapMasternodePayeeVotes : AList fun _ : Uint256 => CMasternodePaymentWinner
  mapMasternodeBlocks : Int → Option CMasternodeBlockPayees

namespace CMasternodePayments

/-- `CMasternodePaymentDB::Write`. -/
def write (payments : CMasternodePayments) : PaymentFile :=
  ⟨payments.mapMasternodePayeeVotes, payments.mapMasternodeBlocks⟩

/-- `CMasternodePaymentDB::Read` of a file, with its outcome: only a file of the right format
replaces the maps. -/
def read (context : PaymentContext) (payments : CMasternodePayments) (file : PaymentFile)
    (result : ReadResult) (fDryRun : Bool) : CMasternodePayments :=
  match result with
  | .Ok =>
    let loaded :=
      { payments with
        mapMasternodePayeeVotes := file.mapMasternodePayeeVotes
        mapMasternodeBlocks := file.mapMasternodeBlocks }
    if fDryRun then loaded else loaded.cleanPaymentList context
  | .IncorrectFormat => payments.clear
  | _ => payments

end CMasternodePayments

end Agouti
