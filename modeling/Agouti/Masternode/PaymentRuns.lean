import Agouti.Masternode.PaymentTally

/-! # Messages of winners in sequence

Two laws that the record of the last height of each masternode is meant to give. A message
with a bad signature should leave no trace, but `CanVote` enters its height before the
signature is checked (`forged_ignored_iff`). A masternode should have one winner for a height,
but only its last height is remembered, so a vote for another height in between admits a
second one (`atMostOne_iff`).
-/

namespace Agouti

open List Function Option

namespace CMasternodePayments

def castBy (outMasternode : COutPoint) (nBlockHeight : Int) (winner : CMasternodePaymentWinner) :
    Bool :=
  winner.vinMasternode.prevout == outMasternode && winner.nBlockHeight == nBlockHeight

/-- No masternode has two votes for a height. -/
def AtMostOne (payments : CMasternodePayments) : Prop :=
  ∀ outMasternode nBlockHeight, payments.countWinners (castBy outMasternode nBlockHeight) ≤ 1

/-- The height of a message is entered for its masternode in place of another one. -/
def remember (payments : CMasternodePayments) (winner : CMasternodePaymentWinner) :
    CMasternodePayments :=
  { payments with
    mapMasternodesLastVote := Function.update payments.mapMasternodesLastVote
      (voterKey winner.vinMasternode.prevout) (some winner.nBlockHeight) }

section

variable [Crypto] (payments : CMasternodePayments) (context : PaymentContext)
  (winner : CMasternodePaymentWinner)

/-- The message passes the checks in front of `CanVote`, and the height that its masternode is
remembered with is another one. -/
structure Remembers : Prop where
  valid : payments.winnerValid context winner = true
  other : payments.mapMasternodesLastVote (voterKey winner.vinMasternode.prevout) ≠
    some winner.nBlockHeight

/-- The message passes all checks, although its masternode has a winner for its height. -/
structure VotesAgain : Prop extends payments.Remembers context winner where
  signed : context.signatureValid winner = true
  known : context.hasBlockHash (winner.nBlockHeight - 100) = true
  voted : 0 < payments.countWinners
    (castBy winner.vinMasternode.prevout winner.nBlockHeight)

end

section

variable [Crypto] {payments : CMasternodePayments} {context : PaymentContext}
  {winner : CMasternodePaymentWinner}

theorem Remembers.fresh (remembers : payments.Remembers context winner) :
    payments.mapMasternodePayeeVotes.lookup winner.getHash = none := by
  have valid := remembers.valid
  simp only [winnerValid, Bool.and_eq_true] at valid
  cases tip : context.tipHeight with
  | none => simp [tip] at valid
  | some nHeight =>
    simp only [tip, map_some, getD_some, Bool.and_eq_true,
      isNone_iff_eq_none] at valid
    exact valid.1.2.1

theorem processWinner_cases (payments : CMasternodePayments) (context : PaymentContext)
    (winner : CMasternodePaymentWinner) :
    (¬payments.Remembers context winner ∧ payments.processWinner context winner = payments) ∨
      (payments.Remembers context winner ∧ context.signatureValid winner = false ∧
        payments.processWinner context winner = payments.remember winner) ∨
      (payments.Remembers context winner ∧ context.signatureValid winner = true ∧
        payments.processWinner context winner =
          ((payments.remember winner).addWinningMasternode context winner).1) := by
  by_cases valid : payments.winnerValid context winner = true
  · by_cases same : payments.mapMasternodesLastVote (voterKey winner.vinMasternode.prevout) =
        some winner.nBlockHeight
    · refine .inl ⟨fun remembers => remembers.other same, ?_⟩
      simp only [processWinner, valid, canVote, same, Bool.not_true, Bool.false_eq_true,
        ↓reduceIte]
    · have remembers : payments.Remembers context winner := ⟨valid, same⟩
      cases signed : context.signatureValid winner with
      | false =>
        refine .inr (.inl ⟨remembers, rfl, ?_⟩)
        simp only [processWinner, valid, canVote, same, signed, Bool.not_true,
          Bool.false_eq_true, ↓reduceIte, Bool.not_false]
        rfl
      | true =>
        refine .inr (.inr ⟨remembers, rfl, ?_⟩)
        simp only [processWinner, valid, canVote, same, signed, Bool.not_true,
          Bool.false_eq_true, ↓reduceIte]
        rfl
  · refine .inl ⟨fun remembers => valid remembers.valid, ?_⟩
    simp only [processWinner, Bool.not_eq_true _ ▸ valid, Bool.not_false, ↓reduceIte]

end

/-- The winners and votes that are recorded are the same. -/
structure SameVotes (a b : CMasternodePayments) : Prop where
  votes : a.mapMasternodePayeeVotes = b.mapMasternodePayeeVotes
  blocks : a.mapMasternodeBlocks = b.mapMasternodeBlocks

/-- The same winner under another signature. -/
def resign (winner : CMasternodePaymentWinner) : CMasternodePaymentWinner :=
  { winner with vchSig := 0 :: winner.vchSig }

/-- What the handler reads when only that signature is genuine. -/
def genuine (context : PaymentContext) (winner : CMasternodePaymentWinner) : PaymentContext :=
  { context with
    verifies := fun other => other.vchSig == 0 :: winner.vchSig
    hasBlockHash := fun _ => true }

section

variable [Crypto]

theorem processWinner_genuine {payments : CMasternodePayments} {context : PaymentContext}
    {winner : CMasternodePaymentWinner} (remembers : payments.Remembers context winner) :
    ((payments.processWinner (genuine context winner) (resign winner)).mapMasternodePayeeVotes.lookup
        winner.getHash).isSome = true ∧
      (((payments.remember winner).processWinner (genuine context winner)
        (resign winner)).mapMasternodePayeeVotes.lookup winner.getHash) = none := by
  have hash : (resign winner).getHash = winner.getHash := rfl
  have again : payments.Remembers (genuine context winner) (resign winner) :=
    ⟨remembers.valid, remembers.other⟩
  have signed : (genuine context winner).signatureValid (resign winner) = true := by
    have found : (context.protocolVersion winner.vinMasternode).isSome = true := by
      have valid := remembers.valid
      simp only [winnerValid, Bool.and_eq_true, PaymentContext.isValid] at valid
      cases version : context.protocolVersion winner.vinMasternode with
      | none => simp [version] at valid
      | some protocolVersion => rfl
    simp only [PaymentContext.signatureValid, genuine, resign, found, beq_self_eq_true,
      Bool.and_self]
  constructor
  · rcases processWinner_cases payments (genuine context winner) (resign winner) with
      ⟨refused, _⟩ | ⟨_, forged, _⟩ | ⟨_, _, recorded⟩
    · exact absurd again refused
    · rw [signed] at forged
      contradiction
    · have fresh : (payments.remember (resign winner)).mapMasternodePayeeVotes.lookup
          (resign winner).getHash = none := remembers.fresh
      have known : (genuine context winner).hasBlockHash ((resign winner).nBlockHeight - 100) =
          true := rfl
      rw [recorded]
      simp only [addWinningMasternode, known, fresh, Bool.not_true, Bool.false_eq_true,
        ↓reduceIte, isSome_none]
      rw [← hash, AList.lookup_insert]
      rfl
  · have unchanged : (payments.remember winner).processWinner (genuine context winner)
        (resign winner) = payments.remember winner := by
      rcases processWinner_cases (payments.remember winner) (genuine context winner)
        (resign winner) with ⟨_, same⟩ | ⟨remembered, _⟩ | ⟨remembered, _⟩
      · exact same
      · exact absurd (update_self ..) remembered.other
      · exact absurd (update_self ..) remembered.other
    rw [unchanged]
    exact remembers.fresh

/-- **When a forged winner is ignored.** After any messages, a message whose signature does not
verify leaves no trace in what later messages can achieve exactly when it fails a check in front
of `CanVote` or its masternode is remembered with its height already. -/
theorem forged_ignored_iff (payments : CMasternodePayments)
    (before : List (PaymentContext × CMasternodePaymentWinner)) (context : PaymentContext)
    (winner : CMasternodePaymentWinner) (forged : context.signatureValid winner = false) :
    (∀ after, SameVotes (payments.processWinners (before ++ (context, winner) :: after))
        (payments.processWinners (before ++ after))) ↔
      ¬(payments.processWinners before).Remembers context winner := by
  simp only [processWinners, foldl_append, foldl_cons]
  generalize before.foldl (fun payments message => payments.processWinner message.1 message.2)
    payments = reached
  rcases processWinner_cases reached context winner with
    ⟨refused, same⟩ | ⟨remembers, _, remembered⟩ | ⟨_, signed, _⟩
  · rw [same]
    exact ⟨fun _ => refused, fun _ _ => ⟨rfl, rfl⟩⟩
  · refine ⟨fun ignored => ?_, fun refused => absurd remembers refused⟩
    have differ := (ignored [(genuine context winner, resign winner)]).votes
    obtain ⟨recorded, lost⟩ := processWinner_genuine remembers
    rw [remembered] at differ
    simp only [foldl_cons, foldl_nil] at differ
    rw [← differ, lost] at recorded
    contradiction
  · rw [forged] at signed
    contradiction

theorem countWinners_processWinner (payments : CMasternodePayments) (context : PaymentContext)
    (winner : CMasternodePaymentWinner) (holds : CMasternodePaymentWinner → Bool) :
    (payments.processWinner context winner).countWinners holds = payments.countWinners holds ∨
      (payments.Remembers context winner ∧ context.signatureValid winner = true ∧
        context.hasBlockHash (winner.nBlockHeight - 100) = true) ∧
        (payments.processWinner context winner).countWinners holds =
          payments.countWinners holds + if holds winner = true then 1 else 0 := by
  rcases processWinner_cases payments context winner with
    ⟨_, same⟩ | ⟨_, _, same⟩ | ⟨remembers, signed, same⟩
  · exact .inl (by rw [same])
  · exact .inl (by rw [same]; rfl)
  · rw [same]
    unfold addWinningMasternode
    split
    · exact .inl rfl
    · rename_i known
      split
      · exact .inl rfl
      · refine .inr ⟨⟨remembers, signed, by simpa using known⟩, ?_⟩
        have fresh : (payments.remember winner).mapMasternodePayeeVotes.lookup winner.getHash =
            none := remembers.fresh
        exact countWinners_insert fresh _ holds

theorem countWinners_processWinners (messages : List (PaymentContext × CMasternodePaymentWinner))
    (payments : CMasternodePayments) (holds : CMasternodePaymentWinner → Bool) :
    payments.countWinners holds ≤ (payments.processWinners messages).countWinners holds := by
  induction messages generalizing payments with
  | nil => exact le_rfl
  | cons message rest ih =>
    refine le_trans ?_ (ih (payments.processWinner message.1 message.2))
    rcases countWinners_processWinner payments message.1 message.2 holds with same | ⟨_, more⟩
    · exact same.ge
    · rw [more]
      exact Nat.le_add_right _ _

omit [Crypto] in
theorem castBy_iff {outMasternode : COutPoint} {nBlockHeight : Int}
    {winner : CMasternodePaymentWinner} : castBy outMasternode nBlockHeight winner = true ↔
      winner.vinMasternode.prevout = outMasternode ∧ winner.nBlockHeight = nBlockHeight := by
  simp [castBy]

theorem AtMostOne.processWinner_iff {payments : CMasternodePayments}
    (atMostOne : payments.AtMostOne) (context : PaymentContext)
    (winner : CMasternodePaymentWinner) :
    (payments.processWinner context winner).AtMostOne ↔ ¬payments.VotesAgain context winner := by
  constructor
  · intro kept again
    rcases processWinner_cases payments context winner with
      ⟨refused, _⟩ | ⟨_, forged, _⟩ | ⟨_, _, recorded⟩
    · exact refused again.toRemembers
    · rw [again.signed] at forged
      contradiction
    · have fresh : ((payments.remember winner).mapMasternodePayeeVotes.lookup
          winner.getHash) = none := again.toRemembers.fresh
      have bound := kept winner.vinMasternode.prevout winner.nBlockHeight
      have cast : castBy winner.vinMasternode.prevout winner.nBlockHeight winner = true :=
        castBy_iff.mpr ⟨rfl, rfl⟩
      rw [recorded] at bound
      simp only [addWinningMasternode, again.known, fresh, Bool.not_true, Bool.false_eq_true,
        ↓reduceIte, isSome_none] at bound
      rw [countWinners_insert fresh, if_pos cast] at bound
      have voted : 0 < (payments.remember winner).countWinners
          (castBy winner.vinMasternode.prevout winner.nBlockHeight) := again.voted
      omega
  · intro first outMasternode nBlockHeight
    have bound := atMostOne outMasternode nBlockHeight
    rcases countWinners_processWinner payments context winner (castBy outMasternode nBlockHeight)
      with same | ⟨⟨remembers, signed, known⟩, more⟩
    · exact same.trans_le bound
    · rw [more]
      split
      · rename_i cast
        obtain ⟨rfl, rfl⟩ := castBy_iff.mp cast
        have unvoted : ¬0 < payments.countWinners
            (castBy winner.vinMasternode.prevout winner.nBlockHeight) :=
          fun voted => first ⟨remembers, signed, known, voted⟩
        omega
      · exact bound

/-- **When a masternode has one winner for a height.** After any messages every masternode has
at most one recorded winner for a height exactly when no message passed all checks whose
masternode had one, and was remembered with another height. -/
theorem atMostOne_iff (messages : List (PaymentContext × CMasternodePaymentWinner)) :
    (processWinners {} messages).AtMostOne ↔
      ∀ before context winner after, messages = before ++ (context, winner) :: after →
        ¬(processWinners {} before).VotesAgain context winner := by
  have run : ∀ payments : CMasternodePayments, payments.AtMostOne →
      ((payments.processWinners messages).AtMostOne ↔
        ∀ before context winner after, messages = before ++ (context, winner) :: after →
          ¬(payments.processWinners before).VotesAgain context winner) := by
    induction messages with
    | nil =>
      intro payments atMostOne
      refine ⟨fun _ before context winner after split => ?_, fun _ => atMostOne⟩
      exact absurd split.symm (append_ne_nil_of_right_ne_nil before (cons_ne_nil _ _))
    | cons message rest ih =>
      obtain ⟨context, winner⟩ := message
      intro payments atMostOne
      by_cases again : payments.VotesAgain context winner
      · refine ⟨fun kept => ?_, fun never => absurd again (never [] context winner rest rfl)⟩
        have next : (payments.processWinner context winner).AtMostOne :=
          fun outMasternode nBlockHeight => le_trans
            (countWinners_processWinners rest _ _) (kept outMasternode nBlockHeight)
        exact absurd again ((atMostOne.processWinner_iff context winner).mp next)
      · have next := (atMostOne.processWinner_iff context winner).mpr again
        rw [show payments.processWinners ((context, winner) :: rest) =
          (payments.processWinner context winner).processWinners rest from rfl, ih _ next]
        constructor
        · intro never before other voter after split
          cases before with
          | nil =>
            obtain ⟨same, rfl⟩ := List.cons.inj split
            obtain ⟨rfl, rfl⟩ := Prod.mk.inj same
            exact again
          | cons first before =>
            obtain ⟨rfl, later⟩ := List.cons.inj split
            exact never before other voter after later
        · intro never before other voter after split
          refine never ((context, winner) :: before) other voter after ?_
          rw [split, cons_append]
  exact run {} fun outMasternode nBlockHeight => Nat.zero_le 1

end

end CMasternodePayments

namespace VotingMasternode

def winner (nBlockHeight : Int) (payee : CScript) (vchSig : List UInt8) :
    CMasternodePaymentWinner where
  vinMasternode := { prevout := ⟨7, 0⟩, scriptSig := [] }
  nBlockHeight := nBlockHeight
  payee := payee
  vchSig := vchSig

/-- A node at height 200 that knows ten masternodes, for whose key only the signature `[1]`
verifies. -/
def context : PaymentContext where
  enabled := true
  tipHeight := some 200
  nEnabled := 10
  nMasternodes := 10
  activeProtocol := 70054
  protocolVersion _ := some 70054
  getMasternodeRank _ _ := 1
  verifies winner := winner.vchSig == [1]
  hasBlockHash _ := true

/-- The masternode votes for a height, for the next one, and again for the first. -/
def messages : List (PaymentContext × CMasternodePaymentWinner) :=
  [(context, winner 205 [0x51] [1]), (context, winner 206 [0x51] [1]),
    (context, winner 205 [0x52] [1])]

end VotingMasternode

section

local instance VotingMasternode.instCrypto : Crypto := checksumCrypto

open CMasternodePayments VotingMasternode

/-- A winner with a bad signature silences the masternode: its genuine winner is lost. -/
theorem forgedWinner_silences :
    context.signatureValid (winner 205 [0x51] []) = false ∧
      ¬SameVotes
        (processWinners {} ([] ++ (context, winner 205 [0x51] []) ::
          [(context, winner 205 [0x51] [1])]))
        (processWinners {} ([] ++ [(context, winner 205 [0x51] [1])])) := by
  refine ⟨rfl, fun same => ?_⟩
  have lengths := congrArg (fun votes => votes.entries.length) same.votes
  revert lengths
  decide +kernel

/-- A forged winner for a height that the masternode is remembered with leaves no trace. -/
theorem forged_ignored_votingMasternode :
    (∀ after, SameVotes
        (processWinners {} ([(context, winner 205 [0x51] [1])] ++
          (context, winner 205 [0x52] []) :: after))
        (processWinners {} ([(context, winner 205 [0x51] [1])] ++ after))) ↔
      ¬(processWinners {} [(context, winner 205 [0x51] [1])]).Remembers context
        (winner 205 [0x52] []) :=
  forged_ignored_iff {} _ context (winner 205 [0x52] []) rfl

/-- The masternode has two winners for one height. -/
theorem votingMasternode_twice : ¬(processWinners {} messages).AtMostOne := by
  intro atMostOne
  have bound := atMostOne ⟨7, 0⟩ 205
  revert bound
  decide +kernel

end

end Agouti
