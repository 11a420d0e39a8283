import Agouti.Masternode.PaymentVotes

/-! # The tally of the payment votes

The counters of `mapMasternodeBlocks` count the winners of `mapMasternodePayeeVotes`. Adding a
winner adds one to the counter of its payee, and `CleanPaymentList` removes all winners of a
height or none, because only the height decides whether a winner is old. So the two maps
agree after any sequence of calls, saving and loading included (`tallied_of_calls`).
-/

namespace Agouti

open List Function Option

namespace CMasternodeBlockPayees

def payees (payees : CMasternodeBlockPayees) : List CScript :=
  payees.vecPayments.map CMasternodePayee.scriptPubKey

theorem addPayee_votesOf (payees : CMasternodeBlockPayees) (payeeIn : CScript) (nIncrement : Int)
    (payee : CScript) :
    (payees.addPayee payeeIn nIncrement).votesOf payee =
      payees.votesOf payee + if payee = payeeIn then nIncrement else 0 := by
  simp only [votesOf, addPayee]
  induction payees.vecPayments with
  | nil =>
    by_cases same : payeeIn = payee
    · simp [addVotes, same]
    · simp [addVotes, same, Ne.symm same]
  | cons entry rest ih =>
    by_cases counted : entry.scriptPubKey = payeeIn
    · by_cases same : entry.scriptPubKey = payee
      · simp [addVotes, counted, ← same]
      · have other : payee ≠ payeeIn := fun equal => same (counted.trans equal.symm)
        simp [addVotes, counted, other, Ne.symm other]
    · by_cases same : entry.scriptPubKey = payee
      · subst same
        simp [addVotes, counted]
      · simpa [addVotes, counted, same] using ih

theorem mem_addVotes {payeeIn payee : CScript} {nIncrement : Int} {entries : List CMasternodePayee}
    (member : payee ∈ (addVotes payeeIn nIncrement entries).map CMasternodePayee.scriptPubKey) :
    payee = payeeIn ∨ payee ∈ entries.map CMasternodePayee.scriptPubKey := by
  induction entries with
  | nil => exact .inl (by simpa [addVotes] using member)
  | cons entry rest ih =>
    by_cases counted : entry.scriptPubKey = payeeIn
    · exact .inr (by simpa [addVotes, counted] using member)
    · simp only [addVotes, counted, ↓reduceIte, map_cons, mem_cons] at member ⊢
      rcases member with here | later
      · exact .inr (.inl here)
      · exact (ih later).imp_right .inr

theorem addPayee_nodup {payees : CMasternodeBlockPayees} (distinct : payees.payees.Nodup)
    (payeeIn : CScript) (nIncrement : Int) : (payees.addPayee payeeIn nIncrement).payees.Nodup := by
  obtain ⟨nBlockHeight, vecPayments⟩ := payees
  simp only [CMasternodeBlockPayees.payees, addPayee] at distinct ⊢
  induction vecPayments with
  | nil => simp [addVotes]
  | cons entry rest ih =>
    rw [map_cons, nodup_cons] at distinct
    by_cases counted : entry.scriptPubKey = payeeIn
    · simpa [addVotes, counted] using distinct
    · simp only [addVotes, counted, ↓reduceIte, map_cons, nodup_cons]
      refine ⟨fun member => ?_, ih distinct.2⟩
      rcases mem_addVotes member with here | later
      · exact counted here
      · exact distinct.1 later

end CMasternodeBlockPayees

namespace CMasternodePayments

def countWinners (payments : CMasternodePayments) (holds : CMasternodePaymentWinner → Bool) : Nat :=
  payments.mapMasternodePayeeVotes.entries.countP fun entry => holds entry.2

def elects (nBlockHeight : Int) (payee : CScript) (winner : CMasternodePaymentWinner) : Bool :=
  winner.nBlockHeight == nBlockHeight && winner.payee == payee

/-- The tallies count the recorded winners. -/
structure Tallied (payments : CMasternodePayments) : Prop where
  counts : ∀ nBlockHeight payees, payments.mapMasternodeBlocks nBlockHeight = some payees →
    ∀ payee, payees.votesOf payee = payments.countWinners (elects nBlockHeight payee)
  distinct : ∀ nBlockHeight payees, payments.mapMasternodeBlocks nBlockHeight = some payees →
    payees.payees.Nodup
  heights : ∀ nBlockHeight, (payments.mapMasternodeBlocks nBlockHeight).isSome = true ↔
    0 < payments.countWinners fun winner => winner.nBlockHeight == nBlockHeight

variable {payments : CMasternodePayments}

theorem Tallied.congr {other : CMasternodePayments} (tallied : payments.Tallied)
    (votes : other.mapMasternodePayeeVotes = payments.mapMasternodePayeeVotes)
    (blocks : other.mapMasternodeBlocks = payments.mapMasternodeBlocks) : other.Tallied := by
  obtain ⟨counts, distinct, heights⟩ := tallied
  refine ⟨?_, ?_, ?_⟩ <;> rw [blocks]
  · simpa only [countWinners, votes] using counts
  · exact distinct
  · simpa only [countWinners, votes] using heights

theorem Tallied.empty (votes : payments.mapMasternodePayeeVotes = ∅)
    (blocks : payments.mapMasternodeBlocks = fun _ => none) : payments.Tallied where
  counts nBlockHeight payees found := by
    rw [blocks] at found
    contradiction
  distinct nBlockHeight payees found := by
    rw [blocks] at found
    contradiction
  heights nBlockHeight := by
    have none : payments.countWinners (fun winner => winner.nBlockHeight == nBlockHeight) = 0 := by
      rw [countWinners, votes]
      rfl
    rw [none, blocks]
    simp

section

variable [Crypto]

theorem countWinners_insert {payments : CMasternodePayments} {winner : CMasternodePaymentWinner}
    (fresh : payments.mapMasternodePayeeVotes.lookup winner.getHash = none)
    (blocks : Int → Option CMasternodeBlockPayees) (holds : CMasternodePaymentWinner → Bool) :
    countWinners { payments with
        mapMasternodePayeeVotes := payments.mapMasternodePayeeVotes.insert winner.getHash winner
        mapMasternodeBlocks := blocks } holds =
      payments.countWinners holds + if holds winner = true then 1 else 0 := by
  have absent : winner.getHash ∉ payments.mapMasternodePayeeVotes := AList.lookup_eq_none.mp fresh
  rw [countWinners, AList.entries_insert_of_notMem absent, countP_cons]
  rfl

theorem Tallied.addWinningMasternode {payments : CMasternodePayments} (tallied : payments.Tallied)
    (context : PaymentContext) (winner : CMasternodePaymentWinner) :
    (payments.addWinningMasternode context winner).1.Tallied := by
  unfold CMasternodePayments.addWinningMasternode
  split
  · exact tallied
  split
  · exact tallied
  rename_i _ seen
  rw [not_isSome_iff_eq_none] at seen
  have before : ∀ payee, (payments.blockPayees winner.nBlockHeight).votesOf payee =
      payments.countWinners (elects winner.nBlockHeight payee) := by
    intro payee
    cases found : payments.mapMasternodeBlocks winner.nBlockHeight with
    | some payees =>
      rw [blockPayees, found]
      exact tallied.counts _ _ found payee
    | none =>
      have none : ¬0 < payments.countWinners
          fun other => other.nBlockHeight == winner.nBlockHeight := by
        rw [← tallied.heights, found]
        exact Bool.false_ne_true
      have fewer : payments.countWinners (elects winner.nBlockHeight payee) ≤
          payments.countWinners fun other => other.nBlockHeight == winner.nBlockHeight :=
        countP_mono_left fun entry _ elected => (Bool.and_eq_true_iff.mp elected).1
      rw [blockPayees, found, show payments.countWinners (elects winner.nBlockHeight payee) = 0
        by omega]
      rfl
  have distinct : (payments.blockPayees winner.nBlockHeight).payees.Nodup := by
    cases found : payments.mapMasternodeBlocks winner.nBlockHeight with
    | some payees =>
      rw [blockPayees, found]
      exact tallied.distinct _ _ found
    | none =>
      rw [blockPayees, found]
      exact nodup_nil
  refine ⟨fun nBlockHeight payees found payee => ?_, fun nBlockHeight payees found => ?_,
    fun nBlockHeight => ?_⟩
  · rw [countWinners_insert seen]
    by_cases here : nBlockHeight = winner.nBlockHeight
    · subst here
      simp only [update_self, some.injEq] at found
      subst found
      rw [CMasternodeBlockPayees.addPayee_votesOf, before payee]
      by_cases same : payee = winner.payee
      · simp [elects, same]
      · simp [elects, same, Ne.symm same]
    · simp only [update_of_ne here] at found
      rw [tallied.counts _ _ found payee]
      simp [elects, Ne.symm here]
  · by_cases here : nBlockHeight = winner.nBlockHeight
    · subst here
      simp only [update_self, some.injEq] at found
      subst found
      exact CMasternodeBlockPayees.addPayee_nodup distinct _ _
    · simp only [update_of_ne here] at found
      exact tallied.distinct _ _ found
  · rw [countWinners_insert seen]
    by_cases here : nBlockHeight = winner.nBlockHeight
    · subst here
      simp
    · simp only [update_of_ne here, tallied.heights nBlockHeight]
      simp [Ne.symm here]

end

/-- The winners that the loop of `CleanPaymentList` removes. -/
def expired (nHeight nLimit : Int) (winner : CMasternodePaymentWinner) : Bool :=
  decide (nLimit < nHeight - winner.nBlockHeight)

theorem countP_erase {votes : AList fun _ : Uint256 => CMasternodePaymentWinner}
    {entry : Sigma fun _ : Uint256 => CMasternodePaymentWinner} (member : entry ∈ votes.entries)
    (holds : CMasternodePaymentWinner → Bool) :
    (votes.erase entry.1).entries.countP (fun other => holds other.2) +
        (if holds entry.2 = true then 1 else 0) =
      votes.entries.countP fun other => holds other.2 := by
  obtain ⟨winner, before, after, _, whole, rest⟩ :=
    exists_of_kerase (mem_keys_of_mem member)
  have here : (⟨entry.1, winner⟩ : Sigma fun _ : Uint256 => CMasternodePaymentWinner) ∈
      votes.entries := by
    rw [whole]
    exact mem_append_right _ mem_cons_self
  have same : winner = entry.2 := votes.nodupKeys.eq_of_mk_mem here member
  have left : (votes.erase entry.1).entries = before ++ after := rest
  rw [left, whole, same, countP_append, countP_append, countP_cons]
  simp only
  omega

theorem cleanWinners_spec (nHeight nLimit : Int)
    {entries : List (Sigma fun _ : Uint256 => CMasternodePaymentWinner)}
    (distinct : entries.NodupKeys)
    (present : ∀ entry ∈ entries, entry ∈ payments.mapMasternodePayeeVotes.entries) :
    (∀ holds, (entries.foldl (cleanWinner nHeight nLimit) payments).countWinners holds +
        entries.countP (fun entry => holds entry.2 && expired nHeight nLimit entry.2) =
          payments.countWinners holds) ∧
      ∀ nBlockHeight,
        (entries.foldl (cleanWinner nHeight nLimit) payments).mapMasternodeBlocks nBlockHeight =
          if entries.any fun entry =>
              entry.2.nBlockHeight == nBlockHeight && expired nHeight nLimit entry.2 then none
          else payments.mapMasternodeBlocks nBlockHeight := by
  induction entries generalizing payments with
  | nil => exact ⟨fun _ => rfl, fun _ => rfl⟩
  | cons entry rest ih =>
    have here := present entry mem_cons_self
    have later : ∀ other ∈ rest, other ∈ payments.mapMasternodePayeeVotes.entries :=
      fun other member => present other (mem_cons_of_mem _ member)
    obtain ⟨apart, distinct⟩ := nodupKeys_cons.mp distinct
    rw [foldl_cons]
    by_cases old : nLimit < nHeight - entry.2.nBlockHeight
    · have cleaned : cleanWinner nHeight nLimit payments entry =
          { payments with
            mapMasternodePayeeVotes := payments.mapMasternodePayeeVotes.erase entry.1
            mapMasternodeBlocks :=
              Function.update payments.mapMasternodeBlocks entry.2.nBlockHeight none } :=
        if_pos old
      have gone : expired nHeight nLimit entry.2 = true := decide_eq_true old
      have still : ∀ other ∈ rest,
          other ∈ (cleanWinner nHeight nLimit payments entry).mapMasternodePayeeVotes.entries := by
        intro other member
        have other_ne : other.1 ≠ entry.1 := fun same =>
          apart (same ▸ mem_keys_of_mem member)
        rw [cleaned]
        apply AList.mem_lookup_iff.mp
        rw [AList.lookup_erase_ne other_ne]
        exact AList.mem_lookup_iff.mpr (later other member)
      obtain ⟨counts, blocks⟩ := ih distinct still
      refine ⟨fun holds => ?_, fun nBlockHeight => ?_⟩
      · have erased := countP_erase here holds
        have rest_counted := counts holds
        rw [cleaned] at rest_counted
        simp only [countWinners] at rest_counted ⊢
        rw [countP_cons, gone, Bool.and_true, ← erased, ← rest_counted, cleaned]
        omega
      · rw [blocks nBlockHeight, cleaned, any_cons, gone, Bool.and_true]
        by_cases same : entry.2.nBlockHeight = nBlockHeight
        · subst same
          simp
        · rw [beq_false_of_ne same, Bool.false_or]
          simp only [update_of_ne (Ne.symm same)]
    · have kept : cleanWinner nHeight nLimit payments entry = payments := if_neg old
      have young : expired nHeight nLimit entry.2 = false := decide_eq_false old
      obtain ⟨counts, blocks⟩ := ih distinct later
      rw [kept]
      refine ⟨fun holds => ?_, fun nBlockHeight => ?_⟩
      · rw [countP_cons, young, Bool.and_false]
        exact counts holds
      · rw [blocks nBlockHeight, any_cons, young, Bool.and_false, Bool.false_or]

theorem cleanPaymentList_height (context : PaymentContext) (tallied : payments.Tallied)
    (nBlockHeight : Int) :
    ((payments.cleanPaymentList context).mapMasternodeBlocks nBlockHeight =
          payments.mapMasternodeBlocks nBlockHeight ∧
        ∀ holds : CMasternodePaymentWinner → Bool,
          (∀ winner, holds winner = true → winner.nBlockHeight = nBlockHeight) →
          (payments.cleanPaymentList context).countWinners holds = payments.countWinners holds) ∨
      ((payments.cleanPaymentList context).mapMasternodeBlocks nBlockHeight = none ∧
        ∀ holds : CMasternodePaymentWinner → Bool,
          (∀ winner, holds winner = true → winner.nBlockHeight = nBlockHeight) →
          (payments.cleanPaymentList context).countWinners holds = 0) := by
  unfold CMasternodePayments.cleanPaymentList
  split
  · exact .inl ⟨rfl, fun _ _ => rfl⟩
  rename_i nHeight _
  simp only
  generalize ((max (5 * context.nMasternodes / 4) 1000 : Nat) : Int) = nLimit
  have present : ∀ entry ∈ payments.mapMasternodePayeeVotes.entries,
      entry ∈ payments.mapMasternodePayeeVotes.entries := fun _ member => member
  obtain ⟨counts, blocks⟩ := cleanWinners_spec nHeight nLimit
    payments.mapMasternodePayeeVotes.nodupKeys present
  by_cases old : nLimit < nHeight - nBlockHeight
  · refine .inr ⟨?_, fun holds only => ?_⟩
    · rw [blocks nBlockHeight]
      split
      · rfl
      · rename_i none
        have no_winner : payments.countWinners
            (fun winner => winner.nBlockHeight == nBlockHeight) = 0 := by
          rw [countWinners, countP_eq_zero]
          intro entry member here
          refine none (any_eq_true.mpr ⟨entry, member, ?_⟩)
          rw [here, Bool.true_and, expired, decide_eq_true_eq, eq_of_beq here]
          exact old
        have unknown := tallied.heights nBlockHeight
        rw [no_winner] at unknown
        exact not_isSome_iff_eq_none.mp fun some => absurd (unknown.mp some) (lt_irrefl 0)
    · have gone : ∀ entry ∈ payments.mapMasternodePayeeVotes.entries,
          (holds entry.2 && expired nHeight nLimit entry.2) = true ↔ holds entry.2 = true := by
        intro entry _
        rw [Bool.and_eq_true]
        refine ⟨And.left, fun held => ⟨held, ?_⟩⟩
        rw [expired, decide_eq_true_eq, only entry.2 held]
        exact old
      have counted := counts holds
      rw [countP_congr gone] at counted
      exact Nat.add_right_cancel (counted.trans (Nat.zero_add _).symm)
  · refine .inl ⟨?_, fun holds only => ?_⟩
    · rw [blocks nBlockHeight, if_neg]
      intro found
      obtain ⟨entry, _, both⟩ := any_eq_true.mp found
      obtain ⟨here, gone⟩ := Bool.and_eq_true_iff.mp both
      rw [expired, decide_eq_true_eq, eq_of_beq here] at gone
      exact old gone
    · have kept : payments.mapMasternodePayeeVotes.entries.countP
          (fun entry => holds entry.2 && expired nHeight nLimit entry.2) = 0 := by
        rw [countP_eq_zero]
        intro entry _ both
        obtain ⟨held, gone⟩ := Bool.and_eq_true_iff.mp both
        rw [expired, decide_eq_true_eq, only entry.2 held] at gone
        exact old gone
      have counted := counts holds
      rw [kept] at counted
      exact counted

theorem elects_height {nBlockHeight : Int} {payee : CScript} {winner : CMasternodePaymentWinner}
    (elected : elects nBlockHeight payee winner = true) : winner.nBlockHeight = nBlockHeight :=
  eq_of_beq (Bool.and_eq_true_iff.mp elected).1

theorem Tallied.cleanPaymentList (tallied : payments.Tallied)
    (context : PaymentContext) : (payments.cleanPaymentList context).Tallied where
  counts nBlockHeight payees found payee := by
    rcases cleanPaymentList_height context tallied nBlockHeight with ⟨blocks, counts⟩ | ⟨blocks, _⟩
    · rw [blocks] at found
      rw [tallied.counts nBlockHeight payees found payee, counts _ fun _ => elects_height]
    · rw [blocks] at found
      contradiction
  distinct nBlockHeight payees found := by
    rcases cleanPaymentList_height context tallied nBlockHeight with ⟨blocks, _⟩ | ⟨blocks, _⟩
    · rw [blocks] at found
      exact tallied.distinct nBlockHeight payees found
    · rw [blocks] at found
      contradiction
  heights nBlockHeight := by
    rcases cleanPaymentList_height context tallied nBlockHeight with
      ⟨blocks, counts⟩ | ⟨blocks, counts⟩
    · rw [blocks, counts _ fun _ => eq_of_beq]
      exact tallied.heights nBlockHeight
    · rw [blocks, counts _ fun _ => eq_of_beq]
      simp

section

variable [Crypto]

theorem Tallied.processWinner {payments : CMasternodePayments} (tallied : payments.Tallied)
    (context : PaymentContext) (winner : CMasternodePaymentWinner) :
    (payments.processWinner context winner).Tallied := by
  unfold CMasternodePayments.processWinner CMasternodePayments.canVote
  split
  · exact tallied
  split
  · rename_i refused
    split at refused
    · obtain ⟨rfl, -⟩ := Prod.mk.inj refused
      exact tallied
    · exact absurd (Prod.mk.inj refused).2.symm Bool.false_ne_true
  · rename_i recorded
    split at recorded
    · exact absurd (Prod.mk.inj recorded).2 Bool.false_ne_true
    · obtain ⟨rfl, -⟩ := Prod.mk.inj recorded
      have remembered : Tallied { payments with
          mapMasternodesLastVote := Function.update payments.mapMasternodesLastVote
            (voterKey winner.vinMasternode.prevout) (some winner.nBlockHeight) } :=
        tallied.congr rfl rfl
      split
      · exact remembered
      · exact remembered.addWinningMasternode context winner

end

end CMasternodePayments

/-- What changes the payments. -/
inductive PaymentCall
  | processWinner (context : PaymentContext) (winner : CMasternodePaymentWinner)
  | addWinningMasternode (context : PaymentContext) (winner : CMasternodePaymentWinner)
  | cleanPaymentList (context : PaymentContext)
  | clear
  | save
  | load (context : PaymentContext) (result : ReadResult) (fDryRun : Bool)

/-- The payment votes in memory and the file. -/
structure PaymentStore where
  payments : CMasternodePayments := {}
  file : Option PaymentFile := none

variable [Crypto]

namespace PaymentStore

/-- One call. Reading without a file ends with `FileError`. -/
def call (store : PaymentStore) : PaymentCall → PaymentStore
  | .processWinner context winner =>
    { store with payments := store.payments.processWinner context winner }
  | .addWinningMasternode context winner =>
    { store with payments := (store.payments.addWinningMasternode context winner).1 }
  | .cleanPaymentList context =>
    { store with payments := store.payments.cleanPaymentList context }
  | .clear => { store with payments := store.payments.clear }
  | .save => { store with file := some store.payments.write }
  | .load context result fDryRun =>
    match store.file with
    | none => store
    | some file => { store with payments := store.payments.read context file result fDryRun }

/-- The maps agree in memory and in the file. -/
structure Tallied (store : PaymentStore) : Prop where
  payments : store.payments.Tallied
  file : ∀ file, store.file = some file →
    CMasternodePayments.Tallied
      ⟨file.mapMasternodePayeeVotes, file.mapMasternodeBlocks, fun _ => none⟩

omit [Crypto] in
theorem Tallied.read {payments : CMasternodePayments} (tallied : payments.Tallied)
    {file : PaymentFile} (saved : CMasternodePayments.Tallied
      ⟨file.mapMasternodePayeeVotes, file.mapMasternodeBlocks, fun _ => none⟩)
    (context : PaymentContext) (result : ReadResult) (fDryRun : Bool) :
    (payments.read context file result fDryRun).Tallied := by
  cases result with
  | Ok =>
    have loaded : CMasternodePayments.Tallied
        { payments with
          mapMasternodePayeeVotes := file.mapMasternodePayeeVotes
          mapMasternodeBlocks := file.mapMasternodeBlocks } := saved.congr rfl rfl
    cases fDryRun with
    | true => exact loaded
    | false => exact loaded.cleanPaymentList context
  | IncorrectFormat => exact .empty rfl rfl
  | FileError => exact tallied
  | HashReadError => exact tallied
  | IncorrectHash => exact tallied
  | IncorrectMagicMessage => exact tallied
  | IncorrectMagicNumber => exact tallied

theorem Tallied.call {store : PaymentStore} (tallied : store.Tallied) (call : PaymentCall) :
    (store.call call).Tallied := by
  cases call with
  | processWinner context winner =>
    exact ⟨tallied.payments.processWinner context winner, tallied.file⟩
  | addWinningMasternode context winner =>
    exact ⟨tallied.payments.addWinningMasternode context winner, tallied.file⟩
  | cleanPaymentList context =>
    exact ⟨tallied.payments.cleanPaymentList context, tallied.file⟩
  | clear => exact ⟨.empty rfl rfl, tallied.file⟩
  | save =>
    refine ⟨tallied.payments, fun file written => ?_⟩
    obtain rfl := some.inj written
    exact tallied.payments.congr rfl rfl
  | load context result fDryRun =>
    unfold PaymentStore.call
    cases found : store.file with
    | none => exact tallied
    | some file =>
      exact ⟨Tallied.read tallied.payments (tallied.file file found) context result fDryRun,
        fun other same => tallied.file other (found.symm ▸ same)⟩

end PaymentStore

end Agouti
