import Agouti.Coins.Undo

/-! # Available outputs

The outpoints of a view that can be spent, and what connecting and disconnecting transactions
does to them. A transaction takes the outputs it spends and offers its own; disconnecting it
without complaint gives back what it took, and no output of another transaction is lost.
-/

namespace Agouti

open List Function Option

section

def CCoinsViewCache.available (view : CCoinsViewCache) : Set COutPoint :=
  { out | (view.coins out.hash).isAvailable out.n = true }

variable {view after : CCoinsViewCache} {out : COutPoint} {coins : CCoins} {undo : CTxInUndo}
  {tx : CTransaction} {nHeight : Int} {txundo : List CTxInUndo}

theorem CCoinsViewCache.mem_available_modifyCoins {txid : Uint256} {entry : CCoins} :
    out ∈ (view.modifyCoins txid entry).available ↔
      if out.hash = txid then entry.isAvailable out.n = true else out ∈ view.available := by
  simp only [available, modifyCoins, Set.mem_ofPred_eq, CCoins.isAvailable_eq]
  by_cases here : out.hash = txid
  · rw [if_pos here, here, update_self, CCoins.unspent_cleanup]
  · rw [if_neg here, update_of_ne here]

theorem CCoinsViewCache.available_spend {txin : CTxIn}
    (spent : (view.coins txin.prevout.hash).spend txin.prevout.n = some (coins, undo)) :
    txin.prevout ∈ view.available ∧
      ∀ out ∈ (view.modifyCoins txin.prevout.hash coins).available,
        out ∈ view.available ∧ out ≠ txin.prevout := by
  have taken := CCoins.spend_spent spent
  constructor
  · change (view.coins txin.prevout.hash).isAvailable txin.prevout.n = true
    rw [CCoins.isAvailable_eq, taken.output]
    rfl
  · intro out there
    rw [mem_available_modifyCoins] at there
    by_cases same : out.hash = txin.prevout.hash
    · rw [if_pos same, CCoins.isAvailable_eq, taken.outputs] at there
      by_cases here : out.n = txin.prevout.n
      · rw [if_pos here] at there
        contradiction
      · rw [if_neg here, ← CCoins.isAvailable_eq, ← same] at there
        refine ⟨there, ?_⟩
        rintro rfl
        exact here rfl
    · rw [if_neg same] at there
      refine ⟨there, ?_⟩
      rintro rfl
      exact same rfl

theorem CCoinsViewCache.available_of_spend {txin : CTxIn}
    (spent : (view.coins txin.prevout.hash).spend txin.prevout.n = some (coins, undo))
    (there : out ∈ view.available) (apart : out ≠ txin.prevout) :
    out ∈ (view.modifyCoins txin.prevout.hash coins).available := by
  have taken := CCoins.spend_spent spent
  rw [mem_available_modifyCoins]
  by_cases same : out.hash = txin.prevout.hash
  · have other : out.n ≠ txin.prevout.n := by
      intro here
      apply apart
      cases out
      simp_all
    have there : (view.coins out.hash).isAvailable out.n = true := there
    rw [if_pos same, CCoins.isAvailable_eq, taken.outputs, if_neg other, ← CCoins.isAvailable_eq,
      ← same]
    exact there
  · rw [if_neg same]
    exact there

theorem spendInputs_available {vin : List CTxIn} {vprevout : List CTxInUndo}
    (spent : spendInputs vin view = some (after, vprevout)) :
    (∀ txin ∈ vin, txin.prevout ∈ view.available) ∧
      ∀ out ∈ after.available, out ∈ view.available ∧ out ∉ vin.map CTxIn.prevout := by
  induction vin generalizing view vprevout with
  | nil =>
    obtain ⟨rfl, rfl⟩ := Prod.mk.inj (some.inj spent)
    exact ⟨fun txin absent => absurd absent not_mem_nil,
      fun out there => ⟨there, not_mem_nil⟩⟩
  | cons txin rest ih =>
    simp only [spendInputs, bind_eq_bind, Option.pure_def, bind_eq_some_iff]
      at spent
    obtain ⟨⟨coins, undo⟩, first, ⟨middle, others⟩, spent, same⟩ := spent
    obtain ⟨rfl, rfl⟩ := Prod.mk.inj (some.inj same)
    obtain ⟨here, kept⟩ := CCoinsViewCache.available_spend first
    obtain ⟨available, left⟩ := ih spent
    constructor
    · intro other member
      rcases mem_cons.mp member with rfl | member
      · exact here
      · exact (kept _ (available other member)).1
    · intro out there
      obtain ⟨before, unspent⟩ := left out there
      obtain ⟨before, apart⟩ := kept out before
      rw [map_cons, mem_cons, not_or]
      exact ⟨before, apart, unspent⟩

theorem available_of_spendInputs {vin : List CTxIn} {vprevout : List CTxInUndo}
    (spent : spendInputs vin view = some (after, vprevout)) (there : out ∈ view.available)
    (unspent : out ∉ vin.map CTxIn.prevout) :
    out ∈ after.available := by
  induction vin generalizing view vprevout with
  | nil =>
    obtain ⟨rfl, rfl⟩ := Prod.mk.inj (some.inj spent)
    exact there
  | cons txin rest ih =>
    simp only [spendInputs, bind_eq_bind, Option.pure_def, bind_eq_some_iff]
      at spent
    obtain ⟨⟨coins, undo⟩, first, ⟨middle, others⟩, spent, same⟩ := spent
    obtain ⟨rfl, rfl⟩ := Prod.mk.inj (some.inj same)
    rw [map_cons, mem_cons, not_or] at unspent
    apply ih spent
    · exact CCoinsViewCache.available_of_spend first there unspent.1
    · exact unspent.2

variable [Crypto]

def CTransaction.spends (tx : CTransaction) : List COutPoint :=
  if tx.hasInputs then tx.vin.map CTxIn.prevout else []

theorem updateCoins_available (updated : updateCoins tx view nHeight = some (after, txundo)) :
    (∀ out ∈ tx.spends, out ∈ view.available) ∧
      ∀ out ∈ after.available, out.hash = tx.getHash ∨
        (out ∈ view.available ∧ out ∉ tx.spends) := by
  rw [updateCoins, map_eq_some_iff] at updated
  obtain ⟨⟨middle, vprevout⟩, spent, same⟩ := updated
  obtain ⟨rfl, rfl⟩ := Prod.mk.inj same
  have taken : (∀ out ∈ tx.spends, out ∈ view.available) ∧
      ∀ out ∈ middle.available, out ∈ view.available ∧ out ∉ tx.spends := by
    unfold CTransaction.spends
    cases inputs : tx.hasInputs with
    | false =>
      simp only [inputs, Bool.false_eq_true, ↓reduceIte, some.injEq, Prod.mk.injEq]
        at spent ⊢
      obtain ⟨rfl, rfl⟩ := spent
      exact ⟨fun out absent => absurd absent not_mem_nil,
        fun out there => ⟨there, not_mem_nil⟩⟩
    | true =>
      simp only [inputs, ↓reduceIte] at spent ⊢
      obtain ⟨available, left⟩ := spendInputs_available spent
      refine ⟨fun out member => ?_, left⟩
      obtain ⟨txin, input, rfl⟩ := mem_map.mp member
      exact available txin input
  refine ⟨taken.1, fun out there => ?_⟩
  by_cases named : out.hash = tx.getHash
  · exact .inl named
  · right
    apply taken.2
    simpa only [CCoinsViewCache.available, CCoinsViewCache.modifyCoins, Set.mem_ofPred_eq,
      update_of_ne named] using there

/-- The outputs that a transaction adds to the coins. -/
def CTransaction.offers (tx : CTransaction) : Set COutPoint :=
  { out | out.hash = tx.getHash ∧ (CCoins.fromTx tx 0).isAvailable out.n = true }

omit [Crypto] in
theorem CCoins.fromTx_isAvailable (tx : CTransaction) (nHeight : Int) (nPos : Nat) :
    (fromTx tx nHeight).isAvailable nPos = (fromTx tx 0).isAvailable nPos := rfl

theorem updateCoins_offers (updated : updateCoins tx view nHeight = some (after, txundo))
    (named : out.hash = tx.getHash) :
    out ∈ after.available ↔ out ∈ tx.offers := by
  rw [updateCoins, map_eq_some_iff] at updated
  obtain ⟨⟨middle, vprevout⟩, spent, same⟩ := updated
  obtain ⟨rfl, rfl⟩ := Prod.mk.inj same
  rw [CCoinsViewCache.mem_available_modifyCoins, if_pos named, CCoins.fromTx_isAvailable]
  exact ⟨fun there => ⟨named, there⟩, fun offered => offered.2⟩

theorem available_of_updateCoins (updated : updateCoins tx view nHeight = some (after, txundo))
    (there : out ∈ view.available) (unspent : out ∉ tx.spends)
    (apart : out.hash ≠ tx.getHash) : out ∈ after.available := by
  rw [updateCoins, map_eq_some_iff] at updated
  obtain ⟨⟨middle, vprevout⟩, spent, same⟩ := updated
  obtain ⟨rfl, rfl⟩ := Prod.mk.inj same
  rw [CCoinsViewCache.mem_available_modifyCoins, if_neg apart]
  unfold CTransaction.spends at unspent
  cases inputs : tx.hasInputs with
  | false =>
    simp only [inputs, Bool.false_eq_true, ↓reduceIte, some.injEq, Prod.mk.injEq] at spent
    rw [← spent.1]
    exact there
  | true =>
    simp only [inputs, ↓reduceIte] at spent unspent
    exact available_of_spendInputs spent there unspent

/-! ## Transactions with different hashes -/

def Issued (known : Set CTransaction) : Set COutPoint := { out | ∃ tx ∈ known, out ∈ tx.offers }

variable {known : Set CTransaction}

theorem Issued.offers (distinct : known.InjOn CTransaction.getHash) (issued : out ∈ Issued known)
    (member : tx ∈ known) (named : out.hash = tx.getHash) : out ∈ tx.offers := by
  obtain ⟨other, isKnown, offered⟩ := issued
  have same : other = tx := distinct isKnown member (offered.1.symm.trans named)
  exact same ▸ offered

/-- What connecting known transactions does to coins of known transactions. -/
structure Supplies (known : Set CTransaction) (vtx : List CTransaction)
    (view final : CCoinsViewCache) : Prop where
  issued : final.available ⊆ Issued known
  spends : ∀ tx ∈ vtx, ∀ out ∈ tx.spends, out ∈ Issued known
  /-- An output that was there is left or spent. -/
  kept : ∀ out ∈ view.available, out ∈ final.available ∨ ∃ tx ∈ vtx, out ∈ tx.spends
  /-- A new output is left or spent later. -/
  offered : ∀ tx rest, tx :: rest <:+ vtx → ∀ out ∈ tx.offers,
    out ∈ final.available ∨ ∃ other ∈ rest, out ∈ other.spends

theorem Updates.supplies {vtx : List CTransaction} {final : CCoinsViewCache}
    {vtxundo : List (List CTxInUndo)} (updates : Updates nHeight vtx view final vtxundo)
    (distinct : known.InjOn CTransaction.getHash) (members : ∀ tx ∈ vtx, tx ∈ known)
    (issued : view.available ⊆ Issued known) : Supplies known vtx view final := by
  induction updates with
  | nil view =>
    exact ⟨issued, fun tx absent => absurd absent not_mem_nil, fun out there => .inl there,
      fun tx rest suffix => absurd (suffix_nil.mp suffix) (cons_ne_nil tx rest)⟩
  | @cons tx rest view middle final txundo vtxundo updated others ih =>
    have member := members tx mem_cons_self
    obtain ⟨taken, left⟩ := updateCoins_available updated
    have still : middle.available ⊆ Issued known := by
      intro out there
      by_cases named : out.hash = tx.getHash
      · exact ⟨tx, member, (updateCoins_offers updated named).mp there⟩
      · exact issued ((left out there).resolve_left named).1
    have later := ih (fun other inside => members other (mem_cons_of_mem tx inside)) still
    have here : ∀ out ∈ view.available, out ∉ tx.spends → out ∈ middle.available := by
      intro out there unspent
      by_cases named : out.hash = tx.getHash
      · exact (updateCoins_offers updated named).mpr
          (Issued.offers distinct (issued there) member named)
      · exact available_of_updateCoins updated there unspent named
    constructor
    case issued => exact later.issued
    case spends =>
      intro other inside out spent
      rcases mem_cons.mp inside with rfl | inside
      · exact issued (taken out spent)
      · exact later.spends other inside out spent
    case kept =>
      intro out there
      by_cases spent : out ∈ tx.spends
      · exact .inr ⟨tx, mem_cons_self, spent⟩
      · rcases later.kept out (here out there spent) with there | ⟨other, inside, spent⟩
        · exact .inl there
        · exact .inr ⟨other, mem_cons_of_mem tx inside, spent⟩
    case offered =>
      intro other following suffix out offer
      rcases suffix_cons_iff.mp suffix with whole | suffix
      · obtain ⟨rfl, rfl⟩ := List.cons.inj whole
        exact later.kept out ((updateCoins_offers updated offer.1).mpr offer)
      · exact later.offered other following suffix out offer

/-! ## Disconnecting transactions -/

omit [Crypto] in
theorem CCoins.isAvailable_restore {nPos : Nat} (clean : coins.restoresCleanly nPos undo = true)
    {other : Nat} (there : coins.isAvailable other = true) :
    other ≠ nPos ∧ (coins.restore nPos undo).isAvailable other = true := by
  simp only [restoresCleanly, Bool.and_eq_true, Bool.not_eq_eq_eq_not, Bool.not_true,
    isAvailable_eq, unspent_restoreMetadata] at clean
  rw [isAvailable_eq] at there
  have part : undo.nHeight = 0 := by
    by_contra whole
    rw [if_pos whole, isPruned_iff] at clean
    rw [clean.1 other] at there
    contradiction
  rw [if_neg (not_not_intro part), if_neg (not_not_intro part)] at clean
  have apart : other ≠ nPos := by
    rintro rfl
    rw [clean.2] at there
    contradiction
  refine ⟨apart, ?_⟩
  rw [isAvailable_eq, unspent_restore_of_ne coins undo apart, if_neg (not_not_intro part)]
  exact there

omit [Crypto] in
theorem CCoins.isAvailable_of_restore {nPos other : Nat}
    (there : (coins.restore nPos undo).isAvailable other = true) (apart : other ≠ nPos) :
    coins.isAvailable other = true := by
  rw [isAvailable_eq, unspent_restore_of_ne coins undo apart] at there
  by_cases whole : undo.nHeight ≠ 0
  · rw [if_pos whole] at there
    contradiction
  · rw [if_neg whole] at there
    rw [isAvailable_eq]
    exact there

/-- Restored coins: what was available still is, and nothing else is but the given outputs. -/
structure RestoresOutputs (added : List COutPoint) (view after : CCoinsViewCache) : Prop where
  kept : view.available ⊆ after.available
  added : ∀ out ∈ after.available, out ∈ view.available ∨ out ∈ added

omit [Crypto] in
theorem restoreInputs_restores {records : List (CTxIn × CTxInUndo)} {fClean : Bool}
    (restored : restoreInputs records (view, fClean) = (after, true)) :
    fClean = true ∧ RestoresOutputs (records.map fun record => record.1.prevout) view after := by
  induction records generalizing after with
  | nil =>
    obtain ⟨rfl, rfl⟩ := Prod.mk.inj restored
    exact ⟨rfl, fun out there => there, fun out there => .inl there⟩
  | cons record rest ih =>
    obtain ⟨txin, undo⟩ := record
    cases others : restoreInputs rest (view, fClean) with
    | mk middle clean =>
      simp only [restoreInputs, others, Prod.mk.injEq, Bool.and_eq_true] at restored
      obtain ⟨rfl, rfl, cleanly⟩ := restored
      obtain ⟨start, kept, added⟩ := ih others
      refine ⟨start, ?_, ?_⟩
      · intro out there
        have there := kept there
        rw [CCoinsViewCache.mem_available_modifyCoins]
        by_cases named : out.hash = txin.prevout.hash
        · rw [if_pos named]
          have there : (middle.coins out.hash).isAvailable out.n = true := there
          rw [named] at there
          exact (CCoins.isAvailable_restore cleanly there).2
        · rw [if_neg named]
          exact there
      · intro out there
        rw [CCoinsViewCache.mem_available_modifyCoins] at there
        rw [map_cons, mem_cons]
        by_cases here : out = txin.prevout
        · exact .inr (.inl here)
        · have before : out ∈ middle.available := by
            by_cases named : out.hash = txin.prevout.hash
            · rw [if_pos named] at there
              have apart : out.n ≠ txin.prevout.n := by
                intro same
                apply here
                cases out
                simp_all
              have there := CCoins.isAvailable_of_restore there apart
              rw [← named] at there
              exact there
            · rw [if_neg named] at there
              exact there
          rcases added out before with there | member
          · exact .inl there
          · exact .inr (.inr member)

/-- What disconnecting transactions without complaint does to the available outputs. -/
structure Returns (vtx : List CTransaction) (view after : CCoinsViewCache) : Prop where
  /-- The outputs of other transactions are left. -/
  kept : ∀ out ∈ view.available, (∀ tx ∈ vtx, out.hash ≠ tx.getHash) → out ∈ after.available
  /-- What is new was spent by one of the transactions. -/
  returned : ∀ out ∈ after.available, out ∈ view.available ∨ ∃ tx ∈ vtx, out ∈ tx.spends

theorem disconnectTransaction_returns {fClean : Bool}
    (disconnected : disconnectTransaction nHeight tx txundo (view, fClean) = some (after, true)) :
    fClean = true ∧ Returns [tx] view after := by
  have cleared : ∀ out ∈ (view.modifyCoins tx.getHash {}).available,
      out ∈ view.available ∧ out.hash ≠ tx.getHash := by
    intro out there
    rw [CCoinsViewCache.mem_available_modifyCoins] at there
    by_cases named : out.hash = tx.getHash
    · rw [if_pos named] at there
      contradiction
    · rw [if_neg named] at there
      exact ⟨there, named⟩
  have others : ∀ out ∈ view.available, (∀ other ∈ [tx], out.hash ≠ other.getHash) →
      out ∈ (view.modifyCoins tx.getHash {}).available := by
    intro out there apart
    rw [CCoinsViewCache.mem_available_modifyCoins, if_neg (apart tx (mem_singleton_self tx))]
    exact there
  unfold disconnectTransaction at disconnected
  simp only at disconnected
  split at disconnected
  case isTrue inputs =>
    split at disconnected
    case isTrue => contradiction
    case isFalse lengths =>
      obtain ⟨clean, restores⟩ := restoreInputs_restores (some.inj disconnected)
      refine ⟨(Bool.and_eq_true_iff.mp clean).1, fun out there apart => ?_, fun out there => ?_⟩
      · exact restores.kept (others out there apart)
      · rcases restores.added out there with before | member
        · exact .inl (cleared out before).1
        · refine .inr ⟨tx, mem_singleton_self tx, ?_⟩
          obtain ⟨record, inside, rfl⟩ := mem_map.mp member
          rw [CTransaction.spends, if_pos inputs]
          exact mem_map_of_mem (of_mem_zip inside).1
  case isFalse =>
    obtain ⟨rfl, clean⟩ := Prod.mk.inj (some.inj disconnected)
    exact ⟨(Bool.and_eq_true_iff.mp clean).1, others, fun out there => .inl (cleared out there).1⟩

theorem disconnectTransactions_returns {records : List (CTransaction × List CTxInUndo)}
    {fClean : Bool}
    (disconnected : disconnectTransactions nHeight records (view, fClean) = some (after, true)) :
    Returns (records.map Prod.fst) view after := by
  induction records generalizing after with
  | nil =>
    obtain ⟨rfl, -⟩ := Prod.mk.inj (some.inj disconnected)
    exact ⟨fun out there _ => there, fun out there => .inl there⟩
  | cons record rest ih =>
    simp only [disconnectTransactions, bind_eq_bind, bind_eq_some_iff]
      at disconnected
    obtain ⟨⟨middle, clean⟩, others, first⟩ := disconnected
    obtain ⟨rfl, here⟩ := disconnectTransaction_returns first
    have later := ih others
    constructor
    case kept =>
      intro out there apart
      apply here.kept out
      · exact later.kept out there fun tx member => apart tx (mem_cons_of_mem _ member)
      · intro tx member
        rw [mem_singleton.mp member]
        exact apart record.1 mem_cons_self
    case returned =>
      intro out there
      rcases here.returned out there with before | ⟨tx, member, spent⟩
      · rcases later.returned out before with before | ⟨tx, member, spent⟩
        · exact .inl before
        · exact .inr ⟨tx, mem_cons_of_mem _ member, spent⟩
      · rw [mem_singleton.mp member] at spent
        exact .inr ⟨record.1, mem_cons_self, spent⟩

end

end Agouti
