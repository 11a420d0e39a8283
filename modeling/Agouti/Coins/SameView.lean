import Agouti.Coins.Undo

/-! # Views of the same coins behave alike

`CCoins.Same` and `CCoinsViewCache.Same` leave open how a fully spent entry is
kept. Every question that validation asks of a view has the same answer on two
views of the same coins, and spending and creating outputs leads to views of the
same coins again.
-/

namespace Agouti

open List Function

namespace CCoins.Same

variable {a b : CCoins}

theorem symm (same : a.Same b) : b.Same a where
  outputs nPos := (same.outputs nPos).symm
  metadata live := by
    rw [same.isPruned] at live
    obtain ⟨coinBase, coinStake, height, version⟩ := same.metadata live
    exact ⟨coinBase.symm, coinStake.symm, height.symm, version.symm⟩

theorem isAvailable (same : a.Same b) (nPos : Nat) : a.isAvailable nPos = b.isAvailable nPos := by
  rw [isAvailable_eq, isAvailable_eq, same.outputs nPos]

theorem output (same : a.Same b) {nPos : Nat} (available : a.isAvailable nPos = true) :
    a.vout[nPos]? = b.vout[nPos]? := by
  rw [isAvailable_eq, Option.isSome_iff_exists] at available
  obtain ⟨txout, unspent⟩ := available
  have first := (unspent_eq_some.mp unspent).1
  rw [same.outputs nPos] at unspent
  rw [first, (unspent_eq_some.mp unspent).1]

theorem live_of_available {coins : CCoins} {nPos : Nat}
    (available : coins.isAvailable nPos = true) : coins.isPruned = false := by
  rw [Bool.eq_false_iff]
  intro pruned
  rw [isAvailable_eq, isPruned_iff.mp pruned nPos] at available
  contradiction

theorem metadata_of_available (same : a.Same b) {nPos : Nat}
    (available : a.isAvailable nPos = true) :
    a.fCoinBase = b.fCoinBase ∧ a.fCoinStake = b.fCoinStake ∧ a.nHeight = b.nHeight ∧
      a.nVersion = b.nVersion := by
  refine same.metadata ?_
  rw [same.isAvailable] at available
  exact live_of_available available

theorem cleanup (same : a.Same b) : a.cleanup.Same b.cleanup where
  outputs nPos := by rw [unspent_cleanup, unspent_cleanup, same.outputs nPos]
  metadata live := same.metadata ((isPruned_cleanup b).symm.trans live)

theorem spend (same : a.Same b) {nPos : Nat} {spent : CCoins} {undo : CTxInUndo}
    (accepted : a.spend nPos = some (spent, undo)) :
    ∃ other record, b.spend nPos = some (other, record) ∧ spent.Same other := by
  have available : (b.spend nPos).isSome = true := by
    rw [spend_isSome, ← same.isAvailable, ← spend_isSome, accepted]
    rfl
  obtain ⟨⟨other, record⟩, found⟩ := Option.isSome_iff_exists.mp available
  refine ⟨other, record, found, ?_⟩
  have first := spend_spent accepted
  have second := spend_spent found
  refine ⟨fun at_ => ?_, fun _ => ?_⟩
  · rw [first.outputs, second.outputs, same.outputs]
  · rw [first.fCoinBase, first.fCoinStake, first.nHeight, first.nVersion, second.fCoinBase,
      second.fCoinStake, second.nHeight, second.nVersion]
    exact same.metadata second.unpruned

end CCoins.Same

namespace CCoinsViewCache.Same

variable {a b : CCoinsViewCache}

theorem refl (view : CCoinsViewCache) : view.Same view := ⟨fun _ => .refl _, rfl⟩

theorem symm (same : a.Same b) : b.Same a :=
  ⟨fun txid => (same.coins txid).symm, same.hashBlock.symm⟩

theorem modifyCoins (same : a.Same b) {x y : CCoins} (entries : x.Same y) (txid : Uint256) :
    (a.modifyCoins txid x).Same (b.modifyCoins txid y) := by
  refine ⟨fun other => ?_, same.hashBlock⟩
  by_cases here : other = txid
  · subst here
    simpa only [CCoinsViewCache.modifyCoins, update_self] using entries.cleanup
  · simpa only [CCoinsViewCache.modifyCoins, update_of_ne here] using same.coins other

theorem haveInputs (same : a.Same b) (tx : CTransaction) : a.haveInputs tx = b.haveInputs tx := by
  simp only [CCoinsViewCache.haveInputs, (same.coins _).isAvailable]

variable {tx : CTransaction}

theorem available_of_haveInputs {view : CCoinsViewCache} (spends : tx.hasInputs = true)
    (have_ : view.haveInputs tx = true) {txin : CTxIn} (member : txin ∈ tx.vin) :
    (view.coins txin.prevout.hash).isAvailable txin.prevout.n = true := by
  have mined : tx.isCoinBase = false := by
    simp only [CTransaction.hasInputs, Bool.and_eq_true, Bool.not_eq_true'] at spends
    exact spends.1
  simp only [CCoinsViewCache.haveInputs, mined, Bool.false_or, all_eq_true] at have_
  exact have_ txin member

theorem getOutputFor (same : a.Same b) {txin : CTxIn}
    (available : (a.coins txin.prevout.hash).isAvailable txin.prevout.n = true) :
    a.getOutputFor txin = b.getOutputFor txin := by
  rw [CCoinsViewCache.getOutputFor, CCoinsViewCache.getOutputFor,
    (same.coins txin.prevout.hash).output available]

theorem getValueIn (same : a.Same b) (spends : tx.hasInputs = true)
    (have_ : a.haveInputs tx = true) : a.getValueIn tx = b.getValueIn tx := by
  have values : (tx.vin.map fun txin => (a.getOutputFor txin).nValue) =
      tx.vin.map fun txin => (b.getOutputFor txin).nValue :=
    map_congr_left fun txin member => by
      rw [same.getOutputFor (available_of_haveInputs spends have_ member)]
  simp only [CCoinsViewCache.getValueIn, values]

theorem getP2SHSigOpCount (same : a.Same b) (spends : tx.hasInputs = true)
    (have_ : a.haveInputs tx = true) : a.getP2SHSigOpCount tx = b.getP2SHSigOpCount tx := by
  unfold CCoinsViewCache.getP2SHSigOpCount
  split
  · rfl
  · refine congrArg List.sum (map_congr_left fun txin member => ?_)
    rw [same.getOutputFor (available_of_haveInputs spends have_ member)]

theorem spendInputs {vin : List CTxIn} {spent : CCoinsViewCache} {vprevout : List CTxInUndo}
    (same : a.Same b) (ran : Agouti.spendInputs vin a = some (spent, vprevout)) :
    ∃ other records, Agouti.spendInputs vin b = some (other, records) ∧ spent.Same other := by
  induction vin generalizing a b spent vprevout with
  | nil =>
    obtain ⟨rfl, rfl⟩ := Prod.mk.inj (Option.some.inj ran)
    exact ⟨b, [], rfl, same⟩
  | cons txin rest ih =>
    simp only [Agouti.spendInputs, Option.bind_eq_bind, Option.bind_eq_some_iff, Option.pure_def,
      Option.some.injEq, Prod.mk.injEq] at ran
    obtain ⟨⟨coins, undo⟩, taken, ⟨middle, others⟩, ran, rfl, rfl⟩ := ran
    obtain ⟨coinsB, undoB, takenB, entries⟩ := (same.coins txin.prevout.hash).spend taken
    obtain ⟨other, records, ranB, last⟩ :=
      ih (same.modifyCoins entries txin.prevout.hash) ran
    refine ⟨other, undoB :: records, ?_, last⟩
    simp only [Agouti.spendInputs, takenB, Option.bind_eq_bind, Option.bind_some, ranB,
      Option.pure_def]

theorem updateCoins [Crypto] {nHeight : Int} {next : CCoinsViewCache} {txundo : List CTxInUndo}
    (same : a.Same b) (updated : Agouti.updateCoins tx a nHeight = some (next, txundo)) :
    ∃ other records, Agouti.updateCoins tx b nHeight = some (other, records) ∧ next.Same other := by
  rw [Agouti.updateCoins, Option.map_eq_some_iff] at updated
  obtain ⟨⟨spent, vprevout⟩, ran, last⟩ := updated
  obtain ⟨rfl, rfl⟩ := Prod.mk.inj last
  cases inputs : tx.hasInputs with
  | false =>
    simp only [inputs, Bool.false_eq_true, ↓reduceIte, Option.some.injEq, Prod.mk.injEq] at ran
    obtain ⟨rfl, rfl⟩ := ran
    refine ⟨_, [], ?_, same.modifyCoins (.refl _) tx.getHash⟩
    simp only [Agouti.updateCoins, inputs, Bool.false_eq_true, ↓reduceIte, Option.map_some]
  | true =>
    simp only [inputs, ↓reduceIte] at ran
    obtain ⟨other, records, ranB, views⟩ := same.spendInputs ran
    refine ⟨_, records, ?_, views.modifyCoins (.refl _) tx.getHash⟩
    simp only [Agouti.updateCoins, inputs, ↓reduceIte, ranB, Option.map_some]

end CCoinsViewCache.Same

end Agouti
