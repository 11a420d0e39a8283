import Agouti.Primitives.Transaction
import Mathlib.Data.List.DropRight

/-! # Entries of the coin database

`CCoins` of `coins.h`: the unspent outputs of one transaction with its metadata. A spent output is
null and null outputs at the end are dropped, so two entries describe the same coins when they agree
at every position (`CCoins.unspent`) and, unless everything is spent, on the metadata
(`CCoins.Same`).
-/

namespace Agouti

open List

/-- `CCoins`; the default value is the empty constructor. -/
structure CCoins where
  fCoinBase : Bool := false
  fCoinStake : Bool := false
  vout : List CTxOut := []
  nHeight : Int := 0
  nVersion : Int := 0
  deriving DecidableEq, Repr

/-- What restores a spent output. -/
structure CTxInUndo where
  txout : CTxOut := .null
  fCoinBase : Bool := false
  fCoinStake : Bool := false
  nHeight : Int := 0
  nVersion : Int := 0
  deriving DecidableEq, Repr

namespace CCoins

def clear (_ : CCoins) : CCoins := {}

def cleanup (coins : CCoins) : CCoins :=
  { coins with vout := coins.vout.rdropWhile CTxOut.isNull }

def clearUnspendable (coins : CCoins) : CCoins :=
  { coins with
    vout := coins.vout.map fun (txout : CTxOut) =>
      if txout.scriptPubKey.isUnspendable then .null else txout }.cleanup

def fromTx (tx : CTransaction) (nHeightIn : Int) : CCoins :=
  { fCoinBase := tx.isCoinBase, fCoinStake := tx.isCoinStake, vout := tx.vout,
    nHeight := nHeightIn, nVersion := tx.nVersion : CCoins }.clearUnspendable

def isAvailable (coins : CCoins) (nPos : Nat) : Bool :=
  (coins.vout[nPos]?.map fun txout => !txout.isNull).getD false

def isPruned (coins : CCoins) : Bool := coins.vout.all CTxOut.isNull

/-- `operator==` of `CCoins`. -/
def equal (a b : CCoins) : Bool :=
  (a.isPruned && b.isPruned) ||
    (a.fCoinBase == b.fCoinBase && a.fCoinStake == b.fCoinStake && a.nHeight == b.nHeight &&
      a.nVersion == b.nVersion && a.vout == b.vout)

/-- `CCoins::Spend`: the undo record carries the metadata when nothing is left. -/
def spend (coins : CCoins) (nPos : Nat) : Option (CCoins × CTxInUndo) :=
  match coins.vout[nPos]? with
  | none => none
  | some txout =>
    if txout.isNull then none
    else
      let spent := { coins with vout := coins.vout.set nPos .null }.cleanup
      if spent.vout.length = 0 then
        some (spent,
          { txout := txout, nHeight := spent.nHeight, fCoinBase := spent.fCoinBase,
            fCoinStake := spent.fCoinStake, nVersion := spent.nVersion })
      else some (spent, { txout := txout })

/-- The metadata step of `DisconnectBlock` for one input: undo data with a height
belongs to the last output of its transaction. -/
def restoreMetadata (coins : CCoins) (undo : CTxInUndo) : CCoins :=
  if undo.nHeight ≠ 0 then
    { coins.clear with
      fCoinBase := undo.fCoinBase, nHeight := undo.nHeight, nVersion := undo.nVersion }
  else coins

/-- What `DisconnectBlock` does to the entry of one input. -/
def restore (coins : CCoins) (nPos : Nat) (undo : CTxInUndo) : CCoins :=
  let coins := coins.restoreMetadata undo
  { coins with vout := (coins.vout.rightpad (nPos + 1) .null).set nPos undo.txout }

/-- The conditions under which `DisconnectBlock` restores an input without
complaint. -/
def restoresCleanly (coins : CCoins) (nPos : Nat) (undo : CTxInUndo) : Bool :=
  (if undo.nHeight ≠ 0 then coins.isPruned else !coins.isPruned) &&
    !(coins.restoreMetadata undo).isAvailable nPos

def unspent (coins : CCoins) (nPos : Nat) : Option CTxOut :=
  coins.vout[nPos]?.filter fun txout => !txout.isNull

/-- Two entries describe the same coins. -/
structure Same (a b : CCoins) : Prop where
  outputs : ∀ nPos, a.unspent nPos = b.unspent nPos
  metadata : b.isPruned = false → a.fCoinBase = b.fCoinBase ∧ a.fCoinStake = b.fCoinStake ∧
    a.nHeight = b.nHeight ∧ a.nVersion = b.nVersion

variable {coins : CCoins} {nPos : Nat}

theorem unspent_eq_none :
    coins.unspent nPos = none ↔ ∀ txout, coins.vout[nPos]? = some txout → txout.isNull = true := by
  rw [unspent, Option.filter_eq_none_iff]
  simp

theorem unspent_eq_some {txout : CTxOut} :
    coins.unspent nPos = some txout ↔ coins.vout[nPos]? = some txout ∧ txout.isNull = false := by
  rw [unspent, Option.filter_eq_some_iff]
  simp only [Bool.not_eq_eq_eq_not, Bool.not_true]

theorem isAvailable_eq (coins : CCoins) (nPos : Nat) :
    coins.isAvailable nPos = (coins.unspent nPos).isSome := by
  unfold isAvailable unspent
  cases coins.vout[nPos]? with
  | none => rfl
  | some txout => cases null : txout.isNull <;> simp [null]

theorem isPruned_iff :
    coins.isPruned = true ↔ ∀ nPos, coins.unspent nPos = none := by
  simp only [isPruned, all_eq_true, unspent_eq_none]
  constructor
  · intro all nPos txout found
    exact all txout (mem_of_getElem? found)
  · intro none txout member
    obtain ⟨nPos, found⟩ := List.getElem?_of_mem member
    exact none nPos txout found

theorem isPruned_congr {a b : CCoins} (outputs : ∀ nPos, a.unspent nPos = b.unspent nPos) :
    a.isPruned = b.isPruned := by
  rw [Bool.eq_iff_iff, isPruned_iff, isPruned_iff]
  simp only [outputs]

@[simp] theorem unspent_empty (nPos : Nat) : ({} : CCoins).unspent nPos = none := rfl

@[simp] theorem unspent_cleanup (coins : CCoins) (nPos : Nat) :
    coins.cleanup.unspent nPos = coins.unspent nPos := by
  have split : coins.vout = coins.cleanup.vout ++ coins.vout.rtakeWhile CTxOut.isNull :=
    (rdropWhile_append_rtakeWhile).symm
  by_cases inside : nPos < coins.cleanup.vout.length
  · have same : coins.vout[nPos]? = coins.cleanup.vout[nPos]? := by
      rw [split, List.getElem?_append_left inside]
    rw [unspent, unspent, same]
  · have outside : coins.cleanup.unspent nPos = none := by
      rw [unspent, List.getElem?_eq_none (Nat.not_lt.mp inside)]
      rfl
    rw [outside, eq_comm, unspent_eq_none]
    intro txout found
    rw [split, List.getElem?_append_right (Nat.not_lt.mp inside)] at found
    exact mem_rtakeWhile_imp (mem_of_getElem? found)

@[simp] theorem cleanup_fCoinBase (coins : CCoins) :
    coins.cleanup.fCoinBase = coins.fCoinBase := rfl

@[simp] theorem cleanup_fCoinStake (coins : CCoins) :
    coins.cleanup.fCoinStake = coins.fCoinStake := rfl

@[simp] theorem cleanup_nHeight (coins : CCoins) : coins.cleanup.nHeight = coins.nHeight := rfl

@[simp] theorem cleanup_nVersion (coins : CCoins) : coins.cleanup.nVersion = coins.nVersion := rfl

@[simp] theorem isPruned_cleanup (coins : CCoins) : coins.cleanup.isPruned = coins.isPruned :=
  isPruned_congr (unspent_cleanup coins)

theorem cleanup_cleanup (coins : CCoins) : coins.cleanup.cleanup = coins.cleanup := by
  simp only [cleanup, rdropWhile_idempotent]

theorem cleanup_length_eq_zero {coins : CCoins} :
    coins.cleanup.vout.length = 0 ↔ coins.isPruned = true := by
  rw [cleanup, length_eq_zero_iff, rdropWhile_eq_nil_iff, isPruned, all_eq_true]

namespace Same

theorem refl (coins : CCoins) : coins.Same coins := ⟨fun _ => rfl, fun _ => ⟨rfl, rfl, rfl, rfl⟩⟩

theorem isPruned {a b : CCoins} (same : a.Same b) : a.isPruned = b.isPruned :=
  isPruned_congr same.outputs

end Same

/-- What a spend does: it takes one unspent output, leaves the others and the
metadata, and its record has a height exactly when nothing is left. -/
structure Spent (coins : CCoins) (nPos : Nat) (spent : CCoins) (undo : CTxInUndo) : Prop where
  output : coins.unspent nPos = some undo.txout
  outputs : ∀ other, spent.unspent other = if other = nPos then none else coins.unspent other
  fCoinBase : spent.fCoinBase = coins.fCoinBase
  fCoinStake : spent.fCoinStake = coins.fCoinStake
  nHeight : spent.nHeight = coins.nHeight
  nVersion : spent.nVersion = coins.nVersion
  last : spent.isPruned = true →
    undo.fCoinBase = coins.fCoinBase ∧ undo.nHeight = coins.nHeight ∧
      undo.nVersion = coins.nVersion
  remaining : spent.isPruned = false → undo.nHeight = 0

theorem unspent_set_null (coins : CCoins) (nPos other : Nat) :
    ({ coins with vout := coins.vout.set nPos .null } : CCoins).unspent other =
      if other = nPos then none else coins.unspent other := by
  simp only [unspent, List.getElem?_set, eq_comm (a := nPos)]
  by_cases here : other = nPos
  · by_cases inside : nPos < coins.vout.length <;> simp [here, inside]
  · simp only [here, ↓reduceIte]

theorem spend_spent {spent : CCoins} {undo : CTxInUndo}
    (accepted : coins.spend nPos = some (spent, undo)) : Spent coins nPos spent undo := by
  unfold spend at accepted
  cases found : coins.vout[nPos]? with
  | none => simp [found] at accepted
  | some txout =>
    simp only [found] at accepted
    cases null : txout.isNull with
    | true => simp [null] at accepted
    | false =>
      have output : coins.unspent nPos = some txout := unspent_eq_some.mpr ⟨found, null⟩
      simp only [null, Bool.false_eq_true, ↓reduceIte] at accepted
      split at accepted
      · rename_i empty
        obtain ⟨rfl, rfl⟩ := Prod.mk.inj (Option.some.inj accepted)
        have pruned := cleanup_length_eq_zero.mp empty
        refine ⟨output, fun other => ?_, rfl, rfl, rfl, rfl, fun _ => ⟨rfl, rfl, rfl⟩, ?_⟩
        · rw [unspent_cleanup, unspent_set_null]
        · intro live
          rw [isPruned_cleanup, pruned] at live
          contradiction
      · rename_i live
        obtain ⟨rfl, rfl⟩ := Prod.mk.inj (Option.some.inj accepted)
        refine ⟨output, fun other => ?_, rfl, rfl, rfl, rfl, ?_, fun _ => rfl⟩
        · rw [unspent_cleanup, unspent_set_null]
        · intro pruned
          rw [isPruned_cleanup] at pruned
          exact absurd (cleanup_length_eq_zero.mpr pruned) live

theorem spend_isSome :
    (coins.spend nPos).isSome = coins.isAvailable nPos := by
  unfold spend isAvailable
  cases coins.vout[nPos]? with
  | none => rfl
  | some txout =>
    cases null : txout.isNull with
    | true => simp [null]
    | false =>
      simp only [null, Bool.false_eq_true, ↓reduceIte, Option.map_some, Option.getD_some,
        Bool.not_false]
      split <;> rfl

theorem unspent_restoreMetadata (coins : CCoins) (undo : CTxInUndo) (nPos : Nat) :
    (coins.restoreMetadata undo).unspent nPos =
      if undo.nHeight ≠ 0 then none else coins.unspent nPos := by
  unfold restoreMetadata
  by_cases last : undo.nHeight ≠ 0
  · rw [if_pos last, if_pos last]
    rfl
  · rw [if_neg last, if_neg last]

theorem unspent_rightpad (coins : CCoins) (size nPos : Nat) :
    ({ coins with vout := coins.vout.rightpad size .null } : CCoins).unspent nPos =
      coins.unspent nPos := by
  simp only [unspent, List.rightpad]
  by_cases inside : nPos < coins.vout.length
  · rw [List.getElem?_append_left inside]
  · have outside := Nat.not_lt.mp inside
    rw [List.getElem?_append_right outside, List.getElem?_eq_none outside]
    cases padded : (List.replicate (size - coins.vout.length) CTxOut.null)[nPos -
        coins.vout.length]? with
    | none => rfl
    | some txout =>
      rw [eq_of_mem_replicate (mem_of_getElem? padded)]
      rfl

/-- A restored input leaves the other outputs, unless the record carries metadata. -/
theorem unspent_restore_of_ne (coins : CCoins) {other : Nat} (undo : CTxInUndo)
    (apart : other ≠ nPos) :
    (coins.restore nPos undo).unspent other =
      if undo.nHeight ≠ 0 then none else coins.unspent other := by
  rw [← unspent_restoreMetadata]
  simp only [restore]
  generalize coins.restoreMetadata undo = base
  rw [← unspent_rightpad base (nPos + 1), unspent, unspent,
    List.getElem?_set_ne (Ne.symm apart)]

/-- What a restored input adds: its output at its position, next to the outputs
that were there unless the record carries metadata. -/
theorem unspent_restore (coins : CCoins) {undo : CTxInUndo} (live : undo.txout.isNull = false)
    (other : Nat) :
    (coins.restore nPos undo).unspent other =
      if other = nPos then some undo.txout
      else if undo.nHeight ≠ 0 then none else coins.unspent other := by
  by_cases here : other = nPos
  · simp only [restore]
    generalize coins.restoreMetadata undo = base
    have padded : nPos < (base.vout.rightpad (nPos + 1) .null).length := by
      simp only [List.rightpad, length_append, length_replicate]
      omega
    rw [if_pos here, unspent_eq_some, here, List.getElem?_set_self padded]
    exact ⟨rfl, live⟩
  · rw [if_neg here, unspent_restore_of_ne coins undo here]

end CCoins

end Agouti
