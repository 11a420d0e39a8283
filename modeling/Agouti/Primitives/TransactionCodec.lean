import Agouti.Library.Canonical
import Agouti.Primitives.BlockCodec
import Mathlib.Algebra.Order.BigOperators.Group.List

/-! # The wire form of a transaction

`CTransaction` is read in blocks whose length depends on the size of an element, which makes no
difference to what is read (`Deserialize.transactionInBlocks_eq`). A transaction whose integers and
vectors are in range is read back, and bytes that are accepted are those that the transaction is
written as (`canonical_transaction`), so a transaction has one wire form. The hash of a transaction
is kept beside its fields. It is the hash of the wire form in each transaction that is read or made
from a mutable one, but the default constructor leaves it 0.
-/

namespace Agouti

open Reader List

/-- `sizeof` of the elements of a vector. -/
structure ElementSize where
  bytes : Nat
  positive : 0 < bytes
  small : bytes ≤ 5000000

/-- The elements that are read before a vector is made longer again. -/
def ElementSize.block (size : ElementSize) : Nat := 5000000 / size.bytes

theorem ElementSize.block_pos (size : ElementSize) : 0 < size.block :=
  Nat.div_pos size.small size.positive

namespace Deserialize

/-- `Unserialize_impl` of a vector of bytes. -/
def bytesInBlocks : Reader UInt8 (List UInt8) := do
  let nSize ← compactSize
  inBlocks exactly nSize (fun i => i + min (nSize - i) (1 + 4999999 / 1))
    (fun i more => by omega) 0

/-- `Unserialize_impl` of a vector of other elements. -/
def vectorInBlocks {α : Type} (size : ElementSize) (element : Reader UInt8 α) :
    Reader UInt8 (List α) := do
  let nSize ← compactSize
  inBlocks (times element) nSize
    (fun nMid => if nSize < nMid + size.block then nSize else nMid + size.block)
    (fun nMid more => by have positive := size.block_pos; split <;> omega) 0

/-- `CTxIn::SerializationOp`. -/
def txinInBlocks : Reader UInt8 CTxIn := do
  let prevout ← outpoint
  let scriptSig ← bytesInBlocks
  let nSequence ← le 4
  return ⟨prevout, scriptSig, nSequence⟩

/-- `CTxOut::SerializationOp`, into an empty output. -/
def txoutInBlocks : Reader UInt8 CTxOut := do
  let nValue ← leInt 8
  let scriptPubKey ← bytesInBlocks
  return { CTxOut.null with nValue := nValue, scriptPubKey := scriptPubKey }

/-- `CTransaction::SerializationOp`, for the sizes of an input and of an output. -/
def transactionInBlocks (sizeTxIn sizeTxOut : ElementSize) : Reader UInt8 CTransaction := do
  let nVersion ← leInt 4
  let vin ← vectorInBlocks sizeTxIn txinInBlocks
  let vout ← vectorInBlocks sizeTxOut txoutInBlocks
  let nLockTime ← le 4
  return ⟨nVersion, vin, vout, nLockTime⟩

theorem bytesInBlocks_eq : bytesInBlocks = bytes := by
  unfold bytesInBlocks bytes
  congr 1
  funext nSize
  refine inBlocks_eq divides_exactly _ (fun i more => ?_) 0
  omega

theorem vectorInBlocks_eq {α : Type} (size : ElementSize) (element : Reader UInt8 α) :
    vectorInBlocks size element = vector element := by
  unfold vectorInBlocks vector
  congr 1
  funext nSize
  refine inBlocks_eq (divides_times element) _ (fun nMid more => ?_) 0
  split <;> omega

theorem transactionInBlocks_eq (sizeTxIn sizeTxOut : ElementSize) :
    transactionInBlocks sizeTxIn sizeTxOut = transaction := by
  unfold transactionInBlocks transaction txinInBlocks txoutInBlocks txin txout
  simp only [vectorInBlocks_eq, bytesInBlocks_eq]

end Deserialize

/-! ## Accepted bytes -/

theorem le_littleEndian (bytes : List UInt8) :
    Serialize.le bytes.length (CScript.littleEndian bytes) = bytes := by
  induction bytes with
  | nil => rfl
  | cons first rest ih =>
    have value : CScript.littleEndian (first :: rest) =
        first.toNat + 256 * CScript.littleEndian rest := rfl
    have lowest : UInt8.ofNat (first.toNat + 256 * CScript.littleEndian rest) = first := by
      apply UInt8.toNat.inj
      rw [UInt8.toNat_ofNat']
      have small := first.toNat_lt
      omega
    have others : (first.toNat + 256 * CScript.littleEndian rest) / 256 =
        CScript.littleEndian rest := by
      have small := first.toNat_lt
      omega
    rw [length_cons, le_succ, value, lowest, others, ih]

theorem canonical_le (count : Nat) :
    Canonical (Deserialize.le count) (Serialize.le count) fun n => n < 2 ^ (8 * count) := by
  refine (canonical_exactly count).map fun bytes length => ?_
  subst length
  refine ⟨le_littleEndian bytes, ?_⟩
  have again := littleEndian_le bytes.length (CScript.littleEndian bytes)
  rw [le_littleEndian] at again
  rw [again]
  exact Nat.mod_lt _ (by positivity)

theorem canonical_leInt (count : Nat) :
    Canonical (Deserialize.leInt count) (Serialize.leInt count) fun n =>
      -2 ^ (8 * count) ≤ 2 * n ∧ 2 * n < 2 ^ (8 * count) := by
  refine (canonical_le count).map fun n fits => ?_
  have positive : 0 < 2 ^ (8 * count) := by positivity
  have low := Int.le_bmod (x := n) positive
  have high := Int.bmod_lt (x := n) positive
  unfold Serialize.leInt
  have power : ((2 ^ (8 * count) : Nat) : Int) = 2 ^ (8 * count) := by
    push_cast
    rfl
  refine ⟨?_, ?_, ?_⟩
  · rw [← power, Int.bmod_emod, Int.emod_eq_of_lt (by omega) (by omega)]
    rfl
  · omega
  · omega

theorem canonical_uint256 :
    Canonical Deserialize.uint256 Serialize.uint256 fun _ => True := by
  refine (canonical_le 32).map fun n fits => ⟨?_, trivial⟩
  unfold Serialize.uint256
  rw [BitVec.toNat_ofNat, Nat.mod_eq_of_lt fits]

theorem canonical_sizeBehind (chSize : UInt8) {stream rest : List UInt8} {n : Nat}
    (read : (Deserialize.sizeBehind chSize).run stream = some (n, rest)) :
    chSize :: stream = Serialize.compactSize n ++ rest := by
  unfold Deserialize.sizeBehind at read
  unfold Serialize.compactSize
  split at read
  · rename_i short
    obtain ⟨rfl, rfl⟩ := of_run_pure read
    have small : chSize.toNat < 253 := UInt8.lt_iff_toNat_lt.mp short
    rw [if_pos small, UInt8.ofNat_toNat]
    rfl
  split at read
  · rename_i two
    obtain ⟨xSize, middle, here, checked⟩ := of_run_bind read
    obtain ⟨long, rfl, rfl⟩ := of_run_unless checked
    obtain ⟨rfl, fits⟩ := canonical_le 2 here
    rw [if_neg long, if_pos (by omega), two]
    rfl
  split at read
  · rename_i four
    obtain ⟨xSize, middle, here, checked⟩ := of_run_bind read
    obtain ⟨long, rfl, rfl⟩ := of_run_unless checked
    obtain ⟨rfl, fits⟩ := canonical_le 4 here
    rw [if_neg (by omega), if_neg (by omega), if_pos (by omega), four]
    rfl
  · rename_i above notTwo notFour
    obtain ⟨xSize, middle, here, checked⟩ := of_run_bind read
    obtain ⟨long, rfl, rfl⟩ := of_run_unless checked
    obtain ⟨rfl, fits⟩ := canonical_le 8 here
    have last : chSize = 255 := by
      have least : ¬ chSize.toNat < 253 := fun short => above (UInt8.lt_iff_toNat_lt.mpr short)
      have three : chSize.toNat ≠ 253 := fun same => notTwo (UInt8.toNat.inj same)
      have five : chSize.toNat ≠ 254 := fun same => notFour (UInt8.toNat.inj same)
      have most := chSize.toNat_lt
      have value : chSize.toNat = 255 := by omega
      exact UInt8.toNat.inj value
    rw [if_neg (by omega), if_neg (by omega), if_neg (by omega), last]
    rfl

theorem canonical_compactSize :
    Canonical Deserialize.compactSize Serialize.compactSize fun n => n ≤ maxSize := by
  intro stream n rest read
  unfold Deserialize.compactSize at read
  obtain ⟨chSize, behind, first, more⟩ := of_run_bind read
  obtain ⟨nSizeRet, last, size, checked⟩ := of_run_bind more
  obtain ⟨fits, rfl, rfl⟩ := of_run_unless checked
  obtain ⟨rfl, -⟩ := canonical_next first
  exact ⟨canonical_sizeBehind chSize size, not_lt.mp fits⟩

theorem canonical_vector {α : Type} {element : Reader UInt8 α} {write : α → List UInt8}
    {Allowed : α → Prop} (canonical : Canonical element write Allowed) :
    Canonical (Deserialize.vector element) (Serialize.vector write) fun values =>
      values.length ≤ maxSize ∧ ∀ value ∈ values, Allowed value := by
  intro stream values rest read
  obtain ⟨nSize, middle, size, elements⟩ := of_run_bind read
  obtain ⟨rfl, fits⟩ := canonical_compactSize size
  obtain ⟨rfl, rfl, each⟩ := canonical.times nSize elements
  exact ⟨(append_assoc _ _ _).symm, fits, each⟩

theorem canonical_bytes :
    Canonical Deserialize.bytes Serialize.bytes fun data => data.length ≤ maxSize := by
  intro stream data rest read
  obtain ⟨nSize, middle, size, content⟩ := of_run_bind read
  obtain ⟨rfl, fits⟩ := canonical_compactSize size
  obtain ⟨rfl, rfl⟩ := canonical_exactly nSize content
  exact ⟨(append_assoc _ _ _).symm, fits⟩

theorem canonical_outpoint :
    Canonical Deserialize.outpoint Serialize.outpoint fun outpoint => outpoint.n < 2 ^ 32 := by
  intro stream outpoint rest read
  obtain ⟨hash, behindHash, first, read⟩ := of_run_bind read
  obtain ⟨n, behindIndex, second, done⟩ := of_run_bind read
  obtain ⟨rfl, rfl⟩ := of_run_pure done
  obtain ⟨rfl, -⟩ := canonical_uint256 first
  obtain ⟨rfl, index⟩ := canonical_le 4 second
  exact ⟨(append_assoc _ _ _).symm, index⟩

theorem canonical_txin : Canonical Deserialize.txin Serialize.txin CTxIn.Fits := by
  intro stream txin rest read
  obtain ⟨prevout, behindPrevout, first, read⟩ := of_run_bind read
  obtain ⟨scriptSig, behindScript, second, read⟩ := of_run_bind read
  obtain ⟨nSequence, behindSequence, third, done⟩ := of_run_bind read
  obtain ⟨rfl, rfl⟩ := of_run_pure done
  obtain ⟨rfl, index⟩ := canonical_outpoint first
  obtain ⟨rfl, script⟩ := canonical_bytes second
  obtain ⟨rfl, sequence⟩ := canonical_le 4 third
  refine ⟨?_, index, script, sequence⟩
  unfold Serialize.txin
  simp only [append_assoc]

theorem canonical_txout : Canonical Deserialize.txout Serialize.txout CTxOut.Fits := by
  intro stream txout rest read
  obtain ⟨nValue, behindValue, first, read⟩ := of_run_bind read
  obtain ⟨scriptPubKey, behindScript, second, done⟩ := of_run_bind read
  obtain ⟨rfl, rfl⟩ := of_run_pure done
  obtain ⟨rfl, low, high⟩ := canonical_leInt 8 first
  obtain ⟨rfl, script⟩ := canonical_bytes second
  have int64 : -2 ^ 63 ≤ nValue ∧ nValue < 2 ^ 63 := by omega
  refine ⟨?_, int64.1, int64.2, script⟩
  unfold Serialize.txout
  rw [append_assoc]

theorem canonical_transaction :
    Canonical Deserialize.transaction Serialize.transaction CTransaction.Fits := by
  intro stream tx rest read
  obtain ⟨nVersion, behindVersion, first, read⟩ := of_run_bind read
  obtain ⟨vin, behindInputs, second, read⟩ := of_run_bind read
  obtain ⟨vout, behindOutputs, third, read⟩ := of_run_bind read
  obtain ⟨nLockTime, behindTime, fourth, done⟩ := of_run_bind read
  obtain ⟨rfl, rfl⟩ := of_run_pure done
  obtain ⟨rfl, low, high⟩ := canonical_leInt 4 first
  obtain ⟨rfl, inputs, each⟩ := canonical_vector canonical_txin second
  obtain ⟨rfl, outputs, every⟩ := canonical_vector canonical_txout third
  obtain ⟨rfl, time⟩ := canonical_le 4 fourth
  have int32 : -2 ^ 31 ≤ nVersion ∧ nVersion < 2 ^ 31 := by omega
  refine ⟨?_, int32.1, int32.2, inputs, each, outputs, every, time⟩
  unfold Serialize.transaction
  simp only [append_assoc]

/-! ## Measured sizes -/

def getSizeOfCompactSize (nSize : Nat) : Nat :=
  if nSize < 253 then 1
  else if nSize ≤ 0xffff then 1 + 2
  else if nSize ≤ 0xffffffff then 1 + 4
  else 1 + 8

namespace CSizeComputer

/-- A script, as `CSizeComputer` counts it. -/
def bytes (data : List UInt8) : Nat := getSizeOfCompactSize data.length + data.length

def vector {α : Type} (element : α → Nat) (values : List α) : Nat :=
  values.foldl (fun nSize value => nSize + element value) (getSizeOfCompactSize values.length)

/-- `CTxIn`: the outpoint is written as it lies in memory. -/
def txin (value : CTxIn) : Nat := 36 + bytes value.scriptSig + 4

/-- `CTxOut`. -/
def txout (value : CTxOut) : Nat := 8 + bytes value.scriptPubKey

/-- `CTransaction`. -/
def transaction (tx : CTransaction) : Nat := 4 + vector txin tx.vin + vector txout tx.vout + 4

end CSizeComputer

theorem length_compactSize (n : Nat) :
    (Serialize.compactSize n).length = getSizeOfCompactSize n := by
  unfold Serialize.compactSize getSizeOfCompactSize
  split
  · rfl
  split
  · rw [length_cons, length_le]
  split
  · rw [length_cons, length_le]
  · rw [length_cons, length_le]

theorem getSizeOfCompactSize_le (n : Nat) : getSizeOfCompactSize n ≤ 9 := by
  unfold getSizeOfCompactSize
  split_ifs <;> omega

namespace CSizeComputer

theorem length_bytes (data : List UInt8) : (Serialize.bytes data).length = bytes data := by
  rw [Serialize.bytes, length_append, length_compactSize, bytes]

theorem vector_eq {α : Type} (element : α → Nat) (values : List α) :
    vector element values = getSizeOfCompactSize values.length + (values.map element).sum := by
  unfold vector
  generalize getSizeOfCompactSize values.length = nSize
  induction values generalizing nSize with
  | nil => rfl
  | cons value values ih =>
    rw [foldl_cons, ih, map_cons, List.sum_cons, Nat.add_assoc]

theorem length_vector {α : Type} {write : α → List UInt8} {element : α → Nat}
    (each : ∀ value, (write value).length = element value) (values : List α) :
    (Serialize.vector write values).length = vector element values := by
  rw [Serialize.vector, length_append, length_compactSize, vector_eq, length_flatMap]
  simp only [each]

theorem length_txin (value : CTxIn) : (Serialize.txin value).length = txin value := by
  simp only [Serialize.txin, Serialize.outpoint, Serialize.uint256, length_append, length_le,
    length_bytes, txin]

theorem length_txout (value : CTxOut) : (Serialize.txout value).length = txout value := by
  simp only [Serialize.txout, Serialize.leInt, length_append, length_le, length_bytes, txout]

theorem length_transaction (tx : CTransaction) :
    (Serialize.transaction tx).length = transaction tx := by
  simp only [Serialize.transaction, Serialize.leInt, length_append, length_le,
    length_vector length_txin, length_vector length_txout, transaction]

theorem vector_le {α : Type} {element : α → Nat} {values : List α} {most : Nat}
    (few : values.length ≤ maxSize) (each : ∀ value ∈ values, element value ≤ most) :
    vector element values ≤ 9 + maxSize * most := by
  have total : (values.map element).sum ≤ values.length * most := by
    have bounded := sum_le_card_nsmul (values.map element) most (by simpa using each)
    rwa [length_map, nsmul_eq_mul, Nat.cast_id] at bounded
  have room : values.length * most ≤ maxSize * most := Nat.mul_le_mul_right most few
  have size := getSizeOfCompactSize_le values.length
  rw [vector_eq]
  omega

theorem transaction_lt {tx : CTransaction} (fits : tx.Fits) : transaction tx < 2 ^ 64 := by
  have inputs : vector txin tx.vin ≤ 9 + maxSize * (49 + maxSize) := by
    refine vector_le fits.inputs fun value member => ?_
    have script := (fits.vin value member).script
    have size := getSizeOfCompactSize_le value.scriptSig.length
    unfold txin bytes
    omega
  have outputs : vector txout tx.vout ≤ 9 + maxSize * (17 + maxSize) := by
    refine vector_le fits.outputs fun value member => ?_
    have script := (fits.vout value member).script
    have size := getSizeOfCompactSize_le value.scriptPubKey.length
    unfold txout bytes
    omega
  unfold maxSize at inputs outputs
  unfold transaction
  omega

end CSizeComputer

/-! ## The kept hash -/

/-- A `CTransaction` with the hash that it keeps. -/
structure CachedTransaction where
  tx : CTransaction
  hash : Uint256
  deriving DecidableEq

namespace CachedTransaction

/-- `CTransaction::CTransaction()`. -/
def null : CachedTransaction := ⟨⟨1, [], [], 0⟩, 0⟩

/-- `CTransaction::operator=`. -/
def assign (_ tx : CachedTransaction) : CachedTransaction := tx

/-- `CTransaction::Serialize`. -/
def serialize (object : CachedTransaction) : List UInt8 := Serialize.transaction object.tx

/-- `CTransaction::GetSerializeSize`, counted in a `size_t`. -/
def getSerializeSize (object : CachedTransaction) : Nat :=
  CSizeComputer.transaction object.tx % 2 ^ 64

variable [Crypto]

/-- `CTransaction::CTransaction(const CMutableTransaction&)`. -/
def ofMutable (tx : CTransaction) : CachedTransaction := ⟨tx, tx.getHash⟩

/-- `CTransaction::Unserialize`: `UpdateHash` comes last. -/
def unserialize (sizeTxIn sizeTxOut : ElementSize) : Reader UInt8 CachedTransaction :=
  ofMutable <$> Deserialize.transactionInBlocks sizeTxIn sizeTxOut

/-- How a transaction comes about, if not by the default constructor. -/
inductive Made : CachedTransaction → Prop
  | converted (tx : CTransaction) : Made (ofMutable tx)
  | received {sizeTxIn sizeTxOut : ElementSize} {stream rest : List UInt8}
      {object : CachedTransaction}
      (read : (unserialize sizeTxIn sizeTxOut).run stream = some (object, rest)) : Made object
  | assigned (earlier : CachedTransaction) {object : CachedTransaction} (made : Made object) :
      Made (earlier.assign object)

/-- The transactions have the same wire fields and the same hash. -/
structure Same (object other : CachedTransaction) : Prop where
  nVersion : object.tx.nVersion = other.tx.nVersion
  vin : object.tx.vin = other.tx.vin
  vout : (object.tx.vout.map fun txout => (txout.nValue, txout.scriptPubKey)) =
    other.tx.vout.map fun txout => (txout.nValue, txout.scriptPubKey)
  nLockTime : object.tx.nLockTime = other.tx.nLockTime
  hash : object.hash = other.hash

theorem canonical_unserialize (sizeTxIn sizeTxOut : ElementSize) :
    Canonical (unserialize sizeTxIn sizeTxOut) serialize fun object =>
      object.tx.Fits ∧ object.hash = object.tx.getHash := by
  unfold unserialize
  rw [Deserialize.transactionInBlocks_eq]
  exact canonical_transaction.map fun tx fits => ⟨rfl, fits, rfl⟩

theorem Made.hashed {object : CachedTransaction} (made : Made object) :
    object.hash = Hash object.serialize := by
  induction made with
  | converted => rfl
  | received read => exact (canonical_unserialize _ _ read).2.2
  | assigned earlier made ih => exact ih

theorem reads_serialize (sizeTxIn sizeTxOut : ElementSize) {object : CachedTransaction}
    (fits : object.tx.Fits) :
    Reads (unserialize sizeTxIn sizeTxOut) object.serialize (ofMutable object.tx.reread) := by
  unfold unserialize
  rw [Deserialize.transactionInBlocks_eq]
  exact fits.reads.map ofMutable

end CachedTransaction

/-- **The wire form of a transaction.** Each transaction that is read, or made from a mutable one,
and whose integers and vectors are in range is read back from what is written, with the same fields
and the same hash. And bytes that are accepted are what the transaction is written as, as many as
`GetSerializeSize` counts, and its hash is their hash. -/
theorem transactionFormat_bijective [Crypto] (sizeTxIn sizeTxOut : ElementSize) :
    (∀ object : CachedTransaction, object.Made → object.tx.Fits → ∀ rest, ∃ read,
      (CachedTransaction.unserialize sizeTxIn sizeTxOut).run (object.serialize ++ rest) =
        some (read, rest) ∧ read.Same object) ∧
    ∀ stream read rest,
      (CachedTransaction.unserialize sizeTxIn sizeTxOut).run stream = some (read, rest) →
        stream = read.serialize ++ rest ∧ read.getSerializeSize = read.serialize.length ∧
          read.hash = Hash read.serialize := by
  constructor
  · intro object made fits rest
    refine ⟨_, CachedTransaction.reads_serialize sizeTxIn sizeTxOut fits rest, rfl, rfl, ?_, rfl, ?_⟩
    · exact map_map
    · rw [made.hashed]
      exact congrArg Hash (Serialize.transaction_reread object.tx)
  · intro stream read rest accepted
    obtain ⟨written, fits, hashed⟩ :=
      CachedTransaction.canonical_unserialize sizeTxIn sizeTxOut accepted
    refine ⟨written, ?_, hashed⟩
    unfold CachedTransaction.getSerializeSize CachedTransaction.serialize
    rw [Nat.mod_eq_of_lt (CSizeComputer.transaction_lt fits), CSizeComputer.length_transaction]

namespace NullTransaction

/-- `sizeof(CTxIn)` on a 64-bit machine. -/
def sizeTxIn : ElementSize := ⟨96, by decide, by decide⟩

/-- `sizeof(CTxOut)` on a 64-bit machine. -/
def sizeTxOut : ElementSize := ⟨40, by decide, by decide⟩

end NullTransaction

section

local instance NullTransaction.instCrypto : Crypto := checksumCrypto

open NullTransaction

/-- What the default constructor makes is read back with another hash. -/
theorem nullTransaction_hash :
    CachedTransaction.null.tx.Fits ∧
      ¬ ∃ read, (CachedTransaction.unserialize sizeTxIn sizeTxOut).run
        CachedTransaction.null.serialize = some (read, []) ∧ read.Same .null := by
  have fits : CachedTransaction.null.tx.Fits := by decide
  refine ⟨fits, ?_⟩
  rintro ⟨read, accepted, same⟩
  have again := CachedTransaction.reads_serialize sizeTxIn sizeTxOut fits []
  rw [append_nil, accepted] at again
  obtain ⟨rfl, -⟩ := Prod.mk.inj (Option.some.inj again)
  have zero := same.hash
  revert zero
  decide +kernel

theorem transactionFormat_oneOutput :
    ∃ read, (CachedTransaction.unserialize sizeTxIn sizeTxOut).run
        ((CachedTransaction.ofMutable
          ⟨1, [{ prevout := .null, scriptSig := [0x51] }], [⟨5, [0x52], -10⟩], 0⟩).serialize ++ [7]) =
      some (read, [7]) ∧ read.Same (.ofMutable
        ⟨1, [{ prevout := .null, scriptSig := [0x51] }], [⟨5, [0x52], -10⟩], 0⟩) :=
  (transactionFormat_bijective sizeTxIn sizeTxOut).1 _ (.converted _) (by decide) [7]

end

end Agouti
