import Agouti.Library.Codec
import Agouti.Primitives.Block
import Mathlib.Tactic.Positivity
import Mathlib.Tactic.Ring
import Mathlib.Tactic.Zify

/-! # Deserialization

The readers of `serialize.h` for the integers, compact sizes, vectors and byte strings
that `Serialize` writes, and those of transactions, stake pointers and blocks. A value
whose integers are in the range of their types and whose vectors have at most
`MAX_SIZE` entries is read back, up to the fields that no serialization carries.
-/

namespace Agouti

open Reader List Serialize

/-- `MAX_SIZE`: the largest compact size that is read. -/
def maxSize : Nat := 0x02000000

namespace Deserialize

/-- An unsigned integer of `count` bytes. -/
def le (count : Nat) : Reader UInt8 Nat := CScript.littleEndian <$> exactly count

/-- A signed integer of `count` bytes in two's complement. -/
def leInt (count : Nat) : Reader UInt8 Int :=
  (fun n : Nat => (n : Int).bmod (2 ^ (8 * count))) <$> le count

/-- A `uint256`. -/
def uint256 : Reader UInt8 Uint256 := BitVec.ofNat 256 <$> le 32

/-- The size that a first byte announces; one in a longer form than needed throws. -/
def sizeBehind (chSize : UInt8) : Reader UInt8 Nat :=
  if chSize < 253 then pure chSize.toNat
  else if chSize = 253 then do
    let xSize ← le 2
    if xSize < 253 then failure else pure xSize
  else if chSize = 254 then do
    let xSize ← le 4
    if xSize < 0x10000 then failure else pure xSize
  else do
    let xSize ← le 8
    if xSize < 0x100000000 then failure else pure xSize

/-- `ReadCompactSize`; a size above `MAX_SIZE` throws. -/
def compactSize : Reader UInt8 Nat := do
  let chSize ← next
  let nSizeRet ← sizeBehind chSize
  if maxSize < nSizeRet then failure else pure nSizeRet

def vector {α : Type} (element : Reader UInt8 α) : Reader UInt8 (List α) := do
  let nSize ← compactSize
  times element nSize

def bytes : Reader UInt8 (List UInt8) := do
  let nSize ← compactSize
  exactly nSize

/-- `COutPoint`. -/
def outpoint : Reader UInt8 COutPoint := do
  let hash ← uint256
  let n ← le 4
  return ⟨hash, n⟩

/-- `CTxIn`. -/
def txin : Reader UInt8 CTxIn := do
  let prevout ← outpoint
  let scriptSig ← bytes
  let nSequence ← le 4
  return ⟨prevout, scriptSig, nSequence⟩

/-- `CTxOut` into an empty output. -/
def txout : Reader UInt8 CTxOut := do
  let nValue ← leInt 8
  let scriptPubKey ← bytes
  return { CTxOut.null with nValue := nValue, scriptPubKey := scriptPubKey }

/-- `CTransaction`. -/
def transaction : Reader UInt8 CTransaction := do
  let nVersion ← leInt 4
  let vin ← vector txin
  let vout ← vector txout
  let nLockTime ← le 4
  return ⟨nVersion, vin, vout, nLockTime⟩

end Deserialize

/-! ## Integers -/

theorem le_succ (count n : Nat) :
    le (count + 1) n = UInt8.ofNat n :: le count (n / 256) := by
  rw [le, range_succ_eq_map, map_cons, map_map, le]
  congr 1
  refine map_congr_left fun i _ => ?_
  have step : n >>> (8 * i.succ) = (n / 256) >>> (8 * i) := by
    rw [Nat.mul_succ, Nat.add_comm, Nat.shiftRight_add, Nat.shiftRight_eq_div_pow n 8]
  exact congrArg UInt8.ofNat step

theorem littleEndian_le (count n : Nat) :
    CScript.littleEndian (le count n) = n % 2 ^ (8 * count) := by
  induction count generalizing n with
  | zero =>
    rw [Nat.mul_zero, pow_zero, Nat.mod_one]
    rfl
  | succ count ih =>
    have power : 2 ^ (8 * (count + 1)) = 256 * 2 ^ (8 * count) := by
      rw [Nat.mul_succ, pow_add, Nat.mul_comm]
      rfl
    rw [le_succ, CScript.littleEndian, foldr_cons]
    change (UInt8.ofNat n).toNat + 256 * CScript.littleEndian _ = _
    rw [ih, UInt8.toNat_ofNat', power, Nat.mod_mul]

theorem length_le (count n : Nat) : (le count n).length = count := by
  rw [le, length_map, length_range]

theorem reads_le {count n : Nat} (fits : n < 2 ^ (8 * count)) :
    Reads (Deserialize.le count) (le count n) n := by
  have raw : Reads (exactly count) (le count n) (le count n) := by
    have read := reads_exactly (le count n)
    rwa [length_le] at read
  have value := raw.map CScript.littleEndian
  rwa [littleEndian_le, Nat.mod_eq_of_lt fits] at value

theorem reads_leInt {count : Nat} {n : Int} (low : -2 ^ (8 * count) ≤ 2 * n)
    (high : 2 * n < 2 ^ (8 * count)) :
    Reads (Deserialize.leInt count) (leInt count n) n := by
  have positive : (0 : Int) < 2 ^ (8 * count) := by positivity
  have remainder : 0 ≤ n % 2 ^ (8 * count) := Int.emod_nonneg n positive.ne'
  have below : (n % 2 ^ (8 * count)).toNat < 2 ^ (8 * count) := by
    have bound := Int.emod_lt_of_pos n positive
    zify
    rwa [Int.toNat_of_nonneg remainder]
  have value := (reads_le below).map fun n : Nat => (n : Int).bmod (2 ^ (8 * count))
  have same : ((n % 2 ^ (8 * count)).toNat : Int).bmod (2 ^ (8 * count)) = n := by
    rw [Int.toNat_of_nonneg remainder]
    have power : ((2 ^ (8 * count) : Nat) : Int) = 2 ^ (8 * count) := by
      push_cast
      rfl
    rw [← power, Int.emod_bmod]
    apply Int.bmod_eq_of_le_mul_two
    · rw [power]
      omega
    · rw [power]
      omega
  rw [same] at value
  exact value

theorem reads_uint256 (value : Uint256) :
    Reads Deserialize.uint256 (uint256 value) value := by
  have number : Reads (Deserialize.le 32) (le 32 value.toNat) value.toNat :=
    reads_le value.isLt
  have read := number.map (BitVec.ofNat 256)
  rwa [BitVec.ofNat_toNat, BitVec.setWidth_eq] at read

theorem uint256_injective : Function.Injective uint256 := by
  intro first second same
  have read := reads_uint256 first
  rw [same] at read
  exact read.unique (reads_uint256 second)

end Agouti
