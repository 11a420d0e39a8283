import Agouti.Coins.CoinsSize
import Agouti.Library.Canonical
import Mathlib.Data.Nat.ModEq
import Mathlib.Tactic.Ring
import Mathlib.Tactic.Zify

/-! # The forms of variable-length integers

The comment of `serialize.h` gives a byte sequence a number of its own (`varIntNumber`), whatever type
is read: every number has one sequence, and the writer emits it (`writeVarInt_varIntNumber`). The
reader computes that number modulo the range of its type. So a sequence that is accepted is the one
that is written for its result exactly when its number is in the range of the type
(`varInt_oneToOne_iff`); a longer one stands for a second form of a smaller value.
-/

namespace Agouti

open Reader List

def varIntDigitOf (byte : UInt8) : Nat := (byte &&& 0x7f).toNat

/-- The number of a byte sequence `a` of length `len`, as the comment has it:
`(a[len-1] & 0x7F) + sum(i=1..len-1, 128^i*((a[len-i-1] & 0x7F)+1))`. -/
def varIntNumber (bytes : List UInt8) : Nat :=
  (bytes.reverse.zipIdx.map fun (byte, i) =>
    128 ^ i * (varIntDigitOf byte + if i = 0 then 0 else 1)).sum

/-- All bytes but the last have their high bit set. -/
def VarIntForm (bytes : List UInt8) : Prop :=
  ∃ init last, bytes = init ++ [last] ∧ (∀ byte ∈ init, byte &&& 0x80 ≠ 0) ∧ last &&& 0x80 = 0

/-! ## The number of a sequence -/

theorem varIntDigitOf_lt (byte : UInt8) : varIntDigitOf byte < 128 := by
  have small : (byte &&& 0x7f).toNat ≤ (0x7f : UInt8).toNat := by
    rw [UInt8.toNat_and]
    exact Nat.and_le_right
  exact Nat.lt_succ_of_le small

theorem varIntNumber_cons (byte : UInt8) (bytes : List UInt8) :
    varIntNumber (byte :: bytes) =
      128 ^ bytes.length * (varIntDigitOf byte + if bytes = [] then 0 else 1) +
        varIntNumber bytes := by
  have first : (bytes.length = 0) = (bytes = []) := propext length_eq_zero_iff
  simp only [varIntNumber, reverse_cons, zipIdx_append, map_append,
    List.sum_append, zipIdx_singleton, map_singleton, sum_singleton,
    length_reverse, Nat.zero_add, first]
  exact Nat.add_comm _ _

theorem varIntNumber_snoc (init : List UInt8) (last : UInt8) :
    varIntNumber (init ++ [last]) =
      varIntDigitOf last + 128 * if init = [] then 0 else varIntNumber init + 1 := by
  induction init with
  | nil => simp [varIntNumber]
  | cons byte init ih =>
    rw [cons_append, varIntNumber_cons, ih, varIntNumber_cons, length_append,
      length_singleton, pow_succ, if_neg (by simp), if_neg (cons_ne_nil _ _)]
    split
    · rename_i empty
      subst empty
      simp only [varIntNumber, length_nil, reverse_nil, zipIdx_nil, map_nil,
        List.sum_nil]
      ring
    · ring

/-! ## The writer -/

theorem marked_byte (byte : UInt8) :
    UInt8.ofNat (varIntDigitOf byte ||| if byte &&& 0x80 ≠ 0 then 0x80 else 0) = byte := by
  have each : ∀ n < 256, UInt8.ofNat (varIntDigitOf (UInt8.ofNat n) |||
      if UInt8.ofNat n &&& 0x80 ≠ 0 then 0x80 else 0) = UInt8.ofNat n := by
    decide +kernel
  have here := each byte.toNat byte.toNat_lt
  rwa [UInt8.ofNat_toNat] at here

theorem varIntLoop_snoc {init : List UInt8} {last : UInt8} {more : Bool}
    (mark : last &&& 0x80 ≠ 0 ↔ more = true)
    (above : init ≠ [] → varIntLoop true (varIntNumber init) = init) :
    varIntLoop more (varIntNumber (init ++ [last])) = init ++ [last] := by
  have small := varIntDigitOf_lt last
  rw [varIntNumber_snoc, varIntLoop]
  have digit (rest : Nat) : (varIntDigitOf last + 128 * rest) &&& 0x7f = varIntDigitOf last := by
    have low := Nat.and_two_pow_sub_one_eq_mod (varIntDigitOf last + 128 * rest) 7
    rw [show (2 : Nat) ^ 7 - 1 = 0x7f from rfl] at low
    rw [low]
    omega
  have byte : UInt8.ofNat (varIntDigitOf last ||| if more = true then 0x80 else 0) = last := by
    have whole := marked_byte last
    rwa [if_congr mark rfl rfl] at whole
  by_cases empty : init = []
  · rw [empty, if_pos rfl, digit, byte, if_pos (by omega), nil_append]
  · have upper : (varIntDigitOf last + 128 * (varIntNumber init + 1)) >>> 7 - 1 =
        varIntNumber init := by
      rw [Nat.shiftRight_eq_div_pow]
      omega
    rw [if_neg empty, digit, byte, if_neg (by omega), upper, above empty]

theorem varIntLoop_marked (init : List UInt8) (marked : ∀ byte ∈ init, byte &&& 0x80 ≠ 0)
    (filled : init ≠ []) : varIntLoop true (varIntNumber init) = init := by
  induction init using List.reverseRecOn with
  | nil => exact absurd rfl filled
  | append_singleton init last ih =>
    apply varIntLoop_snoc
    · exact iff_of_true (marked last (by simp)) rfl
    · exact ih fun byte member => marked byte (mem_append_left _ member)

/-- **Every sequence is what the writer emits for its number.** -/
theorem writeVarInt_varIntNumber {bytes : List UInt8} (form : VarIntForm bytes) :
    writeVarInt (varIntNumber bytes) = bytes := by
  obtain ⟨init, last, rfl, marked, ends⟩ := form
  apply varIntLoop_snoc
  · exact iff_of_false (fun mark => mark ends) Bool.false_ne_true
  · exact varIntLoop_marked init marked

/-! ## The reader -/

theorem readVarIntLoop_spec {bits above n : Nat} {stream rest : List UInt8}
    (read : readVarIntLoop bits above stream = some (n, rest)) :
    ∃ bytes, stream = bytes ++ rest ∧ VarIntForm bytes ∧
      n = (above * 128 ^ bytes.length + varIntNumber bytes) % 2 ^ bits := by
  induction stream generalizing above with
  | nil => cases read
  | cons chData stream ih =>
    have small := varIntDigitOf_lt chData
    have joined : above <<< 7 ||| (chData &&& 0x7f).toNat = above * 128 + varIntDigitOf chData := by
      change above <<< 7 ||| varIntDigitOf chData = _
      rw [← Nat.shiftLeft_add_eq_or_of_lt (by omega : varIntDigitOf chData < 2 ^ 7),
        Nat.shiftLeft_eq]
    simp only [readVarIntLoop, joined] at read
    split at read
    · rename_i mark
      obtain ⟨bytes, rfl, form, value⟩ := ih read
      obtain ⟨init, last, rfl, marked, ends⟩ := form
      refine ⟨chData :: (init ++ [last]), rfl, ⟨chData :: init, last, rfl, ?_, ends⟩, ?_⟩
      · exact forall_mem_cons.mpr ⟨mark, marked⟩
      · rw [value, varIntNumber_cons, length_cons, if_neg (by simp), Nat.mod_add_mod]
        -- the digits above move up with every byte
        have carried := (Nat.mod_modEq (above * 128 + varIntDigitOf chData + 1) (2 ^ bits)).mul_right
          (128 ^ (init ++ [last]).length)
        refine (carried.add_right _).trans (congrArg (· % 2 ^ bits) ?_)
        ring
    · rename_i plain
      obtain ⟨rfl, rfl⟩ := Prod.mk.inj (Option.some.inj read)
      refine ⟨[chData], rfl, ⟨[], chData, rfl, by simp, not_not.mp plain⟩, ?_⟩
      rw [varIntNumber_cons]
      simp [varIntNumber]

theorem varIntNumber_writeVarInt (n : Nat) : varIntNumber (writeVarInt n) = n := by
  have below : varIntNumber (writeVarInt n) < 2 ^ (n + varIntNumber (writeVarInt n)) :=
    lt_of_le_of_lt (Nat.le_add_left _ n) Nat.lt_two_pow_self
  have fits : n < 2 ^ (n + varIntNumber (writeVarInt n)) :=
    lt_of_le_of_lt (Nat.le_add_right n _) Nat.lt_two_pow_self
  -- a type that holds both numbers reads the sequence as both
  generalize n + varIntNumber (writeVarInt n) = bits at below fits
  obtain ⟨bytes, same, -, value⟩ := readVarIntLoop_spec (reads_varInt fits [])
  rw [append_nil, append_nil] at same
  rw [← same, zero_mul, zero_add, Nat.mod_eq_of_lt below] at value
  exact value.symm

/-! ## The types -/

/-- The types of values in `VARINT`. -/
inductive VarIntType where
  | int
  | unsignedInt
  | uint64
  deriving DecidableEq, Repr

namespace VarIntType

/-- `sizeof(n) * 8`. -/
def bits : VarIntType → Nat
  | int | unsignedInt => 32
  | uint64 => 64

def max : VarIntType → Int
  | int => 2 ^ 31 - 1
  | unsignedInt => 2 ^ 32 - 1
  | uint64 => 2 ^ 64 - 1

/-- `(sizeof(n) * 8 + 6) / 7`: the size of the buffer `tmp` of `WriteVarInt`. -/
def tmpSize (type : VarIntType) : Nat := (type.bits + 6) / 7

/-- `WriteVarInt`. -/
def write : VarIntType → Int → List UInt8
  | int, n => writeVarIntSigned n
  | unsignedInt, n | uint64, n => writeVarInt n.toNat

/-- `GetSizeOfVarInt`. -/
def getSize : VarIntType → Int → Nat
  | int, n => getSizeOfVarIntSigned n
  | unsignedInt, n | uint64, n => getSizeOfVarInt n.toNat

def ofBits (type : VarIntType) (n : Nat) : Int :=
  match type with
  | int => (n : Int).bmod (2 ^ 32)
  | unsignedInt | uint64 => n

/-- `ReadVarInt`. -/
def read (type : VarIntType) : Reader UInt8 Int := type.ofBits <$> readVarInt type.bits

variable {type : VarIntType} {n : Int}

theorem write_of_nonneg (nonneg : 0 ≤ n) : type.write n = writeVarInt n.toNat := by
  cases type with
  | int => exact if_neg (Int.not_lt.mpr nonneg)
  | unsignedInt => rfl
  | uint64 => rfl

theorem getSize_of_nonneg (nonneg : 0 ≤ n) : type.getSize n = getSizeOfVarInt n.toNat := by
  cases type with
  | int => exact if_neg (Int.not_lt.mpr nonneg)
  | unsignedInt => rfl
  | uint64 => rfl

theorem reads_write (nonneg : 0 ≤ n) (fits : n ≤ type.max) : Reads type.read (type.write n) n := by
  have whole : ((n.toNat : Nat) : Int) = n := Int.toNat_of_nonneg nonneg
  cases type with
  | int => exact reads_varIntSigned nonneg (by change n ≤ 2 ^ 31 - 1 at fits; omega)
  | unsignedInt =>
    have below : n.toNat < 2 ^ 32 := by change n ≤ 2 ^ 32 - 1 at fits; omega
    have value := (reads_varInt below).map fun n : Nat => (n : Int)
    rwa [whole] at value
  | uint64 =>
    have below : n.toNat < 2 ^ 64 := by change n ≤ 2 ^ 64 - 1 at fits; omega
    have value := (reads_varInt below).map fun n : Nat => (n : Int)
    rwa [whole] at value

theorem getSize_le (nonneg : 0 ≤ n) (fits : n ≤ type.max) : type.getSize n ≤ type.tmpSize := by
  rw [getSize_of_nonneg nonneg]
  cases type with
  | int => exact getSizeOfVarInt_le_five (by change n ≤ 2 ^ 31 - 1 at fits; omega)
  | unsignedInt => exact getSizeOfVarInt_le_five (by change n ≤ 2 ^ 32 - 1 at fits; omega)
  | uint64 =>
    have last : varIntMax 9 = 1189887617730934227071 := rfl
    rw [show tmpSize uint64 = 9 + 1 from rfl, getSizeOfVarInt_le_iff, last]
    change n ≤ 2 ^ 64 - 1 at fits
    omega

theorem max_lt (type : VarIntType) : type.max < 2 ^ type.bits := by
  cases type <;> decide

theorem ofBits_int (value : Nat) : int.ofBits value = (value : Int).bmod (2 ^ 32) := by
  unfold ofBits
  rfl

variable {value : Nat}

theorem bmod_of_small (small : value < 2 ^ 31) :
    (value : Int).bmod (2 ^ 32) = value := by
  rw [Int.bmod_eq_of_le] <;> omega

theorem bmod_of_large (large : 2 ^ 31 ≤ value) (below : value < 2 ^ 32) :
    (value : Int).bmod (2 ^ 32) < 0 := by
  have wrapped := Int.sub_bmod_right (value : Int) (2 ^ 32)
  rw [Int.bmod_eq_of_le (by omega) (by omega)] at wrapped
  omega

theorem ofBits_of_le (fits : (value : Int) ≤ type.max) :
    type.ofBits value = value := by
  cases type with
  | int =>
    have small : value < 2 ^ 31 := by
      simp only [max] at fits
      omega
    rw [ofBits_int, bmod_of_small small]
  | unsignedInt => rfl
  | uint64 => rfl

theorem ofBits_negative (below : value < 2 ^ type.bits)
    (above : type.max < (value : Int)) : type.ofBits value < 0 := by
  simp only [bits, max] at below above
  cases type with
  | int =>
    rw [ofBits_int]
    apply bmod_of_large _ below
    simp only at above
    omega
  | unsignedInt =>
    simp only at below above
    omega
  | uint64 =>
    simp only at below above
    omega

theorem int_of_negative (negative : type.ofBits value < 0) : type = int := by
  cases type with
  | int => rfl
  | unsignedInt => exact absurd negative (Int.not_lt.mpr (Int.natCast_nonneg value))
  | uint64 => exact absurd negative (Int.not_lt.mpr (Int.natCast_nonneg value))

theorem varIntNumber_write_negative (negative : n < 0) (signed : type = int) :
    varIntNumber (type.write n) < 128 := by
  subst signed
  have single : write int n = [UInt8.ofNat (n % 0x80).toNat] := if_pos negative
  rw [single, varIntNumber_cons]
  simpa [varIntNumber] using varIntDigitOf_lt _

end VarIntType

/-- **Variable-length integers.** Every value of a type that `VARINT` is used with is read back, in
as many bytes as `GetSizeOfVarInt` says, which fit into the buffer of the writer. A byte sequence that
is accepted is the one written for its result if and only if its number is in the range of the
type. -/
theorem varInt_oneToOne_iff (type : VarIntType) :
    (∀ n, 0 ≤ n → n ≤ type.max → Reads type.read (type.write n) n ∧
      type.getSize n = (type.write n).length ∧ type.getSize n ≤ type.tmpSize) ∧
    ∀ bytes rest n, type.read.run (bytes ++ rest) = some (n, rest) →
      (type.write n = bytes ↔ (varIntNumber bytes : Int) ≤ type.max) := by
  refine ⟨fun n nonneg fits => ⟨type.reads_write nonneg fits, ?_, type.getSize_le nonneg fits⟩,
    fun bytes rest n accepted => ?_⟩
  · rw [type.getSize_of_nonneg nonneg, type.write_of_nonneg nonneg, length_writeVarInt]
  · obtain ⟨value, digits, rfl⟩ := of_run_map accepted
    obtain ⟨taken, same, form, number⟩ := readVarIntLoop_spec digits
    obtain rfl : bytes = taken := append_cancel_right same
    rw [zero_mul, zero_add] at number
    have whole := type.max_lt
    constructor
    · intro written
      have below : value < 2 ^ type.bits := number ▸ Nat.mod_lt _ (Nat.two_pow_pos _)
      by_contra outside
      by_cases inside : (value : Int) ≤ type.max
      · rw [type.ofBits_of_le inside, type.write_of_nonneg (Int.natCast_nonneg _),
          Int.toNat_natCast] at written
        rw [← written, varIntNumber_writeVarInt] at outside
        exact outside inside
      · have negative := type.ofBits_negative below (not_le.mp inside)
        have single := type.varIntNumber_write_negative negative (type.int_of_negative negative)
        have wide : (127 : Int) ≤ type.max := by cases type <;> decide
        rw [written] at single
        omega
    · intro inside
      have below : varIntNumber bytes < 2 ^ type.bits := by
        zify
        exact inside.trans_lt whole
      rw [Nat.mod_eq_of_lt below] at number
      rw [number, type.ofBits_of_le inside, type.write_of_nonneg (Int.natCast_nonneg _),
        Int.toNat_natCast, writeVarInt_varIntNumber form]

/-- The five bytes of the comment for `2^32`. -/
def twoToThe32 : List UInt8 := [0x8E, 0xFE, 0xFE, 0xFF, 0x00]

theorem varInt_secondForm : VarIntType.unsignedInt.read.run twoToThe32 = some (0, []) ∧
    VarIntType.unsignedInt.write 0 ≠ twoToThe32 ∧ varIntNumber twoToThe32 = 2 ^ 32 := by
  have zero : VarIntType.unsignedInt.write 0 = [0] := by
    change varIntLoop false 0 = _
    rw [varIntLoop]
    rfl
  refine ⟨by decide, ?_, by decide⟩
  rw [zero]
  decide

/-- The value 300 as an `unsigned int`, and the bytes of `2^32`. -/
theorem varInt_oneToOne_unsignedInt :
    (Reads VarIntType.unsignedInt.read (VarIntType.unsignedInt.write 300) 300 ∧
      VarIntType.unsignedInt.getSize 300 = (VarIntType.unsignedInt.write 300).length ∧
      VarIntType.unsignedInt.getSize 300 ≤ VarIntType.unsignedInt.tmpSize) ∧
    (VarIntType.unsignedInt.write 0 = twoToThe32 ↔
      (varIntNumber twoToThe32 : Int) ≤ VarIntType.unsignedInt.max) :=
  ⟨(varInt_oneToOne_iff .unsignedInt).1 300 (by decide) (by decide),
    (varInt_oneToOne_iff .unsignedInt).2 twoToThe32 [] 0 varInt_secondForm.1⟩

/-- The claim that every accepted sequence is the one that is written fails. -/
theorem varInt_not_oneToOne : ¬ ∀ (type : VarIntType) (bytes rest : List UInt8) (n : Int),
    type.read.run (bytes ++ rest) = some (n, rest) → type.write n = bytes := by
  intro claimed
  obtain ⟨accepted, apart, -⟩ := varInt_secondForm
  exact apart (claimed .unsignedInt twoToThe32 [] 0 accepted)

end Agouti
