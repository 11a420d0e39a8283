import Agouti.Library.Codec
import Mathlib.Data.Nat.Bitwise

/-! # Variable-length integers

`WriteVarInt` and `ReadVarInt` of `serialize.h`: digits of seven bits, most
significant first, every digit but the last with its high bit set and one added
to it. The reader works in the unsigned type of the value that is read, given
here by its number of bits; every number of that type is read back
(`reads_varInt`).
-/

namespace Agouti

open Reader List

/-- The loop of `WriteVarInt`; `more` says that a lower digit was written before. -/
def varIntLoop (more : Bool) (n : Nat) : List UInt8 :=
  let byte := UInt8.ofNat ((n &&& 0x7f) ||| if more then 0x80 else 0)
  if n ≤ 0x7f then [byte] else varIntLoop true ((n >>> 7) - 1) ++ [byte]
termination_by n
decreasing_by
  rw [Nat.shiftRight_eq_div_pow]
  omega

/-- `WriteVarInt` of an unsigned value. -/
def writeVarInt (n : Nat) : List UInt8 := varIntLoop false n

/-- `WriteVarInt` of an `int`: a negative value passes for a single digit. -/
def writeVarIntSigned (n : Int) : List UInt8 :=
  if n < 0 then [UInt8.ofNat (n % 0x80).toNat] else writeVarInt n.toNat

/-- The loop of `ReadVarInt` for a type of `bits` bits. -/
def readVarIntLoop (bits : Nat) : Nat → List UInt8 → Option (Nat × List UInt8)
  | _, [] => none
  | n, chData :: stream =>
    let n := ((n <<< 7) ||| (chData &&& 0x7f).toNat) % 2 ^ bits
    if chData &&& 0x80 ≠ 0 then readVarIntLoop bits ((n + 1) % 2 ^ bits) stream
    else some (n, stream)

/-- `ReadVarInt` of an unsigned type. -/
def readVarInt (bits : Nat) : Reader UInt8 Nat := readVarIntLoop bits 0

/-- `ReadVarInt` of an `int`. -/
def readVarIntSigned : Reader UInt8 Int := (fun n : Nat => (n : Int).bmod (2 ^ 32)) <$> readVarInt 32

theorem varIntDigit (digit : Nat) (small : digit < 128) (more : Bool) :
    let byte := UInt8.ofNat (digit ||| if more then 0x80 else 0)
    (byte &&& 0x7f).toNat = digit ∧ (byte &&& 0x80 ≠ 0 ↔ more = true) := by
  revert more
  revert digit
  decide +kernel

theorem readVarIntLoop_digit {bits above n : Nat} (more : Bool) (stream : List UInt8)
    (split : n = above * 128 + n % 128) (fits : n < 2 ^ bits) :
    readVarIntLoop bits above
        (UInt8.ofNat ((n &&& 0x7f) ||| if more then 0x80 else 0) :: stream) =
      if more then readVarIntLoop bits ((n + 1) % 2 ^ bits) stream else some (n, stream) := by
  have low : n &&& 0x7f = n % 128 := Nat.and_two_pow_sub_one_eq_mod n 7
  obtain ⟨digit, high⟩ := varIntDigit (n % 128) (Nat.mod_lt _ (by omega)) more
  have joined : (above <<< 7 ||| n % 128) % 2 ^ bits = n := by
    rw [← Nat.shiftLeft_add_eq_or_of_lt (by omega : n % 128 < 2 ^ 7), Nat.shiftLeft_eq,
      Nat.mod_eq_of_lt] <;> omega
  simp only [readVarIntLoop, low, digit, high, joined]

theorem readVarIntLoop_more (bits n : Nat) (fits : n + 1 < 2 ^ bits) (stream : List UInt8) :
    readVarIntLoop bits 0 (varIntLoop true n ++ stream) =
      readVarIntLoop bits (n + 1) stream := by
  induction n using Nat.strongRecOn generalizing stream with
  | ind n ih =>
    rw [varIntLoop]
    have next : (n + 1) % 2 ^ bits = n + 1 := Nat.mod_eq_of_lt fits
    by_cases single : n ≤ 0x7f
    · rw [if_pos single, singleton_append,
        readVarIntLoop_digit true stream (by omega) (by omega), if_pos rfl, next]
    · have upper : n >>> 7 = n / 128 := Nat.shiftRight_eq_div_pow n 7
      have sum : n >>> 7 - 1 + 1 = n / 128 := by omega
      rw [if_neg single, append_assoc, ih _ (by omega) (by omega), sum,
        singleton_append, readVarIntLoop_digit true stream (by omega) (by omega),
        if_pos rfl, next]

/-- **Variable-length integers are read back.** -/
theorem reads_varInt {bits n : Nat} (fits : n < 2 ^ bits) :
    Reads (readVarInt bits) (writeVarInt n) n := by
  intro rest
  change readVarIntLoop bits 0 (varIntLoop false n ++ rest) = _
  rw [varIntLoop]
  by_cases single : n ≤ 0x7f
  · rw [if_pos single, singleton_append,
      readVarIntLoop_digit false rest (by omega) fits, if_neg (by simp)]
  · have upper : n >>> 7 = n / 128 := Nat.shiftRight_eq_div_pow n 7
    have sum : n >>> 7 - 1 + 1 = n / 128 := by omega
    rw [if_neg single, append_assoc, readVarIntLoop_more _ _ (by omega), sum,
      singleton_append, readVarIntLoop_digit false rest (by omega) fits, if_neg (by simp)]

theorem reads_varIntSigned {n : Int} (nonneg : 0 ≤ n) (fits : n < 2 ^ 31) :
    Reads readVarIntSigned (writeVarIntSigned n) n := by
  have same : ((n.toNat : Int)).bmod (2 ^ 32) = n := by
    rw [Int.toNat_of_nonneg nonneg, Int.bmod_eq_of_le] <;> omega
  have digits : Reads (readVarInt 32) (writeVarInt n.toNat) n.toNat := reads_varInt (by omega)
  have read := digits.map fun n : Nat => (n : Int).bmod (2 ^ 32)
  rw [same] at read
  rw [writeVarIntSigned, if_neg (by omega)]
  exact read

end Agouti
