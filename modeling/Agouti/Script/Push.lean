import Agouti.Primitives.Serialize
import Mathlib.Data.Nat.Digits.Defs

/-! # Pushing numbers

What `CScript() << n` appends for a number or a byte vector, with
`CScriptNum::serialize` for the numbers that have no opcode of their own. Different
heights are pushed as different bytes (`pushInt64_injective`).
-/

namespace Agouti

open List

namespace CScript

def highBit (bytes : List UInt8) : Bool := decide (0x80 ≤ bytes.getLastD 0)

/-- `CScriptNum::serialize`. -/
def serializeNum (value : Int) : List UInt8 :=
  let result : CScript := (Nat.digits 256 value.natAbs).map UInt8.ofNat
  if highBit result then result ++ [if value < 0 then 0x80 else 0]
  else if value < 0 then result.dropLast ++ [result.getLastD 0 ||| 0x80]
  else result

/-- `operator<<` of a byte vector. -/
def pushData (data : List UInt8) : CScript :=
  if data.length < OP_PUSHDATA1.toNat then UInt8.ofNat data.length :: data
  else if data.length ≤ 0xff then OP_PUSHDATA1 :: UInt8.ofNat data.length :: data
  else if data.length ≤ 0xffff then OP_PUSHDATA2 :: (Serialize.le 2 data.length ++ data)
  else OP_PUSHDATA4 :: (Serialize.le 4 data.length ++ data)

def pushInt64 (n : Int) : CScript :=
  if n = -1 ∨ (1 ≤ n ∧ n ≤ 16) then [UInt8.ofNat (n + (OP_1.toNat - 1)).toNat]
  else if n = 0 then [OP_0]
  else pushData (serializeNum n)

theorem littleEndian_append_zero (bytes : List UInt8) :
    littleEndian (bytes ++ [0]) = littleEndian bytes := by
  simp only [littleEndian, foldr_append, foldr_cons, foldr_nil]
  rfl

theorem littleEndian_map_ofNat {digits : List Nat} (small : ∀ digit ∈ digits, digit < 256) :
    littleEndian (digits.map UInt8.ofNat) = Nat.ofDigits 256 digits := by
  induction digits with
  | nil => rfl
  | cons digit rest ih =>
    have below := small digit mem_cons_self
    have others := ih fun other member => small other (mem_cons_of_mem digit member)
    simp only [littleEndian, map_cons, foldr_cons] at others ⊢
    rw [others, Nat.ofDigits_cons, UInt8.toNat_ofNat', Nat.mod_eq_of_lt below]

theorem littleEndian_serializeNum (n : Nat) : littleEndian (serializeNum n) = n := by
  have digits : littleEndian ((Nat.digits 256 n).map UInt8.ofNat) = n := by
    rw [littleEndian_map_ofNat fun digit member => Nat.digits_lt_base (by decide) member,
      Nat.ofDigits_digits]
  have nonneg : ¬ (n : Int) < 0 := by omega
  simp only [serializeNum, Int.natAbs_natCast, if_neg nonneg]
  split
  · rw [littleEndian_append_zero, digits]
  · exact digits

theorem ofNat_length_ne {length : Nat} {opcode : UInt8} (short : length < OP_PUSHDATA1.toNat)
    (large : OP_PUSHDATA1 ≤ opcode) : UInt8.ofNat length ≠ opcode := by
  rintro rfl
  have size : (UInt8.ofNat length).toNat = length := by
    rw [UInt8.toNat_ofNat', Nat.mod_eq_of_lt (lt_trans short (by decide))]
  have bound := UInt8.le_iff_toNat_le.mp large
  omega

theorem pushData_injective : Function.Injective pushData := by
  intro a b same
  unfold pushData at same
  split_ifs at same with shortA shortB _ _ byteA shortB byteB wordB wordA shortB byteB wordB shortB
    byteB wordB
  all_goals first
    | exact (List.cons.inj same).2
    | exact absurd (List.cons.inj same).1 (ofNat_length_ne ‹_› (by decide))
    | exact absurd (List.cons.inj same).1.symm (ofNat_length_ne ‹_› (by decide))
    | exact absurd (List.cons.inj same).1 (by decide)
    | exact (List.cons.inj (List.cons.inj same).2).2
    | exact (append_inj (List.cons.inj same).2 (by simp [Serialize.le])).2

theorem pushData_length (data : List UInt8) : data.length < (pushData data).length := by
  unfold pushData
  split_ifs <;> simp only [length_cons, length_append] <;> omega

theorem pushInt64_ne_nil (n : Int) : pushInt64 n ≠ [] := by
  unfold pushInt64
  split_ifs
  · exact cons_ne_nil _ _
  · exact cons_ne_nil _ _
  · exact ne_nil_of_length_pos (Nat.zero_lt_of_lt (pushData_length (serializeNum n)))

theorem pushInt64_large {n : Nat} (large : 17 ≤ n) :
    pushInt64 n = pushData (serializeNum n) ∧ 2 ≤ (pushInt64 n).length := by
  have data : pushInt64 n = pushData (serializeNum n) := by
    unfold pushInt64
    rw [if_neg (by omega), if_neg (by omega)]
  refine ⟨data, ?_⟩
  have filled : serializeNum n ≠ [] := by
    intro empty
    have zero := littleEndian_serializeNum n
    rw [empty] at zero
    have zero : 0 = n := zero
    omega
  have long := pushData_length (serializeNum n)
  have some := length_pos_iff.mpr filled
  rw [data]
  omega

theorem pushInt64_small {n : Nat} (small : n < 17) :
    pushInt64 n = [if n = 0 then OP_0 else UInt8.ofNat (n + 80)] := by
  have each : ∀ n < 17, pushInt64 (n : Nat) =
      [if n = 0 then OP_0 else UInt8.ofNat (n + 80)] := by
    decide
  exact each n small

/-- **Different heights are pushed as different bytes.** -/
theorem pushInt64_injective {a b : Nat} (same : pushInt64 a = pushInt64 b) : a = b := by
  by_cases smallA : a < 17
  · rw [pushInt64_small smallA] at same
    by_cases smallB : b < 17
    · rw [pushInt64_small smallB] at same
      have apart : ∀ a < 17, ∀ b < 17,
          (if a = 0 then OP_0 else UInt8.ofNat (a + 80)) =
            (if b = 0 then OP_0 else UInt8.ofNat (b + 80)) → a = b := by
        decide
      exact apart a smallA b smallB (singleton_inj.mp same)
    · have long := (pushInt64_large (Nat.not_lt.mp smallB)).2
      rw [← same, length_singleton] at long
      omega
  · have large := pushInt64_large (Nat.not_lt.mp smallA)
    by_cases smallB : b < 17
    · have long := large.2
      rw [same, pushInt64_small smallB, length_singleton] at long
      omega
    · rw [large.1, (pushInt64_large (Nat.not_lt.mp smallB)).1] at same
      rw [← littleEndian_serializeNum a, pushData_injective same, littleEndian_serializeNum]

end CScript

end Agouti
