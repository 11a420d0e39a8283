import Agouti.Library.Truncation
import Agouti.Primitives.Uint256
import Mathlib.Data.Nat.Bitwise

/-! # The value of a compact encoding

`GetCompact` keeps the leading bytes of a number, one less when the highest of its bits would be
taken for the sign, and `SetCompact` puts zeros in the place of the others. So the two together
truncate a number (`Uint256.toNat_setCompact_getCompact`), which keeps the order of numbers and
leaves zero of no other one, and what is left has the same encoding
(`Uint256.compact_canonical`).
-/

namespace Agouti.Uint256

open Truncation

theorem and_sign (nCompact : Nat) (bound : nCompact < 2 ^ 24) :
    nCompact &&& 0x00800000 ≠ 0 ↔ 2 ^ 23 ≤ nCompact := by
  rw [show 0x00800000 = 2 ^ 23 from rfl, Nat.and_two_pow, Nat.testBit_eq_decide_div_mod_eq]
  by_cases high : 2 ^ 23 ≤ nCompact
  · have one : nCompact / 2 ^ 23 % 2 = 1 := by omega
    rw [decide_eq_true one, Bool.toNat_true]
    exact iff_of_true (by omega) high
  · have zero : ¬ nCompact / 2 ^ 23 % 2 = 1 := by omega
    rw [decide_eq_false zero, Bool.toNat_false, Nat.zero_mul]
    exact iff_of_false (not_not.mpr rfl) high

theorem pack (word nSize : Nat) (bound : word < 2 ^ 24) :
    word ||| (nSize <<< 24) = word + nSize * 2 ^ 24 := by
  rw [Nat.or_comm, ← Nat.shiftLeft_add_eq_or_of_lt bound, Nat.shiftLeft_eq, Nat.add_comm]

theorem shiftRight_pack (word nSize : Nat) (bound : word < 2 ^ 23) :
    (word + nSize * 2 ^ 24) >>> 24 = nSize := by
  rw [Nat.shiftRight_eq_div_pow]
  omega

theorem and_pack (word nSize : Nat) (bound : word < 2 ^ 23) :
    (word + nSize * 2 ^ 24) &&& 0x007fffff = word := by
  rw [show 0x007fffff = 2 ^ 23 - 1 from rfl, Nat.and_two_pow_sub_one_eq_mod]
  omega

theorem setCompact_pack (word nSize : Nat) (bound : word < 2 ^ 23) :
    (setCompact (word + nSize * 2 ^ 24)).toNat =
      if nSize ≤ 3 then word / 2 ^ (8 * (3 - nSize)) else word * 2 ^ (8 * (nSize - 3)) % 2 ^ 256 := by
  unfold setCompact compactWord
  simp only [shiftRight_pack _ _ bound, and_pack _ _ bound]
  split
  · rw [BitVec.toNat_ofNat, Nat.shiftRight_eq_div_pow, Nat.mod_eq_of_lt]
    exact (Nat.div_le_self _ _).trans_lt (bound.trans (by decide))
  · rw [BitVec.toNat_shiftLeft, BitVec.toNat_ofNat, Nat.shiftLeft_eq,
      Nat.mod_eq_of_lt (bound.trans (by decide))]

def bytes (value : Uint256) : Nat := (value.bits + 7) / 8

def leading (value : Uint256) : Nat :=
  if value.bytes ≤ 3 then value.toNat * 2 ^ (8 * (3 - value.bytes))
  else value.toNat / 2 ^ (8 * (value.bytes - 3))

theorem toNat_lt_bytes (value : Uint256) : value.toNat < 2 ^ (8 * value.bytes) := by
  apply Nat.size_le.mp
  unfold bytes bits
  omega

/-- The bytes `size - 1`, `size - 2` and `size - 3` of a number. -/
def window (number size : Nat) : Nat := number / 2 ^ (8 * (size - 3)) * 2 ^ (8 * (3 - size))

theorem leading_eq (value : Uint256) : value.leading = window value.toNat value.bytes := by
  unfold leading window
  split
  · rename_i short
    rw [Nat.sub_eq_zero_of_le short, Nat.mul_zero, pow_zero, Nat.div_one]
  · rename_i long
    rw [Nat.sub_eq_zero_of_le (not_le.mp long).le, Nat.mul_zero, pow_zero, Nat.mul_one]

theorem window_lt {number size spare : Nat} (bound : number < 2 ^ (8 * size - spare))
    (few : spare ≤ 8 * size) (spares : spare ≤ 24) : window number size < 2 ^ (24 - spare) := by
  unfold window
  by_cases short : size ≤ 3
  · have whole : 2 ^ (24 - spare) = 2 ^ (8 * size - spare) * 2 ^ (8 * (3 - size)) := by
      rw [← Nat.pow_add]
      congr 1
      omega
    rw [Nat.sub_eq_zero_of_le short, Nat.mul_zero, pow_zero, Nat.div_one, whole]
    exact Nat.mul_lt_mul_of_pos_right bound (Nat.two_pow_pos _)
  · rw [Nat.sub_eq_zero_of_le (not_le.mp short).le, Nat.mul_zero, pow_zero, Nat.mul_one,
      Nat.div_lt_iff_lt_mul (Nat.two_pow_pos _), ← Nat.pow_add]
    have whole : 24 - spare + 8 * (size - 3) = 8 * size - spare := by omega
    rwa [whole]

theorem window_succ (number size : Nat) : window number size / 2 ^ 8 = window number (size + 1) := by
  unfold window
  by_cases short : size ≤ 2
  · have whole : 8 * (3 - size) = 8 * (3 - (size + 1)) + 8 := by omega
    rw [whole, Nat.pow_add, ← Nat.mul_assoc, Nat.mul_div_cancel _ (Nat.two_pow_pos 8),
      show size - 3 = size + 1 - 3 by omega]
  · have whole : 8 * (size + 1 - 3) = 8 * (size - 3) + 8 := by omega
    rw [whole, Nat.pow_add, ← Nat.div_div_eq_div_mul, show 3 - (size + 1) = 3 - size by omega,
      show 3 - size = 0 by omega, Nat.mul_zero, pow_zero, Nat.mul_one, Nat.mul_one]

theorem leading_lt (value : Uint256) : value.leading < 2 ^ 24 := by
  rw [leading_eq]
  exact window_lt value.toNat_lt_bytes (Nat.zero_le _) (Nat.zero_le _)

theorem getCompact_eq (value : Uint256) : value.getCompact =
    if 2 ^ 23 ≤ value.leading then value.leading / 2 ^ 8 + (value.bytes + 1) * 2 ^ 24
    else value.leading + value.bytes * 2 ^ 24 := by
  have bound := value.leading_lt
  have word : (if (value.bits + 7) / 8 ≤ 3 then
      (value.toNat % 2 ^ 64) <<< (8 * (3 - (value.bits + 7) / 8)) % 2 ^ 32
      else (value >>> (8 * ((value.bits + 7) / 8 - 3))).toNat % 2 ^ 32) = value.leading := by
    change (if value.bytes ≤ 3 then (value.toNat % 2 ^ 64) <<< (8 * (3 - value.bytes)) % 2 ^ 32
      else (value >>> (8 * (value.bytes - 3))).toNat % 2 ^ 32) = _
    have small : value.leading % 2 ^ 32 = value.leading := Nat.mod_eq_of_lt (by omega)
    rw [← small]
    unfold leading
    split
    · rename_i short
      have low : value.toNat < 2 ^ 64 := by
        refine value.toNat_lt_bytes.trans_le (Nat.pow_le_pow_right (by omega) (by omega))
      rw [Nat.shiftLeft_eq, Nat.mod_eq_of_lt low]
    · rw [BitVec.toNat_ushiftRight, Nat.shiftRight_eq_div_pow]
  unfold getCompact
  simp only [word]
  by_cases sign : 2 ^ 23 ≤ value.leading
  · have part : value.leading >>> 8 < 2 ^ 24 := by
      rw [Nat.shiftRight_eq_div_pow]
      omega
    rw [if_pos ((and_sign _ bound).mpr sign), if_pos sign, pack _ _ part,
      Nat.shiftRight_eq_div_pow]
    rfl
  · rw [if_neg (fun high => sign ((and_sign _ bound).mp high)), if_neg sign, pack _ _ bound]
    rfl

theorem sign_iff (value : Uint256) (positive : 0 < value.bytes) :
    2 ^ 23 ≤ value.leading ↔ value.bits = 8 * value.bytes := by
  have filled : value.bits = 8 * value.bytes ↔ 2 ^ (8 * value.bytes - 1) ≤ value.toNat := by
    rw [← Nat.lt_size]
    unfold bytes bits at *
    omega
  rw [filled]
  unfold leading
  split
  · rename_i short
    have split : 2 ^ 23 = 2 ^ (8 * value.bytes - 1) * 2 ^ (8 * (3 - value.bytes)) := by
      rw [← Nat.pow_add]
      congr 1
      omega
    rw [split]
    exact Nat.mul_le_mul_right_iff (Nat.two_pow_pos _)
  · rename_i long
    have whole : 23 + 8 * (value.bytes - 3) = 8 * value.bytes - 1 := by omega
    rw [Nat.le_div_iff_mul_le (Nat.two_pow_pos _), ← Nat.pow_add, whole]

def compactSize (value : Uint256) : Nat := value.bits / 8 + 1

def mantissa (value : Uint256) : Nat := window value.toNat value.compactSize

theorem toNat_lt_compactSize (value : Uint256) :
    value.toNat < 2 ^ (8 * value.compactSize - 1) := by
  apply Nat.size_le.mp
  unfold compactSize bits
  omega

theorem mantissa_lt (value : Uint256) : value.mantissa < 2 ^ 23 := by
  refine window_lt value.toNat_lt_compactSize ?_ (by decide)
  unfold compactSize
  omega

theorem getCompact_pack {value : Uint256} (some : value ≠ 0) :
    value.getCompact = value.mantissa + value.compactSize * 2 ^ 24 := by
  have positive : 0 < value.bits :=
    Nat.size_pos.mpr (Nat.pos_of_ne_zero fun none => some (BitVec.toNat_inj.mp none))
  have begun : 0 < value.bytes := by
    unfold bytes
    omega
  rw [getCompact_eq]
  by_cases sign : 2 ^ 23 ≤ value.leading
  · -- the highest bit would be the sign, so one more byte is counted
    have size : value.compactSize = value.bytes + 1 := by
      rw [compactSize, (value.sign_iff begun).mp sign, Nat.mul_div_cancel_left _ (by decide)]
    rw [if_pos sign, leading_eq, window_succ, mantissa, size]
  · have size : value.compactSize = value.bytes := by
      have other : value.bits ≠ 8 * value.bytes := fun same => sign ((value.sign_iff begun).mpr same)
      unfold compactSize
      unfold bytes at other ⊢
      omega
    rw [if_neg sign, leading_eq, mantissa, size]

theorem getCompact_zero : getCompact 0 = 0 := by decide

theorem getCompact_zero_or (value : Uint256) :
    value.getCompact = 0 ∨ 2 ^ 24 ≤ value.getCompact := by
  by_cases zero : value = 0
  · rw [zero]
    exact .inl getCompact_zero
  · right
    have begun : 1 * 2 ^ 24 ≤ value.compactSize * 2 ^ 24 :=
      Nat.mul_le_mul_right _ (Nat.succ_pos _)
    rw [getCompact_pack zero]
    omega

/-- **The compact encoding keeps the leading bytes.** -/
theorem toNat_setCompact_getCompact (value : Uint256) :
    (setCompact value.getCompact).toNat = truncate 8 2 value.toNat := by
  by_cases zero : value = 0
  · rw [zero, getCompact_zero]
    simp [setCompact, compactWord, truncate]
  have drops : shift 8 2 value.toNat.size = 8 * (value.compactSize - 3) := rfl
  rw [getCompact_pack zero, setCompact_pack _ _ value.mantissa_lt, truncate, drops, mantissa,
    window]
  by_cases short : value.compactSize ≤ 3
  · rw [if_pos short, Nat.mul_div_cancel _ (Nat.two_pow_pos _), Nat.sub_eq_zero_of_le short]
    simp
  · rw [if_neg short, Nat.sub_eq_zero_of_le (not_le.mp short).le, Nat.mul_zero, pow_zero,
      Nat.mul_one]
    exact Nat.mod_eq_of_lt ((Nat.div_mul_le_self _ _).trans_lt value.isLt)

theorem setCompact_getCompact_mono {smaller larger : Uint256} (below : smaller ≤ larger) :
    setCompact smaller.getCompact ≤ setCompact larger.getCompact := by
  rw [BitVec.le_def, toNat_setCompact_getCompact, toNat_setCompact_getCompact]
  exact truncate_mono (by decide) (BitVec.le_def.mp below)

theorem setCompact_getCompact_eq_zero (value : Uint256) :
    setCompact value.getCompact = 0 ↔ value = 0 := by
  rw [← BitVec.toNat_inj, ← BitVec.toNat_inj, toNat_setCompact_getCompact]
  constructor
  · intro none
    by_contra some
    have positive : 0 < truncate 8 2 value.toNat :=
      truncate_pos (by decide) (by decide) (Nat.pos_of_ne_zero some)
    exact positive.ne' none
  · intro zero
    rw [zero]
    exact Nat.le_zero.mp (truncate_le 0)

/-! ## The canonical form -/

/-- The byte with the weight `256 ^ place`. -/
def byte (value : Uint256) (place : Nat) : Nat := value.toNat / 2 ^ (8 * place) % 2 ^ 8

theorem compactNegative_pack (word nSize : Nat) (bound : word < 2 ^ 23) :
    compactNegative (word + nSize * 2 ^ 24) = false := by
  have even : (word + nSize * 2 ^ 24) / 2 ^ 23 % 2 = 0 := by omega
  have sign : (word + nSize * 2 ^ 24) &&& 0x00800000 = 0 := by
    rw [show 0x00800000 = 2 ^ 23 from rfl, Nat.and_two_pow, Nat.testBit_eq_decide_div_mod_eq, even]
    rfl
  rw [compactNegative, sign]
  exact Bool.and_false _

theorem compactSize_le (value : Uint256) : value.compactSize ≤ 33 := by
  have bound : value.bits ≤ 256 := Nat.size_le.mpr value.isLt
  unfold compactSize
  omega

theorem compactOverflow_getCompact (value : Uint256) :
    compactOverflow value.getCompact = false := by
  by_cases zero : value = 0
  · rw [zero, getCompact_zero]
    rfl
  have bound := value.mantissa_lt
  have most := value.compactSize_le
  rw [getCompact_pack zero]
  unfold compactOverflow compactWord
  simp only [shiftRight_pack _ _ bound, and_pack _ _ bound]
  by_cases full : value.compactSize ≤ 32
  · simp
    omega
  · -- the value has 256 bits, so its first byte stands behind one for the sign
    have last : value.compactSize = 33 := by omega
    have word : value.mantissa < 2 ^ 16 := by
      unfold mantissa window
      rw [last, show 3 - 33 = 0 from rfl, Nat.mul_zero, pow_zero, Nat.mul_one,
        Nat.div_lt_iff_lt_mul (Nat.two_pow_pos _), ← Nat.pow_add]
      exact value.isLt
    rw [last]
    simp
    omega

theorem compactSize_setCompact_getCompact (value : Uint256) :
    (setCompact value.getCompact).compactSize = value.compactSize := by
  have same := @size_truncate 8 2 (by decide) (by decide) value.toNat
  rw [← toNat_setCompact_getCompact] at same
  rw [compactSize, compactSize, bits, bits, same]

theorem mantissa_setCompact_getCompact (value : Uint256) :
    (setCompact value.getCompact).mantissa = value.mantissa := by
  have drops : shift 8 2 value.toNat.size = 8 * (value.compactSize - 3) := rfl
  rw [mantissa, window, compactSize_setCompact_getCompact, toNat_setCompact_getCompact, truncate, drops,
    Nat.mul_div_cancel _ (Nat.two_pow_pos _), mantissa, window]

theorem getCompact_setCompact_getCompact (value : Uint256) :
    (setCompact value.getCompact).getCompact = value.getCompact := by
  by_cases zero : value = 0
  · rw [zero, getCompact_zero]
    rfl
  · have some : setCompact value.getCompact ≠ 0 := by rwa [Ne, setCompact_getCompact_eq_zero]
    rw [getCompact_pack some, mantissa_setCompact_getCompact, compactSize_setCompact_getCompact,
      getCompact_pack zero]

theorem byte_setCompact_getCompact (value : Uint256) {place : Nat}
    (kept : value.compactSize ≤ place + 3) :
    (setCompact value.getCompact).byte place = value.byte place := by
  have drops : shift 8 2 value.toNat.size = 8 * (value.compactSize - 3) := rfl
  have above : 8 * place =
      8 * (value.compactSize - 3) + (8 * place - 8 * (value.compactSize - 3)) := by omega
  rw [byte, byte, toNat_setCompact_getCompact, truncate, drops, above, Nat.pow_add,
    ← Nat.div_div_eq_div_mul, ← Nat.div_div_eq_div_mul, Nat.mul_div_cancel _ (Nat.two_pow_pos _)]

theorem le_of_compactSize {value : Uint256} (some : value ≠ 0) :
    2 ^ (8 * (value.compactSize - 1) - 1) ≤ value.toNat := by
  have positive : 0 < value.toNat.size :=
    Nat.size_pos.mpr (Nat.pos_of_ne_zero fun none => some (BitVec.toNat_inj.mp none))
  apply Nat.lt_size.mp
  unfold compactSize bits
  omega

/-- **The compact form is canonical.** The encoding counts the bytes of a value and of its sign, and
the first three of them are kept: three bytes of the value, or two and an empty one for the sign when
the value begins with a byte from `0x80` on. -/
theorem compact_canonical :
    (∀ value : Uint256,
      compactNegative value.getCompact = false ∧ compactOverflow value.getCompact = false ∧
      setCompact value.getCompact ≤ value ∧
      value.toNat < 2 ^ (8 * (value.getCompact >>> 24) - 1) ∧
      (value ≠ 0 → 2 ^ (8 * (value.getCompact >>> 24 - 1) - 1) ≤ value.toNat) ∧
      (∀ place, value.getCompact >>> 24 ≤ place + 3 →
        (setCompact value.getCompact).byte place = value.byte place) ∧
      (setCompact value.getCompact).getCompact = value.getCompact) ∧
    Monotone fun value : Uint256 => setCompact value.getCompact := by
  refine ⟨fun value => ?_, fun smaller larger => setCompact_getCompact_mono⟩
  have below : setCompact value.getCompact ≤ value := by
    rw [BitVec.le_def, toNat_setCompact_getCompact]
    exact truncate_le _
  refine ⟨?_, compactOverflow_getCompact value, below, ?_⟩
  · by_cases zero : value = 0
    · rw [zero, getCompact_zero]
      rfl
    · rw [getCompact_pack zero]
      exact compactNegative_pack _ _ value.mantissa_lt
  by_cases zero : value = 0
  · rw [zero, getCompact_zero]
    exact ⟨by decide, fun some => absurd rfl some, fun _ _ => rfl, rfl⟩
  · have exponent : value.getCompact >>> 24 = value.compactSize := by
      rw [getCompact_pack zero, shiftRight_pack _ _ value.mantissa_lt]
    rw [exponent]
    exact ⟨value.toNat_lt_compactSize, fun _ => le_of_compactSize zero,
      fun _ kept => byte_setCompact_getCompact value kept,
      getCompact_setCompact_getCompact value⟩

end Agouti.Uint256
