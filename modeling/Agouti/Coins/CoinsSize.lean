import Agouti.Coins.CoinsCodec

/-! # The measured size of coins

`CCoins::GetSerializeSize` of `coins.h` repeats the format of `CCoins::Serialize` to measure it. Its
header code has the factor 8 where the one that is written has 16, so the two agree exactly when no
width of a variable-length integer ends between the two codes (`CCoins.SameWidth`).
-/

namespace Agouti

open List

/-- `GetSizeOfVarInt` of an unsigned value. -/
def getSizeOfVarInt (n : Nat) : Nat := if n ≤ 0x7f then 1 else getSizeOfVarInt ((n >>> 7) - 1) + 1
termination_by n
decreasing_by
  rw [Nat.shiftRight_eq_div_pow]
  omega

/-- `GetSizeOfVarInt` of an `int`: a negative value passes for a single digit. -/
def getSizeOfVarIntSigned (n : Int) : Nat := if n < 0 then 1 else getSizeOfVarInt n.toNat

theorem length_varIntLoop (more : Bool) (n : Nat) :
    (varIntLoop more n).length = getSizeOfVarInt n := by
  induction more, n using varIntLoop.induct with
  | case1 more n single => rw [varIntLoop, getSizeOfVarInt, if_pos single, if_pos single]; rfl
  | case2 more n long ih =>
    rw [varIntLoop, getSizeOfVarInt, if_neg long, if_neg long, length_append, ih]
    rfl

theorem length_writeVarInt (n : Nat) : (writeVarInt n).length = getSizeOfVarInt n :=
  length_varIntLoop false n

theorem length_writeVarIntSigned (n : Int) :
    (writeVarIntSigned n).length = getSizeOfVarIntSigned n := by
  unfold writeVarIntSigned getSizeOfVarIntSigned
  split
  · rfl
  · exact length_writeVarInt n.toNat

/-- The largest number with `digits + 1` digits. -/
def varIntMax : Nat → Nat
  | 0 => 0x7f
  | digits + 1 => (varIntMax digits + 1) * 128 + 0x7f

theorem getSizeOfVarInt_pos (n : Nat) : 0 < getSizeOfVarInt n := by
  rw [getSizeOfVarInt]
  split <;> omega

theorem getSizeOfVarInt_le_iff (digits n : Nat) :
    getSizeOfVarInt n ≤ digits + 1 ↔ n ≤ varIntMax digits := by
  induction digits generalizing n with
  | zero =>
    rw [getSizeOfVarInt, varIntMax]
    have positive := getSizeOfVarInt_pos ((n >>> 7) - 1)
    split <;> omega
  | succ digits ih =>
    have upper : n >>> 7 = n / 128 := Nat.shiftRight_eq_div_pow n 7
    rw [getSizeOfVarInt, varIntMax]
    split
    · omega
    · rw [Nat.add_le_add_iff_right, ih, upper]
      omega

theorem getSizeOfVarInt_le_five {n : Nat} (fits : n < 2 ^ 32) : getSizeOfVarInt n ≤ 5 := by
  rw [getSizeOfVarInt_le_iff]
  have last : varIntMax 4 = 34630287487 := rfl
  omega

/-- Two 32-bit numbers have the same width exactly when no bound separates them. -/
theorem getSizeOfVarInt_eq_iff {first second : Nat} (one : first < 2 ^ 32)
    (other : second < 2 ^ 32) :
    getSizeOfVarInt first = getSizeOfVarInt second ↔
      ∀ digits < 4, first ≤ varIntMax digits ↔ second ≤ varIntMax digits := by
  simp only [← getSizeOfVarInt_le_iff]
  constructor
  · intro same digits _
    rw [same]
  · intro bounds
    have firstFive := getSizeOfVarInt_le_five one
    have secondFive := getSizeOfVarInt_le_five other
    have firstPos := getSizeOfVarInt_pos first
    have secondPos := getSizeOfVarInt_pos second
    have zero := bounds 0 (by decide)
    have one := bounds 1 (by decide)
    have two := bounds 2 (by decide)
    have three := bounds 3 (by decide)
    omega

namespace CCoins

/-- The header code of `CCoins::GetSerializeSize`. -/
def sizeCode (coins : CCoins) (nMaskCode : Nat) : Nat :=
  let fFirst := coins.isAvailable 0
  let fSecond := coins.isAvailable 1
  (8 * (nMaskCode - if fFirst || fSecond then 0 else 1) + (if coins.fCoinBase then 1 else 0) +
    (if coins.fCoinStake then 2 else 0) + (if fFirst then 4 else 0) + if fSecond then 8 else 0) %
      2 ^ 32

variable (coins : CCoins)

/-- The unspent outputs and the metadata of `CCoins::GetSerializeSize`, without the header code. A
`CTxOutCompressor` is measured by writing it to a stream that counts. -/
def bodySize [Secp256k1] : Nat :=
  getSizeOfVarIntSigned coins.nVersion + coins.calcMaskSize.1 +
    (coins.vout.map fun txout =>
      if txout.isNull then 0 else (CTxOutCompressor.serialize txout).length).sum +
    getSizeOfVarIntSigned coins.nHeight

/-- `CCoins::GetSerializeSize`, an `unsigned int`; nothing when its assertion fails. -/
def getSerializeSize [Secp256k1] : Option Nat :=
  let (_, nMaskCode) := coins.calcMaskSize
  if coins.isAvailable 0 || coins.isAvailable 1 || nMaskCode != 0 then
    some ((coins.bodySize + getSizeOfVarInt (coins.sizeCode nMaskCode)) % 2 ^ 32)
  else none

/-- The mask bytes in use, one less when the first two outputs are spent. -/
def codeCount : Nat :=
  coins.calcMaskSize.2 - if coins.isAvailable 0 || coins.isAvailable 1 then 0 else 1

/-- The flags of the entry and of its first two outputs. -/
def codeFlags : Nat :=
  (if coins.fCoinBase then 1 else 0) + (if coins.fCoinStake then 2 else 0) +
    (if coins.isAvailable 0 then 4 else 0) + if coins.isAvailable 1 then 8 else 0

/-- With the factor 8 and with the factor 16 the count and the flags make numbers of one width. -/
def SameWidth : Prop :=
  ∀ digits < 4, (8 * coins.codeCount + coins.codeFlags) % 2 ^ 32 ≤ varIntMax digits ↔
    (16 * coins.codeCount + coins.codeFlags) % 2 ^ 32 ≤ varIntMax digits

/-- An `unsigned int` counts the bytes of the entry. -/
def Countable [Secp256k1] : Prop :=
  coins.bodySize + getSizeOfVarInt ((16 * coins.codeCount + coins.codeFlags) % 2 ^ 32) < 2 ^ 32

theorem sizeCode_eq :
    coins.sizeCode coins.calcMaskSize.2 = (8 * coins.codeCount + coins.codeFlags) % 2 ^ 32 := by
  simp only [sizeCode, codeCount, codeFlags, Nat.add_assoc]

theorem headerCode_eq :
    coins.headerCode coins.calcMaskSize.2 = (16 * coins.codeCount + coins.codeFlags) % 2 ^ 32 := by
  simp only [headerCode, codeCount, codeFlags, Nat.add_assoc]

variable {coins}

theorem maskCode_of_pruned (pruned : coins.isPruned = true) :
    (coins.isAvailable 0 || coins.isAvailable 1 || coins.calcMaskSize.2 != 0) = false := by
  have spent : ∀ nPos, coins.isAvailable nPos = false := by
    intro nPos
    rw [isAvailable_eq, isPruned_iff.mp pruned nPos]
    rfl
  have unused : ∀ b, coins.maskByteUsed b = false := by
    intro b
    rw [maskByteUsed, any_eq_false]
    intro i _
    rw [spent]
    exact Bool.false_ne_true
  have count : coins.calcMaskSize.2 = 0 := by
    rw [(calcMaskSize_spec coins).count, countP_eq_zero]
    intro b _
    rw [unused]
    exact Bool.false_ne_true
  rw [spent, spent, count]
  rfl

variable [Secp256k1]

theorem length_serialize (live : coins.isPruned = false) :
    coins.serialize.map List.length =
      some (coins.bodySize + getSizeOfVarInt (coins.headerCode coins.calcMaskSize.2)) := by
  have asserted := maskCode_of_live live (calcMaskSize_spec coins)
  have outputs : (coins.vout.flatMap fun txout =>
      if txout.isNull then [] else CTxOutCompressor.serialize txout).length =
      (coins.vout.map fun txout =>
        if txout.isNull then 0 else (CTxOutCompressor.serialize txout).length).sum := by
    rw [length_flatMap]
    congr 1
    refine map_congr_left fun txout _ => ?_
    split <;> rfl
  unfold serialize
  simp only [asserted, ↓reduceIte, Option.map_some, length_append, length_writeVarIntSigned,
    length_writeVarInt, length_map, length_range, outputs, bodySize]
  congr 1
  omega

theorem getSerializeSize_live (live : coins.isPruned = false) :
    coins.getSerializeSize =
      some ((coins.bodySize + getSizeOfVarInt (coins.sizeCode coins.calcMaskSize.2)) % 2 ^ 32) := by
  have asserted := maskCode_of_live live (calcMaskSize_spec coins)
  unfold getSerializeSize
  simp only [asserted, ↓reduceIte]

/-- An entry without an unspent output is neither written nor measured. -/
theorem getSerializeSize_pruned (pruned : coins.isPruned = true) :
    coins.getSerializeSize = none ∧ coins.serialize = none := by
  have refused := maskCode_of_pruned pruned
  unfold getSerializeSize serialize
  simp only [refused, Bool.false_eq_true, ↓reduceIte, and_self]

/-- An entry with an unspent output is measured by the width of the right code, in 32 bits. -/
theorem getSerializeSize_live_iff (live : coins.isPruned = false) :
    coins.getSerializeSize = coins.serialize.map List.length ↔
      coins.SameWidth ∧ coins.Countable := by
  rw [length_serialize live, getSerializeSize_live live, Option.some.injEq, sizeCode_eq,
    headerCode_eq]
  unfold SameWidth Countable
  have sizeFits : (8 * coins.codeCount + coins.codeFlags) % 2 ^ 32 < 2 ^ 32 :=
    Nat.mod_lt _ (by decide)
  have headerFits : (16 * coins.codeCount + coins.codeFlags) % 2 ^ 32 < 2 ^ 32 :=
    Nat.mod_lt _ (by decide)
  rw [← getSizeOfVarInt_eq_iff sizeFits headerFits]
  generalize (8 * coins.codeCount + coins.codeFlags) % 2 ^ 32 = sizeCode at sizeFits ⊢
  generalize (16 * coins.codeCount + coins.codeFlags) % 2 ^ 32 = headerCode at headerFits ⊢
  -- the two widths are at most five, so a wrap never makes up for a difference
  have measured := getSizeOfVarInt_le_five sizeFits
  have written := getSizeOfVarInt_le_five headerFits
  have measuredPos := getSizeOfVarInt_pos sizeCode
  have writtenPos := getSizeOfVarInt_pos headerCode
  constructor
  · intro same
    omega
  · rintro ⟨same, fits⟩
    omega

end CCoins

/-- **When the measured size is right.** `GetSerializeSize` returns the number of bytes that
`Serialize` writes exactly when the entry has no unspent output (both assert), or no width ends
between the two header codes and an `unsigned int` counts the bytes. -/
theorem getSerializeSize_eq_iff [Secp256k1] (coins : CCoins) :
    coins.getSerializeSize = coins.serialize.map List.length ↔
      coins.isPruned = true ∨ (coins.SameWidth ∧ coins.Countable) := by
  cases pruned : coins.isPruned with
  | true =>
    obtain ⟨measured, written⟩ := CCoins.getSerializeSize_pruned pruned
    rw [measured, written]
    exact iff_of_true rfl (.inl rfl)
  | false =>
    rw [CCoins.getSerializeSize_live_iff pruned]
    simp only [Bool.false_eq_true, false_or]

section

attribute [local instance] noKeys

/-- An entry of 66 unspent outputs takes a byte more than what is measured. -/
theorem manyOutputs_mismeasured :
    (manyOutputs 66).getSerializeSize ≠ (manyOutputs 66).serialize.map List.length := by
  have live : (manyOutputs 66).isPruned = false := by decide
  have mask : (manyOutputs 66).calcMaskSize = (8, 8) := CCoins.manyOutputs_maskSize 8
  intro same
  have width := ((CCoins.getSerializeSize_live_iff live).mp same).1 0 (by decide)
  rw [← CCoins.sizeCode_eq, ← CCoins.headerCode_eq, mask] at width
  have sizeCode : (manyOutputs 66).sizeCode 8 = 76 := by decide
  have headerCode : (manyOutputs 66).headerCode 8 = 140 := by decide
  rw [sizeCode, headerCode] at width
  exact absurd (width.mp (by decide)) (by decide)

end

end Agouti
