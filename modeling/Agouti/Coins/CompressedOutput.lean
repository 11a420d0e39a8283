import Agouti.Coins.CoinsCodec
import Agouti.Library.Checked
import Agouti.Primitives.Params

/-! # Outputs in the money range

The compact form gives back every output whose value is in the money range
(`compressed_output`), and the arithmetic on such amounts never leaves 64 bits:
`CompressAmount` and `DecompressAmount` give the same results with every operation
checked. The size in front of a script is a 32-bit number, so a script of `2 ^ 32 - 6`
bytes is read back as another one (`compressed_output_long`).
-/

namespace Agouti

open Reader List Option CTxOutCompressor

namespace CTxOutCompressor

/-- `CompressAmount` with its assertion and the range of each operation checked. -/
def compressAmountChecked (n : Nat) : Option Nat :=
  if n = 0 then some 0
  else
    let (n, e) := dropZeros 9 n
    if e < 9 then
      let d := n % 10
      if 1 ≤ d ∧ d ≤ 9 then do
        let n := n / 10
        let scaled ← Checked.mul (2 ^ 64) n 9
        let digits ← Checked.add (2 ^ 64) scaled d
        let code ← Checked.sub digits 1
        let shifted ← Checked.mul (2 ^ 64) code 10
        let counted ← Checked.add (2 ^ 64) 1 shifted
        Checked.add (2 ^ 64) counted e
      else none
    else do
      let code ← Checked.sub n 1
      let shifted ← Checked.mul (2 ^ 64) code 10
      let counted ← Checked.add (2 ^ 64) 1 shifted
      Checked.add (2 ^ 64) counted 9

/-- `DecompressAmount` with the range of each operation checked. -/
def decompressAmountChecked (x : Nat) : Option Nat :=
  if x = 0 then some 0
  else do
    let x ← Checked.sub x 1
    let e := x % 10
    let x := x / 10
    let n ←
      if e < 9 then do
        let d := x % 9 + 1
        let shifted ← Checked.mul (2 ^ 64) (x / 9) 10
        Checked.add (2 ^ 64) shifted d
      else Checked.add (2 ^ 64) x 1
    Checked.scale (2 ^ 64) 10 e n

theorem dropZeros_cases {n : Nat} (positive : 0 < n) :
    ∃ m e, dropZeros 9 n = (m, e) ∧ n = m * 10 ^ e ∧ 0 < m ∧ m ≤ n ∧
      (e < 9 ∧ m % 10 ≠ 0 ∧ (e = 0 ∨ m * 10 ≤ n) ∨ e = 9 ∧ m * 10 ≤ n) := by
  obtain ⟨value, bound, digit⟩ := dropZeros_spec 9 n
  generalize dropZeros 9 n = stripped at value bound digit
  obtain ⟨m, e⟩ := stripped
  simp only at value bound digit
  have left : 0 < m := by
    refine Nat.pos_of_ne_zero fun none => ?_
    rw [none, Nat.zero_mul] at value
    omega
  have tenfold : e ≠ 0 → m * 10 ≤ n := by
    intro some
    rw [value]
    exact Nat.mul_le_mul_left m (Nat.le_self_pow some 10)
  have least : m ≤ n := by
    rw [value]
    exact Nat.le_mul_of_pos_right m (Nat.pow_pos (by decide))
  refine ⟨m, e, rfl, value, left, least, ?_⟩
  by_cases few : e < 9
  · refine .inl ⟨few, digit few, ?_⟩
    by_cases none : e = 0
    · exact .inl none
    · exact .inr (tenfold none)
  · exact .inr ⟨by omega, tenfold (by omega)⟩

theorem compressAmountChecked_eq {n : Nat} (fits : 9 * n < 2 ^ 64) :
    compressAmountChecked n = some (compressAmount n) := by
  unfold compressAmountChecked compressAmount
  by_cases zero : n = 0
  · rw [if_pos zero, if_pos zero]
  obtain ⟨m, e, dropped, value, left, least, form⟩ := dropZeros_cases (Nat.pos_of_ne_zero zero)
  rw [if_neg zero, if_neg zero, dropped]
  simp only
  rcases form with ⟨few, digit, room⟩ | ⟨all, room⟩
  · have result : 1 + (m / 10 * 9 + m % 10 - 1) * 10 + e < 2 ^ 64 := by omega
    rw [if_pos few, if_pos few, if_pos (by omega)]
    simp only [bind_eq_bind]
    rw [Checked.mul_of_lt (by omega), bind_some, Checked.add_of_lt (by omega),
      bind_some, Checked.sub_of_le (by omega), bind_some,
      Checked.mul_of_lt (by omega), bind_some, Checked.add_of_lt (by omega),
      bind_some, Checked.add_of_lt result, Nat.mod_eq_of_lt result]
  · have result : 1 + (m - 1) * 10 + 9 < 2 ^ 64 := by omega
    rw [if_neg (by omega), if_neg (by omega)]
    simp only [bind_eq_bind]
    rw [Checked.sub_of_le (by omega), bind_some, Checked.mul_of_lt (by omega),
      bind_some, Checked.add_of_lt (by omega), bind_some, Checked.add_of_lt result,
      Nat.mod_eq_of_lt result]

theorem decompressAmountChecked_eq {n : Nat} (fits : 9 * n < 2 ^ 64) :
    decompressAmountChecked (compressAmount n) = some n := by
  unfold compressAmount
  by_cases zero : n = 0
  · rw [if_pos zero, zero]
    rfl
  obtain ⟨m, e, dropped, value, left, least, form⟩ := dropZeros_cases (Nat.pos_of_ne_zero zero)
  have scaled : Checked.scale (2 ^ 64) 10 e m = some n := by
    rw [value]
    exact Checked.scale_of_lt (by decide) e (by omega)
  rw [if_neg zero, dropped]
  simp only
  unfold decompressAmountChecked
  rcases form with ⟨few, digit, room⟩ | ⟨all, room⟩
  · have small : 1 + (m / 10 * 9 + m % 10 - 1) * 10 + e < 2 ^ 64 := by omega
    rw [if_pos few, Nat.mod_eq_of_lt small, if_neg (by omega)]
    have exponent : (1 + (m / 10 * 9 + m % 10 - 1) * 10 + e - 1) % 10 = e := by omega
    have upper : (1 + (m / 10 * 9 + m % 10 - 1) * 10 + e - 1) / 10 / 9 = m / 10 := by omega
    have lower : (1 + (m / 10 * 9 + m % 10 - 1) * 10 + e - 1) / 10 % 9 + 1 = m % 10 := by omega
    have digits : m / 10 * 10 + m % 10 = m := by omega
    simp only [bind_eq_bind]
    rw [Checked.sub_of_le (by omega), bind_some, exponent, if_pos few, upper, lower,
      Checked.mul_of_lt (by omega), bind_some, Checked.add_of_lt (by omega), digits,
      bind_some, scaled]
  · have small : 1 + (m - 1) * 10 + 9 < 2 ^ 64 := by omega
    rw [if_neg (by omega : ¬e < 9), Nat.mod_eq_of_lt small, if_neg (by omega)]
    have exponent : (1 + (m - 1) * 10 + 9 - 1) % 10 = 9 := by omega
    have rest : (1 + (m - 1) * 10 + 9 - 1) / 10 + 1 = m := by omega
    simp only [bind_eq_bind]
    rw [Checked.sub_of_le (by omega), bind_some, exponent, if_neg (lt_irrefl 9),
      Checked.add_of_lt (by omega), rest, bind_some, ← all, scaled]

theorem compressAmount_injOn (bound : Nat) (fits : 9 * bound < 2 ^ 64) :
    Set.InjOn compressAmount (Set.Iic bound) := by
  intro first low second high same
  rw [Set.mem_Iic] at low high
  rw [← decompressAmount_compressAmount (n := first) (by omega), same,
    decompressAmount_compressAmount (by omega)]

end CTxOutCompressor

/-- **Outputs are read back.** For every value in the money range (no network's is larger
than `43199500` coins), every script of fewer than `2 ^ 32 - 6` bytes and
unset rounds, the compact form of the output gives it back; amounts in that range pass
through `CompressAmount` and back, no two of them have one compressed form, and no
operation on them leaves 64 bits. -/
theorem compressed_output [ChainParams] [Secp256k1] (curve : Secp256k1.Decompresses)
    (supply : nMaxMoneyOut ≤ 43199500 * COIN) :
    (∀ txout : CTxOut, moneyRange txout.nValue = true → txout.nRounds = CTxOut.null.nRounds →
      txout.scriptPubKey.length + CScriptCompressor.nSpecialScripts < 2 ^ 32 →
        Reads unserialize (serialize txout) txout) ∧
    (∀ n : Nat, moneyRange n = true →
      decompressAmount (compressAmount n) = n ∧
        compressAmountChecked n = some (compressAmount n) ∧
        decompressAmountChecked (compressAmount n) = some n) ∧
    Set.InjOn compressAmount {n : Nat | moneyRange n = true} := by
  have range : ∀ nValue : Int, moneyRange nValue = true →
      0 ≤ nValue ∧ nValue ≤ 4319950000000000 ∧ 9 * nValue < 2 ^ 64 := by
    intro nValue ranged
    rw [moneyRange, Bool.and_eq_true, decide_eq_true_eq, decide_eq_true_eq] at ranged
    have most : nValue ≤ (4319950000000000 : Int) := le_trans ranged.2 supply
    exact ⟨ranged.1, most, by omega⟩
  refine ⟨?_, ?_, ?_⟩
  · intro txout ranged rounds size
    obtain ⟨nonneg, -, fits⟩ := range _ ranged
    have form : txout.Compressible := ⟨nonneg, fits, size, rounds⟩
    have read : Reads unserialize (serialize txout)
        (reread txout) :=
      reads_reread curve size
    rwa [form.reread] at read
  · intro n ranged
    have fits : 9 * n < 2 ^ 64 := by
      have scaled := (range _ ranged).2.2
      omega
    exact ⟨decompressAmount_compressAmount fits,
      compressAmountChecked_eq fits,
      decompressAmountChecked_eq fits⟩
  · refine (compressAmount_injOn 4319950000000000 (by decide)).mono ?_
    intro n ranged
    exact Int.ofNat_le.mp (range _ ranged).2.1

def generatorX : List UInt8 :=
  [0x79, 0xbe, 0x66, 0x7e, 0xf9, 0xdc, 0xbb, 0xac, 0x55, 0xa0, 0x62,
    0x95, 0xce, 0x87, 0x0b, 0x07, 0x02, 0x9b, 0xfc, 0xdb, 0x2d, 0xce,
    0x28, 0xd9, 0x59, 0xf2, 0x81, 0x5b, 0x16, 0xf8, 0x17, 0x98]

/-- The second coordinate of the generator. -/
def generatorY : List UInt8 :=
  [0x48, 0x3a, 0xda, 0x77, 0x26, 0xa3, 0xc4, 0x65, 0x5d, 0xa4, 0xfb,
    0xfc, 0x0e, 0x11, 0x08, 0xa8, 0xfd, 0x17, 0xb4, 0x48, 0xa6, 0x85,
    0x54, 0x19, 0x9c, 0x47, 0xd0, 0x8f, 0xfb, 0x10, 0xd4, 0xb8]

/-- The curve library on the public key of the private key 1. -/
@[reducible] def generatorCurve : Secp256k1 where
  isFullyValid key := key == 4 :: generatorX ++ generatorY
  decompress key := if key = 2 :: generatorX then some (4 :: generatorX ++ generatorY) else none

theorem generatorCurve_decompresses : generatorCurve.Decompresses := by
  intro x y last xSize ySize valid
  have whole : 4 :: x ++ (y ++ [last]) = 4 :: generatorX ++ generatorY := by
    rw [← append_assoc]
    exact eq_of_beq valid
  obtain ⟨first, second⟩ := append_inj whole (by rw [length_cons, xSize]; rfl)
  have parity : last = 0xb8 := by
    have ends := congrArg List.getLast? second
    rw [List.getLast?_concat] at ends
    exact some.inj ends
  rw [append_assoc, whole, List.cons.inj first |>.2, parity]
  rfl

def generatorOutput : CTxOut :=
  { nValue := 5 * COIN,
    scriptPubKey := [65] ++ (4 :: generatorX ++ generatorY) ++ [CScript.OP_CHECKSIG] }

/-- The output takes 34 bytes: a digit for the amount, the parity and a coordinate. -/
theorem compressed_output_generator :
    Reads (@unserialize generatorCurve) (49 :: 4 :: generatorX) generatorOutput ∧
      decompressAmount (compressAmount 500000000) =
        500000000 := by
  have main := @compressed_output mainParams generatorCurve generatorCurve_decompresses (by decide)
  refine ⟨?_, (main.2.1 500000000 (by decide)).1⟩
  have bytes : @serialize generatorCurve generatorOutput =
      49 :: 4 :: generatorX := by
    have amount : writeVarInt 49 = [49] := by
      rw [writeVarInt, varIntLoop]
      rfl
    have script : @CScriptCompressor.serialize generatorCurve generatorOutput.scriptPubKey =
        4 :: generatorX := by
      have special : @CScriptCompressor.compress generatorCurve generatorOutput.scriptPubKey =
          some (4 :: generatorX) := by
        decide +kernel
      unfold CScriptCompressor.serialize
      rw [special]
    unfold serialize
    rw [script]
    exact congrArg (· ++ 4 :: generatorX) amount
  rw [← bytes]
  exact main.1 generatorOutput (by decide) rfl (by decide)

def longOutput (size : Nat) : CTxOut := { nValue := COIN, scriptPubKey := List.replicate size 0 }

namespace CScriptCompressor

theorem compress_zeros [Secp256k1] (size : Nat) : compress (List.replicate size 0) = none := by
  have first : ∀ {code : UInt8}, code ≠ 0 → (List.replicate size (0 : UInt8))[0]? ≠ some code := by
    intro code nonzero found
    rw [List.getElem?_replicate] at found
    split at found
    · exact nonzero (some.inj found).symm
    · contradiction
  have notKeyID : isToKeyID (List.replicate size 0) = none :=
    if_neg fun shape => first (by decide) shape.2.1
  have notScriptID : isToScriptID (List.replicate size 0) = none :=
    if_neg fun shape => first (by decide) shape.2.1
  have notPubKey : isToPubKey (List.replicate size 0) = none := by
    rw [isToPubKey, if_neg fun shape => first (by decide) shape.2.1,
      if_neg fun shape => first (by decide) shape.2.1]
  rw [compress, notKeyID, notScriptID, notPubKey]

theorem not_reads_long [Secp256k1] (size : Nat) (wraps : size = 2 ^ 32 - 6) :
    ¬Reads unserialize (serialize (List.replicate size 0)) (List.replicate size 0) := by
  intro read
  have written : serialize (List.replicate size 0) = writeVarInt 0 ++ List.replicate size 0 := by
    rw [serialize, compress_zeros, length_replicate, wraps]
    rfl
  obtain ⟨rest, split⟩ : ∃ rest, size = 20 + rest := ⟨size - 20, by omega⟩
  have bytes : List.replicate size (0 : UInt8) =
      List.replicate 20 0 ++ List.replicate rest 0 := by
    rw [split, replicate_add]
  have given := read []
  rw [written, append_nil, bytes] at given
  have result : (unserialize).run (writeVarInt 0 ++
      (List.replicate 20 0 ++ List.replicate rest 0)) =
      some ((decompress 0 (List.replicate 20 0)).getD [], List.replicate rest 0) := by
    unfold unserialize
    rw [(reads_varInt (by decide)).run_bind, if_pos (by decide)]
    have hash : Reads (exactly (getSpecialSize 0)) (List.replicate 20 (0 : UInt8))
        (List.replicate 20 0) := reads_exactly (List.replicate 20 0)
    exact hash.run_bind (List.replicate rest 0)
  rw [result] at given
  have length := congrArg (fun pair => pair.1.length) (some.inj given)
  simp only [decompress, getD_some, length_append, length_cons, length_nil,
    length_replicate] at length
  omega

end CScriptCompressor

theorem CTxOutCompressor.not_reads_longOutput [Secp256k1] (size : Nat)
    (wraps : size = 2 ^ 32 - 6) :
    ¬Reads unserialize (serialize (longOutput size)) (longOutput size) := by
  intro read
  refine CScriptCompressor.not_reads_long size wraps fun rest => ?_
  have whole := read rest
  unfold serialize unserialize at whole
  rw [append_assoc, (reads_varInt (compressAmount_lt _)).run_bind] at whole
  obtain ⟨script, left, inner, last⟩ := of_run_bind whole
  rw [StateT.run_pure] at last
  have pair := some.inj last
  have same : script = List.replicate size 0 :=
    congrArg (fun pair => pair.1.scriptPubKey) pair
  have remains : left = rest := congrArg Prod.snd pair
  rw [same, remains] at inner
  exact inner

/-- A script of `2 ^ 32 - 6` bytes is not read back. -/
theorem compressed_output_long :
    ¬(∀ txout : CTxOut, @moneyRange mainParams txout.nValue = true →
      txout.nRounds = CTxOut.null.nRounds →
        Reads (@unserialize noKeys) (@serialize noKeys txout)
          txout) := by
  intro all
  exact @not_reads_longOutput noKeys (2 ^ 32 - 6) rfl (all _ (by decide) rfl)

end Agouti
