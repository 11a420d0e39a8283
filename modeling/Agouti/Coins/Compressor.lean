import Agouti.Primitives.VarInt
import Agouti.Primitives.Transaction
import Mathlib.Tactic.IntervalCases

/-! # The compact form of outputs

`CScriptCompressor` and `CTxOutCompressor` of `compressor.h`: standard scripts
shrink to a kind and their key or hash, other scripts are preceded by their size,
and amounts lose their trailing zeros. An output is read back when its amount is
not negative and its compressed amount fits 64 bits (`CTxOut.Compressible`).
-/

namespace Agouti

open Reader List Option

/-- The calls of the script compressor into the curve library (`CPubKey`). -/
class Secp256k1 where
  /-- `IsFullyValid` of a key with these bytes -/
  isFullyValid : List UInt8 → Bool
  /-- `Decompress` of a compressed key -/
  decompress : List UInt8 → Option (List UInt8)

/-- A point of the curve is determined by its first coordinate and the parity of
its second: compressing a valid key loses nothing. -/
def Secp256k1.Decompresses [Secp256k1] : Prop :=
  ∀ (x y : List UInt8) (last : UInt8), x.length = 32 → y.length = 31 →
    isFullyValid (4 :: x ++ y ++ [last]) = true →
      decompress ((2 ||| (last &&& 1)) :: x) = some (4 :: x ++ y ++ [last])

namespace CScriptCompressor

open CScript

def isToKeyID (script : CScript) : Option (List UInt8) :=
  if script.length = 25 ∧ script[0]? = some OP_DUP ∧ script[1]? = some OP_HASH160 ∧
      script[2]? = some 20 ∧ script[23]? = some OP_EQUALVERIFY ∧
      script[24]? = some OP_CHECKSIG then
    some ((script.drop 3).take 20)
  else none

def isToScriptID (script : CScript) : Option (List UInt8) :=
  if script.length = 23 ∧ script[0]? = some OP_HASH160 ∧ script[1]? = some 20 ∧
      script[22]? = some OP_EQUAL then
    some ((script.drop 2).take 20)
  else none

variable [Secp256k1]

def isToPubKey (script : CScript) : Option (List UInt8) :=
  if script.length = 35 ∧ script[0]? = some 33 ∧ script[34]? = some OP_CHECKSIG ∧
      (script[1]? = some 2 ∨ script[1]? = some 3) then
    some ((script.drop 1).take 33)
  else if script.length = 67 ∧ script[0]? = some 65 ∧ script[66]? = some OP_CHECKSIG ∧
      script[1]? = some 4 then
    let pubkey := (script.drop 1).take 65
    if Secp256k1.isFullyValid pubkey then some pubkey else none
  else none

def compress (script : CScript) : Option (List UInt8) :=
  match isToKeyID script with
  | some keyID => some (0 :: keyID)
  | none =>
    match isToScriptID script with
    | some scriptID => some (1 :: scriptID)
    | none =>
      match isToPubKey script with
      | some pubkey =>
        let header := pubkey.headD 0
        let x := (pubkey.drop 1).take 32
        if header = 2 ∨ header = 3 then some (header :: x)
        else if header = 4 then some ((4 ||| ((pubkey[64]?).getD 0 &&& 1)) :: x)
        else none
      | none => none

def getSpecialSize (nSize : Nat) : Nat :=
  if nSize = 0 ∨ nSize = 1 then 20
  else if nSize = 2 ∨ nSize = 3 ∨ nSize = 4 ∨ nSize = 5 then 32
  else 0

def decompress (nSize : Nat) (data : List UInt8) : Option CScript :=
  match nSize with
  | 0 => some ([OP_DUP, OP_HASH160, 20] ++ data ++ [OP_EQUALVERIFY, OP_CHECKSIG])
  | 1 => some ([OP_HASH160, 20] ++ data ++ [OP_EQUAL])
  | 2 | 3 => some ([33, UInt8.ofNat nSize] ++ data ++ [OP_CHECKSIG])
  | 4 | 5 =>
    (Secp256k1.decompress (UInt8.ofNat (nSize - 2) :: data)).map fun pubkey =>
      [65] ++ pubkey ++ [OP_CHECKSIG]
  | _ => none

def nSpecialScripts : Nat := 6

def serialize (script : CScript) : List UInt8 :=
  match compress script with
  | some compr => compr
  | none => writeVarInt ((script.length + nSpecialScripts) % 2 ^ 32) ++ script

/-- `CScriptCompressor::Unserialize` into an empty script. -/
def unserialize : Reader UInt8 CScript := do
  let nSize ← readVarInt 32
  if nSize < nSpecialScripts then
    let vch ← exactly (getSpecialSize nSize)
    return (decompress nSize vch).getD []
  else exactly (nSize - nSpecialScripts)

variable {script : CScript}

omit [Secp256k1] in
theorem framed (front back : CScript) (size : Nat)
    (length : script.length = front.length + size + back.length)
    (before : ∀ i < front.length, script[i]? = front[i]?)
    (after : ∀ i < back.length, script[front.length + size + i]? = back[i]?) :
    front ++ (script.drop front.length).take size ++ back = script := by
  apply ext_getElem?
  intro i
  by_cases first : i < front.length
  · rw [append_assoc, List.getElem?_append_left first, before i first]
  have middleLength : ((script.drop front.length).take size).length = size := by
    rw [length_take, length_drop]
    omega
  by_cases second : i < front.length + size
  · rw [List.getElem?_append_left (by rw [length_append, middleLength]; exact second),
      List.getElem?_append_right (by omega), List.getElem?_take_of_lt (by omega),
      List.getElem?_drop]
    congr 1
    omega
  · rw [List.getElem?_append_right (by rw [length_append, middleLength]; omega),
      length_append, middleLength]
    by_cases third : i < script.length
    · rw [← after (i - (front.length + size)) (by omega)]
      congr 1
      omega
    · rw [List.getElem?_eq_none (by omega), List.getElem?_eq_none (by omega)]

/-- The bytes are a special form of the script. -/
structure Compressed (script : CScript) (kind : Nat) (data : List UInt8) : Prop where
  special : kind < nSpecialScripts
  size : data.length = getSpecialSize kind
  expands : decompress kind data = some script

theorem isToKeyID_compressed {data : CScript} (found : isToKeyID script = some data) :
    Compressed script 0 data := by
  unfold isToKeyID at found
  split at found
  case isFalse => contradiction
  case isTrue shape =>
      obtain ⟨length, first, second, third, fourth, fifth⟩ := shape
      have before : ∀ i < [OP_DUP, OP_HASH160, 20].length,
          script[i]? = [OP_DUP, OP_HASH160, 20][i]? := by
        intro i (small : i < 3)
        interval_cases i <;> assumption
      have after : ∀ i < [OP_EQUALVERIFY, OP_CHECKSIG].length,
          script[3 + 20 + i]? = [OP_EQUALVERIFY, OP_CHECKSIG][i]? := by
        intro i (small : i < 2)
        interval_cases i <;> assumption
      rw [← some.inj found]
      refine ⟨by decide, ?_, congrArg some (framed _ _ 20 length before after)⟩
      rw [length_take, length_drop, length]
      rfl

theorem isToScriptID_compressed {data : CScript}
    (found : isToScriptID script = some data) : Compressed script 1 data := by
  unfold isToScriptID at found
  split at found
  case isFalse => contradiction
  case isTrue shape =>
      obtain ⟨length, first, second, third⟩ := shape
      have before : ∀ i < [OP_HASH160, 20].length, script[i]? = [OP_HASH160, 20][i]? := by
        intro i (small : i < 2)
        interval_cases i <;> assumption
      have after : ∀ i < [OP_EQUAL].length, script[2 + 20 + i]? = [OP_EQUAL][i]? := by
        intro i (small : i < 1)
        interval_cases i
        exact third
      rw [← some.inj found]
      refine ⟨by decide, ?_, congrArg some (framed _ _ 20 length before after)⟩
      rw [length_take, length_drop, length]
      rfl

theorem shortKey_compressed {kind : Nat} (known : kind = 2 ∨ kind = 3) (length : script.length = 35)
    (first : script[0]? = some 33) (last : script[34]? = some OP_CHECKSIG)
    (header : script[1]? = some (UInt8.ofNat kind)) :
    Compressed script kind ((script.drop 2).take 32) := by
  have before : ∀ i < [33, UInt8.ofNat kind].length,
      script[i]? = [33, UInt8.ofNat kind][i]? := by
    intro i (small : i < 2)
    interval_cases i <;> assumption
  have after : ∀ i < [OP_CHECKSIG].length, script[2 + 32 + i]? = [OP_CHECKSIG][i]? := by
    intro i (small : i < 1)
    interval_cases i
    exact last
  have whole := framed _ _ 32 length before after
  have sized : ((script.drop 2).take 32).length = 32 := by
    rw [length_take, length_drop, length]
    rfl
  rcases known with rfl | rfl
  · exact ⟨by decide, sized, congrArg some whole⟩
  · exact ⟨by decide, sized, congrArg some whole⟩

omit [Secp256k1] in
theorem lowBit (parity : UInt8) : parity &&& 1 = 0 ∨ parity &&& 1 = 1 := by
  have remainder : (parity &&& 1).toNat = parity.toNat % 2 := by
    rw [UInt8.toNat_and]
    exact Nat.and_one_is_mod _
  rcases Nat.mod_two_eq_zero_or_one parity.toNat with even | odd
  · exact .inl (UInt8.toNat_inj.mp (remainder.trans even))
  · exact .inr (UInt8.toNat_inj.mp (remainder.trans odd))

theorem longKey_compressed (curve : Secp256k1.Decompresses) {x y : List UInt8} {parity : UInt8}
    (xSize : x.length = 32) (ySize : y.length = 31)
    (valid : Secp256k1.isFullyValid (4 :: x ++ y ++ [parity]) = true) :
    Compressed ([65] ++ (4 :: x ++ y ++ [parity]) ++ [OP_CHECKSIG])
      (4 ||| (parity &&& 1)).toNat x := by
  have point := curve x y parity xSize ySize valid
  rcases lowBit parity with even | odd
  · rw [even] at point ⊢
    refine ⟨by decide, xSize, ?_⟩
    exact congrArg (Option.map fun pubkey => [65] ++ pubkey ++ [OP_CHECKSIG]) point
  · rw [odd] at point ⊢
    refine ⟨by decide, xSize, ?_⟩
    exact congrArg (Option.map fun pubkey => [65] ++ pubkey ++ [OP_CHECKSIG]) point

omit [Secp256k1] in
theorem longKey_parts (length : script.length = 67) (first : script[0]? = some 65)
    (last : script[66]? = some OP_CHECKSIG) (header : script[1]? = some 4) :
    ∃ (x y : List UInt8) (parity : UInt8), x.length = 32 ∧ y.length = 31 ∧
      script = [65] ++ (4 :: x ++ y ++ [parity]) ++ [OP_CHECKSIG] := by
  have before : ∀ i < [65, 4].length, script[i]? = ([65, 4] : CScript)[i]? := by
    intro i (small : i < 2)
    interval_cases i <;> assumption
  have after : ∀ i < [OP_CHECKSIG].length, script[2 + 64 + i]? = [OP_CHECKSIG][i]? := by
    intro i (small : i < 1)
    interval_cases i
    exact last
  have whole := framed [65, 4] [OP_CHECKSIG] 64 length before after
  have sized : ((script.drop 2).take 64).length = 64 := by
    rw [length_take, length_drop, length]
    rfl
  generalize (script.drop 2).take 64 = point at whole sized
  refine ⟨point.take 32, (point.drop 32).take 31, point.get ⟨63, by omega⟩, by simp [sized],
    by simp [sized], ?_⟩
  have lastByte : point.drop 63 = [point.get ⟨63, by omega⟩] := by
    rw [drop_eq_getElem_cons (by omega), drop_eq_nil_of_le (by omega),
      get_eq_getElem]
  have joined : point.take 32 ++ (point.drop 32).take 31 ++ [point.get ⟨63, by omega⟩] = point := by
    rw [← lastByte, append_assoc]
    conv_rhs => rw [← take_append_drop 32 point, ← take_append_drop 31 (point.drop 32)]
    rw [drop_drop]
  rw [← whole]
  simp only [cons_append, nil_append, joined]

omit [Secp256k1] in
theorem keyBytes (script : CScript) (size : Nat) (enough : 32 ≤ size) :
    (((script.drop 1).take (size + 1)).drop 1).take 32 = (script.drop 2).take 32 := by
  rw [drop_take, take_take, drop_drop, Nat.add_sub_cancel, Nat.min_eq_left enough]

omit [Secp256k1] in
theorem keyHeader {header : UInt8} (size : Nat)
    (found : script[1]? = some header) : ((script.drop 1).take (size + 1)).headD 0 = header := by
  rw [List.headD_eq_head?_getD, List.head?_take, if_neg (Nat.succ_ne_zero size), List.head?_drop,
    found]
  rfl

theorem compress_compressed (curve : Secp256k1.Decompresses) {compr : CScript}
    (found : compress script = some compr) :
    ∃ kind data, compr = UInt8.ofNat kind :: data ∧ Compressed script kind data := by
  unfold compress at found
  split at found
  case h_1 keyID isKeyID =>
      exact ⟨0, keyID, (some.inj found).symm, isToKeyID_compressed isKeyID⟩
  case h_2 =>
  split at found
  case h_1 scriptID isScriptID =>
      exact ⟨1, scriptID, (some.inj found).symm, isToScriptID_compressed isScriptID⟩
  case h_2 =>
  split at found
  case h_2 => contradiction
  case h_1 pubkey isPubKey =>
  unfold isToPubKey at isPubKey
  split at isPubKey
  case isTrue short =>
      obtain ⟨length, first, last, header⟩ := short
      rw [← some.inj isPubKey] at found
      simp only [keyBytes script 32 le_rfl] at found
      rcases header with two | three
      · rw [keyHeader 32 two] at found
        exact ⟨2, _, (some.inj found).symm, shortKey_compressed (.inl rfl) length first last two⟩
      · rw [keyHeader 32 three] at found
        exact ⟨3, _, (some.inj found).symm, shortKey_compressed (.inr rfl) length first last three⟩
  case isFalse =>
  split at isPubKey
  case isFalse => contradiction
  case isTrue long =>
      obtain ⟨length, first, last, header⟩ := long
      obtain ⟨x, y, parity, xSize, ySize, whole⟩ := longKey_parts length first last header
      have point : (script.drop 1).take 65 = 4 :: x ++ y ++ [parity] := by
        have size : (4 :: x ++ y ++ [parity]).length = 65 := by simp [xSize, ySize]
        rw [whole, append_assoc, singleton_append, drop_one, tail_cons, ← size,
          take_left]
      have odd : (4 :: x ++ y ++ [parity] : CScript)[64]? = some parity := by
        rw [List.getElem?_append_right (by simp [xSize, ySize])]
        simp [xSize, ySize]
      have coordinate : ((4 :: x ++ y ++ [parity] : CScript).drop 1).take 32 = x := by
        simp [xSize]
      simp only [point] at isPubKey
      split at isPubKey
      case isFalse => contradiction
      case isTrue valid =>
          rw [← some.inj isPubKey] at found
          simp only [coordinate, odd] at found
          refine ⟨(4 ||| (parity &&& 1)).toNat, x, ?_, ?_⟩
          · rw [UInt8.ofNat_toNat]
            exact (some.inj found).symm
          · rw [whole]
            exact longKey_compressed curve xSize ySize valid

/-- **Scripts are read back.** -/
theorem reads_script (curve : Secp256k1.Decompresses)
    (fits : script.length + nSpecialScripts < 2 ^ 32) :
    Reads unserialize (serialize script) script := by
  unfold serialize unserialize
  cases found : compress script with
  | some compr =>
    obtain ⟨kind, data, rfl, special, size, expands⟩ := compress_compressed curve found
    have digit : writeVarInt kind = [UInt8.ofNat kind] := by
      have low : kind &&& 0x7f = kind := by
        rw [Nat.and_two_pow_sub_one_eq_mod kind 7]
        exact Nat.mod_eq_of_lt (by unfold nSpecialScripts at special; omega)
      rw [writeVarInt, varIntLoop, if_pos (by unfold nSpecialScripts at special; omega), low]
      simp
    have head : Reads (readVarInt 32) (writeVarInt kind) kind :=
      reads_varInt (by unfold nSpecialScripts at special; omega)
    rw [digit] at head
    have body := (size ▸ reads_exactly data : Reads (exactly (getSpecialSize kind)) data data)
    have result := body.map fun vch => (decompress kind vch).getD []
    rw [expands] at result
    refine head.bind ?_
    rw [if_pos special]
    exact result
  | none =>
    rw [Nat.mod_eq_of_lt fits]
    refine (reads_varInt fits).bind ?_
    rw [if_neg (by omega), Nat.add_sub_cancel]
    exact reads_exactly script

end CScriptCompressor

namespace CTxOutCompressor

/-- The loop of `CompressAmount`: at most `count` trailing zeros are dropped. -/
def dropZeros : Nat → Nat → Nat × Nat
  | 0, n => (n, 0)
  | count + 1, n =>
    if n % 10 = 0 then
      let (n, e) := dropZeros count (n / 10)
      (n, e + 1)
    else (n, 0)

def compressAmount (n : Nat) : Nat :=
  if n = 0 then 0
  else
    let (n, e) := dropZeros 9 n
    if e < 9 then
      let d := n % 10
      let n := n / 10
      (1 + (n * 9 + d - 1) * 10 + e) % 2 ^ 64
    else (1 + (n - 1) * 10 + 9) % 2 ^ 64

def decompressAmount (x : Nat) : Nat :=
  if x = 0 then 0
  else
    let x := x - 1
    let e := x % 10
    let x := x / 10
    let n := if e < 9 then x / 9 * 10 + (x % 9 + 1) else x + 1
    (n * 10 ^ e) % 2 ^ 64

theorem dropZeros_spec (count n : Nat) :
    n = (dropZeros count n).1 * 10 ^ (dropZeros count n).2 ∧ (dropZeros count n).2 ≤ count ∧
      ((dropZeros count n).2 < count → (dropZeros count n).1 % 10 ≠ 0) := by
  induction count generalizing n with
  | zero => simp [dropZeros]
  | succ count ih =>
    by_cases zero : n % 10 = 0
    · obtain ⟨value, bound, digit⟩ := ih (n / 10)
      simp only [dropZeros, if_pos zero]
      refine ⟨?_, by omega, fun below => digit (by omega)⟩
      calc n = n / 10 * 10 := by omega
        _ = _ := by rw [pow_succ, ← Nat.mul_assoc, ← value]
    · simp [dropZeros, zero]

/-- **Amounts are read back** when their compressed form cannot exceed 64 bits. -/
theorem decompressAmount_compressAmount {n : Nat} (fits : 9 * n < 2 ^ 64) :
    decompressAmount (compressAmount n) = n := by
  by_cases zero : n = 0
  · rw [zero]
    rfl
  obtain ⟨value, bound, digit⟩ := dropZeros_spec 9 n
  unfold compressAmount
  rw [if_neg zero]
  generalize dropZeros 9 n = stripped at value bound digit
  obtain ⟨m, e⟩ := stripped
  simp only at value bound digit ⊢
  have positive : 0 < m := by
    refine Nat.pos_of_ne_zero fun none => zero ?_
    rw [value, none, Nat.zero_mul]
  by_cases few : e < 9
  · have notZero := digit few
    -- a number with a trailing zero dropped is at least ten times what is left
    have room : e = 0 ∧ n = m ∨ m * 10 ≤ n := by
      rcases Nat.eq_zero_or_pos e with none | some
      · refine .inl ⟨none, ?_⟩
        rw [value, none, pow_zero, Nat.mul_one]
      · refine .inr ?_
        rw [value]
        exact Nat.mul_le_mul_left m (Nat.le_self_pow (by omega) 10)
    have small : 1 + (m / 10 * 9 + m % 10 - 1) * 10 + e < 2 ^ 64 := by omega
    have exponent : (1 + (m / 10 * 9 + m % 10 - 1) * 10 + e - 1) % 10 = e := by omega
    have rest : (1 + (m / 10 * 9 + m % 10 - 1) * 10 + e - 1) / 10 = m / 10 * 9 + m % 10 - 1 := by
      omega
    have digits : (m / 10 * 9 + m % 10 - 1) / 9 * 10 + ((m / 10 * 9 + m % 10 - 1) % 9 + 1) = m := by
      omega
    rw [if_pos few, Nat.mod_eq_of_lt small, decompressAmount, if_neg (by omega)]
    simp only [exponent, rest, if_pos few, digits]
    rw [← value, Nat.mod_eq_of_lt (by omega)]
  · have all : e = 9 := by omega
    rw [all] at value
    have small : 1 + (m - 1) * 10 + 9 < 2 ^ 64 := by omega
    have exponent : (1 + (m - 1) * 10 + 9 - 1) % 10 = 9 := by omega
    have rest : (1 + (m - 1) * 10 + 9 - 1) / 10 + 1 = m := by omega
    rw [if_neg few, Nat.mod_eq_of_lt small, decompressAmount, if_neg (by omega)]
    simp only [exponent, lt_irrefl, if_false, rest]
    rw [← value, Nat.mod_eq_of_lt (by omega)]

theorem compressAmount_lt (n : Nat) : compressAmount n < 2 ^ 64 := by
  unfold compressAmount
  have modulus : 0 < 2 ^ 64 := by decide
  split
  · exact modulus
  · by_cases few : (dropZeros 9 n).2 < 9
    · simp only [few, ↓reduceIte]
      exact Nat.mod_lt _ modulus
    · simp only [few, ↓reduceIte]
      exact Nat.mod_lt _ modulus

variable [Secp256k1]

/-- `CTxOutCompressor::SerializationOp` for writing. -/
def serialize (txout : CTxOut) : List UInt8 :=
  writeVarInt (compressAmount (txout.nValue % 2 ^ 64).toNat) ++
    CScriptCompressor.serialize txout.scriptPubKey

/-- `CTxOutCompressor::SerializationOp` for reading into an empty output. -/
def unserialize : Reader UInt8 CTxOut := do
  let nVal ← readVarInt 64
  let scriptPubKey ← CScriptCompressor.unserialize
  return { CTxOut.null with
    nValue := (decompressAmount nVal : Int).bmod (2 ^ 64), scriptPubKey := scriptPubKey }

def reread (txout : CTxOut) : CTxOut :=
  { CTxOut.null with
    nValue := (decompressAmount (compressAmount (txout.nValue % 2 ^ 64).toNat) : Int).bmod (2 ^ 64)
    scriptPubKey := txout.scriptPubKey }

theorem reads_reread (curve : Secp256k1.Decompresses) {txout : CTxOut}
    (fits : txout.scriptPubKey.length + CScriptCompressor.nSpecialScripts < 2 ^ 32) :
    Reads unserialize (serialize txout) (reread txout) := by
  refine (reads_varInt (compressAmount_lt _)).bind ?_
  rw [← append_nil (CScriptCompressor.serialize txout.scriptPubKey)]
  exact (CScriptCompressor.reads_script curve fits).bind (reads_pure _)

end CTxOutCompressor

/-- An output as the chain makes them: its amount is not negative and fits its
compressed form, its size fits the header and its rounds are unset. -/
structure CTxOut.Compressible (txout : CTxOut) : Prop where
  nonneg : 0 ≤ txout.nValue
  amount : 9 * txout.nValue < 2 ^ 64
  size : txout.scriptPubKey.length + CScriptCompressor.nSpecialScripts < 2 ^ 32
  rounds : txout.nRounds = CTxOut.null.nRounds

/-- A non-negative value passes through the unsigned type and back. -/
theorem reinterpret {n : Int} (nonneg : 0 ≤ n) (amount : 9 * n < 2 ^ 64) :
    9 * (n % 2 ^ 64).toNat < 2 ^ 64 ∧ ((n % 2 ^ 64).toNat : Int).bmod (2 ^ 64) = n := by
  have unsigned : n % 2 ^ 64 = n := by
    apply Int.emod_eq_of_lt nonneg
    omega
  rw [unsigned, Int.toNat_of_nonneg nonneg, Int.bmod_eq_of_le]
  · omega
  · omega
  · omega

theorem CTxOut.Compressible.reread {txout : CTxOut} (form : txout.Compressible) :
    CTxOutCompressor.reread txout = txout := by
  obtain ⟨fits, same⟩ := reinterpret form.nonneg form.amount
  unfold CTxOutCompressor.reread
  rw [CTxOutCompressor.decompressAmount_compressAmount fits, same]
  exact congrArg (CTxOut.mk txout.nValue txout.scriptPubKey) form.rounds.symm

end Agouti
