import Agouti.Library.Radix
import Agouti.Primitives.CString
import Agouti.Primitives.Serialize

/-! # Base 58

`EncodeBase58` and `DecodeBase58` of `base58.cpp`: the bytes behind the leading zero bytes are the
digits of a number in base 256, which is converted to base 58 and back in a buffer whose length
comes from a rational bound of the ratio of the logarithms (`encodeRoom`, `decodeRoom`). The buffer
always suffices, and both functions are inverse to each other up to the spaces around a string as
long as the leading zeros can be counted in an `int` (`base58_roundTrip`).
-/

namespace Agouti

open List Serialize

/-- How a conversion goes wrong. -/
inductive Base58Fault where
  /-- `assert(carry == 0)` fails -/
  | carryLeft
  /-- `zeroes++` at the greatest `int` -/
  | zeroesOverflow
  deriving DecidableEq, Repr

namespace Base58

/-- `pszBase58`: all alphanumeric characters except for `0`, `I`, `O` and `l`. -/
def pszBase58 : List UInt8 :=
  ['1', '2', '3', '4', '5', '6', '7', '8', '9', 'A', 'B', 'C', 'D', 'E', 'F', 'G', 'H', 'J', 'K',
    'L', 'M', 'N', 'P', 'Q', 'R', 'S', 'T', 'U', 'V', 'W', 'X', 'Y', 'Z', 'a', 'b', 'c', 'd', 'e',
    'f', 'g', 'h', 'i', 'j', 'k', 'm', 'n', 'o', 'p', 'q', 'r', 's', 't', 'u', 'v', 'w', 'x', 'y',
    'z'].map fun c => UInt8.ofNat c.toNat

/-- The character `1`, the digit zero. -/
def oneChar : UInt8 := 0x31

/-- `strchr(pszBase58, c) - pszBase58`. -/
def digitOf (c : UInt8) : Option Nat := pszBase58.idxOf? c

/-- `pszBase58[digit]`. -/
def charOf (digit : Nat) : UInt8 := pszBase58.getD digit 0

/-- The loop of `EncodeBase58`. -/
def encodeLoop : List Nat → List UInt8 → Except Base58Fault (List Nat)
  | b58, [] => .ok b58
  | b58, byte :: rest =>
    let scaled := Radix.scale 58 256 b58 byte.toNat
    if scaled.2 ≠ 0 then .error .carryLeft else encodeLoop scaled.1 rest

/-- How often a list begins with a character. -/
def leading (first : UInt8) (chars : List UInt8) : Nat := (chars.takeWhile (· == first)).length

/-- The loop that counts the leading zeros. -/
def countZeroes (first : UInt8) (chars : List UInt8) : Except Base58Fault Nat :=
  if leading first chars < 2 ^ 31 then .ok (leading first chars) else .error .zeroesOverflow

def encodeBase58 (vch : List UInt8) : Except Base58Fault (List UInt8) := do
  let zeroes ← countZeroes 0 vch
  let rest := vch.dropWhile (· == 0)
  let b58 ← encodeLoop (List.replicate (rest.length * 138 / 100 + 1) 0) rest
  .ok (List.replicate zeroes oneChar ++ (b58.dropWhile (· == 0)).map charOf)

/-- The loop of `DecodeBase58` up to a space or the end: the buffer and what is left; nothing when it
returns false. -/
def decodeLoop : List Nat → List UInt8 → Except Base58Fault (Option (List Nat × List UInt8))
  | b256, [] => .ok (some (b256, []))
  | b256, c :: psz =>
    if isSpace c then .ok (some (b256, c :: psz))
    else
      match digitOf c with
      | none => .ok none
      | some digit =>
        let scaled := Radix.scale 256 58 b256 digit
        if scaled.2 ≠ 0 then .error .carryLeft else decodeLoop scaled.1 psz

/-- `DecodeBase58(const char*)`: the vector, or nothing when it returns false. -/
def decodeBase58 (psz : CString) : Except Base58Fault (Option (List UInt8)) := do
  let psz := skipSpaces psz.chars
  let zeroes ← countZeroes oneChar psz
  let psz := psz.dropWhile (· == oneChar)
  let decoded ← decodeLoop (List.replicate (psz.length * 733 / 1000 + 1) 0) psz
  match decoded with
  | none => .ok none
  | some (b256, psz) =>
    if skipSpaces psz ≠ [] then .ok none
    else .ok (some (List.replicate zeroes 0 ++ (b256.dropWhile (· == 0)).map UInt8.ofNat))

def encodeBase58Check [Crypto] (vchIn : List UInt8) : Except Base58Fault (List UInt8) :=
  encodeBase58 (vchIn ++ (uint256 (Hash vchIn)).take 4)

def decodeBase58Check [Crypto] (psz : CString) : Except Base58Fault (Option (List UInt8)) := do
  let decoded ← decodeBase58 psz
  match decoded with
  | none => .ok none
  | some vchRet =>
    if vchRet.length < 4 then .ok none
    else
      let vch := vchRet.take (vchRet.length - 4)
      if (uint256 (Hash vch)).take 4 ≠ vchRet.drop (vchRet.length - 4) then .ok none
      else .ok (some vch)

/-! ## Characters -/

variable {digit : Nat}

theorem digitOf_charOf (small : digit < 58) : digitOf (charOf digit) = some digit := by
  revert digit
  decide +kernel

theorem charOf_of_digitOf {c : UInt8} (found : digitOf c = some digit) :
    digit < 58 ∧ charOf digit = c := by
  obtain ⟨inside, here⟩ := List.idxOf?_eq_some_iff.mp found
  refine ⟨inside, ?_⟩
  rw [charOf, getD_eq_getElem?_getD, List.getElem?_eq_getElem inside]
  exact here.1

theorem charOf_plain (small : digit < 58) :
    isSpace (charOf digit) = false ∧ charOf digit ≠ 0 ∧ (charOf digit = oneChar ↔ digit = 0) := by
  revert digit
  decide +kernel

/-! ## Room -/

theorem encodeRoom (length : Nat) : 256 ^ length ≤ 58 ^ (length * 138 / 100 + 1) := by
  have ratio : 256 ^ 8 ≤ 58 ^ 11 := by norm_num
  have powers : (256 ^ length) ^ 8 ≤ (58 ^ (length * 138 / 100 + 1)) ^ 8 := by
    calc
      (256 ^ length) ^ 8 = (256 ^ 8) ^ length := Nat.pow_right_comm _ _ _
      _ ≤ (58 ^ 11) ^ length := Nat.pow_le_pow_left ratio length
      _ = 58 ^ (11 * length) := (pow_mul _ _ _).symm
      _ ≤ 58 ^ ((length * 138 / 100 + 1) * 8) := Nat.pow_le_pow_right (by norm_num) (by omega)
      _ = (58 ^ (length * 138 / 100 + 1)) ^ 8 := pow_mul _ _ _
  exact (Nat.pow_le_pow_iff_left (by norm_num)).mp powers

theorem decodeRoom (length : Nat) : 58 ^ length ≤ 256 ^ (length * 733 / 1000 + 1) := by
  have ratio : 58 ^ 71 ≤ 256 ^ 52 := by norm_num
  have powers : (58 ^ length) ^ 71 ≤ (256 ^ (length * 733 / 1000 + 1)) ^ 71 := by
    calc
      (58 ^ length) ^ 71 = (58 ^ 71) ^ length := Nat.pow_right_comm _ _ _
      _ ≤ (256 ^ 52) ^ length := Nat.pow_le_pow_left ratio length
      _ = 256 ^ (52 * length) := (pow_mul _ _ _).symm
      _ ≤ 256 ^ ((length * 733 / 1000 + 1) * 71) :=
          Nat.pow_le_pow_right (by norm_num) (by omega)
      _ = (256 ^ (length * 733 / 1000 + 1)) ^ 71 := pow_mul _ _ _
  exact (Nat.pow_le_pow_iff_left (by norm_num)).mp powers

/-! ## Loops -/

variable {buffer : List Nat}

theorem encodeLoop_spec (bytes : List UInt8)
    (room : (Radix.value 58 buffer + 1) * 256 ^ bytes.length ≤ 58 ^ buffer.length)
    (held : ∀ digit ∈ buffer, digit < 58) :
    ∃ b58, encodeLoop buffer bytes = .ok b58 ∧ (∀ digit ∈ b58, digit < 58) ∧
      Radix.value 58 b58 = Radix.value 58 buffer * 256 ^ bytes.length +
        Radix.value 256 (bytes.map UInt8.toNat) := by
  have same : ∀ (bytes : List UInt8) (buffer : List Nat) (b58 : List Nat),
      Radix.feed 58 256 buffer (bytes.map UInt8.toNat) = some b58 →
        encodeLoop buffer bytes = .ok b58 := by
    intro bytes
    induction bytes with
    | nil => exact fun buffer b58 fed => congrArg Except.ok (Option.some.inj fed)
    | cons byte rest ih =>
      intro buffer b58 fed
      simp only [map_cons, Radix.feed] at fed
      simp only [encodeLoop]
      split at fed
      · cases fed
      · rename_i none
        rw [if_neg none]
        exact ih _ _ fed
  have small : ∀ digit ∈ bytes.map UInt8.toNat, digit < 256 := by
    intro digit member
    obtain ⟨byte, -, rfl⟩ := mem_map.mp member
    exact byte.toNat_lt
  rw [← length_map UInt8.toNat] at room
  obtain ⟨b58, fed, heldAfter, value⟩ := Radix.feed_spec (by norm_num) small held room
  rw [length_map] at value
  exact ⟨b58, same bytes buffer b58 fed, heldAfter, value⟩

/-- What the loop of the decoder has done when it stops at `rest`. -/
structure Decoded (buffer : List Nat) (psz : List UInt8) (digits b256 : List Nat)
    (rest : List UInt8) : Prop where
  split : psz = digits.map charOf ++ rest
  small : ∀ digit ∈ digits, digit < 58
  ends : ∀ c ∈ rest.head?, isSpace c = true
  held : ∀ digit ∈ b256, digit < 256
  value : Radix.value 256 b256 =
    Radix.value 256 buffer * 58 ^ digits.length + Radix.value 58 digits

theorem decodeLoop_spec (psz : List UInt8)
    (room : (Radix.value 256 buffer + 1) * 58 ^ psz.length ≤ 256 ^ buffer.length)
    (held : ∀ digit ∈ buffer, digit < 256) :
    decodeLoop buffer psz = .ok none ∨
      ∃ digits b256 rest, decodeLoop buffer psz = .ok (some (b256, rest)) ∧
        Decoded buffer psz digits b256 rest := by
  induction psz generalizing buffer with
  | nil =>
    refine .inr ⟨[], buffer, [], rfl, rfl, forall_mem_nil _, nofun, held, ?_⟩
    simp [Radix.value_nil]
  | cons c psz ih =>
    by_cases space : isSpace c = true
    · refine .inr ⟨[], buffer, c :: psz, if_pos space, rfl, forall_mem_nil _, ?_, held, ?_⟩
      · rintro other ⟨⟩
        exact space
      · simp [Radix.value_nil]
    · rw [decodeLoop, if_neg space]
      cases found : digitOf c with
      | none => exact .inl rfl
      | some digit =>
        obtain ⟨small, rfl⟩ := charOf_of_digitOf found
        obtain ⟨none, sum, roomAfter⟩ := Radix.scale_step (by norm_num) small room
        have heldAfter : ∀ other ∈ (Radix.scale 256 58 buffer digit).1, other < 256 :=
          (Radix.scale_spec (by norm_num) buffer digit).2.1
        simp only [none, ne_eq, not_true_eq_false, if_false]
        rcases ih roomAfter heldAfter with refused | ⟨digits, b256, rest, stopped, decoded⟩
        · exact .inl refused
        · refine .inr ⟨digit :: digits, b256, rest, stopped, ?_,
            forall_mem_cons.mpr ⟨small, decoded.small⟩, decoded.ends, decoded.held, ?_⟩
          · rw [map_cons, cons_append, ← decoded.split]
          · rw [decoded.value, sum, Radix.value_cons, length_cons, pow_succ]
            ring

theorem decodeLoop_digits {digits : List Nat} (small : ∀ digit ∈ digits, digit < 58) :
    decodeLoop buffer (digits.map charOf) ≠ .ok none ∧
      ∀ b256 rest, decodeLoop buffer (digits.map charOf) = .ok (some (b256, rest)) → rest = [] := by
  induction digits generalizing buffer with
  | nil =>
    refine ⟨nofun, fun b256 rest stopped => ?_⟩
    obtain ⟨-, rfl⟩ := Prod.mk.inj (Option.some.inj (Except.ok.inj stopped))
    rfl
  | cons digit digits ih =>
    obtain ⟨here, later⟩ := forall_mem_cons.mp small
    have plain := (charOf_plain here).1
    simp only [map_cons, decodeLoop, plain, Bool.false_eq_true, if_false,
      digitOf_charOf here]
    split
    · exact ⟨nofun, nofun⟩
    · exact ih later

/-! ## Whole strings -/

theorem toNat_significant {digits : List Nat} (held : ∀ digit ∈ digits, digit < 256) :
    ((Radix.significant digits).map UInt8.ofNat).map UInt8.toNat = Radix.significant digits := by
  rw [map_map]
  refine (map_congr_left fun digit member => ?_).trans (map_id _)
  have small := held digit ((dropWhile_sublist _).subset member)
  exact UInt8.toNat_ofNat_of_lt' small

theorem ofNat_toNat (bytes : List UInt8) : (bytes.map UInt8.toNat).map UInt8.ofNat = bytes := by
  rw [map_map]
  exact (map_congr_left fun byte _ => UInt8.ofNat_toNat).trans (map_id _)

theorem countZeroes_eq {first : UInt8} {chars : List UInt8} (few : leading first chars < 2 ^ 31) :
    countZeroes first chars = .ok (leading first chars) := if_pos few

theorem encodeBase58_eq {vch : List UInt8} (few : leading 0 vch < 2 ^ 31) :
    encodeBase58 vch = .ok (List.replicate (leading 0 vch) oneChar ++
      ((Nat.digits 58 (Radix.value 256 ((vch.dropWhile (· == 0)).map UInt8.toNat))).reverse).map
        charOf) := by
  have room (rest : List UInt8) :
      (Radix.value 58 (List.replicate (rest.length * 138 / 100 + 1) 0) + 1) * 256 ^ rest.length ≤
        58 ^ (List.replicate (rest.length * 138 / 100 + 1) 0).length := by
    rw [Radix.value_zeros, zero_add, one_mul, length_replicate]
    exact encodeRoom rest.length
  have zeros (count : Nat) : ∀ digit ∈ List.replicate count 0, digit < 58 := by
    intro digit member
    rw [eq_of_mem_replicate member]
    norm_num
  obtain ⟨b58, encoded, held, value⟩ := encodeLoop_spec _ (room (vch.dropWhile (· == 0))) (zeros _)
  rw [Radix.value_zeros, zero_mul, zero_add] at value
  rw [← value, ← Radix.significant_eq (by norm_num) held]
  unfold encodeBase58
  rw [countZeroes_eq few]
  change (encodeLoop _ _).bind _ = _
  rw [encoded]
  rfl

theorem digits_lt {n : Nat} (member : digit ∈ (Nat.digits 58 n).reverse) : digit < 58 :=
  Nat.digits_lt_base (by norm_num) (mem_reverse.mp member)

theorem encoded_plain {count n : Nat} {c : UInt8}
    (member : c ∈ List.replicate count oneChar ++ ((Nat.digits 58 n).reverse).map charOf) :
    isSpace c = false ∧ c ≠ 0 := by
  rcases mem_append.mp member with ones | others
  · rw [eq_of_mem_replicate ones]
    decide
  · obtain ⟨digit, inside, rfl⟩ := mem_map.mp others
    obtain ⟨plain, filled, -⟩ := charOf_plain (digits_lt inside)
    exact ⟨plain, filled⟩

theorem decodeRoom_fits (psz : List UInt8) :
    (Radix.value 256 (List.replicate (psz.length * 733 / 1000 + 1) 0) + 1) * 58 ^ psz.length ≤
      256 ^ (List.replicate (psz.length * 733 / 1000 + 1) 0).length := by
  rw [Radix.value_zeros, zero_add, one_mul, length_replicate]
  exact decodeRoom psz.length

theorem decodeZeros_held (count : Nat) : ∀ digit ∈ List.replicate count 0, digit < 256 := by
  intro digit member
  rw [eq_of_mem_replicate member]
  norm_num

theorem digits_of_chars {first second : List Nat} (one : ∀ digit ∈ first, digit < 58)
    (other : ∀ digit ∈ second, digit < 58) (same : first.map charOf = second.map charOf) :
    first = second := by
  have back (digits : List Nat) (small : ∀ digit ∈ digits, digit < 58) :
      (digits.map charOf).map digitOf = digits.map some := by
    rw [map_map]
    exact map_congr_left fun digit member => digitOf_charOf (small digit member)
  have some := congrArg (List.map digitOf) same
  rw [back first one, back second other] at some
  exact (Option.some_injective Nat).list_map some

theorem decodeLoop_encoded (n : Nat) :
    ∃ b256, decodeLoop (List.replicate
          ((((Nat.digits 58 n).reverse).map charOf).length * 733 / 1000 + 1) 0)
        (((Nat.digits 58 n).reverse).map charOf) = .ok (some (b256, [])) ∧
      Radix.significant b256 = (Nat.digits 256 n).reverse := by
  have all : ∀ digit ∈ (Nat.digits 58 n).reverse, digit < 58 := fun digit => digits_lt
  obtain ⟨accepted, whole⟩ := decodeLoop_digits all
  rcases decodeLoop_spec _ (decodeRoom_fits (((Nat.digits 58 n).reverse).map charOf))
    (decodeZeros_held _) with refused | ⟨digits, b256, rest, stopped, decoded⟩
  · exact absurd refused accepted
  · obtain rfl := whole b256 rest stopped
    have split := decoded.split
    rw [append_nil] at split
    have same := digits_of_chars all decoded.small split
    refine ⟨b256, stopped, ?_⟩
    rw [Radix.significant_eq (by norm_num) decoded.held, decoded.value, Radix.value_zeros, zero_mul,
      zero_add, ← same, Radix.value, reverse_reverse, Nat.ofDigits_digits]

theorem head_encoded (n : Nat) :
    ∀ c ∈ (((Nat.digits 58 n).reverse).map charOf).head?, c ≠ oneChar := by
  intro c here
  rw [List.head?_map, Option.mem_map] at here
  obtain ⟨digit, first, rfl⟩ := here
  have member := List.mem_of_head? first
  have plain := (charOf_plain (digits_lt member)).2.2
  rw [ne_eq, plain]
  rw [List.head?_reverse] at first
  rintro rfl
  have filled : Nat.digits 58 n ≠ [] := ne_nil_of_mem (mem_reverse.mp member)
  have positive : n ≠ 0 := by
    rintro rfl
    exact filled (Nat.digits_zero 58)
  have last := Nat.getLast_digit_ne_zero 58 positive
  rw [List.getLast?_eq_some_getLast filled] at first
  exact last (Option.some.inj first)

theorem decode_parts {zeroes : Nat} (few : zeroes < 2 ^ 31) (n : Nat) :
    decodeBase58 (CString.ofString (List.replicate zeroes oneChar ++
        ((Nat.digits 58 n).reverse).map charOf)) =
      .ok (some (List.replicate zeroes 0 ++ ((Nat.digits 256 n).reverse).map UInt8.ofNat)) := by
  have noNull : 0 ∉ List.replicate zeroes oneChar ++ ((Nat.digits 58 n).reverse).map charOf :=
    fun null => (encoded_plain null).2 rfl
  obtain ⟨b256, stopped, digits⟩ := decodeLoop_encoded n
  obtain ⟨ones, others⟩ := Radix.leading_replicate zeroes (head_encoded n)
  have count : countZeroes oneChar (List.replicate zeroes oneChar ++
      ((Nat.digits 58 n).reverse).map charOf) = .ok zeroes := by
    rw [countZeroes, leading, ones, if_pos few]
  unfold decodeBase58
  dsimp only
  rw [CString.ofString_chars noNull, skipSpaces_eq_self fun c member => (encoded_plain member).1,
    count, others]
  change (decodeLoop _ _).bind _ = _
  rw [stopped, ← digits]
  rfl

/-- **What is encoded is decoded to the same bytes.** -/
theorem decode_encode {vch : List UInt8} (few : leading 0 vch < 2 ^ 31) :
    ∃ str, encodeBase58 vch = .ok str ∧ decodeBase58 (CString.ofString str) = .ok (some vch) := by
  refine ⟨_, encodeBase58_eq few, ?_⟩
  rw [decode_parts few]
  have head : ∀ digit ∈ ((vch.dropWhile (· == 0)).map UInt8.toNat).head?, digit ≠ 0 := by
    intro digit here
    rw [List.head?_map, Option.mem_map] at here
    obtain ⟨byte, first, rfl⟩ := here
    have filled := List.head?_dropWhile_not (· == 0) vch
    rw [Option.mem_def.mp first] at filled
    intro zero
    exact beq_eq_false_iff_ne.mp filled (UInt8.toNat_inj.mp zero)
  have small : ∀ digit ∈ (vch.dropWhile (· == 0)).map UInt8.toNat, digit < 256 := by
    intro digit member
    obtain ⟨byte, -, rfl⟩ := mem_map.mp member
    exact byte.toNat_lt
  rw [← Radix.significant_eq (by norm_num) small, Radix.significant_of_head head, ofNat_toNat,
    leading, ← Radix.leading_append]

/-- **What is decoded is encoded to the same string, without the spaces around it.** -/
theorem encode_decode {s : CString} (few : leading oneChar (skipSpaces s.chars) < 2 ^ 31) :
    decodeBase58 s = .ok none ∨ ∃ vch, decodeBase58 s = .ok (some vch) ∧
      encodeBase58 vch = .ok (trimSpaces s.chars) := by
  have ones := Radix.leading_append oneChar (skipSpaces s.chars)
  unfold decodeBase58
  dsimp only
  rw [countZeroes_eq few]
  change (decodeLoop _ _).bind _ = _ ∨ ∃ vch, (decodeLoop _ _).bind _ = _ ∧ _
  rcases decodeLoop_spec _ (decodeRoom_fits ((skipSpaces s.chars).dropWhile (· == oneChar)))
    (decodeZeros_held _) with refused | ⟨digits, b256, rest, stopped, decoded⟩
  · rw [refused]
    exact .inl rfl
  rw [stopped]
  by_cases spaces : skipSpaces rest = []
  swap
  · exact .inl (if_pos spaces)
  refine .inr ⟨_, if_neg (not_not.mpr spaces), ?_⟩
  have value := decoded.value
  rw [Radix.value_zeros, zero_mul, zero_add] at value
  -- the digits begin behind the ones
  have head : ∀ digit ∈ digits.head?, digit ≠ 0 := by
    rintro digit here rfl
    have first := List.head?_dropWhile_not (· == oneChar) (skipSpaces s.chars)
    rw [decoded.split, List.head?_append, List.head?_map, Option.mem_def.mp here, Option.map_some,
      Option.some_or] at first
    have one : (charOf 0 == oneChar) = true := by decide
    exact absurd (first.symm.trans one) Bool.false_ne_true
  have bytes : ∀ byte ∈ ((Radix.significant b256).map UInt8.ofNat).head?, byte ≠ 0 := by
    intro byte here
    rw [List.head?_map, Option.mem_map] at here
    obtain ⟨digit, first, rfl⟩ := here
    have positive := Radix.head_significant b256 digit first
    have small := decoded.held digit
      ((dropWhile_sublist _).subset (List.mem_of_head? first))
    intro zero
    have same := congrArg UInt8.toNat zero
    rw [UInt8.toNat_ofNat_of_lt' small] at same
    exact positive same
  obtain ⟨zeros, others⟩ :=
    Radix.leading_replicate (leading oneChar (skipSpaces s.chars)) bytes
  have number : Radix.value 256 (((Radix.significant b256).map UInt8.ofNat).map UInt8.toNat) =
      Radix.value 58 digits := by
    rw [toNat_significant decoded.held, Radix.value_significant, value]
  have same := Radix.significant_eq (by norm_num) decoded.small
  rw [Radix.significant_of_head head] at same
  refine (encodeBase58_eq (zeros.trans_lt few)).trans ?_
  change Except.ok (List.replicate ((List.replicate _ 0 ++
    (Radix.significant b256).map UInt8.ofNat).takeWhile (· == 0)).length oneChar ++
      ((Nat.digits 58 (Radix.value 256 (((List.replicate _ 0 ++
        (Radix.significant b256).map UInt8.ofNat).dropWhile (· == 0)).map
          UInt8.toNat))).reverse).map charOf) = _
  rw [zeros, others, number]
  refine congrArg Except.ok (trimSpaces_eq (fun c member => (encoded_plain member).1)
    (skipSpaces_eq_nil.mp spaces) ?_).symm
  rw [← same, append_assoc, ← decoded.split]
  exact ones

theorem fewZeroes_of_encode {vch str : List UInt8} (encoded : encodeBase58 vch = .ok str) :
    leading 0 vch < 2 ^ 31 := by
  by_contra many
  rw [encodeBase58, countZeroes, if_neg many] at encoded
  contradiction

theorem fewZeroes_of_decode {s : CString} {decoded : Option (List UInt8)}
    (returned : decodeBase58 s = .ok decoded) : leading oneChar (skipSpaces s.chars) < 2 ^ 31 := by
  by_contra many
  simp only [decodeBase58, countZeroes, if_neg many] at returned
  contradiction

/-- **Base 58.** Bytes are encoded without a carry that is left, and decoded to the same bytes,
exactly when fewer than `2 ^ 31` zeros lead them. A string is decoded without a carry that is left,
and what it is decoded to is encoded to the string without the spaces around it, exactly when fewer
than `2 ^ 31` ones lead it. What is encoded with a checksum is decoded with it, exactly when so few
zeros lead it with its checksum. -/
theorem base58_roundTrip [Crypto] :
    (∀ b, (∃ str, encodeBase58 b = .ok str ∧
      decodeBase58 (CString.ofString str) = .ok (some b)) ↔ leading 0 b < 2 ^ 31) ∧
    (∀ s : CString, (∃ decoded, decodeBase58 s = .ok decoded ∧
      ∀ b, decoded = some b → encodeBase58 b = .ok (trimSpaces s.chars)) ↔
        leading oneChar (skipSpaces s.chars) < 2 ^ 31) ∧
    ∀ v, (∃ str, encodeBase58Check v = .ok str ∧
      decodeBase58Check (CString.ofString str) = .ok (some v)) ↔
        leading 0 (v ++ (uint256 (Hash v)).take 4) < 2 ^ 31 := by
  refine ⟨fun b => ⟨fun ⟨_, encoded, _⟩ => fewZeroes_of_encode encoded, decode_encode⟩,
    fun s => ⟨fun ⟨_, decoded, _⟩ => fewZeroes_of_decode decoded, fun few => ?_⟩,
    fun v => ⟨fun ⟨_, encoded, _⟩ => fewZeroes_of_encode encoded, fun few => ?_⟩⟩
  · rcases encode_decode few with refused | ⟨vch, decoded, encoded⟩
    · exact ⟨none, refused, nofun⟩
    · refine ⟨some vch, decoded, ?_⟩
      rintro b ⟨⟩
      exact encoded
  · obtain ⟨str, encoded, decoded⟩ := decode_encode few
    refine ⟨str, encoded, ?_⟩
    have four : ((uint256 (Hash v)).take 4).length = 4 := by
      simp [uint256, le]
    have length : (v ++ (uint256 (Hash v)).take 4).length - 4 = v.length := by
      rw [length_append, four, Nat.add_sub_cancel]
    have enough : ¬(v ++ (uint256 (Hash v)).take 4).length < 4 := by
      rw [length_append, four]
      omega
    unfold decodeBase58Check
    rw [decoded]
    change (if _ then _ else _) = _
    rw [if_neg enough, length, take_left, drop_left, if_neg (not_not.mpr rfl)]

theorem encodeBase58_zeros {count : Nat} (many : 2 ^ 31 ≤ count) :
    encodeBase58 (List.replicate count 0) = .error .zeroesOverflow := by
  have all : leading 0 (List.replicate count 0) = count := by
    have zeros := (@Radix.leading_replicate UInt8 _ _ 0 [] count nofun).1
    rwa [append_nil] at zeros
  rw [encodeBase58, countZeroes, all, if_neg (Nat.not_lt.mpr many)]
  rfl

/-- The zeros of this vector cannot be counted. -/
theorem zeroes_overflow :
    encodeBase58 (List.replicate (2 ^ 31) 0) = .error .zeroesOverflow := encodeBase58_zeros le_rfl

end Base58

end Agouti
