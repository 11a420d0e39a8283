import Agouti.Library.Radix
import Agouti.Primitives.CString
import Agouti.Validation.ValueSums

/-! # Amounts as texts

`FormatMoney` and `ParseMoney` of `utilmoneystr.cpp`. The scanner takes the first digit behind the
point times `CENT * 10`, which would be a tenth of a coin if `CENT` were a hundredth. Here `CENT` is
a tenth, so that every fraction counts ten times (`MoneyString.parseMoney_form`), a ninth digit is
accepted, and what is above one coin then is rejected. A text is read as its grammar says exactly if
the fraction is zero, and an amount comes back exactly if it is a number of whole coins
(`MoneyString.money_exact_iff`).
-/

namespace Agouti

open List

/-- `CENT` of `amount.h`. -/
def CENT : CAmount := 10000000

/-- How the functions end outside of the language. -/
inductive MoneyFault where
  | signedOverflow
  /-- `str[i - 2]` in front of the string -/
  | outOfRange
  deriving DecidableEq, Repr

namespace MoneyString

def int64 (value : Int) : Except MoneyFault Int := Amounts.int64 .signedOverflow value

/-- The character `.`. -/
def pointChar : UInt8 := 0x2e

/-- The characters `-` and `+`. -/
def minusChar : UInt8 := 0x2d
def plusChar : UInt8 := 0x2b

/-- `c - '0'`. -/
def digitOf (c : UInt8) : Nat := c.toNat - 0x30

def charOf (digit : Nat) : UInt8 := UInt8.ofNat (0x30 + digit)

def number (digits : List UInt8) : Nat := Radix.value 10 (digits.map digitOf)

/-- `atoi64`: `strtoll` in base 10. -/
def atoi64 (str : List UInt8) : Int :=
  let str := skipSpaces str
  let unsigned := if str.head? = some minusChar ∨ str.head? = some plusChar then str.tail else str
  let n : Int := number (unsigned.takeWhile isDigit)
  max INT64_MIN (min INT64_MAX (if str.head? = some minusChar then -n else n))

/-- The loop of `ParseMoney` behind the point: `nUnits` and what is left. -/
def unitsLoop : Int → Int → List UInt8 → Except MoneyFault (Int × List UInt8)
  | nUnits, _, [] => .ok (nUnits, [])
  | nUnits, nMult, c :: p =>
    if isDigit c && decide (0 < nMult) then do
      let product ← int64 (nMult * digitOf c)
      let nUnits ← int64 (nUnits + product)
      unitsLoop nUnits (nMult / 10) p
    else .ok (nUnits, c :: p)

/-- The first `for` loop of `ParseMoney`: `strWhole`, `nUnits` and what is left; nothing when it
returns false. -/
def wholeLoop : List UInt8 → List UInt8 → Except MoneyFault (Option (List UInt8 × Int × List UInt8))
  | strWhole, [] => .ok (some (strWhole, 0, []))
  | strWhole, c :: p =>
    if c = pointChar then do
      let (nUnits, p) ← unitsLoop 0 (CENT * 10) p
      .ok (some (strWhole, nUnits, p))
    else if isSpace c then .ok (some (strWhole, 0, c :: p))
    else if !isDigit c then .ok none
    else wholeLoop (strWhole ++ [c]) p

/-- `ParseMoney(const char*)`: the result, and `nRet` afterwards. -/
def parseMoney (pszIn : CString) (nRet : CAmount) : Except MoneyFault (Bool × CAmount) := do
  match ← wholeLoop [] (skipSpaces pszIn.chars) with
  | none => .ok (false, nRet)
  | some (strWhole, nUnits, p) =>
    if p.any fun c => !isSpace c then .ok (false, nRet)
    else if 10 < strWhole.length then .ok (false, nRet) -- guard against 63 bit overflow
    else if nUnits < 0 ∨ COIN < nUnits then .ok (false, nRet)
    else do
      let product ← int64 (atoi64 strWhole * COIN)
      let nValue ← int64 (product + nUnits)
      .ok (true, nValue)

/-- `%d` for a number. -/
def decimal (n : Nat) : List UInt8 :=
  if n = 0 then [charOf 0] else (Nat.digits 10 n).reverse.map charOf

/-- `%08d` for a number. -/
def padded (n : Nat) : List UInt8 :=
  List.replicate (8 - (decimal n).length) (charOf 0) ++ decimal n

/-- The loop of `FormatMoney` from the last character on: `nTrim`. -/
def trimLoop : List UInt8 → Except MoneyFault Nat
  | c :: second :: third :: rest =>
    if c = charOf 0 ∧ isDigit third then (· + 1) <$> trimLoop (second :: third :: rest) else .ok 0
  | c :: _ => if c = charOf 0 then .error .outOfRange else .ok 0
  | [] => .error .outOfRange

/-- `n_abs`. -/
def absOf (n : CAmount) : Except MoneyFault Int := if 0 < n then .ok n else int64 (-n)

def formatMoney (n : CAmount) (fPlus : Bool) : Except MoneyFault (List UInt8) := do
  let n_abs ← absOf n
  let quotient := n_abs.tdiv COIN
  let remainder := n_abs.tmod COIN
  let str := decimal quotient.toNat ++ pointChar :: padded remainder.toNat
  -- right-trim excess zeros before the decimal point
  let nTrim ← trimLoop str.reverse
  let str := str.take (str.length - nTrim)
  .ok (if n < 0 then minusChar :: str else if fPlus ∧ 0 < n then plusChar :: str else str)

/-! ## The grammar -/

/-- Spaces, the digits `whole`, a point with the digits `fraction` behind it or neither, and
spaces. -/
structure Form (chars whole fraction : List UInt8) : Prop where
  digits : ∀ c ∈ whole ++ fraction, isDigit c = true
  text : ∃ before tail behind, (∀ c ∈ before, isSpace c = true) ∧ (∀ c ∈ behind, isSpace c = true) ∧
    (tail = [] ∧ fraction = [] ∨ tail = pointChar :: fraction) ∧
    chars = before ++ (whole ++ (tail ++ behind))

/-- A text of the grammar: at most ten digits, and at most eight behind the point. -/
structure Grammar (chars whole fraction : List UInt8) : Prop extends Form chars whole fraction where
  wholeShort : whole.length ≤ 10
  fractionShort : fraction.length ≤ 8

/-- The decimal value times `COIN`. -/
def exact (whole fraction : List UInt8) : CAmount :=
  number whole * COIN + number fraction * 10 ^ (8 - fraction.length)

/-- `ParseMoney` accepts a text of the grammar with its exact value, and rejects every other text
without a change of `nRet`. -/
def ParsesExactly (psz : CString) : Prop :=
  ∀ nRet, (∀ whole fraction, Grammar psz.chars whole fraction →
      parseMoney psz nRet = .ok (true, exact whole fraction)) ∧
    ((∀ whole fraction, ¬Grammar psz.chars whole fraction) → parseMoney psz nRet = .ok (false, nRet))

/-- `ParseMoney(FormatMoney(n))` is `n`. -/
def ComesBack (n : CAmount) : Prop :=
  ∀ nRet, ∃ str, formatMoney n false = .ok str ∧
    parseMoney (CString.ofString str) nRet = .ok (true, n)

/-- The texts with a fraction that is not zero, or with a ninth digit and a fraction that is at most
a tenth. -/
def Tenfold (psz : CString) : Prop :=
  ∃ whole fraction, Form psz.chars whole fraction ∧ whole.length ≤ 10 ∧
    (fraction.length ≤ 8 ∧ number fraction ≠ 0 ∨ fraction.length = 9 ∧ number fraction ≤ 10 ^ 8)

/-! ## Digits -/

theorem int64_small {value : Int} (least : 0 ≤ value) (most : value < 2 ^ 62) :
    int64 value = .ok value :=
  Amounts.int64_nonneg least (le_trans most.le (by norm_num [INT64_MAX]))

variable {c : UInt8} {digits whole fraction behind : List UInt8}

theorem isDigit_iff : isDigit c = true ↔ 0x30 ≤ c.toNat ∧ c.toNat ≤ 0x39 := by
  rw [isDigit, Bool.and_eq_true, decide_eq_true_eq, decide_eq_true_eq]
  rfl

theorem isSpace_iff :
    isSpace c = true ↔ c.toNat = 0x20 ∨ 0x09 ≤ c.toNat ∧ c.toNat ≤ 0x0d := by
  rw [isSpace, Bool.or_eq_true, beq_iff_eq, Bool.and_eq_true, decide_eq_true_eq, decide_eq_true_eq,
    ← UInt8.toNat_inj]
  rfl

theorem digit_plain (digit : isDigit c = true) :
    isSpace c = false ∧ c ≠ pointChar ∧ c ≠ minusChar ∧ c ≠ plusChar ∧ c ≠ 0 := by
  have range := isDigit_iff.mp digit
  have apart {other : UInt8} (outside : other.toNat < 0x30) : c ≠ other := by
    rintro rfl
    exact absurd range.1 (not_le.mpr outside)
  refine ⟨?_, apart (by decide), apart (by decide), apart (by decide), apart (by decide)⟩
  rw [Bool.eq_false_iff, ne_eq, isSpace_iff]
  omega

theorem space_plain (space : isSpace c = true) :
    isDigit c = false ∧ c ≠ pointChar := by
  have range := isSpace_iff.mp space
  constructor
  · rw [Bool.eq_false_iff, ne_eq, isDigit_iff]
    omega
  · rintro rfl
    exact absurd range (by decide)

theorem digitOf_lt (digit : isDigit c = true) : digitOf c < 10 := by
  have range := isDigit_iff.mp digit
  unfold digitOf
  omega

theorem charOf_digit {digit : Nat} (small : digit < 10) :
    isDigit (charOf digit) = true ∧ digitOf (charOf digit) = digit := by
  revert digit
  decide +kernel

theorem number_nil : number [] = 0 := rfl

theorem number_cons (c : UInt8) (digits : List UInt8) :
    number (c :: digits) = 10 ^ digits.length * digitOf c + number digits := by
  rw [number, map_cons, Radix.value_cons, length_map]
  rfl

theorem number_append (high low : List UInt8) :
    number (high ++ low) = number high * 10 ^ low.length + number low := by
  rw [number, map_append, Radix.value_append, length_map]
  rfl

theorem number_zeros (count : Nat) : number (List.replicate count (charOf 0)) = 0 := by
  rw [number, map_replicate, (charOf_digit (by norm_num)).2, Radix.value_zeros]

theorem number_lt (all : ∀ c ∈ digits, isDigit c = true) :
    number digits < 10 ^ digits.length := by
  rw [number, ← length_map digitOf]
  apply Radix.value_lt (by norm_num)
  intro digit member
  obtain ⟨c, inside, rfl⟩ := mem_map.mp member
  exact digitOf_lt (all c inside)

theorem atoi64_digits (all : ∀ c ∈ digits, isDigit c = true)
    (short : digits.length ≤ 10) : atoi64 digits = number digits := by
  have plain : skipSpaces digits = digits :=
    skipSpaces_eq_self fun c member => (digit_plain (all c member)).1
  have taken : digits.takeWhile isDigit = digits := takeWhile_eq_self_iff.mpr all
  have minus : digits.head? ≠ some minusChar := by
    intro first
    exact (digit_plain (all _ (List.mem_of_head? first))).2.2.1 rfl
  have plus : digits.head? ≠ some plusChar := by
    intro first
    exact (digit_plain (all _ (List.mem_of_head? first))).2.2.2.1 rfl
  have bound : number digits < 10 ^ 10 :=
    lt_of_lt_of_le (number_lt all) (Nat.pow_le_pow_right (by norm_num) short)
  simp only [atoi64, plain, minus, plus, or_self, if_false, taken]
  rw [min_eq_right, max_eq_right]
  · exact le_trans (by norm_num [INT64_MIN]) (Int.natCast_nonneg _)
  · norm_num [INT64_MAX]
    omega

/-! ## The scanner -/

theorem unitsLoop_spec {rest : List UInt8} (all : ∀ c ∈ digits, isDigit c = true) {room : Nat}
    (fits : digits.length ≤ room) (small : room ≤ 9)
    (ends : (∀ c ∈ rest.head?, isDigit c = false) ∨ digits.length = room) {nUnits : Int}
    (least : 0 ≤ nUnits) (most : nUnits + 10 ^ room ≤ 10 ^ 9) :
    unitsLoop nUnits ((10 ^ room : Int) / 10) (digits ++ rest) =
      .ok (nUnits + number digits * 10 ^ (room - digits.length), rest) := by
  induction digits generalizing room nUnits with
  | nil =>
    rw [nil_append, number_nil, Nat.cast_zero, zero_mul, add_zero]
    cases rest with
    | nil => rfl
    | cons c rest =>
      apply if_neg
      rw [Bool.and_eq_true, decide_eq_true_eq]
      rintro ⟨digit, positive⟩
      rcases ends with other | full
      · rw [other c rfl] at digit
        cases digit
      · obtain rfl : 0 = room := full
        norm_num at positive
  | cons c digits ih =>
    obtain ⟨here, later⟩ := forall_mem_cons.mp all
    obtain ⟨room, rfl⟩ : ∃ less, room = less + 1 :=
      ⟨room - 1, by rw [length_cons] at fits; omega⟩
    have digit := digitOf_lt here
    have power : (0 : Int) < 10 ^ room := by positivity
    have tenth : (10 ^ (room + 1) : Int) / 10 = 10 ^ room := by
      rw [pow_succ, Int.mul_ediv_cancel _ (by norm_num)]
    have product : (10 ^ room : Int) * digitOf c + 10 ^ room ≤ 10 ^ (room + 1) := by
      rw [pow_succ]
      nlinarith
    have nonneg : 0 ≤ (10 ^ room : Int) * digitOf c := by positivity
    rw [cons_append, unitsLoop, tenth, here, Bool.true_and, if_pos (decide_eq_true power),
      int64_small nonneg (by omega)]
    simp only [Outcome.ok_bind]
    rw [int64_small (by omega) (by omega)]
    simp only [Outcome.ok_bind]
    rw [ih later (by simpa using fits) (by omega) (by simpa using ends) (by omega) (by omega),
      number_cons, length_cons, Nat.add_sub_add_right]
    have split : (10 ^ room : Int) = 10 ^ digits.length * 10 ^ (room - digits.length) := by
      rw [← pow_add, Nat.add_sub_cancel' (by simpa using fits)]
    rw [split]
    push_cast
    ring_nf

theorem wholeLoop_digits (all : ∀ c ∈ digits, isDigit c = true) (strWhole rest : List UInt8) :
    wholeLoop strWhole (digits ++ rest) = wholeLoop (strWhole ++ digits) rest := by
  induction digits generalizing strWhole with
  | nil => rw [append_nil]; rfl
  | cons c digits ih =>
    obtain ⟨here, later⟩ := forall_mem_cons.mp all
    obtain ⟨filled, apart, -⟩ := digit_plain here
    rw [cons_append, wholeLoop, if_neg apart, filled, if_neg Bool.false_ne_true, here,
      Bool.not_true, if_neg Bool.false_ne_true, ih later, append_assoc]
    rfl

/-- What `ParseMoney` does with a text of the form. -/
def parsed (whole fraction : List UInt8) (nRet : CAmount) : Bool × CAmount :=
  if fraction.length ≤ 9 ∧ whole.length ≤ 10 ∧
      number fraction * 10 ^ (9 - fraction.length) ≤ 10 ^ 8 then
    (true, number whole * COIN + number fraction * 10 ^ (9 - fraction.length))
  else (false, nRet)

theorem Form.skipped {chars : List UInt8} (form : Form chars whole fraction) :
    ∃ tail behind, (∀ c ∈ behind, isSpace c = true) ∧
      (tail = [] ∧ fraction = [] ∨ tail = pointChar :: fraction) ∧
      skipSpaces chars = whole ++ (tail ++ behind) := by
  obtain ⟨before, tail, behind, left, right, point, rfl⟩ := form.text
  have skip (rest : List UInt8) : skipSpaces (before ++ rest) = skipSpaces rest := by
    rw [skipSpaces, dropWhile_append_of_pos left]
    rfl
  rw [skip]
  cases whole with
  | cons c whole =>
    have plain := (digit_plain (form.digits c (by simp))).1
    exact ⟨tail, behind, right, point, dropWhile_cons_of_neg (by simp [plain])⟩
  | nil =>
    rcases point with ⟨rfl, rfl⟩ | rfl
    · refine ⟨[], [], forall_mem_nil _, .inl ⟨rfl, rfl⟩, ?_⟩
      exact skipSpaces_eq_nil.mpr right
    · exact ⟨_, behind, right, .inr rfl, dropWhile_cons_of_neg (by decide)⟩

theorem takeWhile_digits (all : ∀ c ∈ digits, isDigit c = true)
    (ends : ∀ c ∈ behind.head?, isDigit c = false) :
    (digits ++ behind).takeWhile isDigit = digits ∧
      (digits ++ behind).dropWhile isDigit = behind := by
  rw [takeWhile_append_of_pos all, dropWhile_append_of_pos all]
  cases behind with
  | nil => exact ⟨append_nil _, rfl⟩
  | cons c behind =>
    have other := ends c rfl
    rw [takeWhile_cons, dropWhile_cons, other]
    exact ⟨append_nil _, rfl⟩

theorem head_space (spaces : ∀ c ∈ behind, isSpace c = true) :
    ∀ c ∈ behind.head?, isDigit c = false :=
  fun c first => (space_plain (spaces c (List.mem_of_head? first))).1

theorem Form.fraction_eq {chars : List UInt8} (form : Form chars whole fraction) :
    fraction = ((skipSpaces chars).dropWhile isDigit).tail.takeWhile isDigit := by
  obtain ⟨tail, behind, spaces, point, split⟩ := form.skipped
  have wholeDigits : ∀ c ∈ whole, isDigit c = true :=
    fun c member => form.digits c (mem_append_left _ member)
  rw [split]
  rcases point with ⟨rfl, rfl⟩ | rfl
  · rw [nil_append, (takeWhile_digits wholeDigits (head_space spaces)).2]
    cases behind with
    | nil => rfl
    | cons c behind =>
      have later := head_space (forall_mem_cons.mp spaces).2
      exact (takeWhile_digits (forall_mem_nil _) later).1.symm
  · have ends : ∀ c ∈ (pointChar :: fraction ++ behind).head?, isDigit c = false := by
      rintro c ⟨⟩
      decide
    have fractionDigits : ∀ c ∈ fraction, isDigit c = true :=
      fun c member => form.digits c (mem_append_right _ member)
    rw [(takeWhile_digits wholeDigits ends).2]
    exact (takeWhile_digits fractionDigits (head_space spaces)).1.symm

/-- `strWhole`, `nUnits` and what is left are the outcome of the first loop. -/
def Stops (p strWhole : List UInt8) (nUnits : Int) (rest : List UInt8) : Prop :=
  wholeLoop [] p = .ok (some (strWhole, nUnits, rest))

theorem unitsLoop_eq (all : ∀ c ∈ fraction, isDigit c = true)
    (ends : ∀ c ∈ behind.head?, isDigit c = false) :
    unitsLoop 0 (CENT * 10) (fraction ++ behind) =
      .ok (number (fraction.take 9) * 10 ^ (9 - (fraction.take 9).length),
        fraction.drop 9 ++ behind) := by
  have start : CENT * 10 = (10 ^ 9 : Int) / 10 := by norm_num [CENT]
  have taken : ∀ c ∈ fraction.take 9, isDigit c = true :=
    fun c member => all c (mem_of_mem_take member)
  have stops : (∀ c ∈ (fraction.drop 9 ++ behind).head?, isDigit c = false) ∨
      (fraction.take 9).length = 9 := by
    by_cases short : fraction.length ≤ 9
    · rw [drop_of_length_le short]
      exact .inl ends
    · exact .inr (length_take_of_le (by omega))
  have loop := unitsLoop_spec taken (length_take_le 9 fraction) le_rfl stops
    (le_refl (0 : Int)) (by norm_num)
  rw [← append_assoc, take_append_drop, zero_add] at loop
  rw [start, loop]

theorem stops_point (all : ∀ c ∈ whole, isDigit c = true)
    (allBehind : ∀ c ∈ fraction, isDigit c = true) (ends : ∀ c ∈ behind.head?, isDigit c = false) :
    Stops (whole ++ (pointChar :: fraction ++ behind)) whole
      (number (fraction.take 9) * 10 ^ (9 - (fraction.take 9).length))
      (fraction.drop 9 ++ behind) := by
  rw [Stops, wholeLoop_digits all, cons_append, wholeLoop, if_pos rfl,
    unitsLoop_eq allBehind ends]
  rfl

theorem stops_plain (all : ∀ c ∈ whole, isDigit c = true)
    (ends : ∀ c ∈ behind.head?, isSpace c = true) : Stops (whole ++ behind) whole 0 behind := by
  rw [Stops, wholeLoop_digits all]
  cases behind with
  | nil => rfl
  | cons c behind =>
    have space := ends c rfl
    rw [wholeLoop, if_neg (space_plain space).2, if_pos space]
    rfl

theorem spaces_behind (all : ∀ c ∈ fraction, isDigit c = true) :
    (∀ c ∈ fraction.drop 9 ++ behind, isSpace c = true) ↔
      fraction.length ≤ 9 ∧ ∀ c ∈ behind, isSpace c = true := by
  constructor
  · intro spaces
    refine ⟨?_, fun c member => spaces c (mem_append_right _ member)⟩
    by_contra long
    obtain ⟨c, member⟩ := exists_mem_of_length_pos
      (show 0 < (fraction.drop 9).length by rw [length_drop]; omega)
    have digit := all c (mem_of_mem_drop member)
    rw [(space_plain (spaces c (mem_append_left _ member))).1] at digit
    cases digit
  · rintro ⟨short, spaces⟩
    rwa [drop_of_length_le short]

/-! ## The tests behind the scanner -/

variable {psz : CString} {strWhole rest : List UInt8} {nUnits : Int}

theorem parseMoney_accepts (stops : Stops (skipSpaces psz.chars) strWhole nUnits rest)
    (nRet : CAmount) (all : ∀ c ∈ strWhole, isDigit c = true) (least : 0 ≤ nUnits)
    (spaces : ∀ c ∈ rest, isSpace c = true) (short : strWhole.length ≤ 10)
    (units : nUnits ≤ COIN) :
    parseMoney psz nRet = .ok (true, number strWhole * COIN + nUnits) := by
  unfold Stops at stops
  have nothing : ¬(rest.any fun c => !isSpace c) = true := by simpa using spaces
  have bound : number strWhole < 10 ^ 10 :=
    lt_of_lt_of_le (number_lt all) (Nat.pow_le_pow_right (by norm_num) short)
  rw [parseMoney, stops, Outcome.ok_bind]
  simp only [nothing, not_lt.mpr short, not_lt.mpr least, not_lt.mpr units, or_self, if_false,
    atoi64_digits all short]
  unfold COIN at units ⊢
  rw [int64_small (by positivity) (by omega), Outcome.ok_bind, int64_small (by omega) (by omega)]
  rfl

theorem parseMoney_rejects (stops : Stops (skipSpaces psz.chars) strWhole nUnits rest)
    (nRet : CAmount)
    (fails : ¬((∀ c ∈ rest, isSpace c = true) ∧ strWhole.length ≤ 10 ∧ nUnits ≤ COIN)) :
    parseMoney psz nRet = .ok (false, nRet) := by
  unfold Stops at stops
  rw [parseMoney, stops, Outcome.ok_bind]
  dsimp only
  by_cases spaces : (rest.any fun c => !isSpace c) = true
  · exact if_pos spaces
  rw [if_neg spaces]
  by_cases long : 10 < strWhole.length
  · exact if_pos long
  rw [if_neg long]
  apply if_pos
  right
  by_contra units
  exact fails ⟨by simpa using spaces, not_lt.mp long, not_lt.mp units⟩

/-- **A text of the form is parsed with its fraction times ten.** -/
theorem parseMoney_form (form : Form psz.chars whole fraction)
    (nRet : CAmount) : parseMoney psz nRet = .ok (parsed whole fraction nRet) := by
  obtain ⟨tail, behind, spaces, point, split⟩ := form.skipped
  have wholeDigits : ∀ c ∈ whole, isDigit c = true :=
    fun c member => form.digits c (mem_append_left _ member)
  have fractionDigits : ∀ c ∈ fraction, isDigit c = true :=
    fun c member => form.digits c (mem_append_right _ member)
  have stops : Stops (skipSpaces psz.chars) whole
      (number (fraction.take 9) * 10 ^ (9 - (fraction.take 9).length))
      (fraction.drop 9 ++ behind) := by
    rw [split]
    rcases point with ⟨rfl, rfl⟩ | rfl
    · exact stops_plain wholeDigits fun c first => spaces c (List.mem_of_head? first)
    · exact stops_point wholeDigits fractionDigits (head_space spaces)
  have coin (n : Nat) : (n : Int) ≤ COIN ↔ n ≤ 10 ^ 8 := by
    unfold COIN
    omega
  have units : (number (fraction.take 9) * 10 ^ (9 - (fraction.take 9).length) : Int) ≤ COIN ↔
      number (fraction.take 9) * 10 ^ (9 - (fraction.take 9).length) ≤ 10 ^ 8 := by
    rw [← coin]
    push_cast
    rfl
  unfold parsed
  by_cases passes : fraction.length ≤ 9 ∧ whole.length ≤ 10 ∧
      number fraction * 10 ^ (9 - fraction.length) ≤ 10 ^ 8
  · obtain ⟨short, wholeShort, small⟩ := passes
    rw [take_of_length_le short] at stops units
    rw [if_pos ⟨short, wholeShort, small⟩]
    exact parseMoney_accepts stops nRet wholeDigits (by positivity)
      ((spaces_behind fractionDigits).mpr ⟨short, spaces⟩) wholeShort (units.mpr small)
  · rw [if_neg passes]
    apply parseMoney_rejects stops
    rintro ⟨spaced, wholeShort, small⟩
    have short := ((spaces_behind fractionDigits).mp spaced).1
    rw [take_of_length_le short] at small units
    exact passes ⟨short, wholeShort, units.mp small⟩

/-- **Every other text is rejected.** -/
theorem parseMoney_other (other : ∀ whole fraction, ¬Form psz.chars whole fraction)
    (nRet : CAmount) : parseMoney psz nRet = .ok (false, nRet) := by
  have before : ∀ c ∈ psz.chars.takeWhile isSpace, isSpace c = true :=
    fun c member => mem_takeWhile_imp member
  have whole : ∀ c ∈ (skipSpaces psz.chars).takeWhile isDigit, isDigit c = true :=
    fun c member => mem_takeWhile_imp member
  have text : psz.chars = psz.chars.takeWhile isSpace ++
      ((skipSpaces psz.chars).takeWhile isDigit ++ (skipSpaces psz.chars).dropWhile isDigit) := by
    rw [takeWhile_append_dropWhile, skipSpaces, takeWhile_append_dropWhile]
  have split : skipSpaces psz.chars = (skipSpaces psz.chars).takeWhile isDigit ++
      (skipSpaces psz.chars).dropWhile isDigit := (takeWhile_append_dropWhile).symm
  have ends := List.head?_dropWhile_not isDigit (skipSpaces psz.chars)
  generalize (skipSpaces psz.chars).takeWhile isDigit = digits at whole text split
  generalize (skipSpaces psz.chars).dropWhile isDigit = rest at text split ends
  cases rest with
  | nil =>
    refine absurd ⟨?_, _, [], [], before, forall_mem_nil _, .inl ⟨rfl, rfl⟩, text⟩
      (other digits [])
    rwa [append_nil]
  | cons c rest =>
    have noDigit : isDigit c = false := ends
    by_cases point : c = pointChar
    · -- the text is of the form up to what stands behind the fraction
      subst point
      have fraction : ∀ c ∈ rest.takeWhile isDigit, isDigit c = true :=
        fun c member => mem_takeWhile_imp member
      have parts : rest = rest.takeWhile isDigit ++ rest.dropWhile isDigit :=
        (takeWhile_append_dropWhile).symm
      have endsBehind : ∀ c ∈ (rest.dropWhile isDigit).head?, isDigit c = false := by
        intro c first
        have head := List.head?_dropWhile_not isDigit rest
        rwa [Option.mem_def.mp first] at head
      rw [parts, ← cons_append] at split text
      have stops := stops_point whole fraction endsBehind
      rw [← split] at stops
      apply parseMoney_rejects stops
      rintro ⟨spaced, -⟩
      have spaces := ((spaces_behind fraction).mp spaced).2
      exact other _ _ ⟨forall_mem_append.mpr ⟨whole, fraction⟩, _, _, _, before, spaces,
        .inr rfl, text⟩
    · by_cases space : isSpace c = true
      · have stops : Stops (digits ++ c :: rest) digits 0 (c :: rest) := by
          apply stops_plain whole
          rintro other ⟨⟩
          exact space
        rw [← split] at stops
        apply parseMoney_rejects stops
        rintro ⟨spaces, -⟩
        refine other digits [] ⟨?_, _, [], _, before, spaces, .inl ⟨rfl, rfl⟩, text⟩
        rwa [append_nil]
      · rw [parseMoney, split, wholeLoop_digits whole, wholeLoop, if_neg point, if_neg space,
          noDigit]
        rfl

/-- **A text is parsed exactly unless it has a fraction that counts ten times.** -/
theorem parsesExactly_iff (psz : CString) : ParsesExactly psz ↔ ¬Tenfold psz := by
  constructor
  · rintro exactly ⟨whole, fraction, form, wholeShort, ⟨short, filled⟩ | ⟨nine, small⟩⟩
    · have value := (exactly 0).1 whole fraction ⟨form, wholeShort, short⟩
      rw [parseMoney_form form, parsed] at value
      split at value
      · have same := (Prod.mk.inj (Except.ok.inj value)).2
        have power : (10 : Int) ^ (9 - fraction.length) = 10 ^ (8 - fraction.length) * 10 := by
          rw [← pow_succ]
          congr 1
          omega
        have positive : (0 : Int) < number fraction * 10 ^ (8 - fraction.length) := by
          have := Nat.pos_of_ne_zero filled
          positivity
        rw [power, exact, ← mul_assoc] at same
        have tenfold : (number fraction * 10 ^ (8 - fraction.length) : Int) * 10 =
            number fraction * 10 ^ (8 - fraction.length) := add_left_cancel same
        omega
      · cases (Prod.mk.inj (Except.ok.inj value)).1
    · have rejected : parseMoney psz 0 = .ok (false, 0) := by
        apply (exactly 0).2
        intro otherWhole otherFraction grammar
        have short := grammar.fractionShort
        rw [grammar.toForm.fraction_eq, ← form.fraction_eq, nine] at short
        norm_num at short
      rw [parseMoney_form form, parsed, nine, if_pos ⟨le_rfl, wholeShort, by simpa using small⟩]
        at rejected
      cases (Prod.mk.inj (Except.ok.inj rejected)).1
  · intro plain nRet
    constructor
    · intro whole fraction grammar
      have zero : number fraction = 0 := by
        by_contra filled
        exact plain ⟨whole, fraction, grammar.toForm, grammar.wholeShort,
          .inl ⟨grammar.fractionShort, filled⟩⟩
      rw [parseMoney_form grammar.toForm, parsed, exact, zero,
        if_pos ⟨le_trans grammar.fractionShort (by norm_num), grammar.wholeShort, by norm_num⟩]
      norm_num
    · intro none
      by_cases some : ∃ whole fraction, Form psz.chars whole fraction
      · obtain ⟨whole, fraction, form⟩ := some
        rw [parseMoney_form form, parsed, if_neg]
        rintro ⟨short, wholeShort, small⟩
        by_cases eight : fraction.length ≤ 8
        · exact none whole fraction ⟨form, wholeShort, eight⟩
        · obtain nine : fraction.length = 9 := by omega
          rw [nine] at small
          exact plain ⟨whole, fraction, form, wholeShort, .inr ⟨nine, by simpa using small⟩⟩
      · apply parseMoney_other
        intro whole fraction form
        exact some ⟨whole, fraction, form⟩

/-! ## The formatter -/

theorem decimal_digits (n : Nat) : ∀ c ∈ decimal n, isDigit c = true := by
  unfold decimal
  split
  · exact forall_mem_singleton.mpr (charOf_digit (by norm_num)).1
  · intro c member
    obtain ⟨digit, inside, rfl⟩ := mem_map.mp member
    exact (charOf_digit (Nat.digits_lt_base (by norm_num) (mem_reverse.mp inside))).1

theorem number_decimal (n : Nat) : number (decimal n) = n := by
  unfold decimal
  split
  · rename_i zero
    rw [zero]
    exact number_zeros 1
  · rw [number, map_map]
    have digits : (Nat.digits 10 n).reverse.map (digitOf ∘ charOf) = (Nat.digits 10 n).reverse := by
      refine (map_congr_left fun digit inside => ?_).trans (map_id _)
      exact (charOf_digit (Nat.digits_lt_base (by norm_num) (mem_reverse.mp inside))).2
    rw [digits, Radix.value, reverse_reverse, Nat.ofDigits_digits]

/-- A number below a power of ten has at most as many digits. -/
theorem decimal_length {n length : Nat} (positive : 0 < length) (small : n < 10 ^ length) :
    (decimal n).length ≤ length := by
  unfold decimal
  split
  · exact positive
  · rw [length_map, length_reverse]
    exact (Nat.digits_length_le_iff (by norm_num) n).mpr small

theorem padded_digits (n : Nat) : ∀ c ∈ padded n, isDigit c = true := by
  refine forall_mem_append.mpr ⟨fun c member => ?_, decimal_digits n⟩
  rw [eq_of_mem_replicate member]
  decide

theorem number_padded (n : Nat) : number (padded n) = n := by
  rw [padded, number_append, number_zeros, zero_mul, zero_add, number_decimal]

theorem padded_length {n : Nat} (small : n < 10 ^ 8) : (padded n).length = 8 := by
  rw [padded, length_append, length_replicate]
  exact Nat.sub_add_cancel (decimal_length (by norm_num) small)

theorem trimLoop_cons (c second third : UInt8) (rest : List UInt8) :
    trimLoop (c :: second :: third :: rest) =
      if c = charOf 0 ∧ isDigit third then (· + 1) <$> trimLoop (second :: third :: rest)
      else .ok 0 := by
  rw [trimLoop]

theorem trimLoop_spec (whole fraction : List UInt8) (all : ∀ c ∈ fraction, isDigit c = true)
    (two : 2 ≤ fraction.length) :
    ∃ kept count, fraction = kept ++ List.replicate count (charOf 0) ∧ 2 ≤ kept.length ∧
      trimLoop (whole ++ pointChar :: fraction).reverse = .ok count := by
  have turned (digits : List UInt8) : (whole ++ pointChar :: digits).reverse =
      digits.reverse ++ pointChar :: whole.reverse := by simp
  rw [turned]
  have spec (back : List UInt8) (digits : ∀ c ∈ back, isDigit c = true) (two : 2 ≤ back.length) :
      ∃ count, List.replicate count (charOf 0) ++ back.drop count = back ∧
        2 ≤ (back.drop count).length ∧
        trimLoop (back ++ pointChar :: whole.reverse) = .ok count := by
    induction back with
    | nil => exact absurd two (by norm_num)
    | cons c back ih =>
      obtain ⟨-, later⟩ := forall_mem_cons.mp digits
      rcases back with - | ⟨second, - | ⟨third, back⟩⟩
      · exact absurd two (by norm_num)
      · -- the point stands two characters back
        refine ⟨0, rfl, two, ?_⟩
        rw [cons_append, cons_append, nil_append, trimLoop_cons]
        exact if_neg fun passes => absurd passes.2 (by decide)
      · by_cases zero : c = charOf 0
        · subst zero
          obtain ⟨count, parts, kept, loop⟩ := ih later (by simp)
          refine ⟨count + 1, ?_, kept, ?_⟩
          · rw [replicate_succ, cons_append, drop_succ_cons, parts]
          · have digit : isDigit third = true := later third (by simp)
            simp only [cons_append] at loop ⊢
            rw [trimLoop_cons, if_pos ⟨rfl, digit⟩, loop]
            rfl
        · refine ⟨0, rfl, two, ?_⟩
          rw [cons_append, cons_append, cons_append, trimLoop_cons]
          exact if_neg fun passes => zero passes.1
  obtain ⟨count, parts, kept, loop⟩ := spec fraction.reverse
    (fun c member => all c (mem_reverse.mp member)) (by rwa [length_reverse])
  refine ⟨(fraction.reverse.drop count).reverse, count, ?_, by rwa [length_reverse], loop⟩
  rw [← reverse_replicate, ← reverse_append, parts, reverse_reverse]

/-- An amount that is not negative is formatted as its coins and a fraction of two digits or more,
without zeros at its end. -/
theorem formatMoney_eq {n : Nat} (small : n < 10 ^ 18) :
    ∃ kept count, formatMoney n false = .ok (decimal (n / 10 ^ 8) ++ pointChar :: kept) ∧
      padded (n % 10 ^ 8) = kept ++ List.replicate count (charOf 0) ∧ 2 ≤ kept.length := by
  have length : (padded (n % 10 ^ 8)).length = 8 := padded_length (Nat.mod_lt _ (by norm_num))
  obtain ⟨kept, count, parts, two, loop⟩ := trimLoop_spec (decimal (n / 10 ^ 8))
    (padded (n % 10 ^ 8)) (padded_digits _) (by omega)
  refine ⟨kept, count, ?_, parts, two⟩
  have abs : absOf n = .ok (n : Int) := by
    unfold absOf
    split
    · rfl
    · rename_i zero
      obtain rfl : n = 0 := Nat.eq_zero_of_not_pos fun some => zero (Int.natCast_pos.mpr some)
      rfl
  have quotient : ((n : Int).tdiv COIN).toNat = n / 10 ^ 8 := by
    rw [Int.tdiv_eq_ediv_of_nonneg (Int.natCast_nonneg n)]
    unfold COIN
    omega
  have remainder : ((n : Int).tmod COIN).toNat = n % 10 ^ 8 := by
    rw [Int.tmod_eq_emod_of_nonneg (Int.natCast_nonneg n)]
    unfold COIN
    omega
  rw [formatMoney, abs, Outcome.ok_bind]
  dsimp only
  rw [quotient, remainder, loop, Outcome.ok_bind, parts]
  have cut : (decimal (n / 10 ^ 8) ++ pointChar :: (kept ++ List.replicate count (charOf 0))).take
      ((decimal (n / 10 ^ 8) ++ pointChar :: (kept ++ List.replicate count (charOf 0))).length -
        count) = decimal (n / 10 ^ 8) ++ pointChar :: kept := by
    rw [← cons_append, ← append_assoc, length_append, length_replicate,
      Nat.add_sub_cancel, take_left]
  rw [cut, if_neg (not_lt.mpr (Int.natCast_nonneg n)), if_neg (by simp)]

/-- **An amount comes back exactly if it is a number of whole coins.** -/
theorem comesBack_iff {n : Nat} (small : n < 10 ^ 18) : ComesBack n ↔ (COIN ∣ (n : Int)) := by
  obtain ⟨kept, count, format, parts, two⟩ := formatMoney_eq small
  have all : ∀ c ∈ kept ++ List.replicate count (charOf 0), isDigit c = true :=
    parts ▸ padded_digits _
  have digits : ∀ c ∈ decimal (n / 10 ^ 8) ++ kept, isDigit c = true :=
    forall_mem_append.mpr ⟨decimal_digits _, (forall_mem_append.mp all).1⟩
  have length : kept.length + count = 8 := by
    have whole := padded_length (Nat.mod_lt n (show 0 < 10 ^ 8 by norm_num))
    rwa [parts, length_append, length_replicate] at whole
  have fraction : number kept * 10 ^ count = n % 10 ^ 8 := by
    rw [← number_padded (n % 10 ^ 8), parts, number_append, number_zeros, length_replicate,
      add_zero]
  have short : (decimal (n / 10 ^ 8)).length ≤ 10 := decimal_length (by norm_num) (by omega)
  have noNull : 0 ∉ decimal (n / 10 ^ 8) ++ pointChar :: kept := by
    intro member
    rw [mem_append, mem_cons] at member
    rcases member with coins | point | rest
    · exact (digit_plain (decimal_digits _ 0 coins)).2.2.2.2 rfl
    · cases point
    · exact (digit_plain ((forall_mem_append.mp all).1 0 rest)).2.2.2.2 rfl
  have form : Form (CString.ofString (decimal (n / 10 ^ 8) ++ pointChar :: kept)).chars
      (decimal (n / 10 ^ 8)) kept := by
    rw [CString.ofString_chars noNull]
    exact ⟨digits, [], pointChar :: kept, [], forall_mem_nil _, forall_mem_nil _,
      .inr rfl, by simp⟩
  have room : 9 - kept.length = count + 1 := by omega
  have tenfold : number kept * 10 ^ (9 - kept.length) = n % 10 ^ 8 * 10 := by
    rw [room, pow_succ, ← mul_assoc, fraction]
  have tenfoldInt : (number kept * 10 ^ (9 - kept.length) : Int) = ((n % 10 ^ 8 * 10 : Nat) : Int) := by
    rw [← tenfold]
    push_cast
    rfl
  have parse (nRet : CAmount) : parseMoney
      (CString.ofString (decimal (n / 10 ^ 8) ++ pointChar :: kept)) nRet = .ok
      (if n % 10 ^ 8 * 10 ≤ 10 ^ 8 then
        (true, ((n / 10 ^ 8 : Nat) : Int) * COIN + ((n % 10 ^ 8 * 10 : Nat) : Int))
      else (false, nRet)) := by
    have nine : kept.length ≤ 9 := by omega
    rw [parseMoney_form form]
    simp only [parsed, tenfold, tenfoldInt, number_decimal, nine, short, true_and]
  unfold COIN at parse ⊢
  constructor
  · intro back
    obtain ⟨str, formatted, parsed⟩ := back 0
    rw [format] at formatted
    rw [← Except.ok.inj formatted, parse] at parsed
    split at parsed
    · have same : ((n / 10 ^ 8 : Nat) : Int) * 100000000 + ((n % 10 ^ 8 * 10 : Nat) : Int) = n :=
        (Prod.mk.inj (Except.ok.inj parsed)).2
      show (100000000 : Int) ∣ n
      omega
    · cases (Prod.mk.inj (Except.ok.inj parsed)).1
  · intro coins nRet
    have divides : (100000000 : Int) ∣ n := coins
    have whole : n % 10 ^ 8 = 0 := by omega
    refine ⟨_, format, ?_⟩
    rw [parse, whole, if_pos (by norm_num)]
    have value : ((n / 10 ^ 8 : Nat) : Int) * 100000000 + ((0 * 10 : Nat) : Int) = n := by omega
    rw [value]

/-- **A text is parsed as its grammar says exactly if its fraction is zero and it has no ninth digit
that is accepted, and an amount of the network comes back exactly if it is a number of whole
coins.** -/
theorem money_exact_iff [ChainParams] (supply : nMaxMoneyOut ≤ 43199500 * COIN) :
    (∀ psz : CString, ParsesExactly psz ↔ ¬Tenfold psz) ∧
      ∀ n : CAmount, 0 ≤ n → n ≤ nMaxMoneyOut → (ComesBack n ↔ COIN ∣ n) := by
  refine ⟨parsesExactly_iff, fun n least most => ?_⟩
  obtain ⟨n, rfl⟩ := Int.eq_ofNat_of_zero_le least
  apply comesBack_iff
  have bound : (n : Int) ≤ 43199500 * COIN := le_trans most supply
  unfold COIN at bound
  omega

/-- On the main network 0.5 coins do not come back, and 2 coins do. -/
theorem money_exact_main :
    ¬ComesBack 50000000 ∧ ComesBack 200000000 := by
  let _ := mainParams
  have exactly := (money_exact_iff (by decide)).2
  exact ⟨fun back => absurd ((exactly 50000000 (by decide) (by decide)).mp back) (by decide),
    (exactly 200000000 (by decide) (by decide)).mpr (by decide)⟩

/-- The text `0.1` of the unit tests is accepted as a whole coin, and 0.5 coins are formatted as
`0.50`, which is rejected. -/
theorem money_not_exact :
    parseMoney (CString.ofString [0x30, 0x2e, 0x31]) 7 = .ok (true, COIN) ∧
      ¬ParsesExactly (CString.ofString [0x30, 0x2e, 0x31]) ∧
      ¬ParsesExactly (CString.ofString [0x30, 0x2e, 0x35]) ∧ ¬ComesBack 50000000 := by
  have tenth (c : UInt8) (digit : isDigit c = true) (filled : number [c] ≠ 0) (plain : 0 ∉ [0x30, pointChar, c]) :
      ¬ParsesExactly (CString.ofString [0x30, pointChar, c]) := by
    rw [parsesExactly_iff, not_not]
    have form : Form (CString.ofString [0x30, pointChar, c]).chars [0x30] [c] := by
      rw [CString.ofString_chars plain]
      exact ⟨by simpa using ⟨by decide, digit⟩, [], [pointChar, c], [], forall_mem_nil _,
        forall_mem_nil _, .inr rfl, rfl⟩
    exact ⟨[0x30], [c], form, by decide, .inl ⟨by simp, filled⟩⟩
  refine ⟨by decide, tenth 0x31 (by decide) (by decide) (by decide),
    tenth 0x35 (by decide) (by decide) (by decide), fun back => ?_⟩
  have divides := (comesBack_iff (show 50000000 < 10 ^ 18 by norm_num)).mp back
  exact absurd divides (by decide)

end MoneyString

end Agouti
