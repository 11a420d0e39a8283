import Agouti.Primitives.LimbArithmetic

/-! # Shifts, comparison and division of `base_uint`
-/

namespace Agouti

namespace BaseUint

variable {WIDTH : Nat} {a b : BaseUint WIDTH}

/-! ## Shifts -/

theorem getLsbD_orIf {p : Prop} [Decidable p] {i : Nat} (inside : p → i < WIDTH)
    (word : BitVec 32) (m t : Nat) :
    ((a.orIf p i inside word).limb m).getLsbD t =
      ((a.limb m).getLsbD t || (decide (p ∧ i = m) && word.getLsbD t)) := by
  unfold orIf
  by_cases holds : p
  · rw [dif_pos holds, limb_orLimb]
    by_cases same : i = m
    · simp [holds, same]
    · simp [same]
  · simp [holds]

theorem getLsbD_fold {p q : Nat → Prop} [DecidablePred p] [DecidablePred q] {f g : Nat → Nat}
    {u v : Nat → BitVec 32} (first : ∀ i < WIDTH, p i → f i < WIDTH)
    (second : ∀ i < WIDTH, q i → g i < WIDTH) (m t : Nat) :
    ((Nat.fold WIDTH (fun i inside (s : BaseUint WIDTH) =>
      (s.orIf (p i) (f i) (first i inside) (u i)).orIf (q i) (g i) (second i inside) (v i))
        zero).limb m).getLsbD t = true ↔
      ∃ i < WIDTH, (p i ∧ f i = m ∧ (u i).getLsbD t = true) ∨
        (q i ∧ g i = m ∧ (v i).getLsbD t = true) := by
  apply Limbs.fold_invariant (fun count (s : BaseUint WIDTH) => (s.limb m).getLsbD t = true ↔
    ∃ i < count, (p i ∧ f i = m ∧ (u i).getLsbD t = true) ∨
      (q i ∧ g i = m ∧ (v i).getLsbD t = true))
  · simp [limb_zero]
  · intro count inside s before
    rw [getLsbD_orIf, getLsbD_orIf, Bool.or_eq_true, Bool.or_eq_true, before,
      Nat.exists_lt_succ_right]
    simp only [Bool.and_eq_true, decide_eq_true_eq, and_assoc, or_assoc]

theorem getLsbD_behind {word : BitVec 32} {t : Nat} (set : word.getLsbD t = true) : t < 32 := by
  by_contra behind
  rw [BitVec.getLsbD_of_ge _ _ (not_lt.mp behind)] at set
  cases set

/-- **`<<=` multiplies by a power of two.** -/
theorem toNat_shiftLeftAssign (a : BaseUint WIDTH) (shift : Nat) :
    (a.shiftLeftAssign shift).toNat = a.toNat * 2 ^ shift % 2 ^ (32 * WIDTH) := by
  apply Nat.eq_of_testBit_eq
  intro q
  rw [← Nat.shiftLeft_eq, Nat.testBit_mod_two_pow, Nat.testBit_shiftLeft, testBit_toNat,
    testBit_toNat]
  by_cases within : q < 32 * WIDTH
  · rw [Bool.eq_iff_iff, shiftLeftAssign, getLsbD_fold]
    simp only [decide_eq_true within, Bool.true_and, Bool.and_eq_true, decide_eq_true_eq,
      BitVec.getLsbD_ushiftRight, BitVec.getLsbD_shiftLeft, Bool.not_eq_true', decide_eq_false_iff_not]
    constructor
    · rintro ⟨i, inside, ⟨_, place, set⟩ | ⟨_, place, set⟩⟩
      · -- a bit that leaves its limb
        have bound := getLsbD_behind set
        have limb : (q - shift) / 32 = i := by omega
        have bit : (q - shift) % 32 = 32 - shift % 32 + q % 32 := by omega
        rw [limb, bit]
        exact ⟨by omega, set⟩
      · have limb : (q - shift) / 32 = i := by omega
        have bit : (q - shift) % 32 = q % 32 - shift % 32 := by omega
        rw [limb, bit]
        exact ⟨by omega, set.2⟩
    · rintro ⟨above, set⟩
      refine ⟨(q - shift) / 32, by omega, ?_⟩
      by_cases leaves : q % 32 < shift % 32
      · have bit : (q - shift) % 32 = 32 - shift % 32 + q % 32 := by omega
        rw [bit] at set
        exact .inl ⟨by omega, by omega, set⟩
      · have bit : (q - shift) % 32 = q % 32 - shift % 32 := by omega
        rw [bit] at set
        exact .inr ⟨by omega, by omega, ⟨by omega, leaves⟩, set⟩
  · rw [limb_behind (by omega), decide_eq_false within]
    simp

/-- **`>>=` divides by a power of two.** -/
theorem toNat_shiftRightAssign (a : BaseUint WIDTH) (shift : Nat) :
    (a.shiftRightAssign shift).toNat = a.toNat / 2 ^ shift := by
  apply Nat.eq_of_testBit_eq
  intro q
  rw [Nat.testBit_div_two_pow, testBit_toNat, testBit_toNat, Bool.eq_iff_iff, shiftRightAssign,
    getLsbD_fold]
  simp only [Bool.and_eq_true, decide_eq_true_eq, BitVec.getLsbD_ushiftRight,
    BitVec.getLsbD_shiftLeft, Bool.not_eq_true', decide_eq_false_iff_not]
  constructor
  · rintro ⟨i, inside, ⟨_, place, set⟩ | ⟨_, place, set⟩⟩
    · have limb : (q + shift) / 32 = i := by omega
      have bit : (q + shift) % 32 = q % 32 - (32 - shift % 32) := by omega
      rw [limb, bit]
      exact set.2
    · have bound := getLsbD_behind set
      have limb : (q + shift) / 32 = i := by omega
      have bit : (q + shift) % 32 = shift % 32 + q % 32 := by omega
      rw [limb, bit]
      exact set
  · intro set
    have inside : (q + shift) / 32 < WIDTH := by
      by_contra behind
      rw [limb_behind (not_lt.mp behind)] at set
      simp at set
    refine ⟨(q + shift) / 32, inside, ?_⟩
    by_cases leaves : q % 32 + shift % 32 < 32
    · have bit : (q + shift) % 32 = shift % 32 + q % 32 := by omega
      rw [bit] at set
      exact .inr ⟨by omega, by omega, set⟩
    · have bit : (q + shift) % 32 = q % 32 - (32 - shift % 32) := by omega
      rw [bit] at set
      exact .inl ⟨by omega, by omega, ⟨by omega, by omega⟩, set⟩

/-! ## Comparison -/

theorem compareFrom_eq (a b : BaseUint WIDTH) (count : Nat) :
    compareFrom a b count =
      if a.low count < b.low count then -1 else if b.low count < a.low count then 1 else 0 := by
  induction count with
  | zero => rfl
  | succ i ih =>
    have bound (number : BaseUint WIDTH) : ∀ j < i, (number.limb j).toNat < 2 ^ 32 :=
      fun j _ => (number.limb j).isLt
    simp only [compareFrom, BitVec.lt_def, gt_iff_lt]
    rcases Nat.lt_trichotomy (a.limb i).toNat (b.limb i).toNat with below | same | above
    · have less : a.low (i + 1) < b.low (i + 1) := Limbs.value_lt_of_top (bound a) below
      rw [if_pos below, if_pos less]
    · rw [if_neg (by omega), if_neg (by omega), ih, low_succ, low_succ, same]
      simp only [Nat.add_lt_add_iff_right]
    · have more : b.low (i + 1) < a.low (i + 1) := Limbs.value_lt_of_top (bound b) above
      rw [if_neg (by omega), if_pos above, if_neg (by omega), if_pos more]

/-- **`CompareTo` compares.** -/
theorem compareTo_eq (a b : BaseUint WIDTH) :
    a.compareTo b = if a.toNat < b.toNat then -1 else if b.toNat < a.toNat then 1 else 0 :=
  compareFrom_eq a b WIDTH

theorem and_bit_iff {word : BitVec 32} {bit : Nat} (inside : bit < 32)
    (below : word.toNat < 2 ^ (bit + 1)) : word &&& 1#32 <<< bit ≠ 0 ↔ 2 ^ bit ≤ word.toNat := by
  rw [← BitVec.twoPow_eq, BitVec.and_twoPow]
  by_cases high : 2 ^ bit ≤ word.toNat
  · have set : word.getLsbD bit = true :=
      Nat.testBit_of_two_pow_le_and_two_pow_add_one_gt high below
    have some : BitVec.twoPow 32 bit ≠ 0 := fun none => by
      have value := congrArg BitVec.toNat none
      rw [BitVec.toNat_twoPow_of_lt inside] at value
      exact (Nat.two_pow_pos bit).ne' value
    rw [if_pos set]
    exact iff_of_true some high
  · have unset : word.getLsbD bit = false := Nat.testBit_lt_two_pow (not_le.mp high)
    rw [if_neg (by simp [unset])]
    exact iff_of_false (not_not.mpr rfl) high

theorem topBit_eq {word : BitVec 32} {bits : Nat} (some : word.toNat ≠ 0) (inside : bits < 32)
    (below : word.toNat < 2 ^ (bits + 1)) : topBit word bits = word.toNat.size := by
  induction bits with
  | zero =>
    have one : word.toNat = 1 := by omega
    rw [topBit, one]
    rfl
  | succ bits ih =>
    simp only [topBit, and_bit_iff inside below]
    split
    · rename_i high
      exact le_antisymm (Nat.lt_size.mpr high) (Nat.size_le.mpr below)
    · rename_i low
      exact ih (by omega) (not_le.mp low)

/-- **`bits` is the number of bits.** -/
theorem bits_eq (a : BaseUint WIDTH) : a.bits = a.toNat.size := by
  have loop (count : Nat) : bitsFrom a count = (a.low count).size := by
    induction count with
    | zero => simp [bitsFrom, low, Limbs.value]
    | succ pos ih =>
      rw [bitsFrom]
      by_cases empty : a.limb pos = 0
      · rw [if_neg (not_not.mpr empty), ih, low_succ, empty]
        simp
      · have some : (a.limb pos).toNat ≠ 0 := fun none => empty (BitVec.toNat_inj.mp none)
        rw [if_pos empty, topBit_eq some (by decide) (a.limb pos).isLt, low,
          Limbs.size_value (fun j _ => (a.limb j).isLt) some]
  exact loop WIDTH

/-! ## Subtraction -/

theorem toNat_complement (a : BaseUint WIDTH) :
    a.complement.toNat + a.toNat + 1 = 2 ^ (32 * WIDTH) := by
  refine Limbs.value_complement fun i inside => ?_
  have bound := (a.limb i).isLt
  have flipped : a.complement.limb i = ~~~ a.limb i := by
    simp [limb, complement, inside]
  rw [flipped, BitVec.toNat_not]
  omega

theorem toNat_incrementFrom {rest i : Nat} (whole : i + rest = WIDTH) (some : 0 < rest)
    (a : BaseUint WIDTH) :
    (incrementFrom rest i a).toNat = (a.toNat + 2 ^ (32 * i)) % 2 ^ (32 * WIDTH) := by
  induction rest generalizing i a with
  | zero => exact absurd some (lt_irrefl 0)
  | succ rest ih =>
    have inside : i < WIDTH := by omega
    have written := @toNat_set WIDTH a i inside (a.limb i + 1)
    have bound := (a.limb i).isLt
    have below := toNat_lt (a.set i inside (a.limb i + 1))
    have one : (1 : BitVec 32).toNat = 1 := rfl
    rw [incrementFrom, dif_pos inside]
    simp only [limb_set, if_true]
    by_cases full : (a.limb i).toNat + 1 = 2 ^ 32
    · -- the limb becomes zero and carries one to the next limb
      have none : (a.limb i + 1).toNat = 0 := by
        rw [BitVec.toNat_add, one, full, Nat.mod_self]
      have weight : 2 ^ (32 * (i + 1)) = (a.limb i).toNat * 2 ^ (32 * i) + 2 ^ (32 * i) := by
        rw [← Nat.succ_mul, Nat.succ_eq_add_one, full, ← Nat.pow_add, Nat.mul_succ, Nat.add_comm]
      have total : (a.set i inside (a.limb i + 1)).toNat + 2 ^ (32 * (i + 1)) =
          a.toNat + 2 ^ (32 * i) := by
        rw [none] at written
        omega
      have wraps : a.limb i + 1 = 0 := BitVec.toNat_inj.mp none
      by_cases last : i < WIDTH - 1
      · rw [if_pos ⟨wraps, last⟩, ih (by omega) (by omega), total]
      · have highest : i + 1 = WIDTH := by omega
        rw [highest] at total
        rw [if_neg (fun both => last both.2), ← total, Nat.add_mod_right, Nat.mod_eq_of_lt below]
    · have sum : (a.limb i + 1).toNat = (a.limb i).toNat + 1 := by
        rw [BitVec.toNat_add, one, Nat.mod_eq_of_lt (by omega)]
      have apart : a.limb i + 1 ≠ 0 := fun wraps => by
        have none := congrArg BitVec.toNat wraps
        rw [sum] at none
        exact Nat.succ_ne_zero _ none
      have total : (a.set i inside (a.limb i + 1)).toNat = a.toNat + 2 ^ (32 * i) := by
        rw [sum, Nat.add_mul, Nat.one_mul] at written
        omega
      rw [if_neg (fun both => apart both.1), ← total, Nat.mod_eq_of_lt below]

theorem toNat_increment (a : BaseUint WIDTH) :
    a.increment.toNat = (a.toNat + 1) % 2 ^ (32 * WIDTH) := by
  rcases Nat.eq_zero_or_pos WIDTH with rfl | some
  · have below := toNat_lt a.increment
    rw [Nat.mul_zero, pow_zero] at below ⊢
    omega
  · rw [increment, toNat_incrementFrom (Nat.zero_add _) some, Nat.mul_zero, pow_zero]

theorem toNat_neg (a : BaseUint WIDTH) :
    a.neg.toNat = (2 ^ (32 * WIDTH) - a.toNat) % 2 ^ (32 * WIDTH) := by
  rw [neg, toNat_increment, ← toNat_complement a]
  congr 1
  omega

/-- **`-=` subtracts.** -/
theorem toNat_subAssign (a : BaseUint WIDTH) (b : Operand WIDTH) :
    (a.subAssign b).toNat =
      (a.toNat + (2 ^ (32 * WIDTH) - (b.read a).toNat)) % 2 ^ (32 * WIDTH) := by
  rw [subAssign, toNat_addAssign, Operand.read, toNat_neg, Nat.add_mod_mod]

theorem toNat_subAssign_of_le {a b : BaseUint WIDTH} (below : b.toNat ≤ a.toNat) :
    (a.subAssign (.other b)).toNat = a.toNat - b.toNat := by
  have bound := toNat_lt a
  rw [toNat_subAssign, Operand.read, ← Nat.add_sub_assoc (toNat_lt b).le, Nat.sub_add_comm below,
    Nat.add_mod_right, Nat.mod_eq_of_lt (by omega)]

/-! ## Division -/

theorem toNat_orLimb_bit {q : BaseUint WIDTH} {shift : Nat} (inside : shift / 32 < WIDTH)
    (multiple : 2 ^ (shift + 1) ∣ q.toNat) :
    (q.orLimb (shift / 32) inside (1#32 <<< (shift % 32))).toNat = q.toNat + 2 ^ shift := by
  obtain ⟨high, whole⟩ := multiple
  have sum : q.toNat + 2 ^ shift = q.toNat ||| 2 ^ shift := by
    rw [whole]
    exact Nat.two_pow_add_eq_or_of_lt (Nat.pow_lt_pow_right Nat.one_lt_two (Nat.lt_succ_self _)) _
  rw [sum]
  apply Nat.eq_of_testBit_eq
  intro p
  have bit : (1#32 <<< (shift % 32)).getLsbD (p % 32) = decide (shift % 32 = p % 32) := by
    rw [← BitVec.twoPow_eq, BitVec.getLsbD_twoPow, decide_eq_true (by omega), Bool.true_and]
  rw [Nat.testBit_or, Nat.testBit_two_pow, testBit_toNat, testBit_toNat, limb_orLimb]
  by_cases limb : shift / 32 = p / 32
  · have same : decide (shift % 32 = p % 32) = decide (shift = p) := by
      apply decide_eq_decide.mpr
      omega
    rw [if_pos limb, BitVec.getLsbD_or, bit, same]
  · rw [if_neg limb, decide_eq_false (by omega), Bool.or_false]

/-- What holds in front of each round of the division, `rest` of which are left. -/
structure Division.Keeps (a b : BaseUint WIDTH) (rest : Nat) (s : Division WIDTH) : Prop where
  shift : s.shift = (rest : Int) - 1
  aligned : 0 < rest → s.div.toNat = b.toNat * 2 ^ (rest - 1)
  sum : s.quotient.toNat * b.toNat + s.num.toNat = a.toNat
  multiple : 2 ^ rest ∣ s.quotient.toNat
  below : s.num.toNat < b.toNat * 2 ^ rest

theorem Division.Keeps.round {rest : Nat} {s : Division WIDTH} (some : 0 < b.toNat)
    (keeps : Division.Keeps a b (rest + 1) s) :
    ∃ next, s.round = .inl next ∧ Division.Keeps a b rest next := by
  have shift : s.shift = rest := by
    rw [keeps.shift]
    omega
  have aligned : s.div.toNat = b.toNat * 2 ^ rest := keeps.aligned (Nat.succ_pos _)
  have halved : 0 < rest → (s.div.shiftRightAssign 1).toNat = b.toNat * 2 ^ (rest - 1) := by
    intro more
    obtain ⟨fewer, rfl⟩ := Nat.exists_eq_succ_of_ne_zero more.ne'
    rw [toNat_shiftRightAssign, aligned, pow_succ, pow_one, ← Nat.mul_assoc,
      Nat.mul_div_cancel _ Nat.two_pos]
    rfl
  have lower : 2 ^ rest ∣ s.quotient.toNat :=
    (pow_dvd_pow 2 (Nat.le_succ rest)).trans keeps.multiple
  rw [Division.round, if_neg (by omega), compareTo_eq]
  by_cases fits : s.div.toNat ≤ s.num.toNat
  · have inside : s.shift.toNat / 32 < WIDTH := by
      have power : 2 ^ rest < 2 ^ (32 * WIDTH) :=
        (Nat.le_mul_of_pos_left _ some).trans_lt (aligned ▸ toNat_lt s.div)
      have bound := (Nat.pow_lt_pow_iff_right Nat.one_lt_two).mp power
      omega
    have place : s.shift.toNat = rest := by omega
    have set : (s.quotient.orLimb (s.shift.toNat / 32) inside
        (1#32 <<< (s.shift.toNat % 32))).toNat = s.quotient.toNat + 2 ^ rest := by
      rw [toNat_orLimb_bit inside (place.symm ▸ keeps.multiple), place]
    have less : (s.num.subAssign (.other s.div)).toNat = s.num.toNat - b.toNat * 2 ^ rest := by
      rw [toNat_subAssign_of_le fits, aligned]
    rw [aligned] at fits
    rw [if_pos (by split_ifs <;> omega), dif_pos inside]
    refine ⟨_, rfl, by simp only [shift], fun more => halved more, ?_, ?_, ?_⟩
    · simp only [set, less, Nat.add_mul, Nat.mul_comm (2 ^ rest)]
      have sum := keeps.sum
      omega
    · rw [set]
      exact Nat.dvd_add lower (dvd_refl _)
    · have below := keeps.below
      rw [pow_succ, ← Nat.mul_assoc] at below
      rw [less]
      omega
  · rw [if_neg (by rw [if_pos (not_le.mp fits)]; decide)]
    exact ⟨_, rfl, by simp only [shift], fun more => halved more, keeps.sum, lower,
      aligned ▸ not_le.mp fits⟩

theorem Division.Keeps.returns {rest : Nat} {s : Division WIDTH} (some : 0 < b.toNat)
    (keeps : Division.Keeps a b rest s) :
    ∃ quotient, Loop.Returns Division.round s (.ok quotient) ∧
      quotient.toNat = a.toNat / b.toNat := by
  induction rest generalizing s with
  | zero =>
    have shift := keeps.shift
    have done : s.round = .inr (.ok s.quotient) := by
      rw [Division.round, if_pos (by omega)]
    refine ⟨s.quotient, Loop.returns_of_done done, ?_⟩
    have below := keeps.below
    rw [pow_zero, Nat.mul_one] at below
    rw [← keeps.sum, Nat.mul_comm, Nat.mul_add_div some, Nat.div_eq_of_lt below, Nat.add_zero]
  | succ rest ih =>
    obtain ⟨next, goes, kept⟩ := keeps.round some
    obtain ⟨quotient, returned, exact⟩ := ih kept
    exact ⟨quotient, (Loop.returns_iff_next goes).mpr returned, exact⟩

/-- **`/=` is floor division, and its loop comes to an end.** -/
theorem divReturns (wide : 1 < WIDTH) (a : BaseUint WIDTH) (b : Operand WIDTH)
    (some : (b.read a).toNat ≠ 0) :
    ∃ quotient, a.DivReturns b (.ok quotient) ∧
      quotient.toNat = a.toNat / (b.read a).toNat := by
  have positive : 0 < (b.read a).bits := by
    rw [bits_eq]
    exact Nat.size_pos.mpr (Nat.pos_of_ne_zero some)
  have lower : 2 ^ ((b.read a).bits - 1) ≤ (b.read a).toNat := by
    rw [← Nat.lt_size, ← bits_eq]
    omega
  have upper : (b.read a).toNat < 2 ^ (b.read a).bits := by
    rw [← Nat.size_le, bits_eq]
  have above : a.toNat < 2 ^ a.bits := by
    rw [← Nat.size_le, bits_eq]
  have fits : a.bits ≤ 32 * WIDTH := by
    rw [bits_eq]
    exact Nat.size_le.mpr (toNat_lt a)
  unfold DivReturns divStart
  simp only [assign_zero wide, if_neg positive.ne']
  by_cases smaller : a.bits < (b.read a).bits
  · have less : a.toNat < (b.read a).toNat :=
      above.trans_le ((Nat.pow_le_pow_right Nat.two_pos (by omega)).trans lower)
    rw [if_pos smaller]
    exact ⟨zero, rfl, by rw [toNat_zero, Nat.div_eq_of_lt less]⟩
  · rw [if_neg smaller]
    have whole : 2 ^ a.bits = 2 ^ (b.read a).bits * 2 ^ (a.bits - (b.read a).bits) := by
      rw [← Nat.pow_add, Nat.add_sub_cancel' (not_lt.mp smaller)]
    have keeps : Division.Keeps a (b.read a) (a.bits - (b.read a).bits + 1)
        ⟨zero, a, (b.read a).shiftLeftAssign (a.bits - (b.read a).bits),
          (a.bits - (b.read a).bits : Nat)⟩ := by
      refine ⟨?_, ?_, ?_, ?_, ?_⟩
      · simp
      · intro _
        rw [toNat_shiftLeftAssign, Nat.mod_eq_of_lt]
        · rfl
        · refine lt_of_lt_of_le ?_ (Nat.pow_le_pow_right Nat.two_pos fits)
          rw [whole]
          exact Nat.mul_lt_mul_of_pos_right upper (Nat.two_pow_pos _)
      · simp [toNat_zero]
      · simp [toNat_zero]
      · refine above.trans_le ?_
        have double : 2 ^ (b.read a).bits = 2 ^ ((b.read a).bits - 1) * 2 := by
          rw [← pow_succ, Nat.sub_add_cancel positive]
        rw [whole, double, pow_succ, Nat.mul_assoc, Nat.mul_comm 2]
        exact Nat.mul_le_mul_right _ lower
    exact keeps.returns (Nat.pos_of_ne_zero some)

/-! ## All operators -/

/-- An operation on numbers. -/
inductive Op (WIDTH : Nat) where
  | add (b : Operand WIDTH)
  | addWord (b64 : BitVec 64)
  | sub (b : Operand WIDTH)
  | subWord (b64 : BitVec 64)
  | mulWord (b32 : BitVec 32)
  | mul (b : Operand WIDTH)
  | div (b : Operand WIDTH)
  | shiftLeft (shift : Nat)
  | shiftRight (shift : Nat)
  | compare (b : BaseUint WIDTH)
  | bits

/-- The operator computes what it stands for, modulo a power of two. -/
def Computes (a : BaseUint WIDTH) : Op WIDTH → Prop
  | .add b => (a.addAssign b).toNat = (a.toNat + (b.read a).toNat) % 2 ^ (32 * WIDTH)
  | .addWord b64 => ∃ sum, a.addWordAssign b64 = some sum ∧
      sum.toNat = (a.toNat + b64.toNat) % 2 ^ (32 * WIDTH)
  | .sub b => ((a.subAssign b).toNat : Int) =
      ((a.toNat : Int) - (b.read a).toNat) % 2 ^ (32 * WIDTH)
  | .subWord b64 => ∃ difference, a.subWordAssign b64 = some difference ∧
      (difference.toNat : Int) = ((a.toNat : Int) - b64.toNat) % 2 ^ (32 * WIDTH)
  | .mulWord b32 => (a.mulWordAssign b32).toNat = a.toNat * b32.toNat % 2 ^ (32 * WIDTH)
  | .mul b => ∃ product, a.mulAssign b = some product ∧
      product.toNat = a.toNat * (b.read a).toNat % 2 ^ (32 * WIDTH)
  | .div b => (b.read a).toNat ≠ 0 → ∃ quotient, a.DivReturns b (.ok quotient) ∧
      quotient.toNat = a.toNat / (b.read a).toNat
  | .shiftLeft shift => (a.shiftLeftAssign shift).toNat = a.toNat * 2 ^ shift % 2 ^ (32 * WIDTH)
  | .shiftRight shift => (a.shiftRightAssign shift).toNat = a.toNat / 2 ^ shift
  | .compare b =>
    a.compareTo b = if a.toNat < b.toNat then -1 else if b.toNat < a.toNat then 1 else 0
  | .bits => a.bits = a.toNat.size

/-- Two limbs are there to be assigned, and a factor that is the number itself is not lost. -/
def Fits (a : BaseUint WIDTH) : Op WIDTH → Prop
  | .addWord _ | .subWord _ => 1 < WIDTH
  | .mul (.other _) => 1 < WIDTH
  | .mul .this => 1 < WIDTH ∧ 2 ^ (32 * WIDTH) ∣ a.toNat * a.toNat
  | .div b => 1 < WIDTH ∨ (b.read a).toNat = 0
  | _ => True

theorem subAssign_int (a b : BaseUint WIDTH) :
    ((a.addAssign (.other b.neg)).toNat : Int) =
      ((a.toNat : Int) - b.toNat) % 2 ^ (32 * WIDTH) := by
  have bound := toNat_lt b
  have whole : ((a.toNat + (2 ^ (32 * WIDTH) - b.toNat) : Nat) : Int) =
      (a.toNat : Int) - b.toNat + 2 ^ (32 * WIDTH) := by
    rw [Int.natCast_add, Int.ofNat_sub bound.le, Int.natCast_pow, Int.cast_ofNat_Int]
    omega
  have difference := toNat_subAssign a (.other b)
  rw [subAssign, Operand.read] at difference
  rw [difference, Int.natCast_emod, whole, Int.natCast_pow, Int.cast_ofNat_Int]
  exact Int.add_emod_right _ _

/-- **The operators of `base_uint` are those of the numbers.** -/
theorem computes_iff (a : BaseUint WIDTH) (op : Op WIDTH) : a.Computes op ↔ a.Fits op := by
  cases op with
  | add b => exact iff_of_true (toNat_addAssign a b) trivial
  | sub b => exact iff_of_true (subAssign_int a (b.read a)) trivial
  | mulWord b32 => exact iff_of_true (toNat_mulWordAssign a b32) trivial
  | shiftLeft shift => exact iff_of_true (toNat_shiftLeftAssign a shift) trivial
  | shiftRight shift => exact iff_of_true (toNat_shiftRightAssign a shift) trivial
  | compare b => exact iff_of_true (compareTo_eq a b) trivial
  | bits => exact iff_of_true (bits_eq a) trivial
  | addWord b64 =>
    by_cases wide : 1 < WIDTH
    · obtain ⟨b, assigned, value⟩ := @assign_eq WIDTH wide b64
      refine iff_of_true ⟨_, by rw [addWordAssign, assigned]; rfl, ?_⟩ wide
      rw [toNat_addAssign, Operand.read, value]
    · refine iff_of_false ?_ wide
      rintro ⟨sum, result, _⟩
      rw [addWordAssign, assign_narrow wide] at result
      cases result
  | subWord b64 =>
    by_cases wide : 1 < WIDTH
    · obtain ⟨b, assigned, value⟩ := @assign_eq WIDTH wide b64
      refine iff_of_true ⟨_, by rw [subWordAssign, assigned]; rfl, ?_⟩ wide
      rw [subAssign_int, value]
    · refine iff_of_false ?_ wide
      rintro ⟨difference, result, _⟩
      rw [subWordAssign, assign_narrow wide] at result
      cases result
  | mul b =>
    by_cases wide : 1 < WIDTH
    · cases b with
      | other b => exact iff_of_true (mulAssign_other wide a b) wide
      | this =>
        simp only [Computes, Fits, mulAssign_this wide, Option.some.injEq, exists_eq_left',
          toNat_zero, Operand.read, wide, true_and, Nat.dvd_iff_mod_eq_zero]
        exact eq_comm
    · have failed : a.mulAssign b = none := by rw [mulAssign, assign_narrow wide]; rfl
      refine iff_of_false ?_ (fun fits => ?_)
      · rintro ⟨product, result, _⟩
        rw [failed] at result
        cases result
      · cases b with
        | other b => exact wide fits
        | this => exact wide fits.1
  | div b =>
    by_cases wide : 1 < WIDTH
    · exact iff_of_true (divReturns wide a b) (.inl wide)
    · by_cases zero : (b.read a).toNat = 0
      · exact iff_of_true (fun some => absurd zero some) (.inr zero)
      · refine iff_of_false (fun computes => ?_) (by simp [Fits, wide, zero])
        obtain ⟨quotient, returned, _⟩ := computes zero
        simp [DivReturns, divStart, assign_narrow wide] at returned

/-- The number one, which the operator makes zero. -/
def one : BaseUint 8 := zero.set 0 (by decide) 1

/-- In 256 bits `*=` of one by itself does not give one. -/
theorem one_not_squared : one.mulAssign .this = some zero ∧ ¬ one.Computes (.mul .this) := by
  refine ⟨mulAssign_this (by decide) one, ?_⟩
  rintro ⟨product, result, square⟩
  rw [mulAssign_this (by decide) one] at result
  cases result
  rw [toNat_zero] at square
  revert square
  decide

end BaseUint

end Agouti
