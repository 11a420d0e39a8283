import Agouti.Primitives.BaseUint
import Mathlib.Data.Nat.ModEq

/-! # The arithmetic of `base_uint`

Each loop over the limbs keeps an equation between the number so far, its carry and the part of the
operand that is read.
-/

namespace Agouti

namespace BaseUint

variable {WIDTH : Nat} {a b : BaseUint WIDTH}

theorem limb_set {i : Nat} (inside : i < WIDTH) (word : BitVec 32) (j : Nat) :
    (a.set i inside word).limb j = if i = j then word else a.limb j := by
  unfold limb set
  by_cases same : i = j
  · subst same
    simp [inside]
  · simp [same, Vector.getElem?_set_ne]

theorem limb_orLimb {i : Nat} (inside : i < WIDTH) (word : BitVec 32) (j : Nat) :
    (a.orLimb i inside word).limb j = if i = j then a.limb j ||| word else a.limb j := by
  rw [orLimb, limb_set]
  split
  · rename_i same
    rw [same]
  · rfl

theorem limb_zero (i : Nat) : (zero : BaseUint WIDTH).limb i = 0 := by
  unfold limb zero
  by_cases inside : i < WIDTH
  · simp [inside]
  · simp [inside]

theorem limb_behind {i : Nat} (behind : WIDTH ≤ i) : a.limb i = 0 := by
  simp [limb, behind]

theorem low_succ (a : BaseUint WIDTH) (i : Nat) :
    a.low (i + 1) = a.low i + (a.limb i).toNat * 2 ^ (32 * i) := by
  rw [low, Limbs.value_succ, Nat.add_comm, low]

theorem toNat_lt (a : BaseUint WIDTH) : a.toNat < 2 ^ (32 * WIDTH) :=
  Limbs.value_lt fun i _ => (a.limb i).isLt

theorem set_zero {i : Nat} (inside : i < WIDTH) : (zero : BaseUint WIDTH).set i inside 0 = zero := by
  rw [set, zero, Vector.set_replicate_self]

theorem toNat_zero : (zero : BaseUint WIDTH).toNat = 0 :=
  Limbs.value_zero fun i _ => by rw [limb_zero]; rfl

theorem toNat_set {i : Nat} (inside : i < WIDTH) (word : BitVec 32) :
    (a.set i inside word).toNat + (a.limb i).toNat * 2 ^ (32 * i) =
      a.toNat + word.toNat * 2 ^ (32 * i) := by
  have written := @Limbs.value_write 32 WIDTH (fun j => (a.limb j).toNat)
    (fun j => ((a.set i inside word).limb j).toNat) i inside
    fun j apart => by rw [limb_set, if_neg apart.symm]
  rwa [limb_set, if_pos rfl] at written

theorem testBit_toNat (a : BaseUint WIDTH) (q : Nat) :
    a.toNat.testBit q = (a.limb (q / 32)).getLsbD (q % 32) := by
  rw [toNat, low, Limbs.testBit_value (by decide) fun i _ => (a.limb i).isLt]
  by_cases inside : q / 32 < WIDTH
  · rw [decide_eq_true inside, Bool.true_and, BitVec.testBit_toNat]
  · rw [decide_eq_false inside, Bool.false_and, limb_behind (not_lt.mp inside)]
    simp

theorem eq_mod_of_carry {number whole total : Nat} (carry : Nat) (below : number < total)
    (sum : number + carry * total = whole) : number = whole % total := by
  rw [← sum, Nat.add_mul_mod_self_right, Nat.mod_eq_of_lt below]

theorem toNat_wide (word : BitVec 32) : (word.setWidth 64).toNat = word.toNat := by
  rw [BitVec.toNat_setWidth]
  omega

/-! ## Loops with a carry -/

variable {s : Carried WIDTH} {i : Nat}

theorem Carried.toNat_put (s : Carried WIDTH) (inside : i < WIDTH) (n : BitVec 64) :
    (s.put i inside n).number.toNat + (s.put i inside n).carry.toNat * 2 ^ (32 * (i + 1)) +
        (s.number.limb i).toNat * 2 ^ (32 * i) =
      s.number.toNat + n.toNat * 2 ^ (32 * i) := by
  have written := @toNat_set WIDTH s.number i inside (n.setWidth 32)
  have split : n.toNat = (n.setWidth 32).toNat + (n >>> 32).toNat * 2 ^ 32 := by
    rw [BitVec.toNat_setWidth, BitVec.toNat_ushiftRight, Nat.shiftRight_eq_div_pow]
    omega
  have weight : 2 ^ (32 * (i + 1)) = 2 ^ 32 * 2 ^ (32 * i) := by
    rw [← Nat.pow_add, Nat.mul_succ, Nat.add_comm]
  rw [split, Nat.add_mul, ← Nat.add_assoc, ← written, weight, Nat.mul_assoc]
  simp only [put]
  omega

/-- What a loop has added and taken away, while the limbs from `i` on are those of the number. -/
structure Carried.Sums (a : BaseUint WIDTH) (s : Carried WIDTH) (added taken i : Nat) : Prop where
  sum : s.number.toNat + s.carry.toNat * 2 ^ (32 * i) + taken = a.toNat + added
  small : s.carry.toNat < 2 ^ 32
  ahead : ∀ j, i ≤ j → s.number.limb j = a.limb j

theorem Carried.Sums.start (a : BaseUint WIDTH) (i : Nat) : Carried.Sums a ⟨a, 0⟩ 0 0 i :=
  ⟨by simp, by simp, fun _ _ => rfl⟩

theorem Carried.Sums.put {added taken more less : Nat} (sums : Carried.Sums a s added taken i)
    (inside : i < WIDTH) {n : BitVec 64}
    (exact : n.toNat + less = s.carry.toNat + (s.number.limb i).toNat + more) :
    Carried.Sums a (s.put i inside n) (added + more * 2 ^ (32 * i)) (taken + less * 2 ^ (32 * i))
      (i + 1) := by
  refine ⟨?_, ?_, fun j above => ?_⟩
  · have round := s.toNat_put inside n
    have sum := sums.sum
    have weighed := congrArg (· * 2 ^ (32 * i)) exact
    simp only [Nat.add_mul] at weighed
    omega
  · have bound := n.isLt
    rw [Carried.put, BitVec.toNat_ushiftRight, Nat.shiftRight_eq_div_pow]
    omega
  · rw [Carried.put, limb_set, if_neg (by omega), sums.ahead j (by omega)]

theorem limb_read {number : BaseUint WIDTH} (operand : Operand WIDTH)
    (same : number.limb i = a.limb i) : (operand.read number).limb i = (operand.read a).limb i := by
  cases operand with
  | other b => rfl
  | this => exact same

/-- **`+=` adds.** -/
theorem toNat_addAssign (a : BaseUint WIDTH) (b : Operand WIDTH) :
    (a.addAssign b).toNat = (a.toNat + (b.read a).toNat) % 2 ^ (32 * WIDTH) := by
  obtain ⟨last, same, sums⟩ : ∃ s : Carried WIDTH, s.number = a.addAssign b ∧
      Carried.Sums a s (b.read a).toNat 0 WIDTH := by
    refine ⟨_, rfl, ?_⟩
    apply Limbs.fold_invariant
      (fun i s => Carried.Sums a s ((b.read a).low i) 0 i)
      (Carried.Sums.start a 0)
    intro i inside s sums
    have operand := limb_read b (sums.ahead i le_rfl)
    have small := sums.small
    have left := (s.number.limb i).isLt
    have right := ((b.read a).limb i).isLt
    have exact : (s.carry + (s.number.limb i).setWidth 64 +
        ((b.read s.number).limb i).setWidth 64).toNat + 0 =
          s.carry.toNat + (s.number.limb i).toNat + ((b.read a).limb i).toNat := by
      rw [BitVec.toNat_add, BitVec.toNat_add, toNat_wide, toNat_wide, operand]
      omega
    have next := sums.put inside exact
    rwa [Nat.zero_mul, ← low_succ] at next
  rw [← same]
  exact eq_mod_of_carry last.carry.toNat (toNat_lt _) sums.sum

theorem product_lt (x y z : BitVec 32) {carry : Nat} (small : carry < 2 ^ 32) :
    carry + x.toNat + y.toNat * z.toNat < 2 ^ 64 := by
  have first := x.isLt
  have product : y.toNat * z.toNat ≤ (2 ^ 32 - 1) * (2 ^ 32 - 1) :=
    Nat.mul_le_mul (Nat.le_pred_of_lt y.isLt) (Nat.le_pred_of_lt z.isLt)
  omega

/-- **`*=` by a word multiplies.** -/
theorem toNat_mulWordAssign (a : BaseUint WIDTH) (b32 : BitVec 32) :
    (a.mulWordAssign b32).toNat = a.toNat * b32.toNat % 2 ^ (32 * WIDTH) := by
  obtain ⟨last, same, sums⟩ : ∃ s : Carried WIDTH, s.number = a.mulWordAssign b32 ∧
      Carried.Sums a s (a.toNat * b32.toNat) a.toNat WIDTH := by
    refine ⟨_, rfl, ?_⟩
    apply Limbs.fold_invariant
      (fun i s => Carried.Sums a s (a.low i * b32.toNat) (a.low i) i)
      (by simpa [low, Limbs.value] using Carried.Sums.start a 0)
    intro i inside s sums
    have same := sums.ahead i le_rfl
    have bound : s.carry.toNat + b32.toNat * (a.limb i).toNat < 2 ^ 64 := by
      simpa using product_lt 0 b32 (a.limb i) sums.small
    have exact : (s.carry + b32.setWidth 64 * (s.number.limb i).setWidth 64).toNat +
        (a.limb i).toNat =
          s.carry.toNat + (s.number.limb i).toNat + (a.limb i).toNat * b32.toNat := by
      rw [same, BitVec.toNat_add, BitVec.toNat_mul, toNat_wide, toNat_wide, Nat.add_mod_mod,
        Nat.mod_eq_of_lt bound, Nat.mul_comm]
      omega
    have next := sums.put inside exact
    rwa [Nat.mul_right_comm, ← Nat.add_mul, ← low_succ] at next
  have sum := sums.sum
  rw [← same]
  exact eq_mod_of_carry last.carry.toNat (toNat_lt _) (by omega)

theorem low_modEq (a : BaseUint WIDTH) (count more : Nat) :
    Nat.ModEq (2 ^ (32 * count)) (a.low count) (a.low (count + more)) := by
  induction more with
  | zero => exact Nat.ModEq.refl _
  | succ more ih =>
    have whole : 2 ^ (32 * (count + more)) = 2 ^ (32 * count) * 2 ^ (32 * more) := by
      rw [← Nat.pow_add, Nat.mul_add]
    refine ih.trans ?_
    rw [← Nat.add_assoc, low_succ, whole, Nat.mul_left_comm]
    exact (Nat.add_mul_mod_self_left _ _ _).symm

theorem toNat_mulRow (factor : BitVec 32) (b : BaseUint WIDTH) {j : Nat} (within : j < WIDTH)
    (a : BaseUint WIDTH) :
    (mulRow factor (.other b) j a).toNat =
      (a.toNat + factor.toNat * b.toNat * 2 ^ (32 * j)) % 2 ^ (32 * WIDTH) := by
  obtain ⟨last, same, sums⟩ : ∃ s : Carried WIDTH, s.number = mulRow factor (.other b) j a ∧
      Carried.Sums a s (factor.toNat * b.low (WIDTH - j) * 2 ^ (32 * j)) 0 (WIDTH - j + j) := by
    refine ⟨_, rfl, ?_⟩
    apply Limbs.fold_invariant
      (fun i s => Carried.Sums a s (factor.toNat * b.low i * 2 ^ (32 * j)) 0 (i + j))
      (by simpa [low, Limbs.value] using Carried.Sums.start a j)
    intro i inside s sums
    have bound := product_lt (s.number.limb (i + j)) factor (b.limb i) sums.small
    have exact : (s.carry + (s.number.limb (i + j)).setWidth 64 +
        factor.setWidth 64 * (b.limb i).setWidth 64).toNat + 0 =
          s.carry.toNat + (s.number.limb (i + j)).toNat + factor.toNat * (b.limb i).toNat := by
      rw [BitVec.toNat_add, BitVec.toNat_add, BitVec.toNat_mul, toNat_wide, toNat_wide, toNat_wide,
        Nat.add_mod_mod, Nat.mod_add_mod, Nat.mod_eq_of_lt bound, Nat.add_zero]
    have next := sums.put (by omega) exact
    have whole : 2 ^ (32 * (i + j)) = 2 ^ (32 * i) * 2 ^ (32 * j) := by
      rw [← Nat.pow_add, Nat.mul_add]
    rwa [Nat.zero_mul, whole, ← Nat.mul_assoc, ← Nat.add_mul, Nat.mul_assoc, ← Nat.mul_add,
      ← low_succ, Nat.add_right_comm] at next
  have sum := sums.sum
  rw [Nat.sub_add_cancel within.le] at sum
  rw [← same, eq_mod_of_carry last.carry.toNat (toNat_lt _) sum]
  -- what the row leaves out is beyond the highest limb
  have whole : 2 ^ (32 * WIDTH) = 2 ^ (32 * (WIDTH - j)) * 2 ^ (32 * j) := by
    rw [← Nat.pow_add, ← Nat.mul_add, Nat.sub_add_cancel within.le]
  have rest := low_modEq b (WIDTH - j) j
  rw [Nat.sub_add_cancel within.le] at rest
  rw [whole]
  exact ((rest.mul_left factor.toNat).mul_right' _).add_left a.toNat

theorem assign_narrow (narrow : ¬ 1 < WIDTH) (b : BitVec 64) :
    (assign b : Option (BaseUint WIDTH)) = none := dif_neg narrow

theorem assign_eq (wide : 1 < WIDTH) (b : BitVec 64) :
    ∃ number : BaseUint WIDTH, assign b = some number ∧ number.toNat = b.toNat := by
  have first := @toNat_set WIDTH zero 0 (Nat.zero_lt_of_lt wide) (b.setWidth 32)
  have second := @toNat_set WIDTH (zero.set 0 (Nat.zero_lt_of_lt wide) (b.setWidth 32)) 1 wide
    ((b >>> 32).setWidth 32)
  have bound := b.isLt
  refine ⟨_, dif_pos wide, ?_⟩
  rw [limb_set, if_neg Nat.zero_ne_one, limb_zero] at second
  rw [limb_zero, toNat_zero] at first
  simp only [BitVec.toNat_setWidth, BitVec.toNat_ushiftRight, Nat.shiftRight_eq_div_pow,
    BitVec.ofNat_eq_ofNat, BitVec.toNat_ofNat] at first second ⊢
  omega

theorem assign_zero (wide : 1 < WIDTH) : (assign 0 : Option (BaseUint WIDTH)) = some zero := by
  have first : (0 : BitVec 64).setWidth 32 = (0 : BitVec 32) := rfl
  have second : ((0 : BitVec 64) >>> 32).setWidth 32 = (0 : BitVec 32) := rfl
  rw [assign, dif_pos wide, first, second, set_zero, set_zero]

/-- **`*=` by another number multiplies.** -/
theorem mulAssign_other (wide : 1 < WIDTH) (a b : BaseUint WIDTH) :
    ∃ product, a.mulAssign (.other b) = some product ∧
      product.toNat = a.toNat * b.toNat % 2 ^ (32 * WIDTH) := by
  rw [mulAssign, assign_zero wide]
  refine ⟨_, rfl, ?_⟩
  apply Limbs.fold_invariant
    (fun j (s : BaseUint WIDTH) => s.toNat = a.low j * b.toNat % 2 ^ (32 * WIDTH))
  · rw [toNat_zero, low, Limbs.value_zero (fun _ absurd => (Nat.not_lt_zero _ absurd).elim),
      Nat.zero_mul, Nat.zero_mod]
  · intro j inside s product
    rw [toNat_mulRow _ _ inside, product, Nat.mod_add_mod, low_succ, Nat.add_mul,
      Nat.mul_right_comm]

/-- **A number that is multiplied by itself in place becomes zero.** -/
theorem mulAssign_this (wide : 1 < WIDTH) (a : BaseUint WIDTH) :
    a.mulAssign .this = some zero := by
  have row (factor : BitVec 32) (j : Nat) : mulRow factor .this j (zero : BaseUint WIDTH) = zero := by
    refine (Limbs.fold_invariant (fun _ (s : Carried WIDTH) => s.number = zero ∧ s.carry = 0)
      ⟨rfl, rfl⟩ ?_).1
    rintro i inside s ⟨number, carry⟩
    have sum : s.carry + (s.number.limb (i + j)).setWidth 64 +
        factor.setWidth 64 * ((Operand.this.read s.number).limb i).setWidth 64 = 0 := by
      simp [Operand.read, number, carry, limb_zero]
    rw [sum, Carried.put, number]
    exact ⟨set_zero _, rfl⟩
  rw [mulAssign, assign_zero wide, Option.map_some]
  refine congrArg some (Limbs.fold_invariant (fun _ (s : BaseUint WIDTH) => s = zero) rfl ?_)
  rintro j inside s rfl
  exact row _ _

end BaseUint

end Agouti
