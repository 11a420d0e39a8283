import Agouti.Consensus.LegacyKernel
import Agouti.Consensus.StakeRewards
import Agouti.Library.Threshold

/-! # The target tests of the kernels

The kernel of the stake pointers divides the hash by the weight of the stake, so that its test is
the comparison with the product of weight and target (`stakeTargetMet_iff`). The
coin-age kernel multiplies them in 256 bits. It agrees with the comparison, and a larger stake
never loses a hit of a smaller one, exactly while the product fits (`kernelTargets_exact`).
-/

namespace Agouti

/-- The target test of `CheckStakePointerKernelHash`, with a weight in the place of the constant. -/
def weightedTargetMet (bnWeight : Uint256) (nBits : Nat) (hashProofOfStake : Uint256) : Bool :=
  decide (hashProofOfStake / bnWeight < Uint256.setCompact nBits)

def pointerWeight : Uint256 := BitVec.ofInt 256 (MASTERNODE_COLLATERAL / 100)

theorem stakeTargetMet_eq (nBits : Nat) (hashProofOfStake : Uint256) :
    stakeTargetMet nBits hashProofOfStake =
      weightedTargetMet pointerWeight nBits hashProofOfStake := rfl

theorem weightedTargetMet_iff {bnWeight : Uint256} (positive : bnWeight ≠ 0) (nBits : Nat)
    (hashProofOfStake : Uint256) :
    weightedTargetMet bnWeight nBits hashProofOfStake = true ↔
      hashProofOfStake.toNat < (Uint256.setCompact nBits).toNat * bnWeight.toNat := by
  rw [weightedTargetMet, decide_eq_true_eq]
  exact Threshold.div_lt_iff positive hashProofOfStake

theorem stakeTargetMet_iff (nBits : Nat) (hashProofOfStake : Uint256) :
    stakeTargetMet nBits hashProofOfStake = true ↔
      hashProofOfStake.toNat < (Uint256.setCompact nBits).toNat * 3000000000 := by
  have positive : pointerWeight ≠ 0 := by decide
  rw [stakeTargetMet_eq, weightedTargetMet_iff positive]
  rfl

section

variable [ChainParams]

/-- The value that counts in the coin-age kernel: it is capped from the fork on. -/
def cappedValue (nValueIn : CAmount) (nHeight : Int) : CAmount :=
  if nStakePointerForkHeight ≤ nHeight then min nValueIn STAKE_WEIGHT_CAP else nValueIn

def coinWeight (nValueIn : CAmount) (nHeight : Int) : Nat := (cappedValue nValueIn nHeight).toNat / 100

theorem cappedValue_mono {smaller larger : CAmount} (below : smaller ≤ larger) (nHeight : Int) :
    cappedValue smaller nHeight ≤ cappedValue larger nHeight := by
  unfold cappedValue
  by_cases fork : nStakePointerForkHeight ≤ nHeight
  · simp only [fork, ↓reduceIte]
    exact min_le_min_right STAKE_WEIGHT_CAP below
  · simp only [fork, ↓reduceIte]
    exact below

theorem coinWeight_mono {smaller larger : CAmount} (below : smaller ≤ larger) (nHeight : Int) :
    coinWeight smaller nHeight ≤ coinWeight larger nHeight :=
  Nat.div_le_div_right (Int.toNat_le_toNat (cappedValue_mono below nHeight))

theorem cappedValue_range {nValueIn : CAmount} (nonneg : 0 ≤ nValueIn) (fits : nValueIn < 2 ^ 63)
    (nHeight : Int) :
    0 ≤ cappedValue nValueIn nHeight ∧ cappedValue nValueIn nHeight < 2 ^ 63 := by
  unfold cappedValue
  split
  · exact ⟨le_min nonneg (by decide), lt_of_le_of_lt (min_le_left _ _) fits⟩
  · exact ⟨nonneg, fits⟩

theorem effectiveValue_eq (nValueIn : CAmount) (nHeight : Int) :
    (if nStakePointerForkHeight ≤ nHeight ∧ STAKE_WEIGHT_CAP < nValueIn then STAKE_WEIGHT_CAP
      else nValueIn) = cappedValue nValueIn nHeight := by
  unfold cappedValue
  by_cases fork : nStakePointerForkHeight ≤ nHeight
  · simp only [fork, true_and, ↓reduceIte]
    by_cases above : STAKE_WEIGHT_CAP < nValueIn
    · rw [if_pos above, min_eq_right above.le]
    · rw [if_neg above, min_eq_left (not_lt.mp above)]
  · simp only [fork, false_and, ↓reduceIte]

theorem toNat_coinDayWeight {nValueIn : CAmount} (nonneg : 0 ≤ nValueIn)
    (fits : nValueIn < 2 ^ 63) (nHeight : Int) :
    ((BitVec.ofInt 64
      (if nStakePointerForkHeight ≤ nHeight ∧ STAKE_WEIGHT_CAP < nValueIn then STAKE_WEIGHT_CAP
        else nValueIn)).setWidth 256 / 100 : Uint256).toNat = coinWeight nValueIn nHeight := by
  rw [effectiveValue_eq, coinWeight]
  obtain ⟨low, high⟩ := cappedValue_range nonneg fits nHeight
  generalize cappedValue nValueIn nHeight = value at low high ⊢
  have hundred : (100 : Uint256).toNat = 100 := rfl
  have unsigned : (value % 2 ^ 64).toNat = value.toNat := by
    rw [Int.emod_eq_of_lt low (lt_trans high (by decide))]
  have narrow : value.toNat < 2 ^ 256 := by omega
  rw [BitVec.toNat_udiv, BitVec.toNat_setWidth, BitVec.toNat_ofInt, hundred]
  congr 1
  exact (congrArg (· % 2 ^ 256) unsigned).trans (Nat.mod_eq_of_lt narrow)

/-- The test is exact, and more coins pass no less. -/
structure CoinTargetExact (nValueIn : CAmount) (bnTargetPerCoinDay : Uint256) (nHeight : Int) :
    Prop where
  agrees : ∀ hashProofOfStake,
    stakeTargetHit hashProofOfStake nValueIn bnTargetPerCoinDay nHeight = true ↔
      hashProofOfStake.toNat < coinWeight nValueIn nHeight * bnTargetPerCoinDay.toNat
  larger : ∀ smaller, 0 ≤ smaller → smaller ≤ nValueIn → ∀ hashProofOfStake,
    stakeTargetHit hashProofOfStake smaller bnTargetPerCoinDay nHeight = true →
      stakeTargetHit hashProofOfStake nValueIn bnTargetPerCoinDay nHeight = true

variable {nValueIn : CAmount} (nonneg : 0 ≤ nValueIn) (fits : nValueIn < 2 ^ 63)
  (bnTargetPerCoinDay : Uint256) (nHeight : Int)

include nonneg fits

theorem stakeTargetHit_agrees_iff :
    (∀ hashProofOfStake,
        stakeTargetHit hashProofOfStake nValueIn bnTargetPerCoinDay nHeight = true ↔
          hashProofOfStake.toNat < coinWeight nValueIn nHeight * bnTargetPerCoinDay.toNat) ↔
      coinWeight nValueIn nHeight * bnTargetPerCoinDay.toNat < 2 ^ 256 := by
  rw [← toNat_coinDayWeight nonneg fits, ← Threshold.lt_mul_iff_fits]
  simp only [stakeTargetHit, decide_eq_true_eq]

theorem coinTargetExact_iff :
    CoinTargetExact nValueIn bnTargetPerCoinDay nHeight ↔
      coinWeight nValueIn nHeight * bnTargetPerCoinDay.toNat < 2 ^ 256 := by
  refine ⟨fun exact => (stakeTargetHit_agrees_iff nonneg fits _ _).mp exact.agrees, fun small => ?_⟩
  have agrees := (stakeTargetHit_agrees_iff nonneg fits bnTargetPerCoinDay nHeight).mpr small
  refine ⟨agrees, fun smaller positive below hashProofOfStake hit => ?_⟩
  have lighter : coinWeight smaller nHeight * bnTargetPerCoinDay.toNat ≤
      coinWeight nValueIn nHeight * bnTargetPerCoinDay.toNat :=
    Nat.mul_le_mul_right _ (coinWeight_mono below nHeight)
  have within : coinWeight smaller nHeight * bnTargetPerCoinDay.toNat < 2 ^ 256 :=
    lt_of_le_of_lt lighter small
  have first := (stakeTargetHit_agrees_iff positive (lt_of_le_of_lt below fits) bnTargetPerCoinDay nHeight).mpr
    within hashProofOfStake
  rw [agrees]
  exact lt_of_lt_of_le (first.mp hit) lighter

end

/-- **When the target tests of the kernels are exact.** The division of the stake pointer kernel
decides whether the hash is below the product of target and weight, for every positive weight, the
one of a stake pointer among them, and every `nBits`. The multiplication of the coin-age kernel does
so for every hash, and lets no larger coin lose a hit, if and only if the product of the coin's
weight and the target is below `2 ^ 256`. -/
theorem kernelTargets_exact [ChainParams] :
    ((∀ (bnWeight : Uint256) (nBits : Nat) (hashProofOfStake : Uint256), bnWeight ≠ 0 →
        (weightedTargetMet bnWeight nBits hashProofOfStake = true ↔
          hashProofOfStake.toNat < (Uint256.setCompact nBits).toNat * bnWeight.toNat)) ∧
      ∀ (nBits : Nat) (hashProofOfStake : Uint256),
        stakeTargetMet nBits hashProofOfStake = true ↔
          hashProofOfStake.toNat < (Uint256.setCompact nBits).toNat * 3000000000) ∧
      ∀ (nValueIn : CAmount) (bnTargetPerCoinDay : Uint256) (nHeight : Int), 0 ≤ nValueIn →
        nValueIn < 2 ^ 63 →
        (CoinTargetExact nValueIn bnTargetPerCoinDay nHeight ↔
          coinWeight nValueIn nHeight * bnTargetPerCoinDay.toNat < 2 ^ 256) :=
  ⟨⟨fun _ nBits hashProofOfStake positive => weightedTargetMet_iff positive nBits hashProofOfStake,
    stakeTargetMet_iff⟩, fun _ bnTargetPerCoinDay nHeight nonneg fits =>
      coinTargetExact_iff nonneg fits bnTargetPerCoinDay nHeight⟩

section

attribute [local instance] mainParams

/-- At the easiest target of the main network a coin of 2 ^ 40 weight units hits with no hash,
and a coin of 100 hits with the hash 0. -/
theorem heavyCoin_misses :
    let bnTarget := Uint256.setCompact bnTargetLimit.getCompact
    (0 : Uint256).toNat < coinWeight (2 ^ 40 * 100) 2000000 * bnTarget.toNat ∧
      stakeTargetHit 0 (2 ^ 40 * 100) bnTarget 2000000 = false ∧
      stakeTargetHit 0 (100 * COIN) bnTarget 2000000 = true := by
  decide +kernel

/-- A coin of 10 is tested exactly, and so is a stake of weight 7. -/
theorem kernelTargets_exact_ten :
    CoinTargetExact (10 * COIN) (Uint256.setCompact bnTargetLimit.getCompact) 2000000 ∧
      (weightedTargetMet 7 0x01010000 6 = true ↔
        (6 : Uint256).toNat < (Uint256.setCompact 0x01010000).toNat * (7 : Uint256).toNat) :=
  ⟨(kernelTargets_exact.2 _ _ _ (by decide) (by decide)).mpr (by decide +kernel),
    kernelTargets_exact.1.1 7 _ 6 (by decide)⟩

end

end Agouti
