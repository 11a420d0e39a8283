import Agouti.Primitives.Compact
import Agouti.Validation.StakePointer
import Mathlib.Tactic.Ring

/-! # The retarget of the difficulty

`DarkGravityWave` multiplies a target by a time and divides it by another one. What it means to
compute is arithmetic of natural numbers (`Retarget`): `stakeRetarget` after the proof-of-work
blocks, from the last target and the last spacing, and `workRetarget` before, from an average of
targets and the time that the blocks took. As long as the product fits 256 bits, the result is the
compact form of the quotient, at most the limit (`getNextWorkRequired_retarget`).
-/

namespace Agouti

open List

/-- The numbers of one retargeting. -/
structure Retarget where
  limit : Nat
  target : Nat
  multiplier : Nat
  divisor : Nat

namespace Retarget

def quotient (retarget : Retarget) : Nat := retarget.target * retarget.multiplier / retarget.divisor

def next (retarget : Retarget) : Nat := min retarget.limit retarget.quotient

/-- The new target, where zero stands for no limit. -/
def nextNonzero (retarget : Retarget) : Nat :=
  if retarget.quotient = 0 then retarget.limit else retarget.next

/-- Neither the multiplier nor the product wraps. -/
structure Fits (retarget : Retarget) : Prop where
  multiplier : retarget.multiplier < 2 ^ 32
  product : retarget.target * retarget.multiplier < 2 ^ 256

def word (retarget : Retarget) : Uint256 :=
  BitVec.ofNat 256 retarget.target * BitVec.ofNat 256 retarget.multiplier /
    BitVec.ofNat 256 retarget.divisor

variable {retarget slower : Retarget}

theorem Fits.toNat_word (fits : retarget.Fits) (target : retarget.target < 2 ^ 256)
    (divisor : retarget.divisor < 2 ^ 256) : retarget.word.toNat = retarget.quotient := by
  have multiplier : retarget.multiplier < 2 ^ 256 := fits.multiplier.trans (by decide)
  rw [word, BitVec.toNat_udiv, BitVec.toNat_mul, BitVec.toNat_ofNat, BitVec.toNat_ofNat,
    BitVec.toNat_ofNat, Nat.mod_eq_of_lt target, Nat.mod_eq_of_lt multiplier,
    Nat.mod_eq_of_lt divisor, Nat.mod_eq_of_lt fits.product, quotient]

theorem quotient_mono (target : retarget.target = slower.target)
    (divisor : retarget.divisor = slower.divisor)
    (longer : retarget.multiplier ≤ slower.multiplier) : retarget.quotient ≤ slower.quotient := by
  rw [quotient, quotient, target, divisor]
  exact Nat.div_le_div_right (Nat.mul_le_mul_left _ longer)

theorem Fits.shorter (fits : slower.Fits) (target : retarget.target = slower.target)
    (longer : retarget.multiplier ≤ slower.multiplier) : retarget.Fits := by
  refine ⟨longer.trans_lt fits.multiplier, ?_⟩
  rw [target]
  exact (Nat.mul_le_mul_left _ longer).trans_lt fits.product

end Retarget

variable (mapBlockIndex : BlockMap) (pindexLast : CBlockIndex)

def lastSpacing : Int :=
  pindexLast.getBlockTime -
    ((mapBlockIndex.prev pindexLast).map CBlockIndex.getBlockTime).getD 0

def countedSpacing (nActualSpacing : Int) : Nat :=
  if nActualSpacing < 0 then 1 else nActualSpacing.toNat

def targetSpacing (nHeight : Int) : Nat := if 2565000 ≤ nHeight + 1 then 600 else 60

def stakeRetarget : Retarget where
  limit := bnTargetLimit.toNat
  target := (Uint256.setCompact pindexLast.nBits).toNat
  multiplier :=
    (2400 / targetSpacing pindexLast.nHeight - 1) * targetSpacing pindexLast.nHeight +
      2 * countedSpacing (lastSpacing mapBlockIndex pindexLast)
  divisor := (2400 / targetSpacing pindexLast.nHeight + 1) * targetSpacing pindexLast.nHeight

def gravityBlocks : Nat → Option CBlockIndex → List CBlockIndex
  | 0, _ => []
  | _, none => []
  | count + 1, some blockReading =>
    if 0 < blockReading.nHeight then
      blockReading :: gravityBlocks count (mapBlockIndex.prev blockReading)
    else []

/-- The running average of targets, of which `count` are read. -/
def averageTarget (count average : Nat) : List Nat → Nat
  | [] => average
  | target :: rest =>
    averageTarget (count + 1) ((average * (count + 1) + target) / (count + 2)) rest

def gravityTargets : List Nat :=
  (gravityBlocks mapBlockIndex 24 (some pindexLast)).map fun block =>
    (Uint256.setCompact block.nBits).toNat

def gravityTimespan : Int := (gravityLoop mapBlockIndex 24 (some pindexLast) {}).nActualTimespan

/-- The retarget of the proof-of-work blocks: the time counts from a third of the target time up to
three times of it. -/
def workRetarget [ChainParams] : Retarget where
  limit := ChainParams.bnProofOfWorkLimit.toNat
  target := match gravityTargets mapBlockIndex pindexLast with
    | [] => 0
    | target :: rest => averageTarget 1 target rest
  multiplier :=
    let count := (gravityTargets mapBlockIndex pindexLast).length
    (min (max (gravityTimespan mapBlockIndex pindexLast) (count * 20)) (count * 180)).toNat
  divisor := (gravityTargets mapBlockIndex pindexLast).length * 60

theorem targetSpacing_cases (nHeight : Int) :
    targetSpacing nHeight = 600 ∨ targetSpacing nHeight = 60 := by
  unfold targetSpacing
  split
  · exact .inl rfl
  · exact .inr rfl

theorem uint32Factor_eq {value : Int} {multiplier : Nat} (same : value = multiplier)
    (fits : multiplier < 2 ^ 32) : uint32Factor value = BitVec.ofNat 256 multiplier := by
  rw [uint32Factor, same, Int.emod_eq_of_lt (Int.natCast_nonneg _) (by exact_mod_cast fits),
    Int.toNat_natCast]

variable {mapBlockIndex pindexLast}

theorem stakeRetarget_word (fits : (stakeRetarget mapBlockIndex pindexLast).Fits)
    (nTargetSpacing nActualSpacing : Int)
    (target : nTargetSpacing = targetSpacing pindexLast.nHeight)
    (spacing : nActualSpacing = countedSpacing (lastSpacing mapBlockIndex pindexLast)) :
    Uint256.setCompact pindexLast.nBits *
        uint32Factor ((2400 / nTargetSpacing - 1) * nTargetSpacing + nActualSpacing +
          nActualSpacing) /
        BitVec.ofInt 256 ((2400 / nTargetSpacing + 1) * nTargetSpacing) =
      (stakeRetarget mapBlockIndex pindexLast).word := by
  have multiplier : (2400 / nTargetSpacing - 1) * nTargetSpacing + nActualSpacing +
      nActualSpacing = (stakeRetarget mapBlockIndex pindexLast).multiplier := by
    unfold stakeRetarget
    rcases targetSpacing_cases pindexLast.nHeight with long | short
    · rw [target, spacing, long]
      push_cast
      omega
    · rw [target, spacing, short]
      push_cast
      omega
  have divisor : (2400 / nTargetSpacing + 1) * nTargetSpacing =
      (stakeRetarget mapBlockIndex pindexLast).divisor := by
    unfold stakeRetarget
    rcases targetSpacing_cases pindexLast.nHeight with long | short
    · rw [target, long]
      rfl
    · rw [target, short]
      rfl
  rw [uint32Factor_eq multiplier fits.multiplier, divisor, BitVec.ofInt_natCast, Retarget.word,
    stakeRetarget, BitVec.ofNat_toNat, BitVec.setWidth_eq]

theorem getCompact_min (limit word : Uint256) :
    (if limit < word then limit.getCompact else word.getCompact) =
      Uint256.getCompact (BitVec.ofNat 256 (min limit.toNat word.toNat)) := by
  by_cases above : limit < word
  · rw [if_pos above, min_eq_left (BitVec.lt_def.mp above).le, BitVec.ofNat_toNat,
      BitVec.setWidth_eq]
  · rw [if_neg above, min_eq_right (not_lt.mp fun below => above (BitVec.lt_def.mpr below)),
      BitVec.ofNat_toNat, BitVec.setWidth_eq]

theorem retargetProofOfStake_eq [ChainParams]
    (fork : pindexLast.nHeight + 1 ≠ nStakePointerForkHeight)
    (fits : (stakeRetarget mapBlockIndex pindexLast).Fits) :
    retargetProofOfStake (lastSpacing mapBlockIndex pindexLast) pindexLast =
      Uint256.getCompact
        (BitVec.ofNat 256 (stakeRetarget mapBlockIndex pindexLast).nextNonzero) := by
  have word := stakeRetarget_word fits
    (if 2565000 ≤ pindexLast.nHeight + 1 then 600 else 60)
    (if lastSpacing mapBlockIndex pindexLast < 0 then 1 else lastSpacing mapBlockIndex pindexLast)
    (by
      unfold targetSpacing
      split <;> rfl)
    (by
      unfold countedSpacing
      split
      · rfl
      · omega)
  have value : (stakeRetarget mapBlockIndex pindexLast).word.toNat =
      (stakeRetarget mapBlockIndex pindexLast).quotient := by
    refine fits.toNat_word (BitVec.isLt _) ?_
    have small : (stakeRetarget mapBlockIndex pindexLast).divisor ≤ 3000 := by
      change (2400 / targetSpacing pindexLast.nHeight + 1) * targetSpacing pindexLast.nHeight ≤ 3000
      rcases targetSpacing_cases pindexLast.nHeight with long | short
      · rw [long]
      · rw [short]
        decide
    exact small.trans_lt (by decide)
  unfold retargetProofOfStake
  rw [if_neg fork]
  simp only [word]
  by_cases zero : (stakeRetarget mapBlockIndex pindexLast).word = 0
  · have none : (stakeRetarget mapBlockIndex pindexLast).quotient = 0 := by
      rw [← value, zero]
      rfl
    rw [if_pos (.inl zero), Retarget.nextNonzero, if_pos none, stakeRetarget, BitVec.ofNat_toNat,
      BitVec.setWidth_eq]
  · have some : (stakeRetarget mapBlockIndex pindexLast).quotient ≠ 0 := by
      rw [← value]
      exact fun none => zero (BitVec.eq_of_toNat_eq none)
    have limited := getCompact_min bnTargetLimit (stakeRetarget mapBlockIndex pindexLast).word
    simp only [zero, false_or]
    rw [limited, value, Retarget.nextNonzero, if_neg some]
    rfl

/-! ## The blocks with proof of work -/

theorem gravityLoop_eq (count : Nat) (blockReading : Option CBlockIndex) (wave : GravityWave) :
    gravityLoop mapBlockIndex count blockReading wave =
      (gravityBlocks mapBlockIndex count blockReading).foldl GravityWave.read wave := by
  induction count generalizing blockReading wave with
  | zero => cases blockReading <;> rfl
  | succ count ih =>
    cases blockReading with
    | none => rfl
    | some block =>
      rw [gravityLoop, gravityBlocks]
      split
      · exact ih _ _
      · rfl

theorem length_gravityBlocks (mapBlockIndex : BlockMap) (count : Nat)
    (blockReading : Option CBlockIndex) :
    (gravityBlocks mapBlockIndex count blockReading).length ≤ count := by
  induction count generalizing blockReading with
  | zero => cases blockReading <;> exact le_rfl
  | succ count ih =>
    cases blockReading with
    | none => exact Nat.zero_le _
    | some block =>
      rw [gravityBlocks]
      split
      · exact Nat.succ_le_succ (ih _)
      · exact Nat.zero_le _

theorem countBlocks_foldl (blocks : List CBlockIndex) (wave : GravityWave) :
    (blocks.foldl GravityWave.read wave).countBlocks = wave.countBlocks + blocks.length := by
  induction blocks generalizing wave with
  | nil => rfl
  | cons block rest ih =>
    rw [foldl_cons, ih, length_cons, GravityWave.read]
    dsimp only
    omega

theorem averageTarget_foldl {limit : Nat} (room : limit * 25 < 2 ^ 256) (blocks : List CBlockIndex)
    (below : ∀ block ∈ blocks, (Uint256.setCompact block.nBits).toNat ≤ limit) (wave : GravityWave)
    (begun : 1 ≤ wave.countBlocks) (few : wave.countBlocks + blocks.length ≤ 24)
    (within : wave.pastDifficultyAverage.toNat ≤ limit) :
    (blocks.foldl GravityWave.read wave).pastDifficultyAverage.toNat =
        averageTarget wave.countBlocks wave.pastDifficultyAverage.toNat
          (blocks.map fun block => (Uint256.setCompact block.nBits).toNat) ∧
      (blocks.foldl GravityWave.read wave).pastDifficultyAverage.toNat ≤ limit := by
  induction blocks generalizing wave with
  | nil => exact ⟨rfl, within⟩
  | cons block rest ih =>
    obtain ⟨here, later⟩ := forall_mem_cons.mp below
    rw [length_cons] at few
    -- a weighted sum of two targets up to the limit
    have sum : wave.pastDifficultyAverage.toNat * (wave.countBlocks + 1) +
        (Uint256.setCompact block.nBits).toNat ≤ limit * (wave.countBlocks + 2) := by
      calc wave.pastDifficultyAverage.toNat * (wave.countBlocks + 1) +
            (Uint256.setCompact block.nBits).toNat
          ≤ limit * (wave.countBlocks + 1) + limit :=
            Nat.add_le_add (Nat.mul_le_mul_right _ within) here
        _ = limit * (wave.countBlocks + 2) := by ring
    have most : limit * (wave.countBlocks + 2) < 2 ^ 256 :=
      (Nat.mul_le_mul_left limit (by omega)).trans_lt room
    have average : (wave.read block).pastDifficultyAverage.toNat =
        (wave.pastDifficultyAverage.toNat * (wave.countBlocks + 1) +
          (Uint256.setCompact block.nBits).toNat) / (wave.countBlocks + 2) := by
      have countSmall : wave.countBlocks + 1 < 2 ^ 256 := by
        have bound : (24 : Nat) < 2 ^ 256 := by decide
        omega
      have nextSmall : wave.countBlocks + 1 + 1 < 2 ^ 256 := by
        have bound : (25 : Nat) < 2 ^ 256 := by decide
        omega
      have product : wave.pastDifficultyAverage.toNat * (wave.countBlocks + 1) < 2 ^ 256 := by
        omega
      rw [GravityWave.read]
      dsimp only
      rw [if_neg (by omega), BitVec.toNat_udiv, BitVec.toNat_add, BitVec.toNat_mul,
        BitVec.toNat_ofNat, BitVec.toNat_ofNat, Nat.mod_eq_of_lt countSmall,
        Nat.mod_eq_of_lt nextSmall, Nat.mod_eq_of_lt product,
        Nat.mod_eq_of_lt (sum.trans_lt most)]
    have kept : (wave.read block).pastDifficultyAverage.toNat ≤ limit := by
      rw [average]
      exact Nat.div_le_of_le_mul (sum.trans_eq (Nat.mul_comm _ _))
    have count : (wave.read block).countBlocks = wave.countBlocks + 1 := rfl
    obtain ⟨same, bounded⟩ := ih later (wave.read block) (by omega) (by omega) kept
    refine ⟨?_, bounded⟩
    rw [foldl_cons, same, map_cons, averageTarget, count, average]

theorem gravityLoop_last (high : 24 ≤ pindexLast.nHeight) {limit : Nat}
    (room : limit * 25 < 2 ^ 256)
    (below : ∀ target ∈ gravityTargets mapBlockIndex pindexLast, target ≤ limit) :
    ∃ target rest, gravityTargets mapBlockIndex pindexLast = target :: rest ∧
      rest.length < 24 ∧
      (gravityLoop mapBlockIndex 24 (some pindexLast) {}).countBlocks = rest.length + 1 ∧
      (gravityLoop mapBlockIndex 24 (some pindexLast) {}).pastDifficultyAverage.toNat =
        averageTarget 1 target rest ∧
      averageTarget 1 target rest ≤ limit := by
  have few := length_gravityBlocks mapBlockIndex 24 (some pindexLast)
  obtain ⟨blocks, first⟩ : ∃ blocks, gravityBlocks mapBlockIndex 24 (some pindexLast) =
      pindexLast :: blocks := by
    rw [gravityBlocks, if_pos (by omega)]
    exact ⟨_, rfl⟩
  rw [gravityTargets, first, map_cons] at below ⊢
  rw [first, length_cons] at few
  obtain ⟨here, later⟩ := forall_mem_cons.mp below
  have start : (GravityWave.read {} pindexLast).countBlocks = 1 ∧
      (GravityWave.read {} pindexLast).pastDifficultyAverage =
        Uint256.setCompact pindexLast.nBits := ⟨rfl, rfl⟩
  obtain ⟨same, within⟩ := averageTarget_foldl room blocks
    (fun block member => later _ (mem_map_of_mem member)) (GravityWave.read {} pindexLast)
    start.1.ge (by rw [start.1]; omega) (by rw [start.2]; exact here)
  rw [start.1, start.2] at same
  refine ⟨_, _, rfl, ?_, ?_, ?_, ?_⟩
  · rw [length_map]
    omega
  · rw [gravityLoop_eq, first, foldl_cons, countBlocks_foldl, start.1, length_map]
    omega
  · rw [gravityLoop_eq, first, foldl_cons, same]
  · rw [← same]
    exact within

theorem workMultiplier [ChainParams] (few : (gravityTargets mapBlockIndex pindexLast).length ≤ 24) :
    ((workRetarget mapBlockIndex pindexLast).multiplier : Int) =
        min (max (gravityTimespan mapBlockIndex pindexLast)
          ((gravityTargets mapBlockIndex pindexLast).length * 20))
          ((gravityTargets mapBlockIndex pindexLast).length * 180) ∧
      (workRetarget mapBlockIndex pindexLast).multiplier ≤ 4320 := by
  unfold workRetarget
  dsimp only
  constructor <;> omega

theorem workRetarget_fits [ChainParams] (high : 24 ≤ pindexLast.nHeight)
    (room : ChainParams.bnProofOfWorkLimit.toNat * 4320 < 2 ^ 256)
    (below : ∀ target ∈ gravityTargets mapBlockIndex pindexLast,
      target ≤ ChainParams.bnProofOfWorkLimit.toNat) :
    (workRetarget mapBlockIndex pindexLast).Fits ∧
      (workRetarget mapBlockIndex pindexLast).target ≤ ChainParams.bnProofOfWorkLimit.toNat := by
  obtain ⟨target, rest, targets, few, -, -, within⟩ := gravityLoop_last high (by omega) below
  have length : (gravityTargets mapBlockIndex pindexLast).length ≤ 24 := by
    rw [targets, length_cons]
    exact few
  have most := (workMultiplier length).2
  have average : (workRetarget mapBlockIndex pindexLast).target ≤
      ChainParams.bnProofOfWorkLimit.toNat := by
    rw [workRetarget, targets]
    exact within
  refine ⟨⟨by omega, ?_⟩, average⟩
  exact (Nat.mul_le_mul average most).trans_lt room

theorem darkGravityWave_work [ChainParams] (high : 24 ≤ pindexLast.nHeight)
    (work : pindexLast.nHeight ≤ nLastPOWBlock)
    (room : ChainParams.bnProofOfWorkLimit.toNat * 4320 < 2 ^ 256)
    (below : ∀ target ∈ gravityTargets mapBlockIndex pindexLast,
      target ≤ ChainParams.bnProofOfWorkLimit.toNat) :
    darkGravityWave mapBlockIndex pindexLast = Uint256.getCompact
      (BitVec.ofNat 256 (workRetarget mapBlockIndex pindexLast).next) := by
  obtain ⟨fits, targetSmall⟩ := workRetarget_fits high room below
  obtain ⟨target, rest, targets, few, count, average, within⟩ :=
    gravityLoop_last high (by omega) below
  have length : (gravityTargets mapBlockIndex pindexLast).length = rest.length + 1 := by
    rw [targets, length_cons]
  have value : (workRetarget mapBlockIndex pindexLast).word.toNat =
      (workRetarget mapBlockIndex pindexLast).quotient := by
    refine fits.toNat_word (targetSmall.trans_lt (BitVec.isLt _)) ?_
    have bound : (1440 : Nat) < 2 ^ 256 := by decide
    change (gravityTargets mapBlockIndex pindexLast).length * 60 < 2 ^ 256
    omega
  have clamped : min (max (gravityLoop mapBlockIndex 24 (some pindexLast) {}).nActualTimespan
      (((gravityLoop mapBlockIndex 24 (some pindexLast) {}).countBlocks : Int) * 60 / 3))
      (((gravityLoop mapBlockIndex 24 (some pindexLast) {}).countBlocks : Int) * 60 * 3) =
        (workRetarget mapBlockIndex pindexLast).multiplier := by
    rw [(workMultiplier (by omega)).1, count, length, gravityTimespan]
    omega
  have divisor : ((gravityLoop mapBlockIndex 24 (some pindexLast) {}).countBlocks : Int) * 60 =
      (workRetarget mapBlockIndex pindexLast).divisor := by
    change _ = (((gravityTargets mapBlockIndex pindexLast).length * 60 : Nat) : Int)
    rw [count, length]
    rfl
  have averaged : (gravityLoop mapBlockIndex 24 (some pindexLast) {}).pastDifficultyAverage =
      BitVec.ofNat 256 (workRetarget mapBlockIndex pindexLast).target := by
    rw [workRetarget, targets]
    dsimp only
    rw [← average, BitVec.ofNat_toNat, BitVec.setWidth_eq]
  unfold darkGravityWave
  rw [if_neg (by omega), if_neg (by omega)]
  dsimp only
  rw [clamped, divisor, uint32Factor_eq rfl fits.multiplier, averaged, BitVec.ofInt_natCast]
  exact (getCompact_min _ (workRetarget mapBlockIndex pindexLast).word).trans (by
    rw [value]
    rfl)

/-! ## The retarget -/

theorem stakeRetarget_fits (target : Uint256.setCompact pindexLast.nBits ≤ bnTargetLimit)
    (spacing : countedSpacing (lastSpacing mapBlockIndex pindexLast) ≤ 8387438) :
    (stakeRetarget mapBlockIndex pindexLast).Fits := by
  have small : (stakeRetarget mapBlockIndex pindexLast).multiplier ≤ 2 ^ 24 := by
    unfold stakeRetarget
    dsimp only
    rcases targetSpacing_cases pindexLast.nHeight with long | short
    · rw [long]
      omega
    · rw [short]
      omega
  have limit : (stakeRetarget mapBlockIndex pindexLast).target ≤ 2 ^ 232 - 1 :=
    BitVec.le_def.mp target
  refine ⟨small.trans_lt (by decide), ?_⟩
  exact (Nat.mul_le_mul limit small).trans_lt (by decide)

theorem le_averageTarget {least : Nat} (targets : List Nat) (count average : Nat)
    (above : ∀ target ∈ targets, least ≤ target) (start : least ≤ average) :
    least ≤ averageTarget count average targets := by
  induction targets generalizing count average with
  | nil => exact start
  | cons target rest ih =>
    obtain ⟨here, later⟩ := forall_mem_cons.mp above
    refine ih (count + 1) _ later ?_
    rw [Nat.le_div_iff_mul_le (Nat.succ_pos _)]
    calc least * (count + 2) = least * (count + 1) + least := by ring
      _ ≤ average * (count + 1) + target := Nat.add_le_add (Nat.mul_le_mul_right _ start) here

/-- A block with stake at which the target does not start anew. -/
structure RetargetsStake [ChainParams] (pindexLast : CBlockIndex) : Prop where
  high : 24 ≤ pindexLast.nHeight
  stake : nLastPOWBlock < pindexLast.nHeight
  fork : pindexLast.nHeight + 1 ≠ nStakePointerForkHeight

/-- A block with work whose average is over targets up to a limit that leaves room for the time. -/
structure RetargetsWork [ChainParams] (mapBlockIndex : BlockMap) (pindexLast : CBlockIndex) :
    Prop where
  high : 24 ≤ pindexLast.nHeight
  work : pindexLast.nHeight ≤ nLastPOWBlock
  room : ChainParams.bnProofOfWorkLimit.toNat * 4320 < 2 ^ 256
  below : ∀ target ∈ gravityTargets mapBlockIndex pindexLast,
    target ≤ ChainParams.bnProofOfWorkLimit.toNat

theorem RetargetsStake.getNextWorkRequired [ChainParams] (block : RetargetsStake pindexLast)
    (fits : (stakeRetarget mapBlockIndex pindexLast).Fits) :
    getNextWorkRequired mapBlockIndex pindexLast = Uint256.getCompact
      (BitVec.ofNat 256 (stakeRetarget mapBlockIndex pindexLast).nextNonzero) := by
  have high := block.high
  have value := retargetProofOfStake_eq block.fork fits
  unfold Agouti.getNextWorkRequired darkGravityWave
  rw [if_neg (by omega), if_pos block.stake]
  exact value

theorem toNat_next (retarget : Retarget) (limit : retarget.limit < 2 ^ 256) :
    (BitVec.ofNat 256 retarget.next).toNat = retarget.next := by
  have bound : retarget.next < 2 ^ 256 := (Nat.min_le_left _ _).trans_lt limit
  rw [BitVec.toNat_ofNat, Nat.mod_eq_of_lt bound]

theorem setCompact_next_mono {retarget slower : Retarget} (limit : retarget.limit = slower.limit)
    (bound : slower.limit < 2 ^ 256) (longer : retarget.quotient ≤ slower.quotient) :
    Uint256.setCompact (Uint256.getCompact (BitVec.ofNat 256 retarget.next)) ≤
      Uint256.setCompact (Uint256.getCompact (BitVec.ofNat 256 slower.next)) := by
  apply Uint256.setCompact_getCompact_mono
  rw [BitVec.le_def, toNat_next retarget (limit.trans_lt bound), toNat_next slower bound]
  exact min_le_min limit.le longer

theorem setCompact_ofNat_ne_zero {value : Nat} (bound : value < 2 ^ 256) (positive : 0 < value) :
    Uint256.setCompact (Uint256.getCompact (BitVec.ofNat 256 value)) ≠ 0 := by
  rw [Ne, Uint256.setCompact_getCompact_eq_zero, ← BitVec.toNat_inj, BitVec.toNat_ofNat,
    Nat.mod_eq_of_lt bound]
  exact positive.ne'

theorem stakeRetarget_nextNonzero_pos (mapBlockIndex : BlockMap) (pindexLast : CBlockIndex) :
    0 < (stakeRetarget mapBlockIndex pindexLast).nextNonzero ∧
      (stakeRetarget mapBlockIndex pindexLast).nextNonzero ≤ bnTargetLimit.toNat := by
  have limit : 0 < bnTargetLimit.toNat := by decide
  unfold Retarget.nextNonzero
  split
  · exact ⟨limit, le_rfl⟩
  · rename_i some
    exact ⟨lt_min limit (Nat.pos_of_ne_zero some), Nat.min_le_left _ _⟩

theorem workRetarget_next_pos [ChainParams] (block : RetargetsWork mapBlockIndex pindexLast)
    (above : ∀ target ∈ gravityTargets mapBlockIndex pindexLast, 3 ≤ target) :
    0 < (workRetarget mapBlockIndex pindexLast).next := by
  obtain ⟨target, rest, targets, few, -, -, within⟩ :=
    gravityLoop_last block.high (by have room := block.room; omega) block.below
  have length : (gravityTargets mapBlockIndex pindexLast).length = rest.length + 1 := by
    rw [targets, length_cons]
  rw [targets] at above
  obtain ⟨here, later⟩ := forall_mem_cons.mp above
  have average : 3 ≤ (workRetarget mapBlockIndex pindexLast).target := by
    rw [workRetarget, targets]
    exact le_averageTarget rest 1 target later here
  have limit : 0 < (workRetarget mapBlockIndex pindexLast).limit := by
    have most := block.below target (by rw [targets]; exact mem_cons_self)
    change 0 < ChainParams.bnProofOfWorkLimit.toNat
    omega
  have third : (rest.length + 1) * 20 ≤ (workRetarget mapBlockIndex pindexLast).multiplier := by
    have counted : (gravityTargets mapBlockIndex pindexLast).length ≤ 24 := by omega
    have clamped := (workMultiplier counted).1
    rw [length] at clamped
    omega
  have divisor : (workRetarget mapBlockIndex pindexLast).divisor = (rest.length + 1) * 60 := by
    rw [workRetarget, length]
  have quotient : 0 < (workRetarget mapBlockIndex pindexLast).quotient := by
    rw [Retarget.quotient, divisor]
    apply Nat.div_pos ?_ (by omega)
    calc (rest.length + 1) * 60 = 3 * ((rest.length + 1) * 20) := by ring
      _ ≤ _ := Nat.mul_le_mul average third
  exact lt_min limit quotient

/-- The required work is the retarget over the natural numbers. Before the first targets and at the
fork of the stake pointers it is the limit. For a block with stake a quotient of zero stands for the
limit, and a spacing that is negative counts as a second. -/
theorem getNextWorkRequired_retarget [ChainParams] (mapBlockIndex : BlockMap)
    (pindexLast : CBlockIndex) :
    (pindexLast.nHeight < 24 →
      getNextWorkRequired mapBlockIndex pindexLast = ChainParams.bnProofOfWorkLimit.getCompact) ∧
    (24 ≤ pindexLast.nHeight → nLastPOWBlock < pindexLast.nHeight →
      pindexLast.nHeight + 1 = nStakePointerForkHeight →
      getNextWorkRequired mapBlockIndex pindexLast = bnTargetLimit.getCompact) ∧
    (RetargetsStake pindexLast → (stakeRetarget mapBlockIndex pindexLast).Fits →
      getNextWorkRequired mapBlockIndex pindexLast = Uint256.getCompact
        (BitVec.ofNat 256 (stakeRetarget mapBlockIndex pindexLast).nextNonzero) ∧
      Uint256.setCompact (getNextWorkRequired mapBlockIndex pindexLast) ≠ 0) ∧
    (Uint256.setCompact pindexLast.nBits ≤ bnTargetLimit →
      countedSpacing (lastSpacing mapBlockIndex pindexLast) ≤ 8387438 →
      (stakeRetarget mapBlockIndex pindexLast).Fits) ∧
    (RetargetsWork mapBlockIndex pindexLast →
      (workRetarget mapBlockIndex pindexLast).Fits ∧
      getNextWorkRequired mapBlockIndex pindexLast = Uint256.getCompact
        (BitVec.ofNat 256 (workRetarget mapBlockIndex pindexLast).next) ∧
      ((∀ target ∈ gravityTargets mapBlockIndex pindexLast, 3 ≤ target) →
        Uint256.setCompact (getNextWorkRequired mapBlockIndex pindexLast) ≠ 0)) ∧
    (∀ slowerIndex pindexSlower, RetargetsStake pindexLast → RetargetsStake pindexSlower →
      pindexLast.nHeight = pindexSlower.nHeight → pindexLast.nBits = pindexSlower.nBits →
      countedSpacing (lastSpacing mapBlockIndex pindexLast) ≤
        countedSpacing (lastSpacing slowerIndex pindexSlower) →
      (stakeRetarget mapBlockIndex pindexLast).quotient ≠ 0 →
      (stakeRetarget slowerIndex pindexSlower).Fits →
      Uint256.setCompact (getNextWorkRequired mapBlockIndex pindexLast) ≤
        Uint256.setCompact (getNextWorkRequired slowerIndex pindexSlower)) ∧
    (∀ slowerIndex pindexSlower, RetargetsWork mapBlockIndex pindexLast →
      RetargetsWork slowerIndex pindexSlower →
      gravityTargets mapBlockIndex pindexLast = gravityTargets slowerIndex pindexSlower →
      gravityTimespan mapBlockIndex pindexLast ≤ gravityTimespan slowerIndex pindexSlower →
      Uint256.setCompact (getNextWorkRequired mapBlockIndex pindexLast) ≤
        Uint256.setCompact (getNextWorkRequired slowerIndex pindexSlower)) := by
  refine ⟨?_, ?_, ?_, ?_, ?_, ?_, ?_⟩
  · intro low
    rw [getNextWorkRequired, darkGravityWave, if_pos (.inr low)]
  · intro high stake fork
    rw [getNextWorkRequired, darkGravityWave, if_neg (by omega), if_pos stake,
      retargetProofOfStake, if_pos fork]
  · intro block fits
    have value := block.getNextWorkRequired fits
    have next := stakeRetarget_nextNonzero_pos mapBlockIndex pindexLast
    refine ⟨value, ?_⟩
    rw [value]
    exact setCompact_ofNat_ne_zero (next.2.trans_lt (BitVec.isLt _)) next.1
  · exact stakeRetarget_fits
  · intro block
    have value := darkGravityWave_work block.high block.work block.room block.below
    refine ⟨(workRetarget_fits block.high block.room block.below).1, value, fun above => ?_⟩
    rw [getNextWorkRequired, value]
    refine setCompact_ofNat_ne_zero ?_ (workRetarget_next_pos block above)
    exact (Nat.min_le_left _ _).trans_lt (BitVec.isLt ChainParams.bnProofOfWorkLimit)
  · intro slowerIndex pindexSlower block slower height bits longer some fits
    have target : (stakeRetarget mapBlockIndex pindexLast).target =
        (stakeRetarget slowerIndex pindexSlower).target := by
      rw [stakeRetarget, stakeRetarget, bits]
    have divisor : (stakeRetarget mapBlockIndex pindexLast).divisor =
        (stakeRetarget slowerIndex pindexSlower).divisor := by
      rw [stakeRetarget, stakeRetarget, height]
    have multiplier : (stakeRetarget mapBlockIndex pindexLast).multiplier ≤
        (stakeRetarget slowerIndex pindexSlower).multiplier := by
      rw [stakeRetarget, stakeRetarget, height]
      exact Nat.add_le_add_left (Nat.mul_le_mul_left 2 longer) _
    have quotient := Retarget.quotient_mono target divisor multiplier
    have positive : (stakeRetarget slowerIndex pindexSlower).quotient ≠ 0 := by omega
    rw [block.getNextWorkRequired (fits.shorter target multiplier),
      slower.getNextWorkRequired fits, Retarget.nextNonzero, if_neg some, Retarget.nextNonzero,
      if_neg positive]
    exact setCompact_next_mono rfl (BitVec.isLt _) quotient
  · intro slowerIndex pindexSlower block slower targets longer
    have target : (workRetarget mapBlockIndex pindexLast).target =
        (workRetarget slowerIndex pindexSlower).target := by
      rw [workRetarget, workRetarget, targets]
    have divisor : (workRetarget mapBlockIndex pindexLast).divisor =
        (workRetarget slowerIndex pindexSlower).divisor := by
      rw [workRetarget, workRetarget, targets]
    have multiplier : (workRetarget mapBlockIndex pindexLast).multiplier ≤
        (workRetarget slowerIndex pindexSlower).multiplier := by
      rw [workRetarget, workRetarget, targets]
      exact Int.toNat_le_toNat (min_le_min_right _ (max_le_max_right _ longer))
    have value := darkGravityWave_work block.high block.work block.room block.below
    have slowerValue := darkGravityWave_work slower.high slower.work slower.room slower.below
    rw [getNextWorkRequired, value, getNextWorkRequired, slowerValue]
    exact setCompact_next_mono rfl (BitVec.isLt ChainParams.bnProofOfWorkLimit)
      (Retarget.quotient_mono target divisor multiplier)

/-! ## Chains on which the retarget is computed -/

section

attribute [local instance] mainParams

namespace HaltedChain

def lastBlock (nBits nTime : Nat) : CBlockIndex :=
  { pprev := some 1, nHeight := 3000000, nTime := nTime, nBits := nBits }

def blockBefore : BlockMap := fun hash =>
  if hash = 1 then some { nHeight := 2999999, nTime := 1700000000 } else none

def nextTarget (nBits nTime : Nat) : Uint256 :=
  Uint256.setCompact (getNextWorkRequired blockBefore (lastBlock nBits nTime))

/-- The target of the formula, with the spacing as it is. -/
def formula (nBits nTime : Nat) : Uint256 :=
  Uint256.setCompact (Uint256.getCompact
    (BitVec.ofNat 256 (stakeRetarget blockBefore (lastBlock nBits nTime)).next))

/-- The entries with work of one target, a second apart; the height is the hash. -/
def workBlock (nBits nHeight : Nat) : CBlockIndex :=
  { pprev := some (BitVec.ofNat 256 (nHeight - 1)), nHeight := nHeight,
    nTime := 1700000000 + nHeight, nBits := nBits }

def workBlocks (nBits : Nat) : BlockMap := fun hash =>
  if hash.toNat ≤ 24 then some (workBlock nBits hash.toNat) else none

/-- A spacing of a minute, from the easiest target. -/
theorem getNextWorkRequired_retarget_minute :
    getNextWorkRequired blockBefore (lastBlock 0x1e00ffff (1700000000 + 60)) =
        Uint256.getCompact (BitVec.ofNat 256
          (stakeRetarget blockBefore (lastBlock 0x1e00ffff (1700000000 + 60))).nextNonzero) ∧
      getNextWorkRequired (workBlocks 0x1e0fffff) (workBlock 0x1e0fffff 24) =
        Uint256.getCompact (BitVec.ofNat 256
          (workRetarget (workBlocks 0x1e0fffff) (workBlock 0x1e0fffff 24)).next) := by
  have stake := getNextWorkRequired_retarget blockBefore (lastBlock 0x1e00ffff (1700000000 + 60))
  have work := getNextWorkRequired_retarget (workBlocks 0x1e0fffff) (workBlock 0x1e0fffff 24)
  have fits := stake.2.2.2.1 (by decide +kernel) (by decide +kernel)
  refine ⟨(stake.2.2.1 ⟨by decide, by decide, by decide⟩ fits).1, (work.2.2.2.2.1 ?_).2.1⟩
  exact ⟨by decide, by decide, by decide +kernel, by decide +kernel⟩

/-- A time before that of the entry before gives an easier target than the same time. A target of one
becomes the limit. After a halt of 97 days the product wraps, after 70 years the factor does. With
work a target of one becomes zero, and at the limit of the regression test the product wraps. -/
theorem getNextWorkRequired_not_formula :
    (∀ nBits ∈ [0x01010000, 0x1a00ffff, 0x1d00ffff, 0x1e00ffff],
      Uint256.setCompact nBits ≤ bnTargetLimit) ∧
    nextTarget 0x1d00ffff 1700000000 < nextTarget 0x1d00ffff (1700000000 - 1) ∧
    formula 0x01010000 1700000000 < nextTarget 0x01010000 1700000000 ∧
    nextTarget 0x1e00ffff (1700000000 + 8387908) < formula 0x1e00ffff (1700000000 + 8387908) ∧
    nextTarget 0x1a00ffff (1700000000 + 2200000000) <
      formula 0x1a00ffff (1700000000 + 2200000000) ∧
    getNextWorkRequired (workBlocks 0x01010000) (workBlock 0x01010000 24) = 0 ∧
    (∀ target ∈ gravityTargets (workBlocks 0x207fffff) (workBlock 0x207fffff 24),
      target ≤ (regTestParams 0).bnProofOfWorkLimit.toNat) ∧
    @getNextWorkRequired (regTestParams 0) (workBlocks 0x207fffff) (workBlock 0x207fffff 24) ≠
      Uint256.getCompact (BitVec.ofNat 256
        (@workRetarget (workBlocks 0x207fffff) (workBlock 0x207fffff 24) (regTestParams 0)).next) := by
  decide +kernel

end HaltedChain

end

end Agouti
