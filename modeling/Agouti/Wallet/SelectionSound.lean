import Agouti.Wallet.CoinSelection

/-! # Selected coins

The search keeps two sums: the coins flagged in `vfIncluded` sum to `nTotal`, and those flagged in
`vfBest` to `nBest`, which stays at the target or above it (`CoinSelection.approximateBestSubset_spec`).
Every exit of `SelectCoinsMinConf` has picked coins from the eligible ones that reach the target, or
has seen that all of them together do not (`CoinSelection.selectCoinsMinConf_exact`).
-/

namespace Agouti

open List

namespace CoinSelection

open Outcome

/-! ## The search -/

section

variable {values : List CAmount} {nTargetValue nTotalLower : CAmount} {search after : Search}

/-- The flagged coins of the best subset sum to `nBest`, which reaches the target. -/
structure Best (values : List CAmount) (nTargetValue : CAmount) (search : Search) : Prop where
  sum : (Flags.chosen values search.vfBest).sum = search.nBest
  reached : nTargetValue ≤ search.nBest

/-- The flagged coins of the subset that is tried sum to `nTotal`. -/
structure Included (values : List CAmount) (search : Search) : Prop where
  length : search.vfIncluded.length = values.length
  sum : (Flags.chosen values search.vfIncluded).sum = search.nTotal

/-- Amounts with a 64-bit total. -/
structure Amounts64 (values : List CAmount) : Prop where
  nonneg : ∀ value ∈ values, 0 ≤ value
  total : values.sum ≤ INT64_MAX

theorem Amounts64.chosen (amounts : Amounts64 values) (flags : List Bool) :
    0 ≤ (Flags.chosen values flags).sum ∧ (Flags.chosen values flags).sum ≤ INT64_MAX := by
  constructor
  · apply sum_nonneg
    intro value member
    exact amounts.nonneg value ((Flags.chosen_sublist values flags).subset member)
  · exact le_trans (Flags.sum_le amounts.nonneg flags) amounts.total

theorem int64_nonneg {value : Int} (least : 0 ≤ value) (most : value ≤ INT64_MAX) :
    int64 value = .ok value := Amounts.int64_nonneg least most

section

variable (amounts : Amounts64 values)

include amounts

theorem tryCoin_spec {i : Nat} {value : CAmount}
    (here : values[i]? = some value) (off : search.vfIncluded[i]? = some false)
    (included : Included values search) (best : Best values nTargetValue search) :
    ∃ after, tryCoin nTargetValue search i value = .ok after ∧ Included values after ∧
      Best values nTargetValue after ∧
      ∀ j ≠ i, after.vfIncluded[j]? = search.vfIncluded[j]? := by
  have added := Flags.sum_set_true here off
  have before := amounts.chosen search.vfIncluded
  have whole := amounts.chosen (search.vfIncluded.set i true)
  rw [included.sum] at added before
  rw [added] at whole
  unfold tryCoin
  rw [int64_nonneg whole.1 whole.2, ok_bind]
  dsimp only
  split
  · rename_i reached
    rw [add_sub_cancel_right, int64_nonneg before.1 before.2, ok_bind]
    rw [set_set, Flags.set_same off]
    refine ⟨_, rfl, ⟨included.length, included.sum⟩, ?_, fun j _ => rfl⟩
    split
    · exact ⟨added, reached⟩
    · exact ⟨best.sum, best.reached⟩
  · refine ⟨_, rfl, ⟨?_, added⟩, ⟨best.sum, best.reached⟩, ?_⟩
    · exact length_set.trans included.length
    · intro j apart
      exact List.getElem?_set_ne apart.symm

theorem passFrom_spec (first : Bool) (bits : Nat → Bool)
    (rest : List CAmount) (i : Nat) (here : values.drop i = rest)
    (untried : first = true → ∀ j, i ≤ j → j < values.length → search.vfIncluded[j]? = some false)
    (included : Included values search) (best : Best values nTargetValue search) :
    ∃ after, (rest.zipIdx i).foldlM (fun search coin =>
        if if first then bits coin.2 else search.vfIncluded[coin.2]? == some false then
          tryCoin nTargetValue search coin.2 coin.1
        else .ok search) search = .ok after ∧
      Included values after ∧ Best values nTargetValue after := by
  induction rest generalizing i search with
  | nil => exact ⟨search, rfl, included, best⟩
  | cons value rest ih =>
    have inside : i < values.length := by
      by_contra outside
      rw [drop_eq_nil_of_le (not_lt.mp outside)] at here
      cases here
    have split := drop_eq_getElem_cons inside
    rw [here] at split
    obtain ⟨rfl, behind⟩ := List.cons.inj split
    rw [zipIdx_cons, foldlM_cons]
    dsimp only
    by_cases tried : (if first then bits i else search.vfIncluded[i]? == some false) = true
    · have off : search.vfIncluded[i]? = some false := by
        cases first with
        | true => exact untried rfl i le_rfl inside
        | false => exact beq_iff_eq.mp tried
      obtain ⟨middle, done, kept, better, apart⟩ :=
        tryCoin_spec amounts (List.getElem?_eq_getElem inside) off included best
      rw [if_pos tried, done, ok_bind]
      apply ih (i + 1) behind.symm _ kept better
      intro isFirst j later small
      rw [apart j (by omega)]
      exact untried isFirst j (by omega) small
    · rw [if_neg tried, ok_bind]
      apply ih (i + 1) behind.symm _ included best
      intro isFirst j later small
      exact untried isFirst j (by omega) small

theorem searchPass_spec (first : Bool) (bits : Nat → Bool)
    (untried : first = true → ∀ j < values.length, search.vfIncluded[j]? = some false)
    (included : Included values search) (best : Best values nTargetValue search) :
    ∃ after, searchPass nTargetValue first bits values search = .ok after ∧
      Included values after ∧ Best values nTargetValue after :=
  passFrom_spec amounts first bits values 0 rfl (fun isFirst j _ => untried isFirst j) included best

theorem searchRep_spec (bits : Nat → Bool)
    (best : Best values nTargetValue search) :
    ∃ after, searchRep nTargetValue bits values search = .ok after ∧
      Best values nTargetValue after := by
  unfold searchRep
  extract_lets begun
  have included : Included values begun :=
    ⟨length_replicate, by rw [Flags.chosen_none]; rfl⟩
  have kept : Best values nTargetValue begun := ⟨best.sum, best.reached⟩
  obtain ⟨first, done, included, better⟩ := searchPass_spec amounts true bits
    (fun _ j small => List.getElem?_replicate_of_lt small) included kept
  rw [done, ok_bind]
  split
  · exact ⟨first, rfl, better⟩
  · obtain ⟨second, again, -, best⟩ := searchPass_spec amounts false bits nofun included better
    exact ⟨second, again, best⟩

theorem searchLoop_spec (bits : Nat → Nat → Bool) (iterations nRep : Nat)
    (best : Best values nTargetValue search) :
    ∃ after, searchLoop nTargetValue bits values iterations nRep search = .ok after ∧
      Best values nTargetValue after := by
  induction iterations generalizing nRep search with
  | zero => exact ⟨search, rfl, best⟩
  | succ iterations ih =>
    rw [searchLoop]
    split
    · obtain ⟨middle, done, better⟩ := searchRep_spec amounts (bits nRep) best
      rw [done, ok_bind]
      exact ih (nRep + 1) better
    · exact ⟨search, rfl, best⟩

/-- **Behind `ApproximateBestSubset` the flagged coins sum to `nBest`, which is at least the
target.** -/
theorem approximateBestSubset_spec (enough : nTargetValue ≤ values.sum)
    (iterations : Nat) (bits : Nat → Nat → Bool) :
    ∃ vfBest nBest, approximateBestSubset values values.sum nTargetValue iterations bits =
        .ok (vfBest, nBest) ∧
      (Flags.chosen values vfBest).sum = nBest ∧ nTargetValue ≤ nBest := by
  have start : Best values nTargetValue
      ⟨0, [], false, values.sum, List.replicate values.length true⟩ :=
    ⟨by rw [Flags.chosen_all], enough⟩
  obtain ⟨search, done, best⟩ := searchLoop_spec amounts bits iterations 0 start
  refine ⟨search.vfBest, search.nBest, ?_, best.sum, best.reached⟩
  rw [approximateBestSubset, done]
  rfl

end

end

/-! ## The scan -/

section

variable {Coin : Type}

section

variable (view : CoinView Coin) (obfuScationDenominations : List CAmount) (nTargetValue : CAmount)
  (nConfMine nConfTheirs : Int) (tryDenom : Nat) (vCoins : List (COutput Coin))

def coinPair (output : COutput Coin) : CAmount × Coin := (view.nValue output.coin, output.coin)

def eligiblePairs : List (CAmount × Coin) :=
  (vCoins.filter (eligible view nConfMine nConfTheirs)).map (coinPair view)

/-- Those that this run of the loop looks at. -/
def triedPairs : List (CAmount × Coin) :=
  (eligiblePairs view nConfMine nConfTheirs vCoins).filter fun coin =>
    !(decide (tryDenom = 0) && isDenominatedAmount obfuScationDenominations coin.1)

def lowerPairs (coins : List (CAmount × Coin)) : List (CAmount × Coin) :=
  coins.filter fun coin => decide (coin.1 < nTargetValue + CENT)

def sumOf (coins : List (CAmount × Coin)) : Int := (coins.map Prod.fst).sum

/-- No sum that is formed of these coins leaves an `int64_t`, and none of them is the value at which
`coinLowestLarger` starts. -/
structure Selectable (coins : List (CAmount × Coin)) : Prop where
  nonneg : ∀ coin ∈ coins, 0 ≤ coin.1
  below : ∀ coin ∈ coins, coin.1 < INT64_MAX
  limit : nTargetValue + CENT ≤ INT64_MAX
  total : sumOf (lowerPairs nTargetValue coins) ≤ INT64_MAX

/-- What the variables hold when these coins have been looked at. -/
structure Scanned (tried : List (CAmount × Coin)) (scan : Scan Coin) : Prop where
  vValue : scan.vValue = lowerPairs nTargetValue tried
  nTotalLower : scan.nTotalLower = sumOf scan.vValue
  noLarger : scan.coinLowestLarger.2 = none → scan.coinLowestLarger.1 = INT64_MAX ∧
    ∀ coin ∈ tried, coin.1 < nTargetValue + CENT
  larger : ∀ coin, scan.coinLowestLarger.2 = some coin →
    (scan.coinLowestLarger.1, coin) ∈ tried ∧ nTargetValue + CENT ≤ scan.coinLowestLarger.1

end

variable {view : CoinView Coin} {obfuScationDenominations : List CAmount} {nTargetValue : CAmount}
  {nConfMine nConfTheirs : Int} {tryDenom : Nat} {vCoins : List (COutput Coin)}
  {coins picked tried : List (CAmount × Coin)}

theorem sumOf_nonneg (nonneg : ∀ coin ∈ coins, 0 ≤ coin.1) : 0 ≤ sumOf coins := by
  apply sum_nonneg
  intro value member
  obtain ⟨coin, coinMember, rfl⟩ := mem_map.mp member
  exact nonneg coin coinMember

theorem sumOf_le (nonneg : ∀ coin ∈ coins, 0 ≤ coin.1) (fewer : picked.Subperm coins) :
    sumOf picked ≤ sumOf coins := by
  obtain ⟨sub, same, kept⟩ := fewer
  have below : sumOf sub ≤ sumOf coins := by
    apply (kept.map Prod.fst).sum_le_sum
    intro value member
    obtain ⟨coin, coinMember, rfl⟩ := mem_map.mp member
    exact nonneg coin coinMember
  calc sumOf picked = sumOf sub := ((same.map Prod.fst).sum_eq).symm
    _ ≤ sumOf coins := below

theorem lowerPairs_append (more : List (CAmount × Coin)) :
    lowerPairs nTargetValue (tried ++ more) =
      lowerPairs nTargetValue tried ++ lowerPairs nTargetValue more := filter_append ..

theorem triedPairs_one : triedPairs view obfuScationDenominations nConfMine nConfTheirs 1 vCoins =
    eligiblePairs view nConfMine nConfTheirs vCoins :=
  filter_eq_self.mpr fun _ _ => rfl

theorem triedPairs_sublist :
    (triedPairs view obfuScationDenominations nConfMine nConfTheirs tryDenom vCoins).Sublist
      (eligiblePairs view nConfMine nConfTheirs vCoins) := filter_sublist

theorem Selectable.sublist (selectable : Selectable nTargetValue coins) (fewer : picked.Sublist coins) :
    Selectable nTargetValue picked where
  nonneg := fun coin member => selectable.nonneg coin (fewer.subset member)
  below := fun coin member => selectable.below coin (fewer.subset member)
  limit := selectable.limit
  total := by
    apply le_trans (sumOf_le _ (fewer.filter _).subperm) selectable.total
    intro coin member
    exact selectable.nonneg coin (mem_of_mem_filter member)

theorem Selectable.perm (selectable : Selectable nTargetValue coins) (same : picked.Perm coins) :
    Selectable nTargetValue picked where
  nonneg := fun coin member => selectable.nonneg coin (same.subset member)
  below := fun coin member => selectable.below coin (same.subset member)
  limit := selectable.limit
  total := by
    have sums : sumOf (lowerPairs nTargetValue picked) = sumOf (lowerPairs nTargetValue coins) :=
      ((same.filter _).map Prod.fst).sum_eq
    rw [sums]
    exact selectable.total

theorem Selectable.lower (selectable : Selectable nTargetValue coins) :
    0 ≤ sumOf (lowerPairs nTargetValue coins) ∧
      sumOf (lowerPairs nTargetValue coins) ≤ INT64_MAX := by
  refine ⟨sumOf_nonneg ?_, selectable.total⟩
  intro coin member
  exact selectable.nonneg coin (mem_of_mem_filter member)

def lookAt (nTargetValue : CAmount) :
    List (CAmount × Coin) → Scan Coin → Except WalletFault ((CAmount × Coin) ⊕ Scan Coin)
  | [], scan => .ok (.inr scan)
  | coin :: coins, scan =>
    if coin.1 = nTargetValue then .ok (.inl coin)
    else do
      let limit ← int64 (nTargetValue + CENT)
      if coin.1 < limit then do
        let nTotalLower ← int64 (scan.nTotalLower + coin.1)
        lookAt nTargetValue coins { scan with vValue := scan.vValue ++ [coin], nTotalLower }
      else if coin.1 < scan.coinLowestLarger.1 then
        lookAt nTargetValue coins { scan with coinLowestLarger := (coin.1, some coin.2) }
      else lookAt nTargetValue coins scan

theorem triedPairs_cons (output : COutput Coin) :
    triedPairs view obfuScationDenominations nConfMine nConfTheirs tryDenom (output :: vCoins) =
      let later := triedPairs view obfuScationDenominations nConfMine nConfTheirs tryDenom vCoins
      if !eligible view nConfMine nConfTheirs output then later
      else if tryDenom = 0 ∧ isDenominatedAmount obfuScationDenominations (view.nValue output.coin) then
        later
      else coinPair view output :: later := by
  unfold triedPairs eligiblePairs
  dsimp only
  split
  · rename_i ineligible
    rw [filter_cons_of_neg (by simpa using ineligible)]
  · rename_i fits
    rw [filter_cons_of_pos (by simpa using fits), map_cons]
    split
    · rename_i denominated
      rw [filter_cons_of_neg (by simp [coinPair, denominated])]
    · rename_i allowed
      rw [filter_cons_of_pos]
      simpa [coinPair, imp_iff_not_or] using allowed

theorem scanCoins_eq (vCoins : List (COutput Coin)) (scan : Scan Coin) :
    scanCoins view obfuScationDenominations nTargetValue nConfMine nConfTheirs tryDenom vCoins scan =
      lookAt nTargetValue
        (triedPairs view obfuScationDenominations nConfMine nConfTheirs tryDenom vCoins) scan := by
  induction vCoins generalizing scan with
  | nil => rfl
  | cons output vCoins ih =>
    rw [triedPairs_cons, scanCoins]
    dsimp only
    split
    · exact ih scan
    · split
      · exact ih scan
      · rw [lookAt]
        simp only [coinPair, ih]
        rfl

namespace Scanned

variable {scan : Scan Coin} {n : CAmount} {coin : Coin}

theorem listed (scanned : Scanned nTargetValue tried scan) (coin : Coin) (lower : n < nTargetValue + CENT) :
    Scanned nTargetValue (tried ++ [(n, coin)])
      { scan with vValue := scan.vValue ++ [(n, coin)], nTotalLower := scan.nTotalLower + n } where
  vValue := by
    rw [lowerPairs_append, ← scanned.vValue]
    have single : lowerPairs nTargetValue [(n, coin)] = [(n, coin)] :=
      filter_cons_of_pos (by simpa using lower)
    rw [single]
  nTotalLower := by
    rw [scanned.nTotalLower, sumOf, sumOf, map_append, List.sum_append]
    exact congrArg (_ + ·) (sum_singleton).symm
  noLarger := by
    intro missing
    obtain ⟨start, all⟩ := scanned.noLarger missing
    refine ⟨start, fun other member => ?_⟩
    rcases mem_append.mp member with before | last
    · exact all other before
    · rw [mem_singleton.mp last]
      exact lower
  larger := by
    intro found held
    obtain ⟨member, above⟩ := scanned.larger found held
    exact ⟨mem_append_left _ member, above⟩

theorem above_vValue (scanned : Scanned nTargetValue tried scan)
    (above : ¬n < nTargetValue + CENT) :
    scan.vValue = lowerPairs nTargetValue (tried ++ [(n, coin)]) := by
  rw [lowerPairs_append, ← scanned.vValue]
  have none : lowerPairs nTargetValue [(n, coin)] = [] :=
    filter_cons_of_neg (by simpa using above)
  rw [none, append_nil]

theorem replaced (scanned : Scanned nTargetValue tried scan) (above : ¬n < nTargetValue + CENT) :
    Scanned nTargetValue (tried ++ [(n, coin)]) { scan with coinLowestLarger := (n, some coin) } where
  vValue := scanned.above_vValue above
  nTotalLower := scanned.nTotalLower
  noLarger := nofun
  larger := by
    rintro found ⟨⟩
    exact ⟨mem_append_right _ (mem_singleton_self _), not_lt.mp above⟩

theorem passed (scanned : Scanned nTargetValue tried scan) (above : ¬n < nTargetValue + CENT)
    (below : n < INT64_MAX) (notLower : ¬n < scan.coinLowestLarger.1) :
    Scanned nTargetValue (tried ++ [(n, coin)]) scan where
  vValue := scanned.above_vValue above
  nTotalLower := scanned.nTotalLower
  noLarger := by
    intro missing
    obtain ⟨start, -⟩ := scanned.noLarger missing
    rw [start] at notLower
    exact absurd below notLower
  larger := by
    intro found held
    obtain ⟨member, reached⟩ := scanned.larger found held
    exact ⟨mem_append_left _ member, reached⟩

end Scanned

theorem lookAt_spec {scan : Scan Coin} (positive : 0 < nTargetValue) (seen coins : List (CAmount × Coin))
    (selectable : Selectable nTargetValue (seen ++ coins)) (scanned : Scanned nTargetValue seen scan) :
    (∃ coin ∈ seen ++ coins, lookAt nTargetValue coins scan = .ok (.inl coin) ∧
      coin.1 = nTargetValue) ∨
    ∃ after, lookAt nTargetValue coins scan = .ok (.inr after) ∧
      Scanned nTargetValue (seen ++ coins) after := by
  induction coins generalizing seen scan with
  | nil =>
    rw [append_nil]
    exact .inr ⟨scan, rfl, scanned⟩
  | cons coin coins ih =>
    obtain ⟨n, coin⟩ := coin
    have member : (n, coin) ∈ seen ++ (n, coin) :: coins :=
      mem_append_right _ mem_cons_self
    have below : n < INT64_MAX := selectable.below _ member
    have regroup : seen ++ (n, coin) :: coins = (seen ++ [(n, coin)]) ++ coins := by simp
    rw [lookAt]
    dsimp only
    split
    · rename_i exactly
      exact .inl ⟨(n, coin), member, rfl, exactly⟩
    · rw [regroup] at selectable ⊢
      have known := (selectable.sublist (sublist_append_left _ _)).lower
      have limit : 0 ≤ nTargetValue + CENT := add_nonneg positive.le (by decide)
      rw [int64_nonneg limit selectable.limit, ok_bind]
      split
      · rename_i lower
        have listed := scanned.listed coin lower
        rw [← listed.vValue, ← listed.nTotalLower] at known
        rw [int64_nonneg known.1 known.2, ok_bind]
        exact ih _ selectable listed
      · rename_i above
        split
        · exact ih _ selectable (scanned.replaced above)
        · rename_i notLower
          exact ih _ selectable (scanned.passed above below notLower)

/-- The flagged coins of a call sum to `nBest`, which is at least its target. -/
def SubsetCall.Reached (call : SubsetCall Coin) : Prop :=
  sumOf (Flags.chosen call.vValue call.vfBest) = call.nBest ∧ call.nTargetValue ≤ call.nBest

variable [StdSort] (choices : Choices Coin) {scan : Scan Coin}

theorem subsetCalls_spec (positive : 0 < nTargetValue) (selectable : Selectable nTargetValue tried)
    (scanned : Scanned nTargetValue tried scan) (enough : nTargetValue ≤ scan.nTotalLower) :
    ∃ vfBest nBest calls, subsetCalls choices nTargetValue scan = .ok (vfBest, nBest, calls) ∧
      nTargetValue ≤ sumOf (Flags.chosen (StdSort.sort greaterValue scan.vValue) vfBest) ∧
      ∀ call ∈ calls, call.Reached := by
  have same := StdSort.sort_perm greaterValue scan.vValue
  have sum : ((StdSort.sort greaterValue scan.vValue).map Prod.fst).sum = scan.nTotalLower :=
    ((same.map Prod.fst).sum_eq).trans scanned.nTotalLower.symm
  have lower := selectable.lower
  rw [← scanned.vValue, ← scanned.nTotalLower] at lower
  have amounts : Amounts64 ((StdSort.sort greaterValue scan.vValue).map Prod.fst) := by
    refine ⟨fun value member => ?_, sum.le.trans lower.2⟩
    obtain ⟨coin, sorted, rfl⟩ := mem_map.mp member
    have listed := same.subset sorted
    rw [scanned.vValue] at listed
    exact selectable.nonneg coin (mem_of_mem_filter listed)
  have limit : 0 ≤ nTargetValue + CENT := add_nonneg positive.le (by decide)
  obtain ⟨vfBest, nBest, first, firstSum, firstReached⟩ :=
    approximateBestSubset_spec amounts (enough.trans sum.ge) 1000 choices.firstBits
  rw [sum] at first
  rw [Flags.chosen_map] at firstSum
  unfold subsetCalls
  dsimp only
  rw [first, ok_bind, int64_nonneg limit selectable.limit, ok_bind]
  split
  · rename_i again
    obtain ⟨vfBetter, nBetter, second, secondSum, secondReached⟩ :=
      approximateBestSubset_spec amounts (again.2.trans sum.ge) 1000 choices.secondBits
    rw [sum] at second
    rw [Flags.chosen_map] at secondSum
    have cent : nTargetValue ≤ nTargetValue + CENT := le_add_of_nonneg_right (by decide)
    rw [second, ok_bind]
    refine ⟨_, _, _, rfl, (cent.trans secondReached).trans secondSum.ge, ?_⟩
    intro call member
    rcases mem_cons.mp member with rfl | last
    · exact ⟨firstSum, firstReached⟩
    · obtain rfl := mem_singleton.mp last
      exact ⟨secondSum, secondReached⟩
  · refine ⟨_, _, _, rfl, firstReached.trans firstSum.ge, ?_⟩
    intro call member
    obtain rfl := mem_singleton.mp member
    exact ⟨firstSum, firstReached⟩

/-! ## The coins that are returned -/

section

variable [DecidableEq Coin]

/-- The selection is a part of the coins that reaches the target, where there is one. -/
structure Found (coins : List (CAmount × Coin)) (nTargetValue : CAmount)
    (selected : Selected Coin) : Prop where
  result : selected.result = true ↔ nTargetValue ≤ sumOf coins
  picked : selected.result = true → ∃ picked : List (CAmount × Coin), picked.Subperm coins ∧
    selected.coins = ⟨picked.map Prod.snd, sumOf picked⟩ ∧ nTargetValue ≤ sumOf picked
  calls : ∀ call ∈ selected.calls, call.Reached

omit [StdSort] in
theorem insertAll (picked : List (CAmount × Coin)) (set : CoinSet Coin)
    (distinct : (set.setCoinsRet ++ picked.map Prod.snd).Nodup) (least : 0 ≤ set.nValueRet)
    (nonneg : ∀ coin ∈ picked, 0 ≤ coin.1) (most : set.nValueRet + sumOf picked ≤ INT64_MAX) :
    picked.foldlM CoinSet.insert set =
      .ok ⟨set.setCoinsRet ++ picked.map Prod.snd, set.nValueRet + sumOf picked⟩ := by
  induction picked generalizing set with
  | nil =>
    rw [map_nil, append_nil]
    exact congrArg (fun value => Except.ok (CoinSet.mk set.setCoinsRet value)) (add_zero _).symm
  | cons coin picked ih =>
    have first : 0 ≤ coin.1 := nonneg coin mem_cons_self
    have rest : ∀ other ∈ picked, 0 ≤ other.1 := fun other member =>
      nonneg other (mem_cons_of_mem _ member)
    have sum : sumOf (coin :: picked) = coin.1 + sumOf picked := List.sum_cons
    have fresh : coin.2 ∉ set.setCoinsRet := by
      intro held
      exact disjoint_of_nodup_append distinct held mem_cons_self
    have regroup : set.setCoinsRet ++ (coin :: picked).map Prod.snd =
        (set.setCoinsRet ++ [coin.2]) ++ picked.map Prod.snd := by simp
    rw [sum, ← add_assoc] at most ⊢
    have more : 0 ≤ set.nValueRet + coin.1 := add_nonneg least first
    have fits : set.nValueRet + coin.1 ≤ INT64_MAX :=
      le_trans (le_add_of_nonneg_right (sumOf_nonneg rest)) most
    rw [foldlM_cons, CoinSet.insert, int64_nonneg more fits, ok_bind, if_neg fresh, ok_bind,
      regroup]
    rw [regroup] at distinct
    exact ih _ distinct more rest most

omit [StdSort] in
theorem found_of_picked (nonneg : ∀ coin ∈ coins, 0 ≤ coin.1) (distinct : (coins.map Prod.snd).Nodup)
    (fewer : picked.Subperm coins) (reached : nTargetValue ≤ sumOf picked)
    (most : sumOf picked ≤ INT64_MAX) {calls : List (SubsetCall Coin)}
    (called : ∀ call ∈ calls, call.Reached) :
    picked.foldlM CoinSet.insert noCoins = .ok ⟨picked.map Prod.snd, sumOf picked⟩ ∧
      Found coins nTargetValue ⟨true, ⟨picked.map Prod.snd, sumOf picked⟩, calls⟩ := by
  have nodup : (picked.map Prod.snd).Nodup := by
    obtain ⟨sub, same, kept⟩ := fewer
    exact (same.map Prod.snd).nodup_iff.mp (distinct.sublist (kept.map Prod.snd))
  have known : ∀ coin ∈ picked, 0 ≤ coin.1 := fun coin member => nonneg coin (fewer.subset member)
  constructor
  · have inserted := insertAll picked noCoins nodup le_rfl known (by simpa [noCoins] using most)
    simpa [noCoins] using inserted
  · refine ⟨iff_of_true rfl (le_trans reached (sumOf_le nonneg fewer)), fun _ => ?_, called⟩
    exact ⟨picked, fewer, rfl, reached⟩

omit [StdSort] in
theorem found_of_larger (selectable : Selectable nTargetValue coins)
    (distinct : (coins.map Prod.snd).Nodup) {coin : CAmount × Coin} (member : coin ∈ coins)
    (reached : nTargetValue ≤ coin.1) {calls : List (SubsetCall Coin)}
    (called : ∀ call ∈ calls, call.Reached) :
    noCoins.insert coin = .ok ⟨[coin.2], coin.1⟩ ∧
      Found coins nTargetValue ⟨true, ⟨[coin.2], coin.1⟩, calls⟩ := by
  have single : sumOf [coin] = coin.1 := sum_singleton
  have most : sumOf [coin] ≤ INT64_MAX := single.le.trans (selectable.below coin member).le
  have found := found_of_picked selectable.nonneg distinct
    (singleton_sublist.mpr member).subperm (reached.trans single.ge) most called
  rw [single] at found
  refine ⟨?_, found.2⟩
  have value : (noCoins : CoinSet Coin).nValueRet + coin.1 = coin.1 := zero_add coin.1
  have inserted : int64 coin.1 = .ok coin.1 :=
    int64_nonneg (selectable.nonneg coin member) (selectable.below coin member).le
  rw [CoinSet.insert, value, inserted, ok_bind]
  rfl

theorem selectSubset_spec (positive : 0 < nTargetValue) (selectable : Selectable nTargetValue coins)
    (distinct : (coins.map Prod.snd).Nodup) (fewer : tried.Sublist coins)
    (scanned : Scanned nTargetValue tried scan) (enough : nTargetValue ≤ scan.nTotalLower) :
    ∃ selected, selectSubset choices nTargetValue scan = .ok selected ∧
      Found coins nTargetValue selected := by
  obtain ⟨vfBest, nBest, calls, done, reached, called⟩ :=
    subsetCalls_spec choices positive (selectable.sublist fewer) scanned enough
  have limit : 0 ≤ nTargetValue + CENT := add_nonneg positive.le (by decide)
  have cent : nTargetValue ≤ nTargetValue + CENT := le_add_of_nonneg_right (by decide)
  have listed : (Flags.chosen (StdSort.sort greaterValue scan.vValue) vfBest).Subperm
      (lowerPairs nTargetValue coins) := by
    have kept : scan.vValue.Sublist (lowerPairs nTargetValue coins) :=
      scanned.vValue ▸ fewer.filter _
    have same := StdSort.sort_perm greaterValue scan.vValue
    exact ((Flags.chosen_sublist _ _).subperm.trans same.subperm).trans kept.subperm
  have below : sumOf (Flags.chosen (StdSort.sort greaterValue scan.vValue) vfBest) ≤ INT64_MAX := by
    refine (sumOf_le (fun coin member => ?_) listed).trans selectable.total
    exact selectable.nonneg coin (mem_of_mem_filter member)
  have best := found_of_picked selectable.nonneg distinct
    (listed.trans filter_sublist.subperm) reached below called
  unfold selectSubset
  rw [done, ok_bind]
  dsimp only
  rw [int64_nonneg limit selectable.limit, ok_bind]
  split
  · rename_i coin larger
    obtain ⟨member, above⟩ := scanned.larger coin larger
    split
    · have single := found_of_larger selectable distinct (fewer.subset member) (cent.trans above) called
      rw [single.1]
      exact ⟨_, rfl, single.2⟩
    · rw [best.1]
      exact ⟨_, rfl, best.2⟩
  · rw [best.1]
    exact ⟨_, rfl, best.2⟩

theorem selectRun_spec (positive : 0 < nTargetValue)
    (selectable : Selectable nTargetValue (eligiblePairs view nConfMine nConfTheirs vCoins))
    (distinct : ((eligiblePairs view nConfMine nConfTheirs vCoins).map Prod.snd).Nodup)
    (denomsLeft : Nat) :
    (∃ selected, selectLoop choices view obfuScationDenominations nTargetValue nConfMine nConfTheirs vCoins denomsLeft
        (INT64_MAX, none) = .ok selected ∧
      Found (eligiblePairs view nConfMine nConfTheirs vCoins) nTargetValue selected) ∨
    (sumOf (triedPairs view obfuScationDenominations nConfMine nConfTheirs (1 - denomsLeft) vCoins) <
        nTargetValue ∧
      selectLoop choices view obfuScationDenominations nTargetValue nConfMine nConfTheirs vCoins denomsLeft (INT64_MAX, none) =
        match denomsLeft with
        | 0 => .ok ⟨false, noCoins, []⟩
        | denomsLeft + 1 =>
          selectLoop choices view obfuScationDenominations nTargetValue nConfMine nConfTheirs vCoins denomsLeft
            (INT64_MAX, none)) := by
  have fewer : (triedPairs view obfuScationDenominations nConfMine nConfTheirs (1 - denomsLeft)
      vCoins).Sublist (eligiblePairs view nConfMine nConfTheirs vCoins) := triedPairs_sublist
  have start : Scanned nTargetValue [] (⟨[], 0, INT64_MAX, none⟩ : Scan Coin) :=
    ⟨rfl, rfl, fun _ => ⟨rfl, nofun⟩, nofun⟩
  have cent : nTargetValue ≤ nTargetValue + CENT := le_add_of_nonneg_right (by decide)
  have noCalls : ∀ call ∈ ([] : List (SubsetCall Coin)), call.Reached := nofun
  rw [selectLoop, scanCoins_eq]
  rcases lookAt_spec positive []
    (triedPairs view obfuScationDenominations nConfMine nConfTheirs (1 - denomsLeft) vCoins)
    (selectable.sublist fewer) start with ⟨coin, member, ended, exactly⟩ | ⟨scan, ended, scanned⟩
  · rw [ended, ok_bind]
    have single := found_of_larger selectable distinct (fewer.subset member) exactly.ge noCalls
    left
    dsimp only
    rw [single.1]
    exact ⟨_, rfl, single.2⟩
  · rw [ended, ok_bind]
    have listed := scanned.nTotalLower
    have most := (selectable.sublist fewer).lower.2
    rw [nil_append] at scanned
    rw [← scanned.vValue] at most
    dsimp only
    split
    · rename_i exactly
      have kept : scan.vValue.Sublist (eligiblePairs view nConfMine nConfTheirs vCoins) :=
        scanned.vValue ▸ filter_sublist.trans fewer
      have all := found_of_picked selectable.nonneg distinct kept.subperm
        (exactly.ge.trans listed.le) most noCalls
      left
      rw [all.1]
      exact ⟨_, rfl, all.2⟩
    · split
      · rename_i short
        split
        · rename_i missing
          right
          obtain ⟨begins, lower⟩ := scanned.noLarger missing
          have held : scan.coinLowestLarger = (INT64_MAX, none) := Prod.ext begins missing
          have all : scan.vValue = triedPairs view obfuScationDenominations nConfMine nConfTheirs
              (1 - denomsLeft) vCoins :=
            scanned.vValue.trans (filter_eq_self.mpr fun coin member =>
              decide_eq_true (lower coin member))
          rw [held, ← all, ← listed]
          exact ⟨short, rfl⟩
        · rename_i coin held
          obtain ⟨member, above⟩ := scanned.larger coin held
          have single := found_of_larger selectable distinct (fewer.subset member)
            (cent.trans above) noCalls
          left
          rw [single.1]
          exact ⟨_, rfl, single.2⟩
      · rename_i enough
        exact .inl (selectSubset_spec choices positive selectable distinct fewer scanned
          (not_lt.mp enough))

theorem selectLoop_spec (positive : 0 < nTargetValue)
    (selectable : Selectable nTargetValue (eligiblePairs view nConfMine nConfTheirs vCoins))
    (distinct : ((eligiblePairs view nConfMine nConfTheirs vCoins).map Prod.snd).Nodup)
    (denomsLeft : Nat) :
    ∃ selected, selectLoop choices view obfuScationDenominations nTargetValue nConfMine nConfTheirs vCoins denomsLeft
        (INT64_MAX, none) = .ok selected ∧
      Found (eligiblePairs view nConfMine nConfTheirs vCoins) nTargetValue selected := by
  induction denomsLeft with
  | zero =>
    rcases selectRun_spec choices positive selectable distinct 0 with found | ⟨short, ended⟩
    · exact found
    · rw [triedPairs_one] at short
      refine ⟨_, ended, iff_of_false nofun (not_le.mpr short), nofun, nofun⟩
  | succ denomsLeft ih =>
    rcases selectRun_spec choices positive selectable distinct (denomsLeft + 1) with
      found | ⟨-, ended⟩
    · exact found
    · rw [ended]
      exact ih

variable (view obfuScationDenominations) in
/-- **`SelectCoinsMinConf` succeeds exactly when the eligible coins reach the target**, and then
returns a set of them with its exact sum, which reaches the target. Every call of
`ApproximateBestSubset` flags coins that sum to `nBest`, which reaches its target. -/
theorem selectCoinsMinConf_exact (positive : 0 < nTargetValue)
    (distinct : (vCoins.map COutput.coin).Nodup)
    (selectable : Selectable nTargetValue (eligiblePairs view nConfMine nConfTheirs vCoins)) :
    ∃ selected, selectCoinsMinConf choices view obfuScationDenominations nTargetValue nConfMine
        nConfTheirs vCoins = .ok selected ∧
      (selected.result = true ↔ nTargetValue ≤ ((vCoins.filter
        (eligible view nConfMine nConfTheirs)).map fun output => view.nValue output.coin).sum) ∧
      (selected.result = true →
        selected.coins.setCoinsRet.Nodup ∧
        (∀ coin ∈ selected.coins.setCoinsRet, ∃ output ∈ vCoins,
          eligible view nConfMine nConfTheirs output = true ∧ output.coin = coin) ∧
        selected.coins.nValueRet = (selected.coins.setCoinsRet.map view.nValue).sum ∧
        nTargetValue ≤ selected.coins.nValueRet) ∧
      ∀ call ∈ selected.calls,
        ((Flags.chosen call.vValue call.vfBest).map Prod.fst).sum = call.nBest ∧
          call.nTargetValue ≤ call.nBest := by
  let sorted := StdSort.sort (lessThenDenom view obfuScationDenominations) (choices.shuffle vCoins)
  have same : sorted.Perm vCoins := (StdSort.sort_perm _ _).trans (choices.shuffle_perm vCoins)
  have pairs : (eligiblePairs view nConfMine nConfTheirs sorted).Perm
      (eligiblePairs view nConfMine nConfTheirs vCoins) := (same.filter _).map _
  have names : (eligiblePairs view nConfMine nConfTheirs vCoins).map Prod.snd =
      (vCoins.filter (eligible view nConfMine nConfTheirs)).map COutput.coin := map_map
  have values : sumOf (eligiblePairs view nConfMine nConfTheirs vCoins) = ((vCoins.filter
      (eligible view nConfMine nConfTheirs)).map fun output => view.nValue output.coin).sum :=
    congrArg List.sum map_map
  have apart : ((eligiblePairs view nConfMine nConfTheirs vCoins).map Prod.snd).Nodup := by
    rw [names]
    exact distinct.sublist (filter_sublist.map _)
  obtain ⟨selected, done, found⟩ := selectLoop_spec choices positive (selectable.perm pairs)
    ((pairs.map Prod.snd).nodup_iff.mpr apart) 1
  have sums : sumOf (eligiblePairs view nConfMine nConfTheirs sorted) = sumOf _ :=
    (pairs.map Prod.fst).sum_eq
  refine ⟨selected, done, ?_, fun success => ?_, found.calls⟩
  · rw [found.result, sums, values]
  · obtain ⟨picked, fewer, coins, reached⟩ := found.picked success
    have kept := fewer.trans pairs.subperm
    have origin : ∀ pair ∈ picked, ∃ output ∈ vCoins,
        eligible view nConfMine nConfTheirs output = true ∧ coinPair view output = pair := by
      intro pair member
      obtain ⟨output, eligibleOutput, rfl⟩ := mem_map.mp (kept.subset member)
      obtain ⟨there, fits⟩ := mem_filter.mp eligibleOutput
      exact ⟨output, there, fits, rfl⟩
    rw [coins]
    refine ⟨?_, ?_, ?_, reached⟩
    · obtain ⟨sub, perm, part⟩ := kept
      exact (perm.map Prod.snd).nodup_iff.mp (apart.sublist (part.map Prod.snd))
    · intro coin member
      obtain ⟨pair, pairMember, rfl⟩ := mem_map.mp member
      obtain ⟨output, there, fits, rfl⟩ := origin pair pairMember
      exact ⟨output, there, fits, rfl⟩
    · apply congrArg List.sum
      rw [map_map]
      apply map_congr_left
      intro pair member
      obtain ⟨output, -, -, rfl⟩ := origin pair member
      rfl

end

end

section

local instance SmallCoins.instStdSort : StdSort := StdSort.insertion

/-- Coins that are named by their positions among the values. -/
def SmallCoins.view (values : List CAmount) : CoinView Nat where
  nValue coin := values.getD coin 0
  isFromMe _ := true

def SmallCoins.coins (n : Nat) : List (COutput Nat) :=
  (List.range n).map fun coin => ⟨coin, 6, true⟩

/-- Nothing is shuffled, and the first pass of a search tries every coin. -/
def SmallCoins.choices : Choices Nat where
  shuffle vCoins := vCoins
  shuffle_perm := List.Perm.refl
  firstBits _ _ := true
  secondBits _ _ := true

open SmallCoins

theorem selectCoinsMinConf_exact_three : ∃ selected,
    selectCoinsMinConf choices (view [3, 5, 7]) [] 8 1 6 (coins 3) = .ok selected ∧
      selected.result = true ∧ 8 ≤ selected.coins.nValueRet := by
  have selectable : Selectable 8 (eligiblePairs (view [3, 5, 7]) 1 6 (coins 3)) :=
    ⟨by decide, by decide, by decide, by decide⟩
  obtain ⟨selected, done, result, success, -⟩ :=
    selectCoinsMinConf_exact (view [3, 5, 7]) [] choices (by decide) (by decide) selectable
  have found := result.mpr (by decide)
  exact ⟨selected, done, found, (success found).2.2.2⟩

/-- A target at the end of the range, or coins whose sum is outside, make a signed sum overflow. A
coin may be all of the target beside one that is less than nothing, and one of the largest value is
not seen. -/
theorem selectCoinsMinConf_not_exact :
    selectCoinsMinConf choices (view [1]) [] INT64_MAX 1 6 (coins 1) = .error .signedOverflow ∧
    selectCoinsMinConf choices (view [2 ^ 62, 2 ^ 62]) [] (2 ^ 62 + 1) 1 6 (coins 2) =
      .error .signedOverflow ∧
    (selectCoinsMinConf choices (view [4, -3]) [] 4 1 6 (coins 2) = .ok ⟨true, ⟨[0], 4⟩, []⟩ ∧
      ([4, -3] : List CAmount).sum < (4 : Int)) ∧
    selectCoinsMinConf choices (view [INT64_MAX]) [] 1 1 6 (coins 1) = .ok ⟨false, noCoins, []⟩ :=
  ⟨by decide +kernel, by decide +kernel, ⟨by decide +kernel, by decide⟩, by decide +kernel⟩

end

end CoinSelection

end Agouti
