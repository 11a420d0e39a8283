import Agouti.Library.Flags
import Agouti.Primitives.StdSort
import Agouti.Wallet.MoneyString

/-! # Coin selection

`CWallet::SelectCoinsMinConf` and `ApproximateBestSubset` of `wallet.cpp`. What is random is chosen by
an adversary (`Choices`). A signed overflow is a fault. A coin is the pair of a wallet transaction and
a position; its value and whether its transaction is from the wallet are given (`CoinView`).
-/

namespace Agouti

open Outcome

/-- How the selection of coins and the functions above it end outside of the language. -/
inductive WalletFault where
  | signedOverflow
  deriving DecidableEq, Repr

/-- What is read of a pair of a wallet transaction and a position. -/
structure CoinView (Coin : Type) where
  /-- `pcoin->vout[i].nValue` -/
  nValue : Coin → CAmount
  /-- `pcoin->IsFromMe(ISMINE_ALL)` -/
  isFromMe : Coin → Bool

/-- A coin of the wallet. -/
structure COutput (Coin : Type) where
  coin : Coin
  nDepth : Int
  fSpendable : Bool
  deriving DecidableEq, Repr

namespace CoinSelection

/-- `IsDenominatedAmount`, with the list `obfuScationDenominations`. -/
def isDenominatedAmount (obfuScationDenominations : List CAmount) (nInputAmount : CAmount) : Bool :=
  obfuScationDenominations.any fun d => nInputAmount == d

def int64 (value : Int) : Except WalletFault Int := Amounts.int64 .signedOverflow value

/-! ## `ApproximateBestSubset` -/

/-- The best subset so far. -/
structure Search where
  nTotal : CAmount
  vfIncluded : List Bool
  fReachedTarget : Bool
  nBest : CAmount
  vfBest : List Bool
  deriving DecidableEq, Repr

def tryCoin (nTargetValue : CAmount) (search : Search) (i : Nat) (value : CAmount) :
    Except WalletFault Search := do
  let nTotal ← int64 (search.nTotal + value)
  let vfIncluded := search.vfIncluded.set i true
  if nTargetValue ≤ nTotal then do
    let (nBest, vfBest) :=
      if nTotal < search.nBest then (nTotal, vfIncluded) else (search.nBest, search.vfBest)
    let nTotal ← int64 (nTotal - value)
    .ok ⟨nTotal, vfIncluded.set i false, true, nBest, vfBest⟩
  else .ok { search with nTotal, vfIncluded }

/-- The inner loop: `nPass == 0 ? insecure_rand() & 1 : !vfIncluded[i]`. -/
def searchPass (nTargetValue : CAmount) (first : Bool) (bits : Nat → Bool) (values : List CAmount)
    (search : Search) : Except WalletFault Search :=
  values.zipIdx.foldlM (fun search coin =>
    if if first then bits coin.2 else search.vfIncluded[coin.2]? == some false then
      tryCoin nTargetValue search coin.2 coin.1
    else .ok search) search

/-- One repetition: the second pass is made when the first has not reached the target. -/
def searchRep (nTargetValue : CAmount) (bits : Nat → Bool) (values : List CAmount)
    (search : Search) : Except WalletFault Search := do
  let begun := { search with
    nTotal := 0, vfIncluded := List.replicate values.length false, fReachedTarget := false }
  let first ← searchPass nTargetValue true bits values begun
  if first.fReachedTarget then .ok first else searchPass nTargetValue false bits values first

def searchLoop (nTargetValue : CAmount) (bits : Nat → Nat → Bool) (values : List CAmount) :
    Nat → Nat → Search → Except WalletFault Search
  | 0, _, search => .ok search
  | iterations + 1, nRep, search =>
    if search.nBest ≠ nTargetValue then do
      let search ← searchRep nTargetValue (bits nRep) values search
      searchLoop nTargetValue bits values iterations (nRep + 1) search
    else .ok search

/-- `ApproximateBestSubset`: `vfBest` and `nBest`. -/
def approximateBestSubset (values : List CAmount) (nTotalLower nTargetValue : CAmount)
    (iterations : Nat) (bits : Nat → Nat → Bool) : Except WalletFault (List Bool × CAmount) := do
  let vfBest := List.replicate values.length true
  let search ← searchLoop nTargetValue bits values iterations 0 ⟨0, [], false, nTotalLower, vfBest⟩
  .ok (search.vfBest, search.nBest)

/-! ## `SelectCoinsMinConf` -/

variable {Coin : Type} [DecidableEq Coin]

def lessThenDenom (view : CoinView Coin) (obfuScationDenominations : List CAmount)
    (out1 out2 : COutput Coin) : Bool :=
  let found1 := isDenominatedAmount obfuScationDenominations (view.nValue out1.coin)
  let found2 := isDenominatedAmount obfuScationDenominations (view.nValue out2.coin)
  !found1 && found2

/-- `CompareValueOnly`, from the back. -/
def greaterValue (coin1 coin2 : CAmount × Coin) : Bool := decide (coin2.1 < coin1.1)

/-- The random choices. -/
structure Choices (Coin : Type) where
  /-- `random_shuffle` -/
  shuffle : List (COutput Coin) → List (COutput Coin)
  shuffle_perm : ∀ vCoins, (shuffle vCoins).Perm vCoins
  /-- `insecure_rand() & 1` in the two searches, by the repetition and the coin -/
  firstBits : Nat → Nat → Bool
  secondBits : Nat → Nat → Bool

def eligible (view : CoinView Coin) (nConfMine nConfTheirs : Int) (output : COutput Coin) : Bool :=
  output.fSpendable &&
    !decide (output.nDepth < if view.isFromMe output.coin then nConfMine else nConfTheirs)

/-- The coins below the target and the lowest above it. -/
structure Scan (Coin : Type) where
  vValue : List (CAmount × Coin)
  nTotalLower : CAmount
  coinLowestLarger : CAmount × Option Coin
  deriving DecidableEq, Repr

section

variable (view : CoinView Coin) (obfuScationDenominations : List CAmount) (nTargetValue : CAmount)
  (nConfMine nConfTheirs : Int)

/-- The loop over the coins; a coin that is the target ends it. -/
def scanCoins (tryDenom : Nat) :
    List (COutput Coin) → Scan Coin → Except WalletFault ((CAmount × Coin) ⊕ Scan Coin)
  | [], scan => .ok (.inr scan)
  | output :: vCoins, scan =>
    let n := view.nValue output.coin
    if !eligible view nConfMine nConfTheirs output then scanCoins tryDenom vCoins scan
    -- we don't want denom values on first run
    else if tryDenom = 0 ∧ isDenominatedAmount obfuScationDenominations n then
      scanCoins tryDenom vCoins scan
    else if n = nTargetValue then .ok (.inl (n, output.coin))
    else do
      let limit ← int64 (nTargetValue + CENT)
      if n < limit then do
        let nTotalLower ← int64 (scan.nTotalLower + n)
        scanCoins tryDenom vCoins
          { scan with vValue := scan.vValue ++ [(n, output.coin)], nTotalLower }
      else if n < scan.coinLowestLarger.1 then
        scanCoins tryDenom vCoins { scan with coinLowestLarger := (n, some output.coin) }
      else scanCoins tryDenom vCoins scan

end

/-- `setCoinsRet` and `nValueRet`. -/
structure CoinSet (Coin : Type) where
  setCoinsRet : List Coin
  nValueRet : CAmount
  deriving DecidableEq, Repr

/-- `setCoinsRet.insert(coin.second); nValueRet += coin.first`. -/
def CoinSet.insert (set : CoinSet Coin) (coin : CAmount × Coin) :
    Except WalletFault (CoinSet Coin) := do
  let nValueRet ← int64 (set.nValueRet + coin.1)
  .ok ⟨if coin.2 ∈ set.setCoinsRet then set.setCoinsRet else set.setCoinsRet ++ [coin.2], nValueRet⟩

/-- A call of `ApproximateBestSubset` and what it has written. -/
structure SubsetCall (Coin : Type) where
  vValue : List (CAmount × Coin)
  nTargetValue : CAmount
  vfBest : List Bool
  nBest : CAmount
  deriving DecidableEq, Repr

/-- The result, what it has written, and the calls of `ApproximateBestSubset`. -/
structure Selected (Coin : Type) where
  result : Bool
  coins : CoinSet Coin
  calls : List (SubsetCall Coin)
  deriving DecidableEq, Repr

section

variable [StdSort] (choices : Choices Coin) (view : CoinView Coin)
  (obfuScationDenominations : List CAmount) (nTargetValue : CAmount) (nConfMine nConfTheirs : Int)

def noCoins : CoinSet Coin := ⟨[], 0⟩

/-- The one or two calls of `ApproximateBestSubset`: `vfBest` and `nBest` behind them. -/
def subsetCalls (scan : Scan Coin) :
    Except WalletFault (List Bool × CAmount × List (SubsetCall Coin)) := do
  let vValue := StdSort.sort greaterValue scan.vValue
  let values := vValue.map Prod.fst
  let (vfBest, nBest) ← approximateBestSubset values scan.nTotalLower nTargetValue 1000
    choices.firstBits
  let first : SubsetCall Coin := ⟨vValue, nTargetValue, vfBest, nBest⟩
  -- the sum was formed in the scan already, for each of these coins
  let limit ← int64 (nTargetValue + CENT)
  if nBest ≠ nTargetValue ∧ limit ≤ scan.nTotalLower then do
    let (vfBest, nBest) ← approximateBestSubset values scan.nTotalLower limit 1000
      choices.secondBits
    .ok (vfBest, nBest, [first, ⟨vValue, limit, vfBest, nBest⟩])
  else .ok (vfBest, nBest, [first])

/-- Behind the loop: the subset sum by stochastic approximation. -/
def selectSubset (scan : Scan Coin) : Except WalletFault (Selected Coin) := do
  let (vfBest, nBest, calls) ← subsetCalls choices nTargetValue scan
  let best := Flags.chosen (StdSort.sort greaterValue scan.vValue) vfBest
  let limit ← int64 (nTargetValue + CENT)
  -- if we have a bigger coin and (either the stochastic approximation didn't find a good solution,
  -- or the next bigger coin is closer), return the bigger coin
  match scan.coinLowestLarger.2 with
  | some coin =>
    if (nBest ≠ nTargetValue ∧ nBest < limit) ∨ scan.coinLowestLarger.1 ≤ nBest then do
      let coins ← noCoins.insert (scan.coinLowestLarger.1, coin)
      .ok ⟨true, coins, calls⟩
    else do
      let coins ← best.foldlM CoinSet.insert noCoins
      .ok ⟨true, coins, calls⟩
  | none => do
      let coins ← best.foldlM CoinSet.insert noCoins
      .ok ⟨true, coins, calls⟩

/-- The loop over `tryDenom`, from one of its two values on. -/
def selectLoop (vCoins : List (COutput Coin)) :
    Nat → CAmount × Option Coin → Except WalletFault (Selected Coin)
  | denomsLeft, coinLowestLarger => do
      match ← scanCoins view obfuScationDenominations nTargetValue nConfMine nConfTheirs
          (1 - denomsLeft) vCoins ⟨[], 0, coinLowestLarger⟩ with
      | .inl coin => do
          let coins ← noCoins.insert coin
          .ok ⟨true, coins, []⟩
      | .inr scan =>
        if scan.nTotalLower = nTargetValue then do
          let coins ← scan.vValue.foldlM CoinSet.insert noCoins
          .ok ⟨true, coins, []⟩
        else if scan.nTotalLower < nTargetValue then
          match scan.coinLowestLarger.2 with
          | none =>
            match denomsLeft with
            -- we looked at everything possible and didn't find anything, no luck
            | 0 => .ok ⟨false, noCoins, []⟩
            -- we didn't look at denom yet, let's do it
            | denomsLeft + 1 => selectLoop vCoins denomsLeft scan.coinLowestLarger
          | some coin => do
              let coins ← noCoins.insert (scan.coinLowestLarger.1, coin)
              .ok ⟨true, coins, []⟩
        else selectSubset choices nTargetValue scan

/-- `CWallet::SelectCoinsMinConf`. -/
def selectCoinsMinConf (vCoins : List (COutput Coin)) : Except WalletFault (Selected Coin) :=
  let vCoins := StdSort.sort (lessThenDenom view obfuScationDenominations) (choices.shuffle vCoins)
  selectLoop choices view obfuScationDenominations nTargetValue nConfMine nConfTheirs vCoins 1
    (INT64_MAX, none)

end

end CoinSelection

end Agouti
