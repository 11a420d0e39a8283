import Agouti.Library.Loop
import Agouti.Masternode.Payments

/-! # The loop over the finalized budgets

`CBudgetManager::IsTransactionValid` moves its iterator by hand. Its second loop goes on
at a vetoed payment without moving the iterator, and so never returns when it comes to
such a budget before one that the transaction pays (`budgetScan_terminates_iff`).
-/

namespace Agouti

open List Option

/-- Where `CBudgetManager::IsTransactionValid` stands: in its first loop, with the highest
count so far, or in its second one, with the count that a budget has to exceed. -/
inductive BudgetScan
  | highest (it : List CFinalizedBudget) (nHighestCount : Int)
  | paid (it : List CFinalizedBudget) (threshold : Int)

section

variable [ChainParams]

/-- A budget that the second loop looks at: valid, with a payment at the height, and with
more votes than the threshold. -/
def CFinalizedBudget.Counted (nBlockHeight threshold : Int) (budget : CFinalizedBudget) : Prop :=
  threshold < budget.voteCount ∧ budget.fValid ∧ budget.covers nBlockHeight

namespace LocalData

/-- One pass through the loops of `CBudgetManager::IsTransactionValid`. -/
def scanBudgets (data : LocalData) (txNew : CTransaction) (nBlockHeight : Int) :
    BudgetScan → BudgetScan ⊕ Bool
  | .highest [] nHighestCount =>
    if nHighestCount = 0 then .inr false
    else if nHighestCount < (data.nEnabled / 20 : Nat) then .inr false
    else .inl (.paid data.mapFinalizedBudgets (nHighestCount - (data.nEnabled / 10 : Nat)))
  | .highest (budget :: rest) nHighestCount =>
    .inl (.highest rest
      (if nHighestCount < budget.voteCount ∧ data.eligible nBlockHeight budget then
        budget.voteCount
      else nHighestCount))
  | .paid [] _ => .inr false
  | .paid (budget :: rest) threshold =>
    if threshold < budget.voteCount ∧ budget.fValid ∧ budget.covers nBlockHeight then
      -- `continue` without `++it`
      if data.paymentVetoed budget nBlockHeight then .inl (.paid (budget :: rest) threshold)
      else if data.budgetPaid budget txNew nBlockHeight then .inr true
      else .inl (.paid rest threshold)
    else .inl (.paid rest threshold)

/-- `CBudgetManager::IsTransactionValid` comes to an end. -/
def ScanTerminates (data : LocalData) (txNew : CTransaction) (nBlockHeight : Int) : Prop :=
  Loop.Terminates (data.scanBudgets txNew nBlockHeight) (.highest data.mapFinalizedBudgets 0)

/-- The second loop comes to a counted budget whose payment is vetoed before one that the
transaction pays. -/
def VetoedFirst (data : LocalData) (txNew : CTransaction) (nBlockHeight threshold : Int)
    (budgets : List CFinalizedBudget) : Prop :=
  ∃ before budget after, budgets = before ++ budget :: after ∧
    budget.Counted nBlockHeight threshold ∧ data.paymentVetoed budget nBlockHeight = true ∧
    ∀ other ∈ before, other.Counted nBlockHeight threshold →
      data.budgetPaid other txNew nBlockHeight = false

section

variable {data : LocalData} {txNew : CTransaction} {nBlockHeight threshold : Int}

variable {it : List CFinalizedBudget}

theorem returns_paid {result : Bool} :
    Loop.Returns (data.scanBudgets txNew nBlockHeight) (.paid it threshold) result ↔
      data.anyBudgetPaid txNew nBlockHeight threshold it = some result := by
  induction it with
  | nil =>
    have done : data.scanBudgets txNew nBlockHeight (.paid [] threshold) = .inr false := rfl
    rw [Loop.returns_iff_done done, anyBudgetPaid, some.injEq]
  | cons budget rest ih =>
    unfold anyBudgetPaid
    by_cases counted : threshold < budget.voteCount ∧ budget.fValid ∧ budget.covers nBlockHeight
    · rw [if_pos counted]
      by_cases vetoed : data.paymentVetoed budget nBlockHeight = true
      · have stays : data.scanBudgets txNew nBlockHeight (.paid (budget :: rest) threshold) =
            .inl (.paid (budget :: rest) threshold) := by
          rw [scanBudgets, if_pos counted, if_pos vetoed]
        rw [if_pos vetoed]
        exact ⟨fun returns => absurd returns (Loop.not_returns_of_stays stays), fun never => by
          contradiction⟩
      · rw [if_neg vetoed]
        by_cases paid : data.budgetPaid budget txNew nBlockHeight = true
        · have done : data.scanBudgets txNew nBlockHeight (.paid (budget :: rest) threshold) =
              .inr true := by
            rw [scanBudgets, if_pos counted, if_neg vetoed, if_pos paid]
          rw [Loop.returns_iff_done done, if_pos paid, some.injEq]
        · have goes : data.scanBudgets txNew nBlockHeight (.paid (budget :: rest) threshold) =
              .inl (.paid rest threshold) := by
            rw [scanBudgets, if_pos counted, if_neg vetoed, if_neg paid]
          rw [Loop.returns_iff_next goes, if_neg paid, ih]
    · have goes : data.scanBudgets txNew nBlockHeight (.paid (budget :: rest) threshold) =
          .inl (.paid rest threshold) := by
        rw [scanBudgets, if_neg counted]
      rw [Loop.returns_iff_next goes, if_neg counted, ih]

theorem returns_highest {nHighestCount : Int} {result : Bool} :
    Loop.Returns (data.scanBudgets txNew nBlockHeight) (.highest it nHighestCount) result ↔
      Loop.Returns (data.scanBudgets txNew nBlockHeight)
        (.highest [] (it.foldl (fun nHighestCount budget =>
          if nHighestCount < budget.voteCount ∧ data.eligible nBlockHeight budget then
            budget.voteCount
          else nHighestCount) nHighestCount)) result := by
  induction it generalizing nHighestCount with
  | nil => exact Iff.rfl
  | cons budget rest ih =>
    have goes : data.scanBudgets txNew nBlockHeight (.highest (budget :: rest) nHighestCount) =
        .inl (.highest rest
          (if nHighestCount < budget.voteCount ∧ data.eligible nBlockHeight budget then
            budget.voteCount
          else nHighestCount)) := rfl
    rw [Loop.returns_iff_next goes, ih, foldl_cons]

theorem returns_scan {result : Bool} :
    Loop.Returns (data.scanBudgets txNew nBlockHeight) (.highest data.mapFinalizedBudgets 0) result ↔
      data.budgetTransactionValid txNew nBlockHeight = some result := by
  have counted : Loop.Returns (data.scanBudgets txNew nBlockHeight)
      (.highest data.mapFinalizedBudgets 0) result ↔
        Loop.Returns (data.scanBudgets txNew nBlockHeight)
          (.highest [] (data.highestCount nBlockHeight 0)) result := returns_highest
  rw [counted, budgetTransactionValid]
  by_cases none_ : data.highestCount nBlockHeight 0 = 0
  · have done : data.scanBudgets txNew nBlockHeight
        (.highest [] (data.highestCount nBlockHeight 0)) = .inr false := by
      rw [scanBudgets, if_pos none_]
    rw [Loop.returns_iff_done done, if_pos none_, some.injEq]
  · rw [if_neg none_]
    by_cases few : data.highestCount nBlockHeight 0 < (data.nEnabled / 20 : Nat)
    · have done : data.scanBudgets txNew nBlockHeight
          (.highest [] (data.highestCount nBlockHeight 0)) = .inr false := by
        rw [scanBudgets, if_neg none_, if_pos few]
      rw [Loop.returns_iff_done done, if_pos few, some.injEq]
    · have goes : data.scanBudgets txNew nBlockHeight
          (.highest [] (data.highestCount nBlockHeight 0)) = .inl (.paid data.mapFinalizedBudgets
            (data.highestCount nBlockHeight 0 - (data.nEnabled / 10 : Nat))) := by
        rw [scanBudgets, if_neg none_, if_neg few]
      rw [Loop.returns_iff_next goes, if_neg few, returns_paid]

theorem scanTerminates_iff :
    data.ScanTerminates txNew nBlockHeight ↔
      data.budgetTransactionValid txNew nBlockHeight ≠ none := by
  simp only [ScanTerminates, Loop.Terminates, returns_scan, ne_none_iff_exists']

theorem anyBudgetPaid_none :
    data.anyBudgetPaid txNew nBlockHeight threshold it = none ↔
      data.VetoedFirst txNew nBlockHeight threshold it := by
  induction it with
  | nil =>
    refine ⟨fun never => by contradiction, ?_⟩
    rintro ⟨before, budget, after, list, _⟩
    exact absurd list (by simp)
  | cons budget rest ih =>
    unfold anyBudgetPaid
    -- the first budget is the vetoed one, or it neither ends nor stops the loop
    have later : (budget.Counted nBlockHeight threshold →
        data.paymentVetoed budget nBlockHeight = false ∧
          data.budgetPaid budget txNew nBlockHeight = false) →
        (data.VetoedFirst txNew nBlockHeight threshold rest ↔
          data.VetoedFirst txNew nBlockHeight threshold (budget :: rest)) := by
      intro passes
      constructor
      · rintro ⟨before, vetoed, after, rfl, counted, veto, unpaid⟩
        refine ⟨budget :: before, vetoed, after, rfl, counted, veto, fun other member here => ?_⟩
        rcases mem_cons.mp member with rfl | inside
        · exact (passes here).2
        · exact unpaid other inside here
      · rintro ⟨before, vetoed, after, list, counted, veto, unpaid⟩
        cases before with
        | nil =>
          obtain ⟨rfl, rfl⟩ := List.cons.inj list
          rw [(passes counted).1] at veto
          contradiction
        | cons first before =>
          obtain ⟨rfl, rfl⟩ := List.cons.inj list
          exact ⟨before, vetoed, after, rfl, counted, veto, fun other member =>
            unpaid other (mem_cons_of_mem _ member)⟩
    by_cases counted : threshold < budget.voteCount ∧ budget.fValid ∧ budget.covers nBlockHeight
    · rw [if_pos counted]
      by_cases vetoed : data.paymentVetoed budget nBlockHeight = true
      · rw [if_pos vetoed]
        refine iff_of_true rfl ⟨[], budget, rest, rfl, counted, vetoed, fun other member => ?_⟩
        exact absurd member not_mem_nil
      · rw [if_neg vetoed]
        by_cases paid : data.budgetPaid budget txNew nBlockHeight = true
        · rw [if_pos paid]
          refine iff_of_false (by simp) ?_
          rintro ⟨before, other, after, list, _, veto, unpaid⟩
          cases before with
          | nil =>
            obtain ⟨rfl, rfl⟩ := List.cons.inj list
            exact vetoed veto
          | cons first before =>
            obtain ⟨rfl, rfl⟩ := List.cons.inj list
            rw [unpaid _ mem_cons_self counted] at paid
            contradiction
        · rw [if_neg paid, ih]
          exact later fun _ => ⟨by simpa using vetoed, by simpa using paid⟩
    · rw [if_neg counted, ih]
      exact later fun here => absurd here counted

end

/-- **When the loops come to an end.** They do unless the highest count is positive and at
least a twentieth of the masternodes, and a counted budget whose payment is vetoed comes
before one that the transaction pays. -/
theorem budgetScan_terminates_iff (data : LocalData) (txNew : CTransaction) (nBlockHeight : Int) :
    data.ScanTerminates txNew nBlockHeight ↔
      ¬ (data.highestCount nBlockHeight 0 ≠ 0 ∧
        (data.nEnabled / 20 : Nat) ≤ data.highestCount nBlockHeight 0 ∧
        data.VetoedFirst txNew nBlockHeight
          (data.highestCount nBlockHeight 0 - (data.nEnabled / 10 : Nat))
          data.mapFinalizedBudgets) := by
  rw [scanTerminates_iff, budgetTransactionValid]
  by_cases none_ : data.highestCount nBlockHeight 0 = 0
  · simp [none_]
  · rw [if_neg none_]
    by_cases few : data.highestCount nBlockHeight 0 < (data.nEnabled / 20 : Nat)
    · rw [if_pos few]
      refine iff_of_true (by simp) fun stuck => ?_
      exact absurd few (not_lt.mpr stuck.2.1)
    · rw [if_neg few, ne_eq, anyBudgetPaid_none]
      simp only [ne_eq, none_, not_false_eq_true, not_lt.mp few, true_and]

end LocalData

end

namespace VetoedPayment

/-! Two finalized budgets for one height; the payment of the first one is vetoed. -/

def budget (nProposalHash : Uint256) : CFinalizedBudget :=
  { fValid := true, nBlockStart := 3000000, voteCount := 10,
    vecBudgetPayments := [⟨nProposalHash, [0x51], 5⟩] }

def data : LocalData where
  adjustedTime := 0
  fInitialBlockDownload := false
  isSporkActive _ := true
  mapLockedInputs _ := none
  fSynced := true
  nEnabled := 20
  mapMasternodeBlocks _ := none
  mapFinalizedBudgets := [budget 1, budget 2]
  mapSeenVetoVotes := [⟨1, true⟩]
  winningNode := none
  fCheckpoints := true
  maxreorg := none
  nRand := 0

def tx : CTransaction :=
  { nVersion := 1, vin := [], vout := [{ nValue := 5, scriptPubKey := [0x51] }], nLockTime := 0 }

end VetoedPayment

local instance VetoedPayment.params : ChainParams := mainParams

/-- The loop does not come past the vetoed budget. -/
theorem vetoedPayment_loops : ¬ VetoedPayment.data.ScanTerminates VetoedPayment.tx 3000000 := by
  have never : VetoedPayment.data.budgetTransactionValid VetoedPayment.tx 3000000 = none := by
    decide
  rw [LocalData.scanTerminates_iff]
  exact fun ended => ended never

end Agouti
