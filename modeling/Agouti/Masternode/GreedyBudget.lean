import Agouti.Library.Greedy
import Agouti.Masternode.BudgetValid

/-! # The budget is allotted greedily

`CBudgetManager::GetBudget` ranks the proposals and gives each eligible one its amount while the
budget of the superblock lasts, and nothing when it does not. A proposal that is not eligible keeps
what an earlier call allotted to it, or what its constructor left open. So the allotment is the
greedy one exactly when nothing is allotted to those proposals before (`getBudget_greedy_iff`).
-/

namespace Agouti

open List

/-- Why a proposal is not valid: the texts that `strError` is set to. -/
inductive ProposalError where
  /-- "Proposal …: Vetoed by chain owner" -/
  | vetoed
  /-- "Proposal …: Active removal" -/
  | activeRemoval
  /-- "Proposal Veto" -/
  | sporkVeto
  /-- "Invalid Proposal" -/
  | blockStart
  /-- "Proposal …: Invalid nBlockEnd (end before start)" -/
  | blockEnd
  /-- "Proposal …: Invalid nAmount" -/
  | amount
  /-- "Proposal …: Invalid Payment Address" -/
  | address
  /-- "Proposal …: Invalid collateral" -/
  | collateral
  /-- "Proposal …: Multisig is not currently supported." -/
  | multisig
  /-- "Proposal …: Payment more than max (…)" -/
  | moreThanMax (maximum : CAmount)
  /-- "Proposal …: Invalid nBlockEnd (…) < current height (…)" -/
  | ended (nProposalEnd nHeight : Int)
  deriving DecidableEq, Repr

/-- What `CBudgetProposal::IsValid` asks of the rest of the node. -/
structure ProposalChecks where
  /-- the value of `SPORK_12_PROPOSAL_VETO` is the hash of the proposal's texts -/
  sporkVeto : CBudgetProposal → Bool
  /-- `IsBudgetCollateralValid` -/
  collateralValid : Uint256 → Uint256 → Bool

def BudgetView.tipHeight (view : BudgetView) : Int :=
  (view.node.tip.map CBlockIndex.nHeight).getD 0

namespace CBudgetProposal

/-- The votes that `GetBudget` ranks a proposal by. -/
def netVotes (proposal : CBudgetProposal) : Int := proposal.getYeas - proposal.getNays

def getBlockStartCycle [ChainParams] (proposal : CBudgetProposal) : Int :=
  proposal.nBlockStart - proposal.nBlockStart.tmod ChainParams.nBudgetPaymentCycleBlocks

def getTotalPaymentCount [ChainParams] (proposal : CBudgetProposal) : Int :=
  (proposal.nBlockEnd - proposal.getBlockStartCycle).tdiv ChainParams.nBudgetPaymentCycleBlocks

/-- `nProposalEnd` of `CBudgetProposal::IsValid`. -/
def nProposalEnd [ChainParams] (proposal : CBudgetProposal) : Int :=
  proposal.nBlockStart + ChainParams.nBudgetPaymentCycleBlocks * proposal.getTotalPaymentCount

def getHash [Crypto] (proposal : CBudgetProposal) : Uint256 :=
  BudgetItem.getHash proposal.toCBudgetProposalBroadcast

/-- `CBudgetProposal::IsValid`, where the height of the tip is 0 when there is none. -/
def isValid [ChainParams] [Crypto] (view : BudgetView) (checks : ProposalChecks)
    (fCheckCollateral : Bool) (proposal : CBudgetProposal) : Except ProposalError Unit :=
  if view.data.isVetoed proposal.getHash view.tipHeight then .error .vetoed
  else if (view.data.nEnabled / 10 : Nat) < proposal.getNays - proposal.getYeas then
    .error .activeRemoval
  else if view.tipHeight < ChainParams.nVetoForkHeight ∧ checks.sporkVeto proposal then
    .error .sporkVeto
  else if proposal.nBlockStart < 0 then .error .blockStart
  else if proposal.nBlockEnd < proposal.nBlockStart then .error .blockEnd
  else if proposal.nAmount < 10 * COIN then .error .amount
  else if proposal.address = [] then .error .address
  else if fCheckCollateral ∧ ¬ checks.collateralValid proposal.nFeeTXHash proposal.getHash then
    .error .collateral
  else if proposal.address.isPayToScriptHash then .error .multisig
  else if view.getTotalBudget proposal.nBlockStart < proposal.nAmount then
    .error (.moreThanMax (view.getTotalBudget proposal.nBlockStart / COIN))
  else
    match view.node.tip with
    | none => .ok ()
    | some pindexPrev =>
      if proposal.nProposalEnd < pindexPrev.nHeight then
        .error (.ended proposal.nProposalEnd pindexPrev.nHeight)
      else .ok ()

variable [ChainParams] [Crypto] {view : BudgetView} {checks : ProposalChecks}
  {fCheckCollateral : Bool} {proposal : CBudgetProposal}

end CBudgetProposal

section

variable [ChainParams]

/-- The amounts in the map have passed `CBudgetProposal::IsValid`. -/
def ProposalMap.Admitted (mapProposals : ProposalMap) : Prop :=
  ∀ key proposal, mapProposals.lookup key = some proposal → 10 * COIN ≤ proposal.nAmount ∧
    ∃ earlier : BudgetView, proposal.nAmount ≤ earlier.getTotalBudget proposal.nBlockStart

theorem getTotalBudget_small (positive : 0 < ChainParams.nBudgetPaymentCycleBlocks)
    (cycle : ChainParams.nBudgetPaymentCycleBlocks ≤ 4383) (view : BudgetView) (nHeight : Int) :
    0 ≤ view.getTotalBudget nHeight ∧ view.getTotalBudget nHeight ≤ hundredth := by
  obtain ⟨perBlock, nonneg, part, same⟩ := getTotalBudget_perBlock view nHeight
  have tenth : blockSubsidy nHeight / 10 ≤ 18097590000000 := by
    unfold blockSubsidy
    split_ifs <;> decide
  rw [same]
  refine ⟨mul_nonneg nonneg positive.le, ?_⟩
  calc perBlock * ChainParams.nBudgetPaymentCycleBlocks
      ≤ perBlock * 4383 := mul_le_mul_of_nonneg_left cycle nonneg
    _ ≤ 18097590000000 * 4383 := mul_le_mul_of_nonneg_right (part.trans tenth) (by decide)
    _ ≤ hundredth := by decide

end

namespace BudgetView

variable [ChainParams] [Crypto]

/-- The proposals with the votes that `GetBudget` counts. -/
def weighed (view : BudgetView) (mapProposals : ProposalMap) : ProposalMap :=
  mapProposals.mapValues (CBudgetProposal.cleanAndRemove view.knowsMasternode)

/-- What the superblock that `GetBudget` looks at may spend. -/
def cycleBudget (view : BudgetView) : CAmount :=
  (view.node.tip.map fun pindexPrev => view.getTotalBudget (nextBlockStart pindexPrev)).getD 0

/-- The proposal may be paid from the next superblock on, if there is enough for it. -/
def eligible (view : BudgetView) (proposal : CBudgetProposal) : Bool :=
  (view.node.tip.map fun pindexPrev => view.passes (nextBlockStart pindexPrev) proposal).getD false

end BudgetView

theorem cycleBudget_small [ChainParams]
    (positive : 0 < ChainParams.nBudgetPaymentCycleBlocks)
    (cycle : ChainParams.nBudgetPaymentCycleBlocks ≤ 4383) (view : BudgetView) :
    0 ≤ view.cycleBudget ∧ view.cycleBudget ≤ hundredth := by
  have small : (0 : CAmount) ≤ hundredth := by decide
  unfold BudgetView.cycleBudget
  cases view.node.tip with
  | none => exact ⟨le_rfl, small⟩
  | some pindexPrev => exact getTotalBudget_small positive cycle view _

def ProposalMap.amount (mapProposals : ProposalMap) (key : Uint256) : CAmount :=
  ((mapProposals.lookup key).map fun proposal => proposal.nAmount).getD 0

/-- The result of `GetBudget` is the greedy allotment in a ranking of the proposals: `returned` are
the proposals of the budget, and `after` is the map that is left. -/
structure GreedyBudget [ChainParams] [Crypto] (view : BudgetView) (weighed : ProposalMap)
    (ranking : List Uint256) (after : ProposalMap) (returned : List Uint256) : Prop where
  all : ranking.Perm (weighed.entries.map Prod.fst)
  ranked : ranking.Pairwise fun better worse => ∀ first second,
    weighed.lookup better = some first → weighed.lookup worse = some second →
      second.netVotes ≤ first.netVotes
  ordered : returned.Sublist ranking
  members : ∀ key ∈ returned, ∃ proposal,
    weighed.lookup key = some proposal ∧ view.eligible proposal = true
  total : (returned.map weighed.amount).sum ≤ view.cycleBudget
  exceeds : ∀ ahead key behind proposal, ranking = ahead ++ key :: behind →
    weighed.lookup key = some proposal → view.eligible proposal = true → key ∉ returned →
      view.cycleBudget <
        proposal.nAmount + ((ahead.filter (· ∈ returned)).map weighed.amount).sum
  /-- no sum of the loop overflows -/
  inside : ∀ ahead key behind proposal, ranking = ahead ++ key :: behind →
    weighed.lookup key = some proposal → view.eligible proposal = true →
      RunningTotal.Inside (2 ^ 63)
        (proposal.nAmount + ((ahead.filter (· ∈ returned)).map weighed.amount).sum)
  allotted : ∀ key, after.lookup key = (weighed.lookup key).map fun proposal =>
    { proposal with nAlloted := some (if key ∈ returned then proposal.nAmount else 0) }

/-- All the proposals, by falling net votes. -/
structure Ranks (weighed : ProposalMap) (ranking : List Uint256) : Prop where
  all : ranking.Perm (weighed.entries.map Prod.fst)
  ranked : ranking.Pairwise fun better worse => ∀ first second,
    weighed.lookup better = some first → weighed.lookup worse = some second →
      second.netVotes ≤ first.netVotes

section

variable {weighed : ProposalMap}

theorem Ranks.nodup {ranking : List Uint256} (ranks : Ranks weighed ranking) :
    ranking.Nodup := by
  have keys : (weighed.entries.map Prod.fst).Nodup :=
    pairwise_map.mpr (weighed.sorted.imp fun below => ne_of_lt below)
  exact ranks.all.nodup_iff.mpr keys

theorem Ranks.mem {ranking : List Uint256} (ranks : Ranks weighed ranking) {key : Uint256}
    {proposal : CBudgetProposal} (found : weighed.lookup key = some proposal) : key ∈ ranking :=
  ranks.all.mem_iff.mpr (mem_map_of_mem (SortedMap.mem_entries_iff.mpr found))

theorem sortProposalsByVotes_asymm (left right : Uint256 × Int)
    (first : BudgetView.sortProposalsByVotes weighed left right = true) :
    BudgetView.sortProposalsByVotes weighed right left = false := by
  unfold BudgetView.sortProposalsByVotes at first ⊢
  by_cases same : left.2 = right.2
  · rw [if_neg (not_not.mpr same)] at first
    rw [if_neg (not_not.mpr same.symm)]
    rw [decide_eq_true_eq] at first
    rw [decide_eq_false_iff_not]
    exact lt_asymm first
  · rw [if_pos same] at first
    rw [if_pos (Ne.symm same)]
    rw [decide_eq_true_eq] at first
    rw [decide_eq_false_iff_not]
    exact lt_asymm first

theorem sortProposalsByVotes_between (first second third : Uint256 × Int)
    (less : BudgetView.sortProposalsByVotes weighed first third = true) :
    BudgetView.sortProposalsByVotes weighed first second = true ∨
      BudgetView.sortProposalsByVotes weighed second third = true := by
  unfold BudgetView.sortProposalsByVotes at less ⊢
  simp only at less ⊢
  rcases lt_trichotomy first.2 third.2 with fewer | same | more
  · rw [if_pos (ne_of_lt fewer), decide_eq_true_eq] at less
    exact absurd less (lt_asymm fewer)
  · rw [if_neg (not_not.mpr same), decide_eq_true_eq] at less
    by_cases middle : first.2 = second.2
    · have last : second.2 = third.2 := middle.symm.trans same
      rw [if_neg (not_not.mpr middle), if_neg (not_not.mpr last), decide_eq_true_eq,
        decide_eq_true_eq]
      exact (lt_or_ge _ _).symm.imp_left fun below => lt_of_le_of_lt below less
    · have last : second.2 ≠ third.2 := fun equal => middle (same.trans equal.symm)
      rw [if_pos middle, if_pos last, decide_eq_true_eq, decide_eq_true_eq, ← same]
      exact (lt_or_gt_of_ne middle).symm
  · by_cases middle : second.2 < first.2
    · rw [if_pos (ne_of_gt middle), decide_eq_true_eq]
      exact .inl middle
    · have last : third.2 < second.2 := more.trans_le (not_lt.mp middle)
      rw [if_pos (ne_of_gt last), decide_eq_true_eq]
      exact .inr last

theorem ranks_sort [StdSort] (weighed : ProposalMap) :
    Ranks weighed ((StdSort.sort (BudgetView.sortProposalsByVotes weighed)
      (weighed.entries.map fun entry => (entry.1, entry.2.getYeas - entry.2.getNays))).map
        Prod.fst) := by
  have perm := StdSort.sort_perm (BudgetView.sortProposalsByVotes weighed)
    (weighed.entries.map fun entry => (entry.1, entry.2.getYeas - entry.2.getNays))
  have sorted := StdSort.sort_sorted (BudgetView.sortProposalsByVotes weighed)
    (weighed.entries.map fun entry => (entry.1, entry.2.getYeas - entry.2.getNays))
    sortProposalsByVotes_asymm sortProposalsByVotes_between
  -- beside each key stand the votes of its proposal
  have votes : ∀ entry ∈ StdSort.sort (BudgetView.sortProposalsByVotes weighed)
      (weighed.entries.map fun entry => (entry.1, entry.2.getYeas - entry.2.getNays)),
      ∀ proposal, weighed.lookup entry.1 = some proposal → entry.2 = proposal.netVotes := by
    intro entry member proposal found
    obtain ⟨⟨key, held⟩, listed, rfl⟩ := mem_map.mp (perm.mem_iff.mp member)
    rw [SortedMap.mem_entries_iff.mp listed, Option.some.injEq] at found
    rw [← found]
    rfl
  constructor
  · have keys := perm.map Prod.fst
    rwa [map_map] at keys
  · rw [pairwise_map]
    refine sorted.imp_of_mem fun {better worse} first second behind => ?_
    intro ahead after foundAhead foundAfter
    rw [← votes better first ahead foundAhead, ← votes worse second after foundAfter]
    unfold BudgetView.sortProposalsByVotes at behind
    by_cases same : worse.2 = better.2
    · exact same.le
    · rw [if_pos same, decide_eq_false_iff_not] at behind
      exact not_lt.mp behind

end

/-- Where the loop of `GetBudget` is after the proposals of these keys. -/
structure AllottedTo [ChainParams] [Crypto] (view : BudgetView) (nBlockStart : Int)
    (weighed : ProposalMap) (keys : List Uint256) (state : BudgetAllotment) : Prop where
  returned : state.vBudgetProposalsRet =
    Greedy.taken (view.getTotalBudget nBlockStart) weighed.amount
      (keys.filter fun key => (weighed.lookup key).any (view.passes nBlockStart))
  allocated : state.nBudgetAllocated = (state.vBudgetProposalsRet.map weighed.amount).sum
  proposals : ∀ key, state.mapProposals.lookup key = (weighed.lookup key).map fun proposal =>
    if key ∈ keys ∧ view.passes nBlockStart proposal then
      { proposal with
        nAlloted := some (if key ∈ state.vBudgetProposalsRet then proposal.nAmount else 0) }
    else proposal

section

variable [ChainParams] [Crypto] {view : BudgetView} {nBlockStart : Int} {weighed : ProposalMap}
  {keys : List Uint256} {state : BudgetAllotment}

theorem AllottedTo.returned_subset (allotted : AllottedTo view nBlockStart weighed keys state)
    {key : Uint256} (member : key ∈ state.vBudgetProposalsRet) : key ∈ keys := by
  rw [allotted.returned] at member
  exact (mem_filter.mp ((Greedy.taken_sublist _).subset member)).1

theorem AllottedTo.other (allotted : AllottedTo view nBlockStart weighed keys state)
    {key other : Uint256} (apart : other ≠ key) {returned : List Uint256}
    (same : other ∈ returned ↔ other ∈ state.vBudgetProposalsRet) :
    state.mapProposals.lookup other = (weighed.lookup other).map fun proposal =>
      if other ∈ keys ++ [key] ∧ view.passes nBlockStart proposal then
        { proposal with nAlloted := some (if other ∈ returned then proposal.nAmount else 0) }
      else proposal := by
  rw [allotted.proposals other]
  simp only [mem_append, mem_singleton, apart, or_false, same]

theorem AllottedTo.allot (allotted : AllottedTo view nBlockStart weighed keys state)
    {entry : Uint256 × Int} (fresh : entry.1 ∉ keys) :
    AllottedTo view nBlockStart weighed (keys ++ [entry.1])
      (view.allot nBlockStart state entry) := by
  obtain ⟨key, votes⟩ := entry
  simp only at fresh ⊢
  have held := allotted.proposals key
  unfold BudgetView.allot
  simp only
  cases found : weighed.lookup key with
  | none =>
    rw [found, Option.map_none] at held
    rw [held]
    refine ⟨?_, allotted.allocated, fun other => ?_⟩
    · rw [filter_append, filter_singleton, found, Option.any_none, cond_false,
        append_nil]
      exact allotted.returned
    · by_cases same : other = key
      · rw [same, held, found]
        rfl
      · exact allotted.other same Iff.rfl
  | some proposal =>
    rw [found, Option.map_some, if_neg (not_and_of_not_left _ fresh)] at held
    rw [held]
    simp only
    cases pass : view.passes nBlockStart proposal with
    | false =>
      rw [if_neg Bool.false_ne_true]
      refine ⟨?_, allotted.allocated, fun other => ?_⟩
      · rw [filter_append, filter_singleton, found, Option.any_some, pass, cond_false,
          append_nil]
        exact allotted.returned
      · by_cases same : other = key
        · rw [same, held, found, Option.map_some, if_neg]
          rw [pass]
          exact fun passes => Bool.false_ne_true passes.2
        · exact allotted.other same Iff.rfl
    | true =>
      rw [if_pos rfl]
      have offered : (keys ++ [key]).filter (fun key =>
          (weighed.lookup key).any (view.passes nBlockStart)) =
            keys.filter (fun key => (weighed.lookup key).any (view.passes nBlockStart)) ++
              [key] := by
        rw [filter_append, filter_singleton, found, Option.any_some, pass, cond_true]
      have amount : weighed.amount key = proposal.nAmount := by
        unfold ProposalMap.amount
        rw [found]
        rfl
      have before : key ∉ state.vBudgetProposalsRet := fun member =>
        fresh (allotted.returned_subset member)
      by_cases fits : proposal.nAmount + state.nBudgetAllocated ≤
          view.getTotalBudget nBlockStart
      · rw [if_pos fits]
        refine ⟨?_, ?_, fun other => ?_⟩
        · rw [offered, Greedy.taken_append_singleton, ← allotted.returned]
          unfold Greedy.offer
          rw [amount, ← allotted.allocated, if_pos fits]
        · rw [map_append, List.sum_append, map_singleton, sum_singleton, amount,
            ← allotted.allocated]
        · rw [SortedMap.lookup_set]
          by_cases same : other = key
          · rw [if_pos same, same, found, Option.map_some, if_pos, if_pos]
            · exact mem_append_right _ (mem_singleton_self key)
            · exact ⟨mem_append_right _ (mem_singleton_self key), pass⟩
          · rw [if_neg same]
            apply allotted.other same
            rw [mem_append, mem_singleton, or_iff_left same]
      · rw [if_neg fits]
        refine ⟨?_, allotted.allocated, fun other => ?_⟩
        · rw [offered, Greedy.taken_append_singleton, ← allotted.returned]
          unfold Greedy.offer
          rw [amount, ← allotted.allocated, if_neg fits]
        · rw [SortedMap.lookup_set]
          by_cases same : other = key
          · rw [if_pos same, same, found, Option.map_some, if_pos, if_neg before]
            exact ⟨mem_append_right _ (mem_singleton_self key), pass⟩
          · rw [if_neg same]
            exact allotted.other same Iff.rfl

theorem AllottedTo.foldl (view : BudgetView) (nBlockStart : Int) (weighed : ProposalMap)
    {entries : List (Uint256 × Int)} (distinct : (entries.map Prod.fst).Nodup) :
    AllottedTo view nBlockStart weighed (entries.map Prod.fst)
      (entries.foldl (view.allot nBlockStart) { mapProposals := weighed }) := by
  induction entries using List.reverseRecOn with
  | nil =>
    refine ⟨rfl, rfl, fun key => ?_⟩
    simp
  | append_singleton front last ih =>
    rw [map_append, map_singleton] at distinct ⊢
    rw [foldl_append, foldl_cons, foldl_nil]
    obtain ⟨before, -, apart⟩ := nodup_append'.mp distinct
    exact (ih before).allot fun member => apart member (mem_singleton_self _)

/-- What `GetBudget` returns and what it leaves in the map. -/
structure Allotted (view : BudgetView) (weighed : ProposalMap) (ranking : List Uint256)
    (after : ProposalMap) (returned : List Uint256) : Prop where
  chosen : returned = Greedy.taken view.cycleBudget weighed.amount
    (ranking.filter fun key => (weighed.lookup key).any view.eligible)
  proposals : ∀ key, after.lookup key = (weighed.lookup key).map fun proposal =>
    if view.eligible proposal then
      { proposal with nAlloted := some (if key ∈ returned then proposal.nAmount else 0) }
    else proposal

theorem getBudget_allotted [StdSort] (view : BudgetView) (mapProposals : ProposalMap) :
    ∃ ranking, Ranks (view.weighed mapProposals) ranking ∧
      Allotted view (view.weighed mapProposals) ranking (view.getBudget mapProposals).1
        (view.getBudget mapProposals).2 := by
  have ranks := ranks_sort (view.weighed mapProposals)
  refine ⟨_, ranks, ?_⟩
  unfold BudgetView.getBudget
  simp only
  cases tip : view.node.tip with
  | none =>
    have never : ∀ proposal, view.eligible proposal = false := by
      intro proposal
      unfold BudgetView.eligible
      rw [tip]
      rfl
    constructor
    · rw [filter_eq_nil_iff.mpr]
      · rfl
      · intro key _
        cases (view.weighed mapProposals).lookup key <;> simp [never]
    · intro key
      simp only [never, Bool.false_eq_true, if_false]
      exact Option.map_id'.symm
  | some pindexPrev =>
    have passes : view.eligible = view.passes (BudgetView.nextBlockStart pindexPrev) := by
      funext proposal
      unfold BudgetView.eligible
      rw [tip]
      rfl
    have budget : view.cycleBudget = view.getTotalBudget (BudgetView.nextBlockStart pindexPrev) := by
      unfold BudgetView.cycleBudget
      rw [tip]
      rfl
    have run := AllottedTo.foldl view (BudgetView.nextBlockStart pindexPrev)
      (view.weighed mapProposals) ranks.nodup
    constructor
    · rw [passes, budget]
      exact run.returned
    · intro key
      rw [passes]
      refine (run.proposals key).trans ?_
      cases found : (view.weighed mapProposals).lookup key with
      | none => rfl
      | some proposal =>
        simp only [Option.map_some, ranks.mem found, true_and]
        rfl

variable {after : ProposalMap} {ranking returned : List Uint256}

theorem Allotted.members (allotted : Allotted view weighed ranking after returned) {key : Uint256}
    (member : key ∈ returned) : ∃ proposal,
      weighed.lookup key = some proposal ∧ view.eligible proposal = true := by
  rw [allotted.chosen] at member
  have kept := (mem_filter.mp ((Greedy.taken_sublist _).subset member)).2
  cases found : weighed.lookup key with
  | none =>
    rw [found] at kept
    contradiction
  | some proposal =>
    rw [found] at kept
    exact ⟨proposal, rfl, kept⟩

theorem Allotted.filter_ahead (allotted : Allotted view weighed ranking after returned)
    (ranks : Ranks weighed ranking) {ahead behind : List Uint256} {key : Uint256}
    (place : ranking = ahead ++ key :: behind) :
    ahead.filter (· ∈ returned) = Greedy.taken view.cycleBudget weighed.amount
      (ahead.filter fun key => (weighed.lookup key).any view.eligible) := by
  have distinct := ranks.nodup
  rw [place] at distinct
  have kept := distinct.filter fun key => (weighed.lookup key).any view.eligible
  rw [filter_append] at kept
  rw [← Greedy.filter_taken kept, ← filter_append, ← place, ← allotted.chosen,
    filter_filter]
  apply filter_congr
  intro here _
  rw [Bool.eq_iff_iff, Bool.and_eq_true, decide_eq_true_iff]
  refine ⟨fun member => ⟨member, ?_⟩, And.left⟩
  obtain ⟨proposal, found, eligible⟩ := allotted.members member
  rw [found, Option.any_some, eligible]

theorem Allotted.greedy (allotted : Allotted view weighed ranking after returned)
    (ranks : Ranks weighed ranking) (positive : 0 < ChainParams.nBudgetPaymentCycleBlocks)
    (cycle : ChainParams.nBudgetPaymentCycleBlocks ≤ 4383)
    (amounts : ∀ key proposal, weighed.lookup key = some proposal →
      0 ≤ proposal.nAmount ∧ proposal.nAmount ≤ hundredth)
    (cleared : ∀ key proposal, weighed.lookup key = some proposal →
      view.eligible proposal = false → proposal.nAlloted = some 0) :
    GreedyBudget view weighed ranking after returned := by
  obtain ⟨room, small⟩ := cycleBudget_small positive cycle view
  have within (keys : List Uint256) := Greedy.sum_taken_le weighed.amount room keys
  constructor
  case all => exact ranks.all
  case ranked => exact ranks.ranked
  case ordered =>
    rw [allotted.chosen]
    exact (Greedy.taken_sublist _).trans filter_sublist
  case members => exact fun key member => allotted.members member
  case total =>
    rw [allotted.chosen]
    exact within _
  case exceeds =>
    intro ahead key behind proposal place found eligible left
    rw [allotted.filter_ahead ranks place]
    have chosen := allotted.chosen
    rw [place, filter_append, filter_cons, found, Option.any_some, eligible,
      if_pos rfl] at chosen
    rw [chosen] at left
    have exceeds := Greedy.left_exceeds left
    unfold ProposalMap.amount at exceeds ⊢
    rwa [found] at exceeds
  case inside =>
    intro ahead key behind proposal place found eligible
    rw [allotted.filter_ahead ranks place]
    obtain ⟨least, most⟩ := amounts key proposal found
    have nonneg : 0 ≤ ((Greedy.taken view.cycleBudget weighed.amount (ahead.filter fun key =>
        (weighed.lookup key).any view.eligible)).map weighed.amount).sum := by
      apply sum_nonneg
      intro amount member
      obtain ⟨other, -, rfl⟩ := mem_map.mp member
      unfold ProposalMap.amount
      cases there : weighed.lookup other with
      | none => exact le_rfl
      | some asks => exact (amounts other asks there).1
    have bounded := (within (ahead.filter fun key =>
      (weighed.lookup key).any view.eligible)).trans small
    have twice : hundredth + hundredth < 2 ^ 63 := by decide
    constructor
    · push_cast
      linarith
    · push_cast
      linarith
  case allotted =>
    intro key
    rw [allotted.proposals key]
    cases found : weighed.lookup key with
    | none => rfl
    | some proposal =>
      cases eligible : view.eligible proposal with
      | true => simp only [Option.map_some, eligible, if_true]
      | false =>
        have left : key ∉ returned := by
          intro member
          obtain ⟨other, there, passes⟩ := allotted.members member
          rw [found, Option.some.injEq] at there
          rw [there, passes] at eligible
          contradiction
        simp only [Option.map_some, eligible, Bool.false_eq_true, if_false, left,
          ← cleared key proposal found eligible]

/-- **When the budget is allotted greedily.** `GetBudget` returns the greedy allotment, with each
proposal's amount for those in the budget and zero for every other one, if and only if each proposal
that is not eligible has an allotted amount of zero already. -/
theorem getBudget_greedy_iff [StdSort] (positive : 0 < ChainParams.nBudgetPaymentCycleBlocks)
    (cycle : ChainParams.nBudgetPaymentCycleBlocks ≤ 4383) (view : BudgetView)
    (mapProposals : ProposalMap) (admitted : mapProposals.Admitted) :
    (∃ ranking, GreedyBudget view (view.weighed mapProposals) ranking
        (view.getBudget mapProposals).1 (view.getBudget mapProposals).2) ↔
      ∀ key proposal, (view.weighed mapProposals).lookup key = some proposal →
        view.eligible proposal = false → proposal.nAlloted = some 0 := by
  obtain ⟨ranking, ranks, allotted⟩ := getBudget_allotted view mapProposals
  constructor
  · rintro ⟨_, greedy⟩ key proposal found ineligible
    have left : key ∉ (view.getBudget mapProposals).2 := by
      intro member
      obtain ⟨other, there, passes⟩ := greedy.members key member
      rw [found, Option.some.injEq] at there
      rw [there, passes] at ineligible
      contradiction
    -- the loop passes over the proposal
    have kept := allotted.proposals key
    rw [greedy.allotted key, found, Option.map_some, Option.map_some, if_neg left, ineligible,
      if_neg Bool.false_ne_true, Option.some.injEq] at kept
    rw [← kept]
  · intro cleared
    refine ⟨ranking, allotted.greedy ranks positive cycle (fun key proposal found => ?_) cleared⟩
    unfold BudgetView.weighed at found
    rw [SortedMap.lookup_mapValues, Option.map_eq_some_iff] at found
    obtain ⟨original, held, rfl⟩ := found
    obtain ⟨least, earlier, most⟩ := admitted key original held
    have tenCoins : (0 : CAmount) ≤ 10 * COIN := by decide
    exact ⟨tenCoins.trans least, most.trans (getTotalBudget_small positive cycle earlier _).2⟩

end

namespace LapsedVote

/-! A proposal is in the budget with the vote of one masternode, and the masternode is gone when the
budget is asked for again. -/

def checks : ProposalChecks where
  sporkVeto _ := false
  collateralValid _ _ := true

def held [ChainParams] [Crypto] : ProposalMap :=
  (ProposalMap.addProposal (fun proposal => (proposal.isValid TwoFees.view checks true).isOk) .empty
    (TwoFees.proposal 65 5)).mapValues fun proposal =>
      { proposal with
        mapVotes := SortedMap.empty.set (VoteStore.voteKey TwoFees.vote)
          { TwoFees.vote with nProposalHash := proposal.getHash } }

def gone : BudgetView := { TwoFees.view with knowsMasternode := fun _ => false }

end LapsedVote

section

attribute [local instance] VetoedPayment.params TwoFees.instCrypto TwoFees.instStdSort

open LapsedVote

/-- The proposal is allotted 30 coins, and still is when `GetBudget` returns nothing. -/
theorem lapsedVote_keeps :
    (TwoFees.view.getBudget held).2 = [TwoFees.hash 65] ∧
      (gone.getBudget (TwoFees.view.getBudget held).1).2 = [] ∧
      ¬ ∃ ranking, GreedyBudget gone (gone.weighed (TwoFees.view.getBudget held).1) ranking
        (gone.getBudget (TwoFees.view.getBudget held).1).1
        (gone.getBudget (TwoFees.view.getBudget held).1).2 := by
  have empty : (gone.getBudget (TwoFees.view.getBudget held).1).2 = [] := by decide +kernel
  refine ⟨by decide +kernel, empty, ?_⟩
  rintro ⟨ranking, greedy⟩
  have kept : ((gone.getBudget (TwoFees.view.getBudget held).1).1.lookup
      (TwoFees.hash 65)).map CBudgetProposal.nAlloted = some (some (30 * COIN)) := by
    decide +kernel
  rw [greedy.allotted, Option.map_map, Option.map_eq_some_iff] at kept
  obtain ⟨proposal, -, same⟩ := kept
  rw [empty] at same
  simp only [Function.comp_apply, not_mem_nil, if_false, Option.some.injEq] at same
  exact absurd same (by decide)

theorem getBudget_greedy_oneProposal :
    ∃ ranking, GreedyBudget TwoFees.view (TwoFees.view.weighed held) ranking
      (TwoFees.view.getBudget held).1 (TwoFees.view.getBudget held).2 := by
  have amounts : ∀ entry ∈ held.entries, 10 * COIN ≤ entry.2.nAmount ∧
      entry.2.nAmount ≤ TwoFees.view.getTotalBudget entry.2.nBlockStart := by
    decide +kernel
  have eligible : ∀ entry ∈ (TwoFees.view.weighed held).entries,
      TwoFees.view.eligible entry.2 = true := by
    decide +kernel
  refine (getBudget_greedy_iff (by decide) (by decide) TwoFees.view held ?_).mpr ?_
  · intro key proposal found
    obtain ⟨least, most⟩ := amounts (key, proposal) (SortedMap.mem_entries_iff.mpr found)
    exact ⟨least, TwoFees.view, most⟩
  · intro key proposal found ineligible
    have passes := eligible (key, proposal) (SortedMap.mem_entries_iff.mpr found)
    rw [passes] at ineligible
    contradiction

end

end Agouti
