import Agouti.Library.Ranking
import Agouti.Masternode.BlockHashCache
import Agouti.Masternode.ListIntegrity
import Agouti.Primitives.Compact

/-! # Three rankings of the masternodes

`GetMasternodeRank`, `GetMasternodeByRank` and `GetMasternodeRanks` of `masternodeman.cpp` for the
enabled masternodes. Each has its own copy of the scan: only the first asks for the age under spork
8 and gives up when the hash of the block is unknown, and only the last lists masternodes that are
not enabled, with a score of 9999. All three sort by the score in its compact form, and `sort` may
order equal scores as it likes. They describe one ranking, whatever the order of the list, exactly
when these differences do not show (`sameRanking_iff`).
-/

namespace Agouti

open List CMasternodeMan

section

variable [Crypto] [ChainParams]

def atRank (nRank : Int) : Int → List (Int × CTxIn) → Option CTxIn
  | _, [] => none
  | rank, s :: rest => if rank + 1 = nRank then some s.2 else atRank nRank (rank + 1) rest

/-- `CMasternodeMan::GetMasternodeByRank`. The scan is that of `GetMasternodeRank` without the test
of the age. -/
def getMasternodeByRank (sort : List (Int × CTxIn) → List (Int × CTxIn))
    (context : MasternodeContext) (mapCacheBlockHashes : BlockHashCache)
    (vMasternodes : List CMasternode) (nRank nBlockHeight minProtocol : Int) (fOnlyActive : Bool) :
    BlockHashCache × List CMasternode × Option CMasternode :=
  let call : RankCall :=
    { vin := .empty, nBlockHeight := nBlockHeight, minProtocol := minProtocol,
      fOnlyActive := fOnlyActive }
  let (after, checked, scores) := call.scan context false mapCacheBlockHashes vMasternodes
  (after, checked, (atRank nRank 0 (sort scores)).bind fun vin =>
    checked.find? (isAt vin))

/-- The scan of `GetMasternodeRanks`. -/
def scanRanks (context : MasternodeContext) (nBlockHeight minProtocol : Int) :
    BlockHashCache → List CMasternode →
      BlockHashCache × List CMasternode × List (Int × CMasternode)
  | mapCacheBlockHashes, [] => (mapCacheBlockHashes, [], [])
  | mapCacheBlockHashes, mn :: rest =>
    let checked := mn.check context false
    if checked.protocolVersion < minProtocol then
      let (after, vMasternodes, scores) :=
        scanRanks context nBlockHeight minProtocol mapCacheBlockHashes rest
      (after, checked :: vMasternodes, scores)
    else if !checked.isEnabled then
      let (after, vMasternodes, scores) :=
        scanRanks context nBlockHeight minProtocol mapCacheBlockHashes rest
      (after, checked :: vMasternodes, (9999, checked) :: scores)
    else
      let (middle, n) := checked.calculateScore context.node mapCacheBlockHashes nBlockHeight
      let (after, vMasternodes, scores) := scanRanks context nBlockHeight minProtocol middle rest
      (after, checked :: vMasternodes, ((n.getCompact : Int), checked) :: scores)

def numberRanks : Int → List (Int × CMasternode) → List (Int × CMasternode)
  | _, [] => []
  | rank, s :: rest => (rank + 1, s.2) :: numberRanks (rank + 1) rest

/-- `CMasternodeMan::GetMasternodeRanks`. -/
def getMasternodeRanks (sort : List (Int × CMasternode) → List (Int × CMasternode))
    (context : MasternodeContext) (mapCacheBlockHashes : BlockHashCache)
    (vMasternodes : List CMasternode) (nBlockHeight minProtocol : Int) :
    BlockHashCache × List CMasternode × List (Int × CMasternode) :=
  match context.node.getBlockHash mapCacheBlockHashes (toInt32 nBlockHeight) with
  | (mapCacheBlockHashes, none) => (mapCacheBlockHashes, vMasternodes, [])
  | (mapCacheBlockHashes, some _) =>
    let (after, checked, scores) :=
      scanRanks context nBlockHeight minProtocol mapCacheBlockHashes vMasternodes
    (after, checked, numberRanks 0 (sort scores))

/-! ### Who is ranked, and by what -/

def recent (context : MasternodeContext) (minProtocol : Int) (mn : CMasternode) :
    Option CMasternode :=
  if mn.protocolVersion < minProtocol then none else some (mn.check context false)

def enabled (context : MasternodeContext) (minProtocol : Int) (vMasternodes : List CMasternode) :
    List CMasternode :=
  (vMasternodes.filterMap (recent context minProtocol)).filter CMasternode.isEnabled

def disabled (context : MasternodeContext) (minProtocol : Int) (vMasternodes : List CMasternode) :
    List CMasternode :=
  (vMasternodes.filterMap (recent context minProtocol)).filter (!·.isEnabled)

/-- Spork 8 does not ask for the age, or the masternode is old enough. -/
def aged (context : MasternodeContext) (fEnforced : Bool) (mn : CMasternode) : Bool :=
  !fEnforced || decide (MN_WINNER_MINIMUM_AGE ≤ (context.adjustedTime - mn.sigTime).bmod (2 ^ 64))

def compactScore (answer : Option Uint256) (prevout : COutPoint) : Int :=
  (((answer.map (scoreOf prevout)).getD 0).getCompact : Int)

def scoreEntry (answer : Option Uint256) (mn : CMasternode) : Int × CTxIn :=
  (compactScore answer mn.vin.prevout, mn.vin)

/-- The entry of a masternode in `GetMasternodeRanks`. -/
def rankEntry (answer : Option Uint256) (mn : CMasternode) : Int × CMasternode :=
  (if mn.isEnabled then compactScore answer mn.vin.prevout else 9999, mn)

variable {context : MasternodeContext} {minProtocol nBlockHeight : Int}
  {vMasternodes : List CMasternode} {cache : BlockHashCache} {answer : Option Uint256}

omit [ChainParams] in
theorem compactScore_calculateScore (mn : CMasternode)
    (answered : (context.node.getBlockHash cache (toInt32 nBlockHeight)).2 = answer) :
    ((mn.calculateScore context.node cache nBlockHeight).2.getCompact : Int) =
        compactScore answer mn.vin.prevout ∧
      (context.node.getBlockHash (mn.calculateScore context.node cache nBlockHeight).1
        (toInt32 nBlockHeight)).2 = answer := by
  rw [CMasternode.calculateScore_eq, Node.getBlockHash_again, answered]
  exact ⟨rfl, rfl⟩

theorem enabled_cons (mn : CMasternode) (rest : List CMasternode) :
    enabled context minProtocol (mn :: rest) =
      if mn.protocolVersion < minProtocol then enabled context minProtocol rest
      else if (mn.check context false).isEnabled then
        mn.check context false :: enabled context minProtocol rest
      else enabled context minProtocol rest := by
  unfold enabled
  rw [filterMap_cons]
  unfold recent
  split_ifs with old ready
  · rfl
  · exact filter_cons_of_pos ready
  · exact filter_cons_of_neg ready

theorem aged_check (fEnforced : Bool) (mn : CMasternode) :
    aged context fEnforced (mn.check context false) = aged context fEnforced mn := by
  obtain ⟨time, state, same⟩ := check_eq context false mn
  rw [same]
  rfl

variable (vMasternodes) in
theorem RankCall.scan_scores (call : RankCall) (active : call.fOnlyActive = true)
    (fEnforced : Bool)
    (answered : (context.node.getBlockHash cache (toInt32 call.nBlockHeight)).2 = answer) :
    (call.scan context fEnforced cache vMasternodes).2.2 =
      ((enabled context call.minProtocol vMasternodes).filter (aged context fEnforced)).map
        (scoreEntry answer) := by
  induction vMasternodes generalizing cache with
  | nil => rfl
  | cons mn rest ih =>
    have kept : aged context fEnforced (mn.check context false) = aged context fEnforced mn :=
      aged_check fEnforced mn
    unfold RankCall.scan
    rw [enabled_cons, active]
    by_cases old : mn.protocolVersion < call.minProtocol
    · rw [if_pos (.inl old), if_pos old]
      exact ih answered
    rw [if_neg old]
    by_cases young : fEnforced = true ∧
        (context.adjustedTime - mn.sigTime).bmod (2 ^ 64) < MN_WINNER_MINIMUM_AGE
    · have fresh : aged context fEnforced mn = false := by
        rw [aged, young.1, decide_eq_false (not_le.mpr young.2)]
        rfl
      rw [if_pos (.inr young)]
      by_cases ready : (mn.check context false).isEnabled = true
      · rw [if_pos ready, filter_cons_of_neg (by simp [kept, fresh]), ← ih answered]
      · rw [if_neg ready, ← ih answered]
    · have mature : aged context fEnforced mn = true := by
        unfold aged
        cases fEnforced <;> simp_all
      rw [if_neg (not_or.mpr ⟨old, young⟩)]
      cases ready : (mn.check context false).isEnabled with
      | false => simpa [ready] using ih answered
      | true =>
        obtain ⟨score, again⟩ := compactScore_calculateScore (mn.check context false) answered
        simp [ready, kept, mature, ih again, score, scoreEntry]

variable (context cache vMasternodes) in
theorem RankCall.scan_prevouts (call : RankCall) (fEnforced : Bool) :
    (call.scan context fEnforced cache vMasternodes).2.1.map (·.vin.prevout) =
      vMasternodes.map (·.vin.prevout) := by
  induction vMasternodes generalizing cache with
  | nil => rfl
  | cons mn rest ih =>
    have kept : (if call.fOnlyActive then mn.check context false else mn).vin = mn.vin := by
      obtain ⟨time, state, same⟩ := check_eq context false mn
      rw [same]
      split <;> rfl
    unfold RankCall.scan
    split
    · exact congrArg (mn.vin.prevout :: ·) (ih cache)
    · dsimp only
      generalize (if call.fOnlyActive = true then mn.check context false else mn) = checked
        at kept ⊢
      split
      · rw [map_cons, map_cons, kept, ih]
      · rw [map_cons, map_cons, kept, ih]

theorem scanRanks_scores
    (answered : (context.node.getBlockHash cache (toInt32 nBlockHeight)).2 = answer) :
    (scanRanks context nBlockHeight minProtocol cache vMasternodes).2.2 =
      (vMasternodes.filterMap (recent context minProtocol)).map (rankEntry answer) := by
  induction vMasternodes generalizing cache with
  | nil => rfl
  | cons mn rest ih =>
    have version : (mn.check context false).protocolVersion = mn.protocolVersion := by
      obtain ⟨time, state, same⟩ := check_eq context false mn
      rw [same]
    unfold scanRanks
    dsimp only
    rw [version]
    by_cases old : mn.protocolVersion < minProtocol
    · have skipped : recent context minProtocol mn = none := if_pos old
      rw [if_pos old, filterMap_cons_none skipped]
      exact ih answered
    · have counted : recent context minProtocol mn = some (mn.check context false) := if_neg old
      rw [if_neg old, filterMap_cons_some counted]
      cases ready : (mn.check context false).isEnabled with
      | false => simp [ih answered, rankEntry, ready]
      | true =>
        obtain ⟨score, again⟩ := compactScore_calculateScore (mn.check context false) answered
        simp [ih again, score, rankEntry, ready]

end

/-! ### The three functions on the sorted scores -/

theorem rankAmong_shift (prevout : COutPoint) (rank : Int) (scores : List (Int × CTxIn)) :
    rankAmong prevout rank scores =
      if prevout ∈ Ranking.keys CTxIn.prevout scores then
        rank + 1 + (Ranking.keys CTxIn.prevout scores).idxOf prevout
      else -1 := by
  induction scores generalizing rank with
  | nil => rfl
  | cons entry rest ih =>
    unfold rankAmong
    rw [Ranking.keys, map_cons, ← Ranking.keys]
    by_cases here : entry.2.prevout = prevout
    · rw [if_pos here, if_pos (here ▸ mem_cons_self), here, idxOf_cons_self]
      simp
    · rw [if_neg here, ih, idxOf_cons_ne _ here]
      have elsewhere : prevout ∈ entry.2.prevout :: Ranking.keys CTxIn.prevout rest ↔
          prevout ∈ Ranking.keys CTxIn.prevout rest := by
        rw [mem_cons, or_iff_right (Ne.symm here)]
      by_cases later : prevout ∈ Ranking.keys CTxIn.prevout rest
      · rw [if_pos later, if_pos (elsewhere.mpr later)]
        push_cast
        omega
      · rw [if_neg later, if_neg (mt elsewhere.mp later)]

theorem rankAmong_iff (prevout : COutPoint) (i : Nat) (scores : List (Int × CTxIn)) :
    rankAmong prevout 0 scores = i + 1 ↔
      prevout ∈ Ranking.keys CTxIn.prevout scores ∧
        (Ranking.keys CTxIn.prevout scores).idxOf prevout = i := by
  rw [rankAmong_shift]
  split_ifs with member
  · rw [and_iff_right member]
    omega
  · rw [iff_false_right (fun both => member both.1)]
    omega

theorem atRank_eq (i : Nat) (rank : Int) (scores : List (Int × CTxIn)) :
    atRank (rank + i + 1) rank scores = scores[i]?.map Prod.snd := by
  induction scores generalizing i rank with
  | nil => rfl
  | cons entry rest ih =>
    unfold atRank
    cases i with
    | zero => exact if_pos (by simp)
    | succ i =>
      rw [if_neg (by push_cast; omega), List.getElem?_cons_succ, ← ih i (rank + 1)]
      congr 1
      push_cast
      omega

theorem mem_numberRanks {nRank rank : Int} {mn : CMasternode}
    {scores : List (Int × CMasternode)} :
    (nRank, mn) ∈ numberRanks rank scores ↔
      ∃ i : Nat, nRank = rank + i + 1 ∧ scores[i]?.map Prod.snd = some mn := by
  induction scores generalizing rank with
  | nil => simp [numberRanks]
  | cons entry rest ih =>
    rw [numberRanks, mem_cons, ih, Prod.mk.injEq]
    constructor
    · rintro (⟨rfl, rfl⟩ | ⟨i, rfl, there⟩)
      · exact ⟨0, by simp, rfl⟩
      · exact ⟨i + 1, by push_cast; omega, there⟩
    · rintro ⟨i, rfl, there⟩
      cases i with
      | zero => exact .inl ⟨by simp, (Option.some.inj there).symm⟩
      | succ i => exact .inr ⟨i, by push_cast; omega, there⟩

/-! ### One ranking -/

section

variable [Crypto] [ChainParams]

/-- What one ranking of the enabled masternodes means: in every order of the list a rank belongs
to the same outpoint, `GetMasternodeByRank` finds there the masternode of this outpoint, and
`GetMasternodeRanks` lists it there. -/
def SameRanking (sort : List (Int × CTxIn) → List (Int × CTxIn))
    (sortMN : List (Int × CMasternode) → List (Int × CMasternode)) (mapSporksActive : SporkMap)
    (context : MasternodeContext) (mapCacheBlockHashes : BlockHashCache)
    (vMasternodes : List CMasternode) (nBlockHeight minProtocol : Int) : Prop :=
  ∀ others : List CMasternode, vMasternodes.Perm others → ∀ (vin : CTxIn) (nRank : Int), 0 < nRank →
    let rank (vMasternodes : List CMasternode) : Int :=
      (getMasternodeRank sort mapSporksActive context mapCacheBlockHashes vMasternodes
        ⟨vin, nBlockHeight, minProtocol, true⟩).2.2
    (rank others = nRank ↔ rank vMasternodes = nRank) ∧
    (rank others = nRank ↔ ∃ mn,
      (getMasternodeByRank sort context mapCacheBlockHashes others nRank nBlockHeight minProtocol
        true).2.2 = some mn ∧ mn.vin.prevout = vin.prevout) ∧
    (rank others = nRank ↔ ∃ mn,
      (nRank, mn) ∈ (getMasternodeRanks sortMN context mapCacheBlockHashes others nBlockHeight
        minProtocol).2.2 ∧ mn.isEnabled = true ∧ mn.vin.prevout = vin.prevout)

/-- When the differences between the three functions do not show. -/
structure Rankable (mapSporksActive : SporkMap) (context : MasternodeContext)
    (answer : Option Uint256) (vMasternodes : List CMasternode) (minProtocol : Int) : Prop where
  /-- The hash of the block is known. -/
  known : enabled context minProtocol vMasternodes ≠ [] → answer ≠ none
  /-- No two enabled masternodes have one score in the compact form. -/
  distinct : ((enabled context minProtocol vMasternodes).map fun mn =>
    compactScore answer mn.vin.prevout).Nodup
  /-- Under spork 8 the enabled masternodes are old enough. -/
  old : ∀ mn ∈ enabled context minProtocol vMasternodes,
    aged context (isSporkActive mapSporksActive 10007 (Int64.ofInt context.time)) mn = true
  /-- Beside a masternode that is not enabled no enabled one has the score zero. -/
  positive : disabled context minProtocol vMasternodes ≠ [] →
    ∀ mn ∈ enabled context minProtocol vMasternodes, compactScore answer mn.vin.prevout ≠ 0

/-- The outpoints of the enabled masternodes in the order of their scores. -/
def ranking (sort : List (Int × CTxIn) → List (Int × CTxIn)) (context : MasternodeContext)
    (answer : Option Uint256) (fEnforced : Bool) (minProtocol : Int)
    (vMasternodes : List CMasternode) : List COutPoint :=
  Ranking.keys CTxIn.prevout (sort (((enabled context minProtocol vMasternodes).filter
    (aged context fEnforced)).map (scoreEntry answer)))

/-- The ranking that `GetMasternodeRank` reads: it is empty when the hash is not known. -/
def knownRanking (sort : List (Int × CTxIn) → List (Int × CTxIn)) (context : MasternodeContext)
    (answer : Option Uint256) (fEnforced : Bool) (minProtocol : Int)
    (vMasternodes : List CMasternode) : List COutPoint :=
  if answer.isSome then ranking sort context answer fEnforced minProtocol vMasternodes else []

variable {sort : List (Int × CTxIn) → List (Int × CTxIn)}
  {sortMN : List (Int × CMasternode) → List (Int × CMasternode)} {mapSporksActive : SporkMap}
  {context : MasternodeContext} {cache : BlockHashCache} {vMasternodes : List CMasternode}
  {nBlockHeight minProtocol : Int} {answer : Option Uint256} {vin : CTxIn} {i : Nat}

theorem getMasternodeRank_iff
    (answered : (context.node.getBlockHash cache (toInt32 nBlockHeight)).2 = answer) :
    (getMasternodeRank sort mapSporksActive context cache vMasternodes
        ⟨vin, nBlockHeight, minProtocol, true⟩).2.2 = i + 1 ↔
      vin.prevout ∈ knownRanking sort context answer
          (isSporkActive mapSporksActive 10007 (Int64.ofInt context.time)) minProtocol
          vMasternodes ∧
        (knownRanking sort context answer
          (isSporkActive mapSporksActive 10007 (Int64.ofInt context.time)) minProtocol
          vMasternodes).idxOf vin.prevout = i := by
  have again := Node.getBlockHash_again context.node cache (toInt32 nBlockHeight)
  unfold getMasternodeRank
  rcases found : context.node.getBlockHash cache (toInt32 nBlockHeight) with ⟨after, hash⟩
  rw [found] at answered again
  subst answered
  cases hash with
  | none =>
    simp only [knownRanking, Option.isSome_none, Bool.false_eq_true, ↓reduceIte,
      not_mem_nil, false_and, iff_false]
    omega
  | some hash =>
    simp only [knownRanking, Option.isSome_some, ↓reduceIte]
    rw [rankAmong_iff, RankCall.scan_scores vMasternodes ⟨vin, nBlockHeight, minProtocol, true⟩ rfl _
      (congrArg Prod.snd again)]
    rfl

variable {mn : CMasternode} {prevout : COutPoint}

theorem mem_enabled :
    mn ∈ enabled context minProtocol vMasternodes ↔
      (∃ listed ∈ vMasternodes, ¬ listed.protocolVersion < minProtocol ∧
        listed.check context false = mn) ∧ mn.isEnabled = true := by
  unfold enabled recent
  simp only [mem_filter, mem_filterMap, Option.ite_none_left_eq_some, Option.some.injEq]

omit [Crypto] [ChainParams] in
theorem find_isAt {mns : List CMasternode} :
    (∃ mn, mns.find? (isAt vin) = some mn ∧ mn.vin.prevout = prevout) ↔
      vin.prevout ∈ mns.map (·.vin.prevout) ∧ vin.prevout = prevout := by
  constructor
  · rintro ⟨mn, found, rfl⟩
    have same : mn.vin.prevout = vin.prevout := by
      simpa [isAt] using List.find?_some found
    rw [← same]
    exact ⟨mem_map_of_mem (List.mem_of_find?_eq_some found), rfl⟩
  · rintro ⟨member, rfl⟩
    obtain ⟨mn, listed, same⟩ := mem_map.mp member
    have there : (mns.find? (isAt vin)).isSome :=
      List.find?_isSome.mpr ⟨mn, listed, by simpa [isAt] using same⟩
    obtain ⟨other, found⟩ := Option.isSome_iff_exists.mp there
    exact ⟨other, found, by simpa [isAt] using List.find?_some found⟩

omit [Crypto] [ChainParams] in
theorem filter_aged_false (mns : List CMasternode) : mns.filter (aged context false) = mns :=
  filter_eq_self.mpr fun _ _ => rfl

theorem getMasternodeByRank_iff (sorts : Ranking.Sorts sort)
    (answered : (context.node.getBlockHash cache (toInt32 nBlockHeight)).2 = answer) :
    (∃ mn, (getMasternodeByRank sort context cache vMasternodes (i + 1) nBlockHeight minProtocol
        true).2.2 = some mn ∧ mn.vin.prevout = vin.prevout) ↔
      (ranking sort context answer false minProtocol vMasternodes)[i]? = some vin.prevout := by
  have scores := RankCall.scan_scores vMasternodes ⟨.empty, nBlockHeight, minProtocol, true⟩ rfl
    false answered
  have prevouts := RankCall.scan_prevouts context vMasternodes cache
    ⟨.empty, nBlockHeight, minProtocol, true⟩ false
  have place := atRank_eq i 0 (sort ((enabled context minProtocol vMasternodes).map
    (scoreEntry answer)))
  unfold getMasternodeByRank ranking
  simp only [scores, filter_aged_false] at place ⊢
  rw [Int.zero_add] at place
  rw [place, Ranking.keys, List.getElem?_map]
  cases there : (sort ((enabled context minProtocol vMasternodes).map (scoreEntry answer)))[i]? with
  | none => simp
  | some entry =>
    obtain ⟨mn, member, rfl⟩ := mem_map.mp
      ((sorts.perm _).mem_iff.mp (mem_of_getElem? there))
    obtain ⟨⟨listed, present, _, rfl⟩, _⟩ := mem_enabled.mp member
    have outpoint : (listed.check context false).vin = listed.vin := by
      obtain ⟨time, state, checked⟩ := check_eq context false listed
      rw [checked]
    simp only [Option.map_some, Option.bind_some, Option.some.injEq, scoreEntry, outpoint]
    rw [find_isAt, prevouts]
    exact and_iff_right (mem_map_of_mem present)

theorem getMasternodeRanks_iff
    (answered : (context.node.getBlockHash cache (toInt32 nBlockHeight)).2 = answer) :
    (∃ mn, ((i : Int) + 1, mn) ∈ (getMasternodeRanks sortMN context cache vMasternodes nBlockHeight
        minProtocol).2.2 ∧ mn.isEnabled = true ∧ mn.vin.prevout = prevout) ↔
      answer.isSome ∧ ∃ entry, (sortMN ((vMasternodes.filterMap (recent context minProtocol)).map
        (rankEntry answer)))[i]? = some entry ∧ entry.2.isEnabled = true ∧
          entry.2.vin.prevout = prevout := by
  have again := Node.getBlockHash_again context.node cache (toInt32 nBlockHeight)
  unfold getMasternodeRanks
  rcases found : context.node.getBlockHash cache (toInt32 nBlockHeight) with ⟨after, hash⟩
  rw [found] at answered again
  subst answered
  cases hash with
  | none => simp
  | some hash =>
    simp only [scanRanks_scores (congrArg Prod.snd again), mem_numberRanks, Option.isSome_some,
      true_and]
    constructor
    · rintro ⟨mn, ⟨j, place, there⟩, ready, same⟩
      obtain rfl : i = j := by omega
      obtain ⟨entry, listed, rfl⟩ := Option.map_eq_some_iff.mp there
      exact ⟨entry, listed, ready, same⟩
    · rintro ⟨entry, listed, ready, same⟩
      exact ⟨entry.2, ⟨i, by omega, by rw [listed]; rfl⟩, ready, same⟩

/-! ### Places -/

omit [ChainParams] in
theorem compactScore_zero_or (answer : Option Uint256) (prevout : COutPoint) :
    compactScore answer prevout = 0 ∨ 9999 < compactScore answer prevout := by
  unfold compactScore
  rcases Uint256.getCompact_zero_or ((answer.map (scoreOf prevout)).getD 0) with zero | sized
  · exact .inl (by rw [zero]; rfl)
  · exact .inr (by omega)

theorem enabled_unique (distinct : ((enabled context minProtocol vMasternodes).map fun mn =>
      compactScore answer mn.vin.prevout).Nodup) {other : CMasternode}
    (member : mn ∈ enabled context minProtocol vMasternodes)
    (memberOther : other ∈ enabled context minProtocol vMasternodes)
    (same : mn.vin.prevout = other.vin.prevout) : mn = other :=
  inj_on_of_nodup_map distinct member memberOther (congrArg (compactScore answer) same)

theorem ranking_place (sorts : Ranking.Sorts sort)
    (distinct : ((enabled context minProtocol vMasternodes).map fun mn =>
      compactScore answer mn.vin.prevout).Nodup)
    (member : mn ∈ enabled context minProtocol vMasternodes) :
    (ranking sort context answer false minProtocol vMasternodes)[i]? = some mn.vin.prevout ↔
      Ranking.above ((enabled context minProtocol vMasternodes).map (scoreEntry answer))
        (compactScore answer mn.vin.prevout) = i := by
  have scores : (((enabled context minProtocol vMasternodes).map (scoreEntry answer)).map
      Prod.fst).Nodup := by
    rw [map_map]
    exact distinct
  have placed := sorts.getElem?_iff
    (Ranking.alone_of_nodup scores (scoreEntry answer mn).1) i
  rw [and_iff_right (mem_map_of_mem member)] at placed
  unfold ranking
  rw [filter_aged_false, Ranking.keys, List.getElem?_map]
  refine Iff.trans ?_ placed
  constructor
  · intro there
    obtain ⟨entry, listed, same⟩ := Option.map_eq_some_iff.mp there
    obtain ⟨other, memberOther, rfl⟩ := mem_map.mp
      ((sorts.perm _).mem_iff.mp (mem_of_getElem? listed))
    rwa [enabled_unique distinct member memberOther same.symm]
  · intro there
    rw [there]
    rfl

theorem rankEntry_place (sortsMN : Ranking.Sorts sortMN)
    (distinct : ((enabled context minProtocol vMasternodes).map fun mn =>
      compactScore answer mn.vin.prevout).Nodup)
    (member : mn ∈ enabled context minProtocol vMasternodes) :
    (sortMN ((vMasternodes.filterMap (recent context minProtocol)).map (rankEntry answer)))[i]? =
        some (rankEntry answer mn) ↔
      Ranking.above ((enabled context minProtocol vMasternodes).map (scoreEntry answer))
          (compactScore answer mn.vin.prevout) +
        (if compactScore answer mn.vin.prevout = 0 then
          (disabled context minProtocol vMasternodes).length else 0) = i := by
  have ready := (mem_enabled.mp member).2
  have score : (rankEntry answer mn).1 = compactScore answer mn.vin.prevout := if_pos ready
  have counted (test : Int → Bool) :=
    Ranking.countP_placeholder CMasternode.isEnabled
      (fun mn => compactScore answer mn.vin.prevout) 9999 test
      (vMasternodes.filterMap (recent context minProtocol))
  have firsts : ((vMasternodes.filterMap (recent context minProtocol)).map
      (rankEntry answer)).map Prod.fst =
        (vMasternodes.filterMap (recent context minProtocol)).map fun mn =>
          if mn.isEnabled then compactScore answer mn.vin.prevout else 9999 := by
    rw [map_map]
    rfl
  have alone : Ranking.Alone ((vMasternodes.filterMap (recent context minProtocol)).map
      (rankEntry answer)) (rankEntry answer mn).1 := by
    have apart : ¬ (9999 : Int) = compactScore answer mn.vin.prevout := by
      rcases compactScore_zero_or answer mn.vin.prevout with zero | sized <;> omega
    unfold Ranking.Alone
    rw [firsts, score, List.count, counted, if_neg (by simpa using apart), Nat.add_zero]
    exact nodup_iff_count_le_one.mp distinct _
  have passes : decide (compactScore answer mn.vin.prevout < 9999) =
      decide (compactScore answer mn.vin.prevout = 0) := by
    rcases compactScore_zero_or answer mn.vin.prevout with zero | sized
    · rw [zero]
      rfl
    · rw [decide_eq_false (by omega), decide_eq_false (by omega)]
  rw [sortsMN.getElem?_iff alone,
    and_iff_right (mem_map_of_mem (mem_of_mem_filter member)),
    Ranking.above_eq, firsts, score, counted, passes, Ranking.above_eq, map_map]
  simp only [decide_eq_true_eq]
  rfl

/-! ### When there is one ranking -/

theorem knownRanking_subperm (sorts : Ranking.Sorts sort) (fEnforced : Bool) :
    (knownRanking sort context answer fEnforced minProtocol vMasternodes).Subperm
      (ranking sort context answer false minProtocol vMasternodes) := by
  unfold knownRanking
  split_ifs
  · have part : (Ranking.keys CTxIn.prevout (((enabled context minProtocol vMasternodes).filter
        (aged context fEnforced)).map (scoreEntry answer))).Sublist
          (Ranking.keys CTxIn.prevout (((enabled context minProtocol vMasternodes).filter
            (aged context false)).map (scoreEntry answer))) := by
      rw [filter_aged_false]
      exact (filter_sublist.map _).map _
    exact ((sorts.keys_perm _).subperm.trans part.subperm).trans (sorts.keys_perm _).symm.subperm
  · exact nil_subperm

theorem length_ranking (sorts : Ranking.Sorts sort) (fEnforced : Bool) :
    (ranking sort context answer fEnforced minProtocol vMasternodes).length =
      ((enabled context minProtocol vMasternodes).filter (aged context fEnforced)).length := by
  unfold ranking
  rw [(sorts.keys_perm _).length_eq, Ranking.keys, length_map, length_map]

/-- The two rankings are one exactly when the hash is known and everyone is old enough, or there
is nobody to rank. -/
theorem knownRanking_eq_iff (sorts : Ranking.Sorts sort) (fEnforced : Bool) :
    knownRanking sort context answer fEnforced minProtocol vMasternodes =
        ranking sort context answer false minProtocol vMasternodes ↔
      (enabled context minProtocol vMasternodes ≠ [] → answer ≠ none) ∧
        ∀ mn ∈ enabled context minProtocol vMasternodes, aged context fEnforced mn = true := by
  have whole : (ranking sort context answer false minProtocol vMasternodes).length =
      ((enabled context minProtocol vMasternodes).filter (aged context false)).length :=
    length_ranking sorts false
  rw [filter_aged_false] at whole
  constructor
  · intro same
    have count := congrArg List.length same
    rw [whole] at count
    unfold knownRanking at count
    cases answer with
    | none =>
      have nobody : enabled context minProtocol vMasternodes = [] :=
        length_eq_zero_iff.mp count.symm
      rw [nobody]
      simp
    | some hash =>
      rw [if_pos Option.isSome_some, length_ranking sorts] at count
      exact ⟨fun _ => Option.some_ne_none hash, length_filter_eq_length_iff.mp count⟩
  · rintro ⟨known, old⟩
    have all : (enabled context minProtocol vMasternodes).filter (aged context fEnforced) =
        enabled context minProtocol vMasternodes := filter_eq_self.mpr old
    unfold knownRanking
    cases answer with
    | none =>
      have nobody : enabled context minProtocol vMasternodes = [] := by
        by_contra some
        exact known some rfl
      rw [nobody] at whole
      exact (length_eq_zero_iff.mp whole).symm
    | some hash =>
      unfold ranking
      rw [if_pos Option.isSome_some, all, filter_aged_false]

theorem enabled_entries :
    (enabled context minProtocol vMasternodes).map (scoreEntry answer) =
      vMasternodes.filterMap fun mn =>
        ((recent context minProtocol mn).filter CMasternode.isEnabled).map (scoreEntry answer) := by
  unfold enabled
  rw [filter_filterMap, map_filterMap]

theorem ranking_orderless_iff (sorts : Ranking.Sorts sort)
    (distinct : (ranking sort context answer false minProtocol vMasternodes).Nodup) :
    (∀ others, vMasternodes.Perm others → ranking sort context answer false minProtocol others =
        ranking sort context answer false minProtocol vMasternodes) ↔
      ((enabled context minProtocol vMasternodes).map fun mn =>
        compactScore answer mn.vin.prevout).Nodup := by
  unfold ranking at distinct ⊢
  rw [(sorts.keys_perm _).nodup_iff] at distinct
  simp only [filter_aged_false, enabled_entries] at distinct ⊢
  rw [sorts.orderless_iff _ _ distinct, ← enabled_entries, map_map]
  rfl

theorem Rankable.perm {others : List CMasternode}
    (rankable : Rankable mapSporksActive context answer vMasternodes minProtocol)
    (same : vMasternodes.Perm others) :
    Rankable mapSporksActive context answer others minProtocol := by
  have checked := same.filterMap (recent context minProtocol)
  have ready : (enabled context minProtocol vMasternodes).Perm
      (enabled context minProtocol others) := checked.filter _
  have rest : (disabled context minProtocol vMasternodes).Perm
      (disabled context minProtocol others) := checked.filter _
  exact
    { known := fun some => rankable.known fun none => some (perm_nil.mp (none ▸ ready.symm))
      distinct := (ready.map _).nodup_iff.mp rankable.distinct
      old := fun mn member => rankable.old mn (ready.mem_iff.mpr member)
      positive := fun some mn member => rankable.positive
        (fun none => some (perm_nil.mp (none ▸ rest.symm))) mn (ready.mem_iff.mpr member) }

theorem ranking_nodup (sorts : Ranking.Sorts sort)
    (distinct : ((enabled context minProtocol vMasternodes).map fun mn =>
      compactScore answer mn.vin.prevout).Nodup) :
    (ranking sort context answer false minProtocol vMasternodes).Nodup := by
  unfold ranking
  rw [(sorts.keys_perm _).nodup_iff, filter_aged_false]
  refine List.Nodup.of_map (compactScore answer) ?_
  simpa [Ranking.keys, map_map, scoreEntry, Function.comp_def] using distinct

theorem mem_ranking (sorts : Ranking.Sorts sort) :
    prevout ∈ ranking sort context answer false minProtocol vMasternodes ↔
      ∃ mn ∈ enabled context minProtocol vMasternodes, mn.vin.prevout = prevout := by
  unfold ranking
  rw [(sorts.keys_perm _).mem_iff, filter_aged_false]
  simp [Ranking.keys, scoreEntry]

theorem placed_iff (sorts : Ranking.Sorts sort) (sortsMN : Ranking.Sorts sortMN)
    (distinct : ((enabled context minProtocol vMasternodes).map fun mn =>
      compactScore answer mn.vin.prevout).Nodup) :
    (∀ (prevout : COutPoint) (i : Nat),
      (ranking sort context answer false minProtocol vMasternodes)[i]? = some prevout ↔
        ∃ entry : Int × CMasternode,
          (sortMN ((vMasternodes.filterMap (recent context minProtocol)).map
            (rankEntry answer)))[i]? = some entry ∧ entry.2.isEnabled = true ∧
            entry.2.vin.prevout = prevout) ↔
      (disabled context minProtocol vMasternodes ≠ [] →
        ∀ mn ∈ enabled context minProtocol vMasternodes,
          compactScore answer mn.vin.prevout ≠ 0) := by
  have entries {i : Nat} {entry : Int × CMasternode}
      (there : (sortMN ((vMasternodes.filterMap (recent context minProtocol)).map
        (rankEntry answer)))[i]? = some entry) (ready : entry.2.isEnabled = true) :
      entry.2 ∈ enabled context minProtocol vMasternodes ∧ entry = rankEntry answer entry.2 := by
    obtain ⟨mn, member, rfl⟩ := mem_map.mp
      ((sortsMN.perm _).mem_iff.mp (mem_of_getElem? there))
    exact ⟨mem_filter.mpr ⟨member, ready⟩, rfl⟩
  constructor
  · intro placed others mn member zero
    obtain ⟨entry, there, ready, same⟩ :=
      (placed mn.vin.prevout _).mp ((ranking_place sorts distinct member).mpr rfl)
    obtain ⟨memberEntry, shape⟩ := entries there ready
    rw [shape, enabled_unique distinct memberEntry member same] at there
    have place := (rankEntry_place sortsMN distinct member).mp there
    rw [if_pos zero] at place
    exact others (length_eq_zero_iff.mp (by omega))
  · intro positive prevout i
    have unmoved {mn : CMasternode} (member : mn ∈ enabled context minProtocol vMasternodes) :
        (if compactScore answer mn.vin.prevout = 0 then
          (disabled context minProtocol vMasternodes).length else 0) = 0 := by
      split_ifs with zero
      · by_contra some
        exact positive (fun none => some (by rw [none]; rfl)) mn member zero
      · rfl
    constructor
    · intro there
      obtain ⟨mn, member, rfl⟩ := (mem_ranking sorts).mp (mem_of_getElem? there)
      refine ⟨rankEntry answer mn, ?_, (mem_enabled.mp member).2, rfl⟩
      rw [rankEntry_place sortsMN distinct member, unmoved member]
      exact (ranking_place sorts distinct member).mp there
    · rintro ⟨entry, there, ready, rfl⟩
      obtain ⟨member, shape⟩ := entries there ready
      rw [shape] at there
      have place := (rankEntry_place sortsMN distinct member).mp there
      rw [unmoved member] at place
      exact (ranking_place sorts distinct member).mpr place

theorem sameRanking_places (sorts : Ranking.Sorts sort)
    (answered : (context.node.getBlockHash cache (toInt32 nBlockHeight)).2 = answer)
    {known : List CMasternode → List COutPoint}
    (reads : known = knownRanking sort context answer
      (isSporkActive mapSporksActive 10007 (Int64.ofInt context.time)) minProtocol) :
    SameRanking sort sortMN mapSporksActive context cache vMasternodes nBlockHeight minProtocol ↔
      ∀ others, vMasternodes.Perm others → ∀ (prevout : COutPoint) (i : Nat),
        (prevout ∈ known others ∧ (known others).idxOf prevout = i ↔
          prevout ∈ known vMasternodes ∧ (known vMasternodes).idxOf prevout = i) ∧
        (prevout ∈ known others ∧ (known others).idxOf prevout = i ↔
          (ranking sort context answer false minProtocol others)[i]? = some prevout) ∧
        (prevout ∈ known others ∧ (known others).idxOf prevout = i ↔
          answer.isSome ∧ ∃ entry : Int × CMasternode,
            (sortMN ((others.filterMap (recent context minProtocol)).map
              (rankEntry answer)))[i]? = some entry ∧ entry.2.isEnabled = true ∧
                entry.2.vin.prevout = prevout) := by
  subst reads
  constructor
  · intro same others order prevout i
    obtain ⟨vin, rfl⟩ : ∃ vin : CTxIn, vin.prevout = prevout :=
      ⟨{ CTxIn.empty with prevout := prevout }, rfl⟩
    have places := same others order vin (i + 1) (by omega)
    dsimp only at places
    rwa [getMasternodeRank_iff answered, getMasternodeRank_iff answered,
      getMasternodeByRank_iff sorts answered, getMasternodeRanks_iff answered] at places
  · intro places others order vin nRank positive
    obtain ⟨i, rfl⟩ : ∃ i : Nat, nRank = i + 1 := ⟨(nRank - 1).toNat, by omega⟩
    dsimp only
    rw [getMasternodeRank_iff answered, getMasternodeRank_iff answered,
      getMasternodeByRank_iff sorts answered, getMasternodeRanks_iff answered]
    exact places others order vin.prevout i

/-- **When there is one ranking of the enabled masternodes.** The three functions describe one
ranking, whatever the order of the list, exactly when the hash of the block is known, no two
enabled masternodes have one compact score, spork 8 asks for no age that an enabled one lacks, and
no enabled one with the score zero stands beside one that is not enabled. -/
theorem sameRanking_iff (sorts : Ranking.Sorts sort) (sortsMN : Ranking.Sorts sortMN) :
    SameRanking sort sortMN mapSporksActive context cache vMasternodes nBlockHeight minProtocol ↔
      Rankable mapSporksActive context
        (context.node.getBlockHash cache (toInt32 nBlockHeight)).2 vMasternodes minProtocol := by
  generalize answered : (context.node.getBlockHash cache (toInt32 nBlockHeight)).2 = answer
  generalize reads : knownRanking sort context answer
    (isSporkActive mapSporksActive 10007 (Int64.ofInt context.time)) minProtocol = known
  rw [sameRanking_places sorts answered reads.symm]
  have part (others : List CMasternode) : (known others).Subperm
      (ranking sort context answer false minProtocol others) := by
    rw [← reads]
    exact knownRanking_subperm sorts _
  constructor
  · intro places
    have agree (others : List CMasternode) (order : vMasternodes.Perm others) :=
      (Ranking.places_iff (part others)).mp fun prevout i => (places others order prevout i).2.1
    obtain ⟨here, unrepeated⟩ := agree vMasternodes (.refl _)
    have distinct := (ranking_orderless_iff sorts unrepeated).mp fun others order => by
      obtain ⟨there, unrepeatedThere⟩ := agree others order
      rw [← there, ← here]
      exact Ranking.eq_of_places (there ▸ unrepeatedThere) (here ▸ unrepeated)
        fun prevout i => (places others order prevout i).1
    have same := here
    rw [← reads, knownRanking_eq_iff sorts] at same
    refine ⟨same.1, distinct, same.2, fun some mn member => ?_⟩
    have isSome : answer.isSome := Option.isSome_iff_ne_none.mpr
      (same.1 (ne_nil_of_mem member))
    refine (placed_iff sorts sortsMN distinct).mp (fun prevout i => ?_) some mn
      member
    have places := places vMasternodes (.refl _) prevout i
    rw [← places.2.1, places.2.2, and_iff_right isSome]
  · intro rankable others order prevout i
    have rankableThere := rankable.perm order
    have here : known vMasternodes =
        ranking sort context answer false minProtocol vMasternodes := by
      rw [← reads]
      exact (knownRanking_eq_iff sorts _).mpr ⟨rankable.known, rankable.old⟩
    have there : known others = ranking sort context answer false minProtocol others := by
      rw [← reads]
      exact (knownRanking_eq_iff sorts _).mpr ⟨rankableThere.known, rankableThere.old⟩
    have unrepeated := ranking_nodup sorts rankableThere.distinct
    have orderless := (ranking_orderless_iff sorts (ranking_nodup sorts rankable.distinct)).mpr
      rankable.distinct others order
    have place := (Ranking.places_iff (part others)).mpr ⟨there, unrepeated⟩ prevout i
    refine ⟨by rw [there, here, orderless], place, place.trans ?_⟩
    cases answer with
    | none =>
      have nobody : known others = [] := by rw [← reads]; rfl
      rw [← there, nobody]
      simp
    | some hash =>
      rw [and_iff_right Option.isSome_some]
      exact (placed_iff sorts sortsMN rankableThere.distinct).mpr rankableThere.positive prevout i

end

namespace YoungMasternode

/-! Spork 8 is active, and the only masternode was announced a thousand seconds ago. -/

def young : CMasternode :=
  { MovedHash.masternode 1 with
    sigTime := 99000
    lastTimeChecked := 99999 }

def sporks : SporkMap := fun nSporkID =>
  if nSporkID = 10007 then some { vchSig := [], nSporkID := 10007, nValue := 0, nTimeSigned := 0 }
  else none

end YoungMasternode

section

local instance YoungMasternode.params : ChainParams := regTestParams 0
local instance YoungMasternode.crypto : Crypto := StakedTip.crypto
local instance YoungMasternode.legacy : Legacy := VotedPayee.legacy

open YoungMasternode

theorem sameRanking_iff_young :
    SameRanking Ranking.stable Ranking.stable (fun _ => none) (MovedHash.context MovedHash.before)
        (fun _ => none) [young] 3 0 ↔
      Rankable (fun _ => none) (MovedHash.context MovedHash.before)
        ((MovedHash.context MovedHash.before).node.getBlockHash (fun _ => none) (toInt32 3)).2
        [young] 0 :=
  sameRanking_iff Ranking.sorts_stable Ranking.sorts_stable

/-- Under spork 8 the masternode has no rank, but it is the one at rank 1. -/
theorem not_sameRanking :
    (getMasternodeRank Ranking.stable sporks (MovedHash.context MovedHash.before) (fun _ => none)
        [young] ⟨young.vin, 3, 0, true⟩).2.2 = -1 ∧
      (getMasternodeByRank Ranking.stable (MovedHash.context MovedHash.before) (fun _ => none)
        [young] 1 3 0 true).2.2 = some young ∧
      ¬ SameRanking Ranking.stable Ranking.stable sporks (MovedHash.context MovedHash.before)
        (fun _ => none) [young] 3 0 := by
  have noRank : (getMasternodeRank Ranking.stable sporks (MovedHash.context MovedHash.before)
      (fun _ => none) [young] ⟨young.vin, 3, 0, true⟩).2.2 = -1 := by
    decide +kernel
  have first : (getMasternodeByRank Ranking.stable (MovedHash.context MovedHash.before)
      (fun _ => none) [young] 1 3 0 true).2.2 = some young := by
    decide +kernel
  refine ⟨noRank, first, fun same => ?_⟩
  have ranked := (same [young] (.refl _) young.vin 1 (by decide)).2.1.mpr ⟨young, first, rfl⟩
  exact absurd (noRank.symm.trans ranked) (by decide)

end

end Agouti
