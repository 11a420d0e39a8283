import Mathlib.Algebra.Order.Ring.Int
import Mathlib.Data.List.Count
import Mathlib.Data.List.Sort

/-! # Rankings by a score

A list of scored values is sorted from the highest score to the lowest; how equal scores are
ordered is left to the sorting function (`Sorts`). A value whose score nobody shares has one place
under every such function, the number of higher scores (`Sorts.getElem?_iff`), so its place does
not depend on the order in which the values came. The whole ranking is independent of this order
exactly when no score is shared (`Sorts.orderless_iff`).
-/

namespace Agouti

open List

namespace Ranking

variable {Value : Type}

/-- A function that sorts by the score, the highest first, and looks at nothing else. -/
structure Sorts (sort : List (Int × Value) → List (Int × Value)) : Prop where
  perm : ∀ scores, (sort scores).Perm scores
  descending : ∀ scores, (sort scores).Pairwise fun first second => second.1 ≤ first.1
  natural : ∀ (change : Value → Value) scores,
    sort (scores.map (Prod.map id change)) = (sort scores).map (Prod.map id change)

/-- Nobody shares the score. -/
def Alone (scores : List (Int × Value)) (score : Int) : Prop :=
  (scores.map Prod.fst).count score ≤ 1

/-- The number of higher scores. -/
def above (scores : List (Int × Value)) (score : Int) : Nat :=
  scores.countP fun other => decide (score < other.1)

variable {scores : List (Int × Value)} {entry : Int × Value}

theorem above_eq (scores : List (Int × Value)) (score : Int) :
    above scores score = (scores.map Prod.fst).countP fun other => decide (score < other) := by
  rw [countP_map]
  rfl

/-- Some of the items have a score and the others share a placeholder. -/
theorem countP_placeholder {Item : Type} (scored : Item → Bool) (score : Item → Int)
    (placeholder : Int) (test : Int → Bool) (items : List Item) :
    (items.map fun item => if scored item then score item else placeholder).countP test =
      ((items.filter scored).map score).countP test +
        if test placeholder then (items.filter (!scored ·)).length else 0 := by
  induction items with
  | nil => simp
  | cons item rest ih =>
    rw [map_cons, countP_cons, ih]
    cases has : scored item <;> cases passes : test placeholder <;>
      simp [has, passes, countP_cons] <;> omega

variable {others : List (Int × Value)}

theorem Alone.perm {score : Int} (alone : Alone scores score)
    (same : scores.Perm others) : Alone others score := by
  unfold Alone at alone ⊢
  rwa [← (same.map Prod.fst).count_eq]

theorem above_perm (same : scores.Perm others) (score : Int) :
    above scores score = above others score := same.countP_eq _

theorem alone_of_nodup (distinct : (scores.map Prod.fst).Nodup) (score : Int) :
    Alone scores score := nodup_iff_count_le_one.mp distinct score

/-- The number of scores that are not lower. -/
def notBelow (scores : List (Int × Value)) (score : Int) : Nat :=
  scores.countP fun other => decide (score ≤ other.1)

theorem notBelow_perm (same : scores.Perm others) (score : Int) :
    notBelow scores score = notBelow others score := same.countP_eq _

/-- What holds in front of every place at which it holds is counted by these places. -/
theorem holds_iff_lt_countP {Entry : Type} {test : Entry → Bool} {entries : List Entry}
    (closed : entries.Pairwise fun first second => test second = true → test first = true) {i : Nat}
    {entry : Entry} (there : entries[i]? = some entry) :
    test entry = true ↔ i < entries.countP test := by
  induction entries generalizing i with
  | nil => exact absurd there (by simp)
  | cons head rest ih =>
    obtain ⟨front, tail⟩ := pairwise_cons.mp closed
    by_cases passes : test head = true
    · rw [countP_cons_of_pos passes]
      cases i with
      | zero =>
        obtain rfl := Option.some.inj there
        simp [passes]
      | succ i =>
        rw [ih tail there]
        omega
    · have nothing : rest.countP test = 0 :=
        countP_eq_zero.mpr fun other member holds => passes (front other member holds)
      rw [countP_cons_of_neg passes, nothing]
      refine iff_of_false (fun holds => ?_) (Nat.not_lt_zero i)
      rcases mem_cons.mp (mem_of_getElem? there) with rfl | member
      · exact passes holds
      · exact passes (front entry member holds)

theorem lt_above_iff (descending : scores.Pairwise fun first second => second.1 ≤ first.1)
    (score : Int) {i : Nat} (there : scores[i]? = some entry) :
    score < entry.1 ↔ i < above scores score := by
  have closed : scores.Pairwise fun first second =>
      decide (score < second.1) = true → decide (score < first.1) = true :=
    descending.imp fun below higher => by
      rw [decide_eq_true_eq] at higher ⊢
      exact higher.trans_le below
  rw [above, ← holds_iff_lt_countP closed there, decide_eq_true_eq]

theorem lt_notBelow_iff (descending : scores.Pairwise fun first second => second.1 ≤ first.1)
    (score : Int) {i : Nat} (there : scores[i]? = some entry) :
    score ≤ entry.1 ↔ i < notBelow scores score := by
  have closed : scores.Pairwise fun first second =>
      decide (score ≤ second.1) = true → decide (score ≤ first.1) = true :=
    descending.imp fun below higher => by
      rw [decide_eq_true_eq] at higher ⊢
      exact higher.trans below
  rw [notBelow, ← holds_iff_lt_countP closed there, decide_eq_true_eq]

theorem notBelow_eq (scores : List (Int × Value)) (score : Int) :
    notBelow scores score = above scores score + (scores.map Prod.fst).count score := by
  unfold notBelow above
  induction scores with
  | nil => rfl
  | cons head rest ih =>
    rw [countP_cons, countP_cons, map_cons, count_cons, ih]
    rcases lt_trichotomy score head.1 with below | same | higher
    · rw [if_pos (decide_eq_true below.le), if_pos (decide_eq_true below),
        if_neg (by simpa using below.ne')]
      omega
    · rw [if_pos (decide_eq_true same.le), if_neg (by simpa using same.ge),
        if_pos (beq_iff_eq.mpr same.symm)]
      omega
    · rw [if_neg (by simpa using higher), if_neg (by simpa using higher.le),
        if_neg (by simpa using higher.ne)]
      omega

theorem above_lt_notBelow (member : entry ∈ scores) :
    above scores entry.1 < notBelow scores entry.1 := by
  have counted : 0 < (scores.map Prod.fst).count entry.1 :=
    count_pos_iff.mpr (mem_map_of_mem member)
  rw [notBelow_eq]
  omega

/-- In a sorted list the place of a score that nobody shares is the number of higher ones. -/
theorem place_eq (descending : scores.Pairwise fun first second => second.1 ≤ first.1)
    (alone : Alone scores entry.1) {i : Nat} (there : scores[i]? = some entry) :
    above scores entry.1 = i := by
  have behind : ¬ i < above scores entry.1 := fun higher =>
    lt_irrefl entry.1 ((lt_above_iff descending entry.1 there).mpr higher)
  have front := (lt_notBelow_iff descending entry.1 there).mp le_rfl
  have most := notBelow_eq scores entry.1
  unfold Alone at alone
  omega

theorem Sorts.getElem?_iff {sort : List (Int × Value) → List (Int × Value)} (sorts : Sorts sort)
    (alone : Alone scores entry.1) (i : Nat) :
    (sort scores)[i]? = some entry ↔ entry ∈ scores ∧ above scores entry.1 = i := by
  have same := sorts.perm scores
  have placed {j : Nat} (there : (sort scores)[j]? = some entry) : above scores entry.1 = j := by
    rw [← above_perm same]
    exact place_eq (sorts.descending scores) (alone.perm same.symm) there
  constructor
  · exact fun there => ⟨same.mem_iff.mp (mem_of_getElem? there), placed there⟩
  · rintro ⟨member, rfl⟩
    obtain ⟨j, there⟩ := mem_iff_getElem?.mp (same.mem_iff.mpr member)
    rwa [placed there]

/-- Without shared scores the order does not depend on how the values came. -/
theorem Sorts.eq_of_perm {sort : List (Int × Value) → List (Int × Value)} (sorts : Sorts sort)
    (distinct : (scores.map Prod.fst).Nodup)
    (same : scores.Perm others) : sort others = sort scores := by
  refine ext_getElem? fun i => Option.ext fun entry => ?_
  have alone := alone_of_nodup distinct entry.1
  rw [sorts.getElem?_iff alone, sorts.getElem?_iff (alone.perm same), same.mem_iff,
    above_perm same]

/-- A sorting function that keeps the order of equal scores. -/
def stable (scores : List (Int × Value)) : List (Int × Value) :=
  scores.insertionSort fun first second => second.1 ≤ first.1

theorem sorts_stable : Sorts (stable : List (Int × Value) → List (Int × Value)) where
  perm := perm_insertionSort _
  descending scores := by
    have total : Std.Total fun first second : Int × Value => second.1 ≤ first.1 :=
      ⟨fun first second => le_total second.1 first.1⟩
    have trans : IsTrans (Int × Value) fun first second => second.1 ≤ first.1 :=
      ⟨fun first second third upper lower => lower.trans upper⟩
    exact pairwise_insertionSort _ scores
  natural change scores := by
    symm
    apply map_insertionSort
    intro first _ second _
    exact Iff.rfl

/-! ### Exchanges -/

section

variable [DecidableEq Value] {Item : Type}

/-- The exchange of two values. -/
def exchange (first second : Value) (scores : List (Int × Value)) : List (Int × Value) :=
  scores.map (Prod.map id (Equiv.swap first second))

theorem exchange_self (value : Value) (scores : List (Int × Value)) :
    exchange value value scores = scores := by
  rw [exchange, Equiv.swap_self]
  exact map_id scores

theorem exchange_comm (first second : Value) (scores : List (Int × Value)) :
    exchange first second scores = exchange second first scores := by
  rw [exchange, Equiv.swap_comm, ← exchange]

theorem exchange_of_not_mem {first second : Value} {part : List (Int × Value)}
    (notFirst : first ∉ part.map Prod.snd) (notSecond : second ∉ part.map Prod.snd) :
    exchange first second part = part := by
  refine (map_congr_left fun entry member => ?_).trans (map_id part)
  refine Prod.ext rfl (Equiv.swap_apply_of_ne_of_ne ?_ ?_)
  · exact fun equal => notFirst (mem_map.mpr ⟨entry, member, equal⟩)
  · exact fun equal => notSecond (mem_map.mpr ⟨entry, member, equal⟩)

/-- Two values of one score that change places in a list are exchanged. -/
theorem exchange_eq {front middle back : List (Int × Value)} {score : Int} {first second : Value}
    (distinct : ((front ++ (score, first) :: (middle ++ (score, second) :: back)).map
      Prod.snd).Nodup) :
    exchange first second (front ++ (score, first) :: (middle ++ (score, second) :: back)) =
      front ++ (score, second) :: (middle ++ (score, first) :: back) := by
  simp only [map_append, map_cons, nodup_append, nodup_cons, mem_append,
    mem_cons] at distinct
  have inFront : exchange first second front = front := by
    apply exchange_of_not_mem <;> grind
  have inMiddle : exchange first second middle = middle := by
    apply exchange_of_not_mem <;> grind
  have inBack : exchange first second back = back := by
    apply exchange_of_not_mem <;> grind
  unfold exchange at inFront inMiddle inBack ⊢
  rw [map_append, map_cons, map_append, map_cons, inFront, inMiddle, inBack]
  simp only [Prod.map_apply, id, Equiv.swap_apply_left, Equiv.swap_apply_right]

theorem swap_perm (front middle back : List Item) (first second : Item) :
    (front ++ first :: (middle ++ second :: back)).Perm
      (front ++ second :: (middle ++ first :: back)) := by
  refine List.Perm.append_left front ?_
  calc (first :: (middle ++ second :: back)).Perm (first :: second :: (middle ++ back)) :=
        perm_middle.cons first
    _ |>.Perm (second :: first :: (middle ++ back)) := List.Perm.swap second first _
    _ |>.Perm (second :: (middle ++ first :: back)) := perm_middle.symm.cons second

variable {items : List Item}

theorem filterMap_split {Entry : Type} {entered : Item → Option Entry} {front back : List Entry}
    {entry : Entry} (split : items.filterMap entered = front ++ entry :: back) :
    ∃ before item after, items = before ++ item :: after ∧ entered item = some entry ∧
      before.filterMap entered = front ∧ after.filterMap entered = back := by
  obtain ⟨before, rest, rfl, earlier, tail⟩ := filterMap_eq_append_iff.mp split
  obtain ⟨skipped, item, after, rfl, nothing, one, later⟩ := filterMap_eq_cons_iff.mp tail
  refine ⟨before ++ skipped, item, after, (append_assoc ..).symm, one, ?_, later⟩
  rw [filterMap_append, earlier, filterMap_eq_nil_iff.mpr nothing, append_nil]

/-- Two members of a list stand there in one order or the other. -/
theorem pair_split {one other : Item} (oneIn : one ∈ items) (otherIn : other ∈ items)
    (apart : one ≠ other) :
    (∃ front middle back, items = front ++ one :: (middle ++ other :: back)) ∨
      ∃ front middle back, items = front ++ other :: (middle ++ one :: back) := by
  obtain ⟨front, back, rfl⟩ := append_of_mem oneIn
  rcases mem_append.mp otherIn with before | behind
  · obtain ⟨first, middle, rfl⟩ := append_of_mem before
    exact .inr ⟨first, middle, back, by rw [append_assoc, cons_append]⟩
  · obtain ⟨middle, last, rfl⟩ := append_of_mem ((mem_cons.mp behind).resolve_left
      (Ne.symm apart))
    exact .inl ⟨front, middle, last, rfl⟩

/-- For two values of one score the items can be put in an order in which the ranking has the two
exchanged. -/
theorem Sorts.exists_exchange {sort : List (Int × Value) → List (Int × Value)} (sorts : Sorts sort)
    (entered : Item → Option (Int × Value))
    (distinct : ((items.filterMap entered).map Prod.snd).Nodup) {score : Int} {first second : Value}
    (firstIn : (score, first) ∈ items.filterMap entered)
    (secondIn : (score, second) ∈ items.filterMap entered) :
    ∃ others, items.Perm others ∧
      sort (others.filterMap entered) = exchange first second (sort (items.filterMap entered)) := by
  by_cases same : first = second
  · exact ⟨items, .refl _, by rw [same, exchange_self]⟩
  have moved {front middle back : List (Int × Value)} {first second : Value}
      (split : items.filterMap entered =
        front ++ (score, first) :: (middle ++ (score, second) :: back)) :
      ∃ others, items.Perm others ∧ sort (others.filterMap entered) =
        exchange first second (sort (items.filterMap entered)) := by
    obtain ⟨before, one, rest, rfl, oneEntry, rfl, lower⟩ := filterMap_split split
    obtain ⟨between, two, after, rfl, twoEntry, rfl, rfl⟩ := filterMap_split lower
    refine ⟨_, swap_perm before between after one two, ?_⟩
    rw [split] at distinct ⊢
    rw [exchange, ← sorts.natural, ← exchange, exchange_eq distinct, filterMap_append,
      filterMap_cons_some twoEntry, filterMap_append,
      filterMap_cons_some oneEntry]
  rcases pair_split firstIn secondIn (fun equal => same (congrArg Prod.snd equal)) with
    ⟨front, middle, back, split⟩ | ⟨front, middle, back, split⟩
  · exact moved split
  · rw [exchange_comm]
    exact moved split

end

/-! ### Keys -/

section

variable {Key : Type} (key : Value → Key)

/-- The keys in the order of the ranking. -/
def keys (scores : List (Int × Value)) : List Key := scores.map fun entry => key entry.2

variable {key}

theorem Sorts.keys_perm {sort : List (Int × Value) → List (Int × Value)} (sorts : Sorts sort)
    (scores : List (Int × Value)) : (keys key (sort scores)).Perm (keys key scores) :=
  (sorts.perm scores).map _

theorem exists_shared (distinct : (scores.map Prod.snd).Nodup)
    (shared : ¬ (scores.map Prod.fst).Nodup) :
    ∃ score first second, (score, first) ∈ scores ∧ (score, second) ∈ scores ∧ first ≠ second := by
  induction scores with
  | nil => exact absurd nodup_nil shared
  | cons entry rest ih =>
    rw [map_cons, nodup_cons] at distinct
    rw [map_cons, nodup_cons, not_and_or, not_not] at shared
    rcases shared with again | later
    · obtain ⟨other, member, same⟩ := mem_map.mp again
      refine ⟨entry.1, entry.2, other.2, mem_cons_self, ?_, ?_⟩
      · rw [← same]
        exact mem_cons_of_mem _ member
      · exact fun equal => distinct.1 (mem_map.mpr ⟨other, member, equal.symm⟩)
    · obtain ⟨score, first, second, firstIn, secondIn, apart⟩ := ih distinct.2 later
      exact ⟨score, first, second, mem_cons_of_mem _ firstIn,
        mem_cons_of_mem _ secondIn, apart⟩

/-- The ranking of the items that have a score does not depend on the order of the items exactly
when no score is shared. -/
theorem Sorts.orderless_iff [DecidableEq Value] {Item : Type}
    {sort : List (Int × Value) → List (Int × Value)} (sorts : Sorts sort)
    (entered : Item → Option (Int × Value)) (items : List Item)
    (distinct : (keys key (items.filterMap entered)).Nodup) :
    (∀ others, items.Perm others →
        keys key (sort (others.filterMap entered)) = keys key (sort (items.filterMap entered))) ↔
      ((items.filterMap entered).map Prod.fst).Nodup := by
  constructor
  · intro orderless
    by_contra shared
    have values : ((items.filterMap entered).map Prod.snd).Nodup := by
      refine List.Nodup.of_map key ?_
      rwa [map_map]
    obtain ⟨score, first, second, firstIn, secondIn, apart⟩ := exists_shared values shared
    obtain ⟨others, order, exchanged⟩ := sorts.exists_exchange entered values firstIn secondIn
    have same := orderless others order
    obtain ⟨i, there⟩ := mem_iff_getElem?.mp ((sorts.perm _).mem_iff.mpr firstIn)
    have place := congrArg (·[i]?) same
    simp only [exchanged, exchange, keys, List.getElem?_map, there, Option.map_some,
      Prod.map_apply, id, Equiv.swap_apply_left, Option.some.injEq] at place
    have member := inj_on_of_nodup_map distinct secondIn firstIn place
    exact apart (congrArg Prod.snd member).symm
  · intro unshared others same
    rw [sorts.eq_of_perm unshared (same.filterMap entered)]

end

/-! ### Places of keys -/

section

variable {Key : Type} [DecidableEq Key] {known other : List Key}

theorem idxOf_iff (distinct : known.Nodup) {key : Key} {i : Nat} :
    key ∈ known ∧ known.idxOf key = i ↔ known[i]? = some key := by
  constructor
  · rintro ⟨member, rfl⟩
    exact List.getElem?_idxOf member
  · intro there
    obtain ⟨inside, rfl⟩ := List.getElem?_eq_some_iff.mp there
    exact ⟨getElem_mem inside, distinct.idxOf_getElem i inside⟩

/-- The first places in one list are the places in a larger one exactly when the two lists are
one without repetitions. -/
theorem places_iff (part : known.Subperm other) :
    (∀ key i, (key ∈ known ∧ known.idxOf key = i) ↔ other[i]? = some key) ↔
      known = other ∧ other.Nodup := by
  constructor
  · intro agree
    have distinct : other.Nodup := by
      rw [nodup_iff_injective_getElem]
      intro i j same
      have first := (agree _ i).mpr (List.getElem?_eq_getElem i.2)
      have second := (agree _ j).mpr (List.getElem?_eq_getElem j.2)
      change other[i.1] = other[j.1] at same
      rw [same] at first
      exact Fin.ext (first.2.symm.trans second.2)
    have unrepeated : known.Nodup := by
      obtain ⟨sub, same, below⟩ := part
      exact same.nodup_iff.mp (below.nodup distinct)
    refine ⟨ext_getElem? fun i => Option.ext fun key => ?_, distinct⟩
    rw [← agree, idxOf_iff unrepeated]
  · rintro ⟨rfl, distinct⟩ key i
    exact idxOf_iff distinct

/-- Lists without repetitions with the same places are equal. -/
theorem eq_of_places (distinct : known.Nodup) (distinctOther : other.Nodup)
    (same : ∀ key i, (key ∈ known ∧ known.idxOf key = i) ↔ (key ∈ other ∧ other.idxOf key = i)) :
    known = other := by
  refine ext_getElem? fun i => Option.ext fun key => ?_
  rw [← idxOf_iff distinct, ← idxOf_iff distinctOther, same]

end

end Ranking

end Agouti
