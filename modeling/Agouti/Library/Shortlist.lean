import Agouti.Library.Ranking

/-! # The best of the first ones

From a ranking by a time the first ones are put on a shortlist, and the one of the highest merit
above a bound is chosen from it, the first of several. Values of one time may come onto the list
or not, as the order of the items has it. There is a choice that is the same in every order
exactly when there is nobody to choose from, or someone is on every shortlist and beats everybody
who may come onto one (`chosen_orderless_iff`).
-/

namespace Agouti

open List

namespace Ranking

variable {Value Merit : Type} [LinearOrder Merit] (merit : Value → Merit)

/-- The loop that keeps the best value so far. -/
def champion : Merit → Option Value → List Value → Option Value
  | _, best, [] => best
  | high, best, value :: rest =>
    if high < merit value then champion (merit value) (some value) rest
    else champion high best rest

/-- A value is the first one of the highest merit above the bound. -/
def Leads (low : Merit) (values : List Value) (winner : Value) : Prop :=
  ∃ i : Nat, values[i]? = some winner ∧ low < merit winner ∧
    ∀ (j : Nat) (value : Value), values[j]? = some value →
      merit value ≤ merit winner ∧ (j < i → merit value < merit winner)

variable {merit} {low : Merit} {values : List Value} {winner : Value}

theorem champion_or (low : Merit) (best : Option Value) (values : List Value) :
    champion merit low best values = (champion merit low none values).or best := by
  induction values generalizing low best with
  | nil => rfl
  | cons value rest ih =>
    unfold champion
    split
    · rw [ih (merit value) (some value), Option.or_assoc, Option.some_or]
    · exact ih low best

theorem champion_eq_none_iff :
    champion merit low none values = none ↔ ∀ value ∈ values, merit value ≤ low := by
  induction values with
  | nil => simp [champion]
  | cons value rest ih =>
    unfold champion
    rw [forall_mem_cons]
    split
    · rename_i higher
      rw [champion_or, Option.or_some]
      exact iff_of_false (by simp) fun both => absurd both.1 (not_le.mpr higher)
    · rename_i lower
      rw [ih, and_iff_right (not_lt.mp lower)]

variable {value : Value}

/-- The first value is not the leader when another one has a higher merit. -/
theorem leads_cons_lt (lower : merit value ≤ low) :
    Leads merit low (value :: values) winner ↔ Leads merit low values winner := by
  constructor
  · rintro ⟨i, there, positive, best⟩
    cases i with
    | zero =>
      obtain rfl := Option.some.inj there
      exact absurd positive (not_lt.mpr lower)
    | succ i =>
      refine ⟨i, there, positive, fun j other place => ?_⟩
      obtain ⟨most, first⟩ := best (j + 1) other place
      exact ⟨most, fun before => first (Nat.succ_lt_succ before)⟩
  · rintro ⟨i, there, positive, best⟩
    refine ⟨i + 1, there, positive, fun j other place => ?_⟩
    cases j with
    | zero =>
      obtain rfl := Option.some.inj place
      have less := lower.trans_lt positive
      exact ⟨less.le, fun _ => less⟩
    | succ j =>
      obtain ⟨most, first⟩ := best j other place
      exact ⟨most, fun before => first (Nat.lt_of_succ_lt_succ before)⟩

theorem leads_cons_self (higher : low < merit value)
    (most : ∀ other ∈ values, merit other ≤ merit value) :
    Leads merit low (value :: values) winner ↔ winner = value := by
  constructor
  · rintro ⟨i, there, positive, best⟩
    cases i with
    | zero => exact (Option.some.inj there).symm
    | succ i =>
      have less := (best 0 value rfl).2 (Nat.succ_pos i)
      exact absurd (most winner (mem_of_getElem? there)) (not_le.mpr less)
  · rintro rfl
    refine ⟨0, rfl, higher, fun j other place => ⟨?_, fun before => absurd before (by omega)⟩⟩
    cases j with
    | zero => exact (congrArg merit (Option.some.inj place)).ge
    | succ j => exact most other (mem_of_getElem? place)

theorem leads_cons_of_higher {other : Value} (higher : low < merit value) (member : other ∈ values)
    (more : merit value < merit other) :
    Leads merit low (value :: values) winner ↔ Leads merit (merit value) values winner := by
  have low_le : low ≤ merit value := higher.le
  constructor
  · rintro ⟨i, there, positive, best⟩
    obtain ⟨k, place⟩ := mem_iff_getElem?.mp member
    have above := more.trans_le (best (k + 1) other place).1
    have leads : Leads merit (merit value) (value :: values) winner := ⟨i, there, above, best⟩
    exact (leads_cons_lt le_rfl).mp leads
  · intro leads
    have whole : Leads merit (merit value) (value :: values) winner :=
      (leads_cons_lt le_rfl).mpr leads
    obtain ⟨i, there, positive, best⟩ := whole
    exact ⟨i, there, low_le.trans_lt positive, best⟩

theorem champion_eq_some_iff :
    champion merit low none values = some winner ↔ Leads merit low values winner := by
  induction values generalizing low winner with
  | nil => exact iff_of_false (by simp [champion]) fun leads => by simp [Leads] at leads
  | cons value rest ih =>
    unfold champion
    split
    · rename_i higher
      rw [champion_or]
      cases next : champion merit (merit value) none rest with
      | none =>
        rw [leads_cons_self higher (champion_eq_none_iff.mp next), Option.none_or,
          Option.some.injEq, eq_comm]
      | some other =>
        have leads := ih.mp next
        obtain ⟨i, there, more, _⟩ := leads
        rw [leads_cons_of_higher higher (mem_of_getElem? there) more, ← ih, next,
          Option.some_or]
    · rename_i lower
      rw [ih, leads_cons_lt (not_lt.mp lower)]

/-! ### The shortlist -/

/-- The values at the first places of a ranking. -/
def shortlist (sort : List (Int × Value) → List (Int × Value)) (size : Nat)
    (entries : List (Int × Value)) : List Value :=
  ((sort entries).take size).map Prod.snd

/-- The value that is chosen from the shortlist. -/
def chosen (merit : Value → Merit) (low : Merit) (sort : List (Int × Value) → List (Int × Value))
    (size : Nat) (entries : List (Int × Value)) : Option Value :=
  champion merit low none (shortlist sort size entries)

/-- An entry is on every shortlist and beats everybody who may come onto one. -/
structure Unrivalled (merit : Value → Merit) (low : Merit) (size : Nat)
    (entries : List (Int × Value)) (winner : Int × Value) : Prop where
  entered : winner ∈ entries
  certain : notBelow entries winner.1 ≤ size
  positive : low < merit winner.2
  beats : ∀ entry ∈ entries, above entries entry.1 < size → entry.2 ≠ winner.2 →
    merit entry.2 < merit winner.2 ∨ merit entry.2 = merit winner.2 ∧ entry.1 < winner.1

variable {sort : List (Int × Value) → List (Int × Value)} {size : Nat}
  {entries : List (Int × Value)}

theorem shortlist_getElem? {i : Nat} :
    (shortlist sort size entries)[i]? = some value ↔
      i < size ∧ ∃ time, (sort entries)[i]? = some (time, value) := by
  unfold shortlist
  rw [List.getElem?_map, List.getElem?_take]
  by_cases inside : i < size
  · rw [if_pos inside, and_iff_right inside, Option.map_eq_some_iff]
    exact Prod.exists.trans ⟨fun ⟨time, _, there, same⟩ => ⟨time, same ▸ there⟩,
      fun ⟨time, there⟩ => ⟨time, value, there, rfl⟩⟩
  · rw [if_neg inside]
    exact iff_of_false (by simp) fun both => inside both.1

theorem Sorts.values_nodup (sorts : Sorts sort) (distinct : (entries.map Prod.snd).Nodup) :
    ((sort entries).map Prod.snd).Nodup :=
  ((sorts.perm entries).map _).nodup_iff.mpr distinct

theorem place_unique (distinct : ((sort entries).map Prod.snd).Nodup) {i j : Nat} {time other : Int}
    (first : (sort entries)[i]? = some (time, value))
    (second : (sort entries)[j]? = some (other, value)) : i = j := by
  have inside : i < ((sort entries).map Prod.snd).length := by
    rw [length_map]
    exact (List.getElem?_eq_some_iff.mp first).1
  refine (List.getElem?_inj inside distinct).mp ?_
  rw [List.getElem?_map, List.getElem?_map, first, second]
  rfl

theorem Unrivalled.perm {others : List (Int × Value)} {winner : Int × Value}
    (unrivalled : Unrivalled merit low size entries winner) (same : entries.Perm others) :
    Unrivalled merit low size others winner where
  entered := same.mem_iff.mp unrivalled.entered
  certain := notBelow_perm same winner.1 ▸ unrivalled.certain
  positive := unrivalled.positive
  beats entry member candidate := by
    rw [← above_perm same] at candidate
    exact unrivalled.beats entry (same.mem_iff.mpr member) candidate

theorem Sorts.chosen_of_unrivalled (sorts : Sorts sort) {winner : Int × Value}
    (distinct : (entries.map Prod.snd).Nodup)
    (unrivalled : Unrivalled merit low size entries winner) :
    chosen merit low sort size entries = some winner.2 := by
  have perm := sorts.perm entries
  have descending := sorts.descending entries
  have unique := sorts.values_nodup distinct
  obtain ⟨i, there⟩ := mem_iff_getElem?.mp (perm.mem_iff.mpr unrivalled.entered)
  have certain := (lt_notBelow_iff descending winner.1 there).mp le_rfl
  rw [notBelow_perm perm] at certain
  refine champion_eq_some_iff.mpr ⟨i, shortlist_getElem?.mpr
    ⟨certain.trans_le unrivalled.certain, winner.1, there⟩, unrivalled.positive, ?_⟩
  intro j value place
  obtain ⟨inside, time, here⟩ := shortlist_getElem?.mp place
  by_cases same : value = winner.2
  · subst same
    refine ⟨le_rfl, fun before => absurd (place_unique unique here there) (by omega)⟩
  have behind : ¬ j < above (sort entries) time := fun higher =>
    lt_irrefl time ((lt_above_iff descending time here).mpr higher)
  rw [above_perm perm] at behind
  have candidate : above entries time < size := (not_lt.mp behind).trans_lt inside
  rcases unrivalled.beats (time, value) (perm.mem_iff.mp (mem_of_getElem? here)) candidate
    same with less | ⟨equal, later⟩
  · exact ⟨less.le, fun _ => less⟩
  · refine ⟨equal.le, fun before => absurd later (not_lt.mpr ?_)⟩
    have sooner := (lt_notBelow_iff descending winner.1 there).mp le_rfl
    exact (lt_notBelow_iff descending winner.1 here).mpr (before.trans sooner)

/-! ### When the choice does not depend on the order -/

section

variable [DecidableEq Value] {Item : Type}

theorem shortlist_exchange {others : List (Int × Value)} {first second : Value}
    (exchanged : sort others = exchange first second (sort entries)) :
    shortlist sort size others = (shortlist sort size entries).map (Equiv.swap first second) := by
  unfold shortlist
  rw [exchanged, exchange, ← map_take, map_map, map_map]
  rfl

omit [DecidableEq Value] in
/-- The places from the number of higher times up to the number of those not lower have one
time. -/
theorem Sorts.tied_at (sorts : Sorts sort) {time : Int} {j : Nat}
    (behind : above entries time ≤ j) (front : j < notBelow entries time) :
    ∃ value, (sort entries)[j]? = some (time, value) := by
  have perm := sorts.perm entries
  have descending := sorts.descending entries
  rw [← above_perm perm] at behind
  rw [← notBelow_perm perm] at front
  have inside : j < (sort entries).length := front.trans_le countP_le_length
  obtain ⟨entry, there⟩ : ∃ entry, (sort entries)[j]? = some entry :=
    ⟨_, List.getElem?_eq_getElem inside⟩
  have least := (lt_notBelow_iff descending time there).mpr front
  have most := mt (lt_above_iff descending time there).mp (not_lt.mpr behind)
  obtain rfl : entry.1 = time := le_antisymm (not_lt.mp most) least
  exact ⟨entry.2, there⟩

theorem Sorts.unrivalled_of_orderless (sorts : Sorts sort) (entered : Item → Option (Int × Value))
    {items : List Item} (distinct : ((items.filterMap entered).map Prod.snd).Nodup)
    (chose : chosen merit low sort size (items.filterMap entered) = some winner)
    (orderless : ∀ others, items.Perm others →
      chosen merit low sort size (others.filterMap entered) =
        chosen merit low sort size (items.filterMap entered)) :
    ∃ time, Unrivalled merit low size (items.filterMap entered) (time, winner) := by
  have perm := sorts.perm (items.filterMap entered)
  have descending := sorts.descending (items.filterMap entered)
  have unique := sorts.values_nodup distinct
  obtain ⟨i, place, positive, best⟩ := champion_eq_some_iff.mp chose
  obtain ⟨inside, time, there⟩ := shortlist_getElem?.mp place
  have member := perm.mem_iff.mp (mem_of_getElem? there)
  have around : above (items.filterMap entered) time ≤ i ∧
      i < notBelow (items.filterMap entered) time := by
    rw [← above_perm perm, ← notBelow_perm perm]
    exact ⟨not_lt.mp (mt (lt_above_iff descending time there).mpr (lt_irrefl time)),
      (lt_notBelow_iff descending time there).mp le_rfl⟩
  have swapped {score : Int} {first second : Value}
      (firstIn : (score, first) ∈ items.filterMap entered)
      (secondIn : (score, second) ∈ items.filterMap entered) :
      Leads merit low ((shortlist sort size (items.filterMap entered)).map
        (Equiv.swap first second)) winner := by
    obtain ⟨others, order, exchanged⟩ := sorts.exists_exchange entered distinct firstIn secondIn
    rw [← shortlist_exchange exchanged]
    exact champion_eq_some_iff.mp ((orderless others order).trans chose)
  refine ⟨time, member, ?_, positive, ?_⟩
  · -- otherwise someone of the same time is behind the last place, and may stand here instead
    by_contra more
    obtain ⟨other, last⟩ := sorts.tied_at (around.1.trans inside.le) (not_le.mp more)
    obtain ⟨j, here, _⟩ := swapped member (perm.mem_iff.mp (mem_of_getElem? last))
    rw [List.getElem?_map, Option.map_eq_some_iff] at here
    obtain ⟨value, listed, same⟩ := here
    rw [Equiv.swap_apply_eq_iff, Equiv.swap_apply_left] at same
    subst same
    obtain ⟨below, _, elsewhere⟩ := shortlist_getElem?.mp listed
    exact absurd (place_unique unique elsewhere last) below.ne
  · intro entry entryIn candidate apart
    by_contra beaten
    rw [not_or, not_and, not_lt, not_lt] at beaten
    obtain ⟨most, sooner⟩ := beaten
    obtain ⟨first, head⟩ := sorts.tied_at le_rfl (above_lt_notBelow entryIn)
    have firstPlace := shortlist_getElem?.mpr ⟨candidate, entry.1, head⟩
    -- the entry may stand at the first place of its time
    obtain ⟨k, winnerPlace, _, bestThere⟩ :=
      swapped (perm.mem_iff.mp (mem_of_getElem? head)) entryIn
    have here : ((shortlist sort size (items.filterMap entered)).map
        (Equiv.swap first entry.2))[above (items.filterMap entered) entry.1]? = some entry.2 := by
      rw [List.getElem?_map, firstPlace, Option.map_some, Equiv.swap_apply_left]
    obtain ⟨atMost, strictly⟩ := bestThere _ _ here
    have equal := le_antisymm atMost most
    rcases (sooner equal).lt_or_eq with longer | same
    · have notFirst : first ≠ winner := by
        rintro rfl
        obtain rfl := place_unique unique head there
        rw [there] at head
        exact absurd (congrArg Prod.fst (Option.some.inj head)) longer.ne
      have unmoved : k = i := by
        rw [List.getElem?_map, Option.map_eq_some_iff] at winnerPlace
        obtain ⟨value, listed, moved⟩ := winnerPlace
        rw [Equiv.swap_apply_eq_iff, Equiv.swap_apply_of_ne_of_ne notFirst.symm apart.symm] at moved
        subst moved
        obtain ⟨_, _, elsewhere⟩ := shortlist_getElem?.mp listed
        exact place_unique unique elsewhere there
      have front := (lt_above_iff descending time head).mp longer
      rw [above_perm perm] at front
      exact absurd equal (strictly (unmoved ▸ front.trans_le around.1)).ne
    · -- of two at one time either may come first
      have tied : (time, entry.2) ∈ items.filterMap entered := by
        rw [show time = entry.1 from same]
        exact entryIn
      obtain ⟨m, winnerThere, _, bestExchanged⟩ := swapped member tied
      rw [List.getElem?_map, Option.map_eq_some_iff] at winnerThere
      obtain ⟨value, listed, moved⟩ := winnerThere
      rw [Equiv.swap_apply_eq_iff, Equiv.swap_apply_left] at moved
      subst moved
      have exchanged : ((shortlist sort size (items.filterMap entered)).map
          (Equiv.swap winner entry.2))[i]? = some entry.2 := by
        rw [List.getElem?_map, place, Option.map_some, Equiv.swap_apply_left]
      rcases lt_trichotomy m i with before | together | behind
      · exact absurd equal ((best m entry.2 listed).2 before).ne
      · rw [together, place] at listed
        exact apart (Option.some.inj listed).symm
      · exact absurd equal ((bestExchanged i entry.2 exchanged).2 behind).ne

/-- **When the choice does not depend on the order of the items.** Somebody is chosen whenever
there is somebody, and the same one in every order, exactly when nobody is there or someone is on
every shortlist and beats everybody who may come onto one. -/
theorem Sorts.chosen_orderless_iff (sorts : Sorts sort)
    (entered : Item → Option (Int × Value)) (items : List Item)
    (distinct : ((items.filterMap entered).map Prod.snd).Nodup) :
    (items.filterMap entered ≠ [] →
        chosen merit low sort size (items.filterMap entered) ≠ none) ∧
      (∀ others, items.Perm others →
        chosen merit low sort size (others.filterMap entered) =
          chosen merit low sort size (items.filterMap entered)) ↔
      (items.filterMap entered ≠ [] →
        ∃ winner, Unrivalled merit low size (items.filterMap entered) winner) := by
  constructor
  · rintro ⟨somebody, orderless⟩ some
    obtain ⟨winner, chose⟩ := Option.ne_none_iff_exists'.mp (somebody some)
    obtain ⟨time, unrivalled⟩ := sorts.unrivalled_of_orderless entered distinct chose orderless
    exact ⟨(time, winner), unrivalled⟩
  · intro certain
    by_cases nobody : items.filterMap entered = []
    · refine ⟨fun some => absurd nobody some, fun others order => ?_⟩
      have empty : others.filterMap entered = [] :=
        perm_nil.mp (nobody ▸ (order.filterMap entered).symm)
      rw [nobody, empty]
    · obtain ⟨winner, unrivalled⟩ := certain nobody
      have chose := sorts.chosen_of_unrivalled distinct unrivalled
      refine ⟨fun _ => by rw [chose]; exact Option.some_ne_none _, fun others order => ?_⟩
      have same := order.filterMap entered
      rw [chose]
      refine sorts.chosen_of_unrivalled ((same.map _).nodup_iff.mp distinct) ?_
      exact unrivalled.perm same

end

end Ranking

end Agouti
