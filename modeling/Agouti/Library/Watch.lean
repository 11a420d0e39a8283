import Mathlib.Data.Set.Basic

/-! # Watching a sequence with a filter

A Bloom filter is a set of indices: a key is inserted with all its indices (`Bloom.insert`), and
it is contained when all of them are there (`Bloom.Contains`). No inserted key is missed, whatever
is inserted later.

A scan marks the items of a sequence while the state it marks them with changes (`Scan.run`). The
mark of an item is that of one step from the state that the items in front of it lead to
(`Scan.exists_step`), and what the steps keep holds there (`Scan.kept`).
-/

namespace Agouti

open List Option

namespace Bloom

variable {Key Index : Type} (probes : Key → Set Index)

/-- All indices of the key are in the filter. -/
def Contains (bits : Set Index) (key : Key) : Prop := probes key ⊆ bits

/-- The filter with the indices of the key. -/
def insert (bits : Set Index) (key : Key) : Set Index := bits ∪ probes key

variable {probes} {bits : Set Index} {key other : Key}

theorem contains_insert_self : Contains probes (insert probes bits key) key :=
  Set.subset_union_right

theorem Contains.insert (contained : Contains probes bits other) :
    Contains probes (insert probes bits key) other :=
  contained.trans Set.subset_union_left

end Bloom

namespace Scan

variable {State Item : Type} (step : State → Item → Option (Bool × State))

/-- The marks of the items and the state behind them. -/
def run : List Item → State → Option (List Bool × State)
  | [], state => some ([], state)
  | item :: rest, state => do
      let (mark, state) ← step state item
      let (marks, state) ← run rest state
      some (mark :: marks, state)

variable {step} {items : List Item} {state final : State} {marks : List Bool}

theorem run_cons {item : Item} {rest : List Item} :
    run step (item :: rest) state = some (marks, final) ↔ ∃ mark middle others,
      step state item = some (mark, middle) ∧ run step rest middle = some (others, final) ∧
        marks = mark :: others := by
  refine bind_eq_some_iff.trans ?_
  constructor
  · rintro ⟨⟨mark, middle⟩, first, behind⟩
    obtain ⟨⟨others, last⟩, further, same⟩ := bind_eq_some_iff.mp behind
    obtain ⟨rfl, rfl⟩ := Prod.mk.inj (some.inj same)
    exact ⟨mark, middle, others, first, further, rfl⟩
  · rintro ⟨mark, middle, others, first, further, rfl⟩
    exact ⟨(mark, middle), first, bind_eq_some_iff.mpr ⟨(others, final), further, rfl⟩⟩

theorem kept {holds : State → Prop}
    (keeps : ∀ state item mark next, holds state → step state item = some (mark, next) →
      holds next)
    (ran : run step items state = some (marks, final)) (first : holds state) : holds final := by
  induction items generalizing state marks with
  | nil =>
    obtain ⟨-, rfl⟩ := Prod.mk.inj (some.inj ran)
    exact first
  | cons item rest ih =>
    obtain ⟨mark, middle, others, stepped, further, -⟩ := run_cons.mp ran
    exact ih further (keeps _ _ _ _ first stepped)

theorem run_isSome {holds : State → Prop}
    (steps : ∀ state item, holds state → ∃ mark next, step state item = some (mark, next) ∧
      holds next)
    (items : List Item) (first : holds state) :
    ∃ marks final, run step items state = some (marks, final) ∧ holds final := by
  induction items generalizing state with
  | nil => exact ⟨[], state, rfl, first⟩
  | cons item rest ih =>
    obtain ⟨mark, middle, stepped, there⟩ := steps state item first
    obtain ⟨others, final, further, last⟩ := ih there
    exact ⟨mark :: others, final, run_cons.mpr ⟨mark, middle, others, stepped, further, rfl⟩,
      last⟩

theorem length_marks (ran : run step items state = some (marks, final)) :
    marks.length = items.length := by
  induction items generalizing state marks with
  | nil =>
    obtain ⟨rfl, -⟩ := Prod.mk.inj (some.inj ran)
    rfl
  | cons item rest ih =>
    obtain ⟨mark, middle, others, -, further, rfl⟩ := run_cons.mp ran
    rw [length_cons, length_cons, ih further]

theorem run_append {before after : List Item} :
    run step (before ++ after) state = some (marks, final) ↔ ∃ front middle back,
      run step before state = some (front, middle) ∧ run step after middle = some (back, final) ∧
        marks = front ++ back := by
  induction before generalizing state marks with
  | nil =>
    constructor
    · exact fun ran => ⟨[], state, marks, rfl, ran, rfl⟩
    · rintro ⟨front, middle, back, nothing, ran, rfl⟩
      obtain ⟨rfl, rfl⟩ := Prod.mk.inj (some.inj nothing)
      exact ran
  | cons item before ih =>
    rw [cons_append, run_cons]
    constructor
    · rintro ⟨mark, next, others, stepped, ran, rfl⟩
      obtain ⟨front, middle, back, ahead, behind, rfl⟩ := ih.mp ran
      exact ⟨mark :: front, middle, back, run_cons.mpr ⟨mark, next, front, stepped, ahead, rfl⟩,
        behind, rfl⟩
    · rintro ⟨front, middle, back, ahead, behind, rfl⟩
      obtain ⟨mark, next, others, stepped, further, rfl⟩ := run_cons.mp ahead
      exact ⟨mark, next, others ++ back, stepped,
        ih.mpr ⟨others, middle, back, further, behind, rfl⟩, rfl⟩

/-- The mark of an item is that of a step behind the items in front of it. -/
theorem exists_step {i : Nat} {item : Item} (ran : run step items state = some (marks, final))
    (there : items[i]? = some item) :
    ∃ front reached mark next back, run step (items.take i) state = some (front, reached) ∧
      step reached item = some (mark, next) ∧
      run step (items.drop (i + 1)) next = some (back, final) ∧ marks[i]? = some mark ∧
      marks.drop (i + 1) = back := by
  obtain ⟨inside, rfl⟩ := List.getElem?_eq_some_iff.mp there
  rw [← take_append_drop i items, drop_eq_getElem_cons inside] at ran
  obtain ⟨front, reached, behind, ahead, rest, rfl⟩ := run_append.mp ran
  obtain ⟨mark, next, back, stepped, further, rfl⟩ := run_cons.mp rest
  have length : front.length = i := by
    rw [length_marks ahead, length_take, Nat.min_eq_left inside.le]
  refine ⟨front, reached, mark, next, back, ahead, stepped, further, ?_, ?_⟩
  · rw [List.getElem?_append_right length.le, length, Nat.sub_self]
    rfl
  · rw [← length, drop_length_add_append]
    rfl

end Scan

end Agouti
