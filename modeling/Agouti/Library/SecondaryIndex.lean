import Mathlib.Data.List.Basic

/-! # Secondary indices

Records are kept by their names, and beside them a list of pairs tells which records refer to a
point. The index is exact when its pairs are the references of the records. A record that is put in
with its pairs keeps the index exact (`Exact.put`); a record that is taken out while its pairs stay
does so only if it refers to nothing (`Exact.erase_iff`).
-/

namespace Agouti.SecondaryIndex

open List Function

variable {Point Name Record : Type} (refers : Record → Point → Prop)

/-- The pairs are the references of the records. -/
def Exact (records : Name → Option Record) (index : List (Point × Name)) : Prop :=
  ∀ point name, (point, name) ∈ index ↔ ∃ record, records name = some record ∧ refers record point

/-- The names under a point, in the order of the pairs. -/
def range [DecidableEq Point] (index : List (Point × Name)) (point : Point) : List Name :=
  (index.filter fun pair => decide (pair.1 = point)).map Prod.snd

variable {refers} {records : Name → Option Record} {index : List (Point × Name)}

theorem exact_empty : Exact refers (fun _ => none) ([] : List (Point × Name)) := by
  intro point name
  refine iff_of_false not_mem_nil ?_
  rintro ⟨_, missing, -⟩
  contradiction

theorem mem_range [DecidableEq Point] {point : Point} {name : Name} :
    name ∈ range index point ↔ (point, name) ∈ index := by
  rw [range, mem_map]
  constructor
  · rintro ⟨pair, member, rfl⟩
    obtain ⟨stored, same⟩ := mem_filter.mp member
    rw [← of_decide_eq_true same]
    exact stored
  · intro stored
    exact ⟨(point, name), mem_filter.mpr ⟨stored, decide_eq_true rfl⟩, rfl⟩

variable [DecidableEq Name]

/-- A record comes in with the pairs of its references. A record of that name that was there before
had no others. -/
theorem Exact.put (exact : Exact refers records index) {name : Name} {record : Record}
    (before : ∀ old, records name = some old → ∀ point, refers old point → refers record point)
    {added : List (Point × Name)}
    (pairs : ∀ point other, (point, other) ∈ added ↔ other = name ∧ refers record point) :
    Exact refers (Function.update records name (some record)) (index ++ added) := by
  intro point other
  rw [mem_append, exact point other, pairs point other]
  by_cases same : other = name
  · subst same
    rw [update_self]
    constructor
    · rintro (⟨old, found, points⟩ | ⟨-, points⟩)
      · exact ⟨record, rfl, before old found point points⟩
      · exact ⟨record, rfl, points⟩
    · rintro ⟨_, ⟨⟩, points⟩
      exact .inr ⟨rfl, points⟩
  · rw [update_of_ne same]
    exact or_iff_left fun added => same added.1

/-- Taking a record out keeps the index exact if and only if it refers to nothing. -/
theorem Exact.erase_iff (exact : Exact refers records index) {name : Name} {record : Record}
    (found : records name = some record) :
    Exact refers (Function.update records name none) index ↔ ∀ point, ¬ refers record point := by
  constructor
  · intro erased point points
    obtain ⟨_, missing, -⟩ := (erased point name).mp ((exact point name).mpr ⟨record, found, points⟩)
    rw [update_self] at missing
    contradiction
  · intro none point other
    rw [exact point other]
    by_cases same : other = name
    · subst same
      rw [update_self, found]
      constructor
      · rintro ⟨_, ⟨⟩, points⟩
        exact absurd points (none point)
      · rintro ⟨_, missing, -⟩
        contradiction
    · rw [update_of_ne same]

end Agouti.SecondaryIndex
