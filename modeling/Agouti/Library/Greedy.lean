import Mathlib.Algebra.BigOperators.Group.List.Basic
import Mathlib.Data.List.Induction
import Mathlib.Data.List.Nodup
import Mathlib.Tactic.Linarith

/-! # Greedy choice

Items are offered in an order, and each is taken when its weight still fits beside those taken
before. What is taken fits together (`sum_taken_le`), and an item that is left does not fit beside
the taken items that were offered before it (`left_exceeds`).
-/

namespace Greedy

variable {Item : Type*} (capacity : Int) (weight : Item → Int)

/-- Take the item, if it fits beside those that are taken. -/
def offer (taken : List Item) (item : Item) : List Item :=
  if weight item + (taken.map weight).sum ≤ capacity then taken ++ [item] else taken

/-- What is taken of the items, offered one after the other. -/
def taken (items : List Item) : List Item := items.foldl (offer capacity weight) []

variable {capacity} {weight} {items ahead behind : List Item} {item : Item}

@[simp] theorem taken_nil : taken capacity weight [] = [] := rfl

theorem taken_append_singleton (items : List Item) (item : Item) :
    taken capacity weight (items ++ [item]) =
      offer capacity weight (taken capacity weight items) item := by
  unfold taken
  rw [List.foldl_append, List.foldl_cons, List.foldl_nil]

/-- Items that are offered later are only taken beside those that are taken already. -/
theorem taken_append (capacity : Int) (weight : Item → Int) (ahead behind : List Item) : ∃ rest, rest.Sublist behind ∧
    taken capacity weight (ahead ++ behind) = taken capacity weight ahead ++ rest := by
  induction behind using List.reverseRecOn with
  | nil => exact ⟨[], .slnil, by rw [List.append_nil, List.append_nil]⟩
  | append_singleton front last ih =>
    obtain ⟨rest, part, same⟩ := ih
    rw [← List.append_assoc, taken_append_singleton, same]
    unfold offer
    split
    · exact ⟨rest ++ [last], part.append (.refl _), List.append_assoc _ _ _⟩
    · exact ⟨rest, part.trans (List.sublist_append_left _ _), rfl⟩

theorem taken_sublist (items : List Item) : (taken capacity weight items).Sublist items := by
  obtain ⟨rest, part, same⟩ := taken_append capacity weight [] items
  rw [List.nil_append, taken_nil, List.nil_append] at same
  rwa [same]

theorem sum_taken_le (weight : Item → Int) (room : 0 ≤ capacity) (items : List Item) :
    ((taken capacity weight items).map weight).sum ≤ capacity := by
  induction items using List.reverseRecOn with
  | nil => exact room
  | append_singleton front last ih =>
    rw [taken_append_singleton]
    unfold offer
    split
    · rename_i fits
      rw [List.map_append, List.sum_append, List.map_singleton, List.sum_singleton]
      linarith
    · exact ih

/-- Keeping the members of a part of distinct items leaves the part. -/
theorem filter_part [DecidableEq Item] {part : List Item} (sub : part.Sublist items)
    (distinct : items.Nodup) : items.filter (· ∈ part) = part := by
  have kept : part.filter (· ∈ part) = part := List.filter_eq_self.mpr fun item member => by
    simpa using member
  have into : part.Sublist (items.filter (· ∈ part)) := by
    have filtered := sub.filter (· ∈ part)
    rwa [kept] at filtered
  have same : part.Perm (items.filter (· ∈ part)) := by
    apply (List.perm_ext_iff_of_nodup (distinct.sublist sub) (distinct.filter _)).mpr
    intro item
    rw [List.mem_filter, decide_eq_true_iff]
    exact ⟨fun member => ⟨sub.subset member, member⟩, And.right⟩
  exact (into.eq_of_length same.length_eq).symm

/-- Of the items that were offered first, those are taken in the end that were taken then. -/
theorem filter_taken [DecidableEq Item] (distinct : (ahead ++ behind).Nodup) :
    ahead.filter (· ∈ taken capacity weight (ahead ++ behind)) = taken capacity weight ahead := by
  obtain ⟨rest, part, same⟩ := taken_append capacity weight ahead behind
  obtain ⟨single, -, apart⟩ := List.nodup_append'.mp distinct
  have here : ∀ item ∈ ahead, item ∈ taken capacity weight (ahead ++ behind) ↔
      item ∈ taken capacity weight ahead := by
    intro item member
    rw [same, List.mem_append, or_iff_left]
    exact fun later => apart member (part.subset later)
  rw [List.filter_congr fun item member => decide_eq_decide.mpr (here item member)]
  exact filter_part (taken_sublist ahead) single

/-- An item that is left does not fit beside the taken items that were offered before it. -/
theorem left_exceeds (left : item ∉ taken capacity weight (ahead ++ item :: behind)) :
    capacity < weight item + ((taken capacity weight ahead).map weight).sum := by
  by_contra fits
  obtain ⟨rest, -, same⟩ := taken_append capacity weight (ahead ++ [item]) behind
  rw [List.append_assoc, List.singleton_append, taken_append_singleton] at same
  unfold offer at same
  rw [if_pos (not_lt.mp fits)] at same
  apply left
  rw [same]
  simp

end Greedy
