import Mathlib.Data.List.NodupEquivFin

/-! # Matching two lists in their order

Every element of one list is to be assigned an element of another list that it stands in a relation
with, later elements to later ones (`Assigns`). The greedy matching looks at each element of the
second list once and assigns it to the first element of the first list that waits (`greedy`). It
finds an assignment whenever there is one (`greedy_iff`): an element that could wait for a later
partner may as well take the first one.
-/

namespace Agouti

open List

namespace Matching

variable {α β : Type} (rel : α → β → Bool)

/-- The greedy matching. -/
def greedy : List α → List β → Bool
  | [], _ => true
  | _ :: _, [] => false
  | x :: xs, y :: ys => if rel x y then greedy xs ys else greedy (x :: xs) ys

/-- Every element has a partner of its own, and the partners come in the order of the elements. -/
def Assigns (xs : List α) (ys : List β) : Prop :=
  ∃ partner : Fin xs.length ↪o Fin ys.length, ∀ i, rel (xs.get i) (ys.get (partner i)) = true

variable {rel} {xs : List α} {ys : List β}

theorem assigns_iff_sublistForall₂ :
    Assigns rel xs ys ↔ List.SublistForall₂ (fun x y => rel x y = true) xs ys := by
  rw [List.sublistForall₂_iff]
  constructor
  · rintro ⟨partner, related⟩
    refine ⟨List.ofFn fun i => ys.get (partner i), ?_, ?_⟩
    · rw [List.forall₂_iff_get]
      refine ⟨(length_ofFn).symm, fun i below _ => ?_⟩
      rw [get_ofFn]
      exact related ⟨i, below⟩
    · rw [sublist_iff_exists_fin_orderEmbedding_get_eq]
      refine ⟨(Fin.castOrderIso length_ofFn).toOrderEmbedding.trans partner, fun i => ?_⟩
      rw [get_ofFn]
      rfl
  · rintro ⟨partners, related, sub⟩
    obtain ⟨place, same⟩ := sublist_iff_exists_fin_orderEmbedding_get_eq.mp sub
    obtain ⟨length, each⟩ := List.forall₂_iff_get.mp related
    refine ⟨(Fin.castOrderIso length).toOrderEmbedding.trans place, fun i => ?_⟩
    have here := each i i.isLt (length ▸ i.isLt)
    rw [same] at here
    exact here

theorem assigns_reverse : Assigns rel xs.reverse ys.reverse ↔ Assigns rel xs ys := by
  have turns (xs : List α) (ys : List β) (assigned : Assigns rel xs ys) :
      Assigns rel xs.reverse ys.reverse := by
    rw [assigns_iff_sublistForall₂, List.sublistForall₂_iff] at assigned ⊢
    obtain ⟨partners, related, sub⟩ := assigned
    exact ⟨partners.reverse, List.forall₂_reverse_iff.mpr related, sub.reverse⟩
  constructor
  · intro assigned
    simpa only [reverse_reverse] using turns _ _ assigned
  · exact turns xs ys

theorem Assigns.length_le (assigned : Assigns rel xs ys) : xs.length ≤ ys.length := by
  rw [assigns_iff_sublistForall₂, List.sublistForall₂_iff] at assigned
  obtain ⟨partners, related, sub⟩ := assigned
  rw [related.length_eq]
  exact sub.length_le

/-- An element that is left out of the first list leaves an assignment of the others. -/
theorem sublistForall₂_tail {R : α → β → Prop} {x : α}
    (assigned : List.SublistForall₂ R (x :: xs) ys) : List.SublistForall₂ R xs ys := by
  generalize whole : x :: xs = all at assigned
  induction assigned with
  | nil => cases whole
  | cons _ rest =>
    obtain ⟨-, rfl⟩ := List.cons.inj whole
    exact .cons_right rest
  | cons_right _ ih => exact .cons_right (ih whole)

/-- **The greedy matching finds an assignment whenever there is one.** -/
theorem greedy_iff : greedy rel xs ys = true ↔ Assigns rel xs ys := by
  rw [assigns_iff_sublistForall₂]
  induction ys generalizing xs with
  | nil =>
    cases xs with
    | nil => exact iff_of_true rfl .nil
    | cons x xs => exact iff_of_false Bool.false_ne_true (by rintro ⟨⟩)
  | cons y ys ih =>
    cases xs with
    | nil => exact iff_of_true rfl .nil
    | cons x xs =>
      rw [greedy]
      split
      · rename_i related
        rw [ih]
        constructor
        · exact .cons related
        · intro assigned
          -- the partner of `x` is not before `y`, and those of the others are behind it
          cases assigned with
          | cons _ rest => exact rest
          | cons_right rest => exact sublistForall₂_tail rest
      · rename_i apart
        rw [ih]
        constructor
        · exact .cons_right
        · intro assigned
          cases assigned with
          | cons related _ => exact absurd related apart
          | cons_right rest => exact rest

/-- With fewer elements in the second list there is nothing to find. -/
theorem greedy_of_short (short : ys.length < xs.length) : greedy rel xs ys = false := by
  rw [← Bool.not_eq_true, greedy_iff]
  intro assigned
  have enough := assigned.length_le
  omega

end Matching

end Agouti
