import Mathlib.Data.List.Sort

/-! # `std::sort` -/

namespace Agouti

/-- `std::sort`. What it does with elements that compare alike is left to the library. -/
class StdSort where
  sort {Element : Type} : (Element → Element → Bool) → List Element → List Element
  sort_perm : ∀ {Element : Type} (less : Element → Element → Bool) (range : List Element),
    (sort less range).Perm range
  sort_sorted : ∀ {Element : Type} (less : Element → Element → Bool) (range : List Element),
    (∀ first second, less first second = true → less second first = false) →
    (∀ first second third, less first third = true →
      less first second = true ∨ less second third = true) →
    (sort less range).Pairwise fun first second => less second first = false

/-- A sort that keeps the order of elements that compare alike. -/
@[reducible] def StdSort.insertion : StdSort where
  sort less range := range.insertionSort fun first second => !less second first
  sort_perm less range := List.perm_insertionSort _ range
  sort_sorted less range asymmetric transitive := by
    have total : ∀ first second, (!less second first) = true ∨ (!less first second) = true := by
      intro first second
      cases below : less second first with
      | false => exact .inl rfl
      | true =>
        rw [asymmetric second first below]
        exact .inr rfl
    have trans : ∀ first second third, (!less second first) = true → (!less third second) = true →
        (!less third first) = true := by
      intro first second third below above
      cases back : less third first with
      | false => rfl
      | true =>
        rcases transitive third second first back with one | two
        · rw [one] at above
          contradiction
        · rw [two] at below
          contradiction
    have sorted : (range.insertionSort fun first second => !less second first).Pairwise
        fun first second => (!less second first) = true :=
      @List.pairwise_insertionSort _ _ _ ⟨total⟩ ⟨trans⟩ range
    exact sorted.imp fun below => by simpa using below

end Agouti
