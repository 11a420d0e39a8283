import Mathlib.Data.List.Basic

/-! # A list with the positions of its elements

A list without repetitions, kept beside the position of each of its elements, so that an element is
found and removed without a search: it is swapped with the last one, which is then dropped. The two
agree when exactly the elements of the list have positions, each its own (`Indexes`); adding at the
end, swapping two elements and dropping the last one keep them so.
-/

namespace Agouti

open List Function Option

namespace DenseIndex

variable {Id : Type}

/-- An identifier has a position exactly when the list has it there. -/
def Indexes (order : List Id) (position : Id → Option Int) : Prop :=
  ∀ id p, position id = some p ↔ ∃ place : Nat, p = place ∧ order[place]? = some id

variable {order : List Id} {position : Id → Option Int}

theorem Indexes.position_eq (indexes : Indexes order position) {place : Nat} {id : Id}
    (there : order[place]? = some id) : position id = some (place : Int) :=
  (indexes id place).mpr ⟨place, rfl, there⟩

theorem Indexes.unique (indexes : Indexes order position) {first second : Nat} {id : Id}
    (here : order[first]? = some id) (there : order[second]? = some id) : first = second := by
  have same := (indexes.position_eq here).symm.trans (indexes.position_eq there)
  exact Int.ofNat.inj (some.inj same)

theorem indexes_nil : Indexes ([] : List Id) fun _ => none := by
  intro id p
  constructor
  · exact fun contra => nomatch contra
  · rintro ⟨place, _, there⟩
    cases there

variable [DecidableEq Id]

theorem Indexes.push (indexes : Indexes order position) {id : Id} (fresh : position id = none) :
    Indexes (order ++ [id]) (Function.update position id (some (order.length : Int))) := by
  intro other p
  by_cases own : other = id
  · subst own
    rw [update_self, some.injEq]
    constructor
    · rintro rfl
      exact ⟨order.length, rfl, List.getElem?_concat_length⟩
    · rintro ⟨place, rfl, there⟩
      rw [List.getElem?_append] at there
      split at there
      · rw [indexes.position_eq there] at fresh
        cases fresh
      · rename_i behind
        have inside := (List.getElem?_eq_some_iff.mp there).1
        rw [length_singleton] at inside
        omega
  · rw [update_of_ne own, indexes]
    apply exists_congr
    intro place
    apply and_congr_right'
    rw [List.getElem?_append]
    split
    · rfl
    · rename_i behind
      rw [List.getElem?_eq_none (Nat.le_of_not_lt behind)]
      constructor
      · exact fun contra => nomatch contra
      · intro there
        have last := mem_of_getElem? there
        exact absurd (mem_singleton.mp last) own

theorem Indexes.swap (indexes : Indexes order position) {p q : Nat} {a b : Id}
    (first : order[p]? = some a) (second : order[q]? = some b) (apart : p ≠ q) :
    Indexes ((order.set p b).set q a)
      (Function.update (Function.update position a (some (q : Int))) b (some (p : Int))) := by
  have different : b ≠ a := fun same => apart (indexes.unique first (same ▸ second))
  have insideP : p < order.length := (List.getElem?_eq_some_iff.mp first).1
  have insideQ : q < order.length := (List.getElem?_eq_some_iff.mp second).1
  have behind : ∀ place : Nat, ((order.set p b).set q a)[place]? =
      if place = q then some a else if place = p then some b else order[place]? := by
    intro place
    rw [List.getElem?_set, List.getElem?_set, length_set]
    by_cases atQ : q = place
    · subst atQ
      simp [insideQ]
    · by_cases atP : p = place
      · subst atP
        simp [insideP, atQ, Ne.symm atQ]
      · simp [atQ, atP, Ne.symm atQ, Ne.symm atP]
  intro id place
  simp only [behind]
  by_cases isB : id = b
  · subst isB
    rw [update_self, some.injEq]
    constructor
    · rintro rfl
      exact ⟨p, rfl, by rw [if_neg apart, if_pos rfl]⟩
    · rintro ⟨n, rfl, there⟩
      split at there
      · exact absurd (some.inj there).symm different
      · split at there
        · rename_i same
          rw [same]
        · rename_i notQ _
          exact absurd (indexes.unique there second) notQ
  · rw [update_of_ne isB]
    by_cases isA : id = a
    · subst isA
      rw [update_self, some.injEq]
      constructor
      · rintro rfl
        exact ⟨q, rfl, by rw [if_pos rfl]⟩
      · rintro ⟨n, rfl, there⟩
        split at there
        · rename_i same
          rw [same]
        · split at there
          · exact absurd (some.inj there) different
          · rename_i _ notP
            exact absurd (indexes.unique there first) notP
    · rw [update_of_ne isA, indexes]
      apply exists_congr
      intro n
      apply and_congr_right'
      constructor
      · intro there
        rw [if_neg, if_neg, there]
        · rintro rfl
          exact isA (some.inj (there.symm.trans first))
        · rintro rfl
          exact isB (some.inj (there.symm.trans second))
      · intro there
        split at there
        · exact absurd (some.inj there).symm isA
        · split at there
          · exact absurd (some.inj there).symm isB
          · exact there

theorem Indexes.pop (indexes : Indexes order position) {last : Id}
    (there : order[order.length - 1]? = some last) :
    Indexes order.dropLast (Function.update position last none) := by
  intro id p
  by_cases own : id = last
  · subst own
    rw [update_self]
    constructor
    · exact fun contra => nomatch contra
    · rintro ⟨place, _, inside⟩
      rw [List.getElem?_dropLast] at inside
      split at inside
      · rename_i before
        have same := indexes.unique inside there
        omega
      · cases inside
  · rw [update_of_ne own, indexes]
    apply exists_congr
    intro place
    apply and_congr_right'
    rw [List.getElem?_dropLast]
    split
    · rfl
    · rename_i behind
      constructor
      · intro inside
        have within := (List.getElem?_eq_some_iff.mp inside).1
        have same : place = order.length - 1 := by omega
        rw [same, there] at inside
        exact absurd (some.inj inside).symm own
      · exact fun contra => nomatch contra

end DenseIndex

end Agouti
