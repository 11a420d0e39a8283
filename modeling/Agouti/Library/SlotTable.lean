import Mathlib.Data.Finset.Card

/-! # Tables of slots

A table gives each of its slots a value. The slots that hold a value are counted (`held`); writing
a slot adds it to those of the new value and takes it from those of the old one.
-/

namespace Agouti

open Function

namespace SlotTable

variable {Slot Value : Type} [DecidableEq Slot] [DecidableEq Value]

/-- The slots that hold a value. -/
def held (slots : Finset Slot) (table : Slot → Value) (value : Value) : Finset Slot :=
  slots.filter fun slot => table slot = value

variable {slots : Finset Slot} {table : Slot → Value} {slot : Slot} {old new : Value}

omit [DecidableEq Slot] in
theorem mem_held {value : Value} : slot ∈ held slots table value ↔
    slot ∈ slots ∧ table slot = value := Finset.mem_filter

omit [DecidableEq Slot] in
theorem held_eq_empty_iff {value : Value} :
    held slots table value = ∅ ↔ ∀ slot ∈ slots, table slot ≠ value :=
  Finset.filter_eq_empty_iff

theorem card_held_new (inside : slot ∈ slots) (other : table slot ≠ new) :
    (held slots (Function.update table slot new) new).card =
      (held slots table new).card + 1 := by
  have same : held slots (Function.update table slot new) new =
      insert slot (held slots table new) := by
    ext place
    rw [Finset.mem_insert, mem_held, mem_held]
    by_cases own : place = slot
    · subst own
      simp [inside]
    · rw [update_of_ne own]
      simp [own]
  rw [same, Finset.card_insert_of_notMem]
  rw [mem_held]
  exact fun both => other both.2

theorem card_held_old (inside : slot ∈ slots) (was : table slot = old) (other : new ≠ old) :
    (held slots (Function.update table slot new) old).card + 1 =
      (held slots table old).card := by
  have same : held slots (Function.update table slot new) old =
      (held slots table old).erase slot := by
    ext place
    rw [Finset.mem_erase, mem_held, mem_held]
    by_cases own : place = slot
    · subst own
      simp [other]
    · rw [update_of_ne own]
      simp [own]
  rw [same, Finset.card_erase_add_one]
  exact mem_held.mpr ⟨inside, was⟩

theorem held_other {value : Value} (notOld : table slot ≠ value) (notNew : new ≠ value) :
    held slots (Function.update table slot new) value = held slots table value := by
  ext place
  rw [mem_held, mem_held]
  by_cases own : place = slot
  · subst own
    rw [update_self]
    simp [notOld, notNew]
  · rw [update_of_ne own]

end SlotTable

end Agouti
