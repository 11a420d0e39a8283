import Mathlib.Order.Lattice
import Mathlib.Data.List.Induction
import Mathlib.Data.List.Perm.Basic
import Mathlib.Data.List.Nodup

/-! # A register that takes spaced updates

A register keeps one entry and replaces it only by a later one, and not by every later one.
Offered in several orders, the entries of a list end in the same register exactly when the newest
one may replace every other (`agree_iff`); the register then holds the newest entry
(`settle_newest`).
-/

namespace Spaced

open List

variable {Entry Time : Type} [LinearOrder Time] (time : Entry → Time)

/-- An entry of the list that no other is later than. -/
structure Newest (entries : List Entry) (entry : Entry) : Prop where
  mem : entry ∈ entries
  latest : ∀ other ∈ entries, time other ≤ time entry

variable {entries : List Entry}

theorem exists_newest (nonempty : entries ≠ []) :
    ∃ newest, Newest time entries newest := by
  induction entries with
  | nil => contradiction
  | cons head entries ih =>
    by_cases last : entries = []
    · refine ⟨head, mem_cons_self, fun other member => ?_⟩
      rw [last, mem_singleton] at member
      rw [member]
    · obtain ⟨newest, mem, latest⟩ := ih last
      by_cases older : time head ≤ time newest
      · refine ⟨newest, mem_cons_of_mem head mem, fun other member => ?_⟩
        rcases mem_cons.mp member with first | later
        · rwa [first]
        · exact latest other later
      · refine ⟨head, mem_cons_self, fun other member => ?_⟩
        rcases mem_cons.mp member with first | later
        · rw [first]
        · exact (latest other later).trans (not_le.mp older).le

variable (replaces : Entry → Entry → Prop) [DecidableRel replaces]

/-- An entry is offered to the register. -/
def offer (current : Option Entry) (entry : Entry) : Option Entry :=
  match current with
  | none => some entry
  | some old => if replaces old entry then some entry else some old

/-- The register after the entries of a list. -/
def settle (entries : List Entry) : Option Entry := entries.foldl (offer replaces) none

omit [DecidableRel replaces] in
/-- The newest entry may replace every other. -/
def Clear (entries : List Entry) : Prop :=
  ∀ newest, Newest time entries newest → ∀ other ∈ entries, other ≠ newest → replaces other newest

variable {time} {replaces}

theorem settle_concat (entries : List Entry) (entry : Entry) :
    settle replaces (entries ++ [entry]) = offer replaces (settle replaces entries) entry := by
  rw [settle, foldl_append]
  rfl

variable (replaces) in
theorem offer_cases (current : Option Entry) (entry : Entry) :
    offer replaces current entry = some entry ∨
      current.isSome = true ∧ offer replaces current entry = current := by
  cases current with
  | none => exact .inl rfl
  | some old =>
    by_cases later : replaces old entry
    · exact .inl (if_pos later)
    · exact .inr ⟨rfl, if_neg later⟩

/-- The register holds an entry that was offered, or the one it started from. -/
theorem foldl_mem (entries : List Entry) (start : Option Entry) (entry : Entry)
    (held : entries.foldl (offer replaces) start = some entry) :
    entry ∈ entries ∨ start = some entry := by
  induction entries generalizing start with
  | nil => exact .inr held
  | cons head entries ih =>
    rcases ih (offer replaces start head) held with member | first
    · exact .inl (mem_cons_of_mem head member)
    · rcases offer_cases replaces start head with taken | ⟨_, kept⟩
      · rw [taken] at first
        rw [← Option.some.inj first]
        exact .inl mem_cons_self
      · exact .inr (kept.symm.trans first)

theorem settle_mem {entry : Entry}
    (held : settle replaces entries = some entry) : entry ∈ entries := by
  rcases foldl_mem entries none entry held with member | absurd
  · exact member
  · contradiction

theorem foldl_latest (forward : ∀ old entry, replaces old entry → time old < time entry) {entry : Entry}
    (latest : ∀ other ∈ entries, time other ≤ time entry) :
    entries.foldl (offer replaces) (some entry) = some entry := by
  induction entries with
  | nil => rfl
  | cons head entries ih =>
    have early : ¬replaces entry head := fun later =>
      (forward entry head later).not_ge (latest head mem_cons_self)
    have stays : offer replaces (some entry) head = some entry := if_neg early
    rw [foldl_cons, stays]
    exact ih fun other member => latest other (mem_cons_of_mem head member)

/-- **Clear lists settle at their newest entry.** -/
theorem settle_newest (forward : ∀ old entry, replaces old entry → time old < time entry)
    (clear : Clear time replaces entries) {newest : Entry} (isNewest : Newest time entries newest) :
    settle replaces entries = some newest := by
  obtain ⟨before, after, whole⟩ := append_of_mem isNewest.mem
  have latest : ∀ other ∈ after, time other ≤ time newest := by
    intro other member
    apply isNewest.latest
    rw [whole]
    exact mem_append_right before (mem_cons_of_mem newest member)
  rw [settle, whole, foldl_append, foldl_cons]
  have taken : offer replaces (before.foldl (offer replaces) none) newest = some newest := by
    cases current : before.foldl (offer replaces) none with
    | none => rfl
    | some old =>
      by_cases same : old = newest
      · rw [same]
        exact if_neg fun later => (forward _ _ later).false
      · have member : old ∈ entries := by
          rw [whole]
          exact mem_append_left _ (settle_mem current)
        exact if_pos (clear newest isNewest old member same)
  rw [taken]
  exact foldl_latest forward latest

theorem settle_perm (forward : ∀ old entry, replaces old entry → time old < time entry) {others : List Entry}
    (clear : Clear time replaces entries) (order : others.Perm entries) :
    settle replaces others = settle replaces entries := by
  by_cases nonempty : entries = []
  · rw [nonempty] at order ⊢
    rw [order.eq_nil]
  · obtain ⟨newest, isNewest⟩ := exists_newest time nonempty
    have again : Newest time others newest :=
      ⟨order.mem_iff.mpr isNewest.mem, fun other member =>
        isNewest.latest other (order.mem_iff.mp member)⟩
    have clearAgain : Clear time replaces others := fun newest isNewest other member apart =>
      clear newest ⟨order.mem_iff.mp isNewest.mem, fun other member =>
        isNewest.latest other (order.mem_iff.mpr member)⟩ other (order.mem_iff.mp member) apart
    rw [settle_newest forward clear isNewest, settle_newest forward clearAgain again]

/-- A newest entry that is offered right behind one that it may not replace is lost. -/
theorem settle_lost {rest : List Entry} {newest other : Entry} (once : newest ∉ rest)
    (apart : other ≠ newest) (near : ¬replaces other newest) :
    settle replaces (other :: newest :: rest) ≠ some newest := by
  intro held
  have refused : offer replaces (some other) newest = some other := if_neg near
  have later : rest.foldl (offer replaces) (some other) = some newest := by
    rw [← refused]
    exact held
  rcases foldl_mem rest (some other) newest later with member | first
  · exact once member
  · exact apart (Option.some.inj first)

/-- **Every order agrees exactly for the clear lists.** -/
theorem agree_iff [DecidableEq Entry] (forward : ∀ old entry, replaces old entry → time old < time entry)
    (distinct : entries.Nodup) :
    (∀ first second : List Entry, first.Perm entries → second.Perm entries →
        settle replaces first = settle replaces second) ↔ Clear time replaces entries := by
  constructor
  · intro agree newest isNewest other member apart
    by_contra near
    have otherLeft : other ∈ entries.erase newest := (mem_erase_of_ne apart).mpr member
    have front : (newest :: entries.erase newest).Perm entries :=
      (perm_cons_erase isNewest.mem).symm
    have behind : (other :: newest :: (entries.erase newest).erase other).Perm entries :=
      ((List.Perm.swap newest other _).trans
        ((perm_cons_erase otherLeft).symm.cons newest)).trans front
    have once : newest ∉ (entries.erase newest).erase other := fun still =>
      distinct.not_mem_erase (mem_of_mem_erase still)
    apply settle_lost once apart near
    rw [agree _ _ behind front]
    exact foldl_latest forward fun another still =>
      isNewest.latest another (mem_of_mem_erase still)
  · intro clear first second one two
    rw [settle_perm forward clear one, settle_perm forward clear two]

end Spaced
