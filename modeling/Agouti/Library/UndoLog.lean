import Mathlib.Data.List.Basic

/-! # Keyed stores with an undo log

A store maps keys to entries. An event changes the entry of one key, may refuse,
and leaves an undo record; reverting an event uses its record. Running a list of
events and rewinding it in reverse order acts on every key as the events of that
key alone do (`UndoLog.run_entry`, `UndoLog.rewind_entry`), so a statement about
the whole store is a statement about the events of one entry.
-/

namespace Agouti

open List Function Option

/-- A keyed store whose events can be reverted from an undo record. -/
structure UndoLog (Key Entry Undo Event : Type) where
  key : Event → Key
  act : Event → Entry → Option (Entry × Undo)
  revert : Event → Undo → Entry → Entry

namespace UndoLog

variable {Key Entry Undo Event : Type} (log : UndoLog Key Entry Undo Event)

/-- Run events on one entry, collecting every event with its undo record. -/
def runEntry : List Event → Entry → Option (Entry × List (Event × Undo))
  | [], entry => some (entry, [])
  | event :: rest, entry => do
      let (next, undo) ← log.act event entry
      let (final, records) ← runEntry rest next
      pure (final, (event, undo) :: records)

/-- Revert recorded events on one entry, the last one first. -/
def rewindEntry : List (Event × Undo) → Entry → Entry
  | [], entry => entry
  | (event, undo) :: rest, entry => log.revert event undo (rewindEntry rest entry)

variable [DecidableEq Key]

/-- Run events on a store. -/
def run : List Event → (Key → Entry) → Option ((Key → Entry) × List (Event × Undo))
  | [], store => some (store, [])
  | event :: rest, store => do
      let (next, undo) ← log.act event (store (log.key event))
      let (final, records) ← run rest (Function.update store (log.key event) next)
      pure (final, (event, undo) :: records)

/-- Revert recorded events on a store, the last one first. -/
def rewind : List (Event × Undo) → (Key → Entry) → (Key → Entry)
  | [], store => store
  | (event, undo) :: rest, store =>
    let rewound := rewind rest store
    Function.update rewound (log.key event) (log.revert event undo (rewound (log.key event)))

/-- The events of one key. -/
def eventsAt (key : Key) (events : List Event) : List Event :=
  events.filter fun event => log.key event = key

/-- The records of one key. -/
def recordsAt (key : Key) (records : List (Event × Undo)) : List (Event × Undo) :=
  records.filter fun record => log.key record.1 = key

theorem run_append (first second : List Event) (store : Key → Entry) :
    log.run (first ++ second) store = (log.run first store).bind fun middle =>
      (log.run second middle.1).map fun final => (final.1, middle.2 ++ final.2) := by
  induction first generalizing store with
  | nil => cases ran : log.run second store <;> simp [run, ran]
  | cons event rest ih =>
    simp only [cons_append, run, bind_eq_bind, Option.pure_def]
    cases acted : log.act event (store (log.key event)) with
    | none => rfl
    | some step =>
      simp only [bind_some, ih]
      cases log.run rest (Function.update store (log.key event) step.1) with
      | none => rfl
      | some middle => cases ran : log.run second middle.1 <;> simp [ran]

theorem rewind_append (first second : List (Event × Undo)) (store : Key → Entry) :
    log.rewind (first ++ second) store = log.rewind first (log.rewind second store) := by
  induction first with
  | nil => rfl
  | cons record rest ih => simp only [cons_append, rewind, ih]

/-- **A run acts on a key as the events of that key alone.** -/
theorem run_entry {events : List Event} {store final : Key → Entry}
    {records : List (Event × Undo)} (ran : log.run events store = some (final, records))
    (key : Key) :
    log.runEntry (log.eventsAt key events) (store key) =
      some (final key, log.recordsAt key records) := by
  induction events generalizing store final records with
  | nil =>
    obtain ⟨rfl, rfl⟩ := Prod.mk.inj (some.inj ran)
    rfl
  | cons event rest ih =>
    simp only [run, bind_eq_bind, Option.pure_def, bind_eq_some_iff] at ran
    obtain ⟨⟨next, undo⟩, acted, ⟨tailFinal, tailRecords⟩, ranTail, same⟩ := ran
    obtain ⟨rfl, rfl⟩ := Prod.mk.inj (some.inj same)
    have tail := ih ranTail
    by_cases here : log.key event = key
    · subst here
      rw [update_self] at tail
      simp only [eventsAt, recordsAt] at tail
      simp only [eventsAt, recordsAt, filter_cons, decide_true, ↓reduceIte, runEntry,
        bind_eq_bind, acted, bind_some, tail, Option.pure_def]
    · rw [update_of_ne (Ne.symm here)] at tail
      simpa only [eventsAt, recordsAt, filter_cons, here, decide_false, Bool.false_eq_true,
        ↓reduceIte] using tail

/-- **Rewinding acts on a key as the records of that key alone.** -/
theorem rewind_entry (records : List (Event × Undo)) (store : Key → Entry) (key : Key) :
    log.rewind records store key = log.rewindEntry (log.recordsAt key records) (store key) := by
  induction records with
  | nil => rfl
  | cons record rest ih =>
    by_cases here : log.key record.1 = key
    · subst here
      simp only [recordsAt] at ih
      simp only [rewind, update_self, recordsAt, filter_cons, decide_true,
        ↓reduceIte, rewindEntry, ih]
    · simp only [rewind, update_of_ne (Ne.symm here), ih, recordsAt, filter_cons,
        here, decide_false, Bool.false_eq_true, ↓reduceIte]

theorem run_records {events : List Event} {store final : Key → Entry}
    {records : List (Event × Undo)} (ran : log.run events store = some (final, records)) :
    records.map Prod.fst = events := by
  induction events generalizing store final records with
  | nil =>
    obtain ⟨_, rfl⟩ := Prod.mk.inj (some.inj ran)
    rfl
  | cons event rest ih =>
    simp only [run, bind_eq_bind, Option.pure_def, bind_eq_some_iff] at ran
    obtain ⟨⟨next, undo⟩, _, ⟨tailFinal, tailRecords⟩, ranTail, same⟩ := ran
    obtain ⟨_, rfl⟩ := Prod.mk.inj (some.inj same)
    simp only [map_cons, ih ranTail]

end UndoLog

end Agouti
