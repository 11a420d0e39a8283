import Mathlib.Data.List.Basic

/-! # Erasing while iterating

Loops that erase entries of a container they iterate over. A loop over a map that reads the entry
in front of `erase(it++)` keeps the entries that are not erased and records the others
(`erasing_eq`); one that reads through the iterator behind it stands at the next entry, or at the
end. Erasing from a vector assigns every later element to the place in front of it. Where the
assignment carries only some of the fields, the others stay at their places, and the elements that
are left are those that were to be kept exactly when the fields that stay are the same for them
(`PartialAssign.prune_eq_iff`).
-/

namespace Agouti

open List

namespace Sweep

/-- Where an iterator is read, seen from the entry of the turn. -/
inductive Place
  | here
  | next
  | past
  deriving DecidableEq, Repr

variable {Entry State : Type} (expired : Entry → Bool) (record : Entry → State → State)

/-- The entry is recorded in front of `erase(it++)`. -/
def erasing : List Entry → State → List Entry × State
  | [], state => ([], state)
  | entry :: rest, state =>
    if expired entry then erasing rest (record entry state)
    else
      let others := erasing rest state
      (entry :: others.1, others.2)

/-- The record is made through the iterator behind `erase(it++)`: the places where it is read, and
what the loop leaves when it is never read at the end. -/
def erasingLate : List Entry → State → List Place × Option (List Entry × State)
  | [], state => ([], some ([], state))
  | entry :: rest, state =>
    if expired entry then
      match rest.head? with
      | none => ([.past], none)
      | some next =>
        let others := erasingLate rest (record next state)
        (.next :: others.1, others.2)
    else
      let others := erasingLate rest state
      (.here :: others.1, others.2.map fun left => (entry :: left.1, left.2))

/-- A loop that records nothing. -/
def erase (entries : List Entry) : List Entry := (erasing expired (fun _ => id) entries ()).1

variable {expired record} {entries : List Entry} {state : State}

theorem erasing_eq : erasing expired record entries state =
    (entries.filter fun entry => !expired entry,
      (entries.filter expired).foldl (fun state entry => record entry state) state) := by
  induction entries generalizing state with
  | nil => rfl
  | cons entry rest ih =>
    rw [erasing]
    cases gone : expired entry with
    | true =>
      rw [if_pos rfl, ih, filter_cons_of_neg (by simp [gone]),
        filter_cons_of_pos gone, foldl_cons]
    | false =>
      rw [if_neg Bool.false_ne_true, ih, filter_cons_of_pos (by simp [gone]),
        filter_cons_of_neg (by simp [gone])]

theorem erase_eq : erase expired entries = entries.filter fun entry => !expired entry := by
  rw [erase, erasing_eq]

/-- The late loop reads only the entry of its turn when nothing is erased, and only then. -/
theorem erasingLate_here : (∀ place ∈ (erasingLate expired record entries state).1, place = .here) ↔
    ∀ entry ∈ entries, expired entry = false := by
  induction entries generalizing state with
  | nil => exact iff_of_true (fun _ member => nomatch member) fun _ member => nomatch member
  | cons entry rest ih =>
    rw [forall_mem_cons, erasingLate]
    cases gone : expired entry with
    | true =>
      refine iff_of_false (fun all => ?_) fun none => nomatch none.1
      cases rest with
      | nil => exact nomatch all .past mem_cons_self
      | cons next rest => exact nomatch all .next mem_cons_self
    | false =>
      rw [if_neg Bool.false_ne_true, forall_mem_cons, and_iff_right rfl,
        and_iff_right rfl, ih]

theorem erasingLate_eq (none : ∀ entry ∈ entries, expired entry = false) :
    (erasingLate expired record entries state).2 = some (entries, state) := by
  induction entries with
  | nil => rfl
  | cons entry rest ih =>
    obtain ⟨stays, others⟩ := forall_mem_cons.mp none
    rw [erasingLate, stays, if_neg Bool.false_ne_true]
    change (erasingLate expired record rest state).2.map _ = _
    rw [ih others]
    rfl

end Sweep

/-- An assignment that carries some of the fields of its source; the others of its target stay. -/
structure PartialAssign (Element Carried Kept : Type) where
  assign : Element → Element → Element
  carried : Element → Carried
  kept : Element → Kept
  carried_assign : ∀ target source, carried (assign target source) = carried source
  kept_assign : ∀ target source, kept (assign target source) = kept target
  eq_of_fields : ∀ first second, carried first = carried second → kept first = kept second →
    first = second

namespace PartialAssign

variable {Element Carried Kept State : Type} (fields : PartialAssign Element Carried Kept)

/-- Erasing the first element of a vector. -/
def shift : List Element → List Element
  | [] => []
  | target :: rest =>
    match rest with
    | [] => []
    | source :: _ => fields.assign target source :: shift rest

/-- The loop with `it = v.erase(it)`; the length of the vector is enough fuel. -/
def prune (gone : Element → Bool) (record : Element → State → State) :
    Nat → List Element → State → List Element × State
  | 0, elements, state => (elements, state)
  | _ + 1, [], state => ([], state)
  | fuel + 1, element :: rest, state =>
    if gone element then prune gone record fuel (fields.shift (element :: rest)) (record element state)
    else
      let others := prune gone record fuel rest state
      (element :: others.1, others.2)

variable {elements : List Element}

theorem shift_carried (element : Element) (rest : List Element) :
    (fields.shift (element :: rest)).map fields.carried = rest.map fields.carried := by
  induction rest generalizing element with
  | nil => rfl
  | cons source rest ih =>
    rw [shift, map_cons, fields.carried_assign, ih, map_cons]

theorem shift_kept (element : Element) (rest : List Element) :
    (fields.shift (element :: rest)).map fields.kept <+: (element :: rest).map fields.kept := by
  induction rest generalizing element with
  | nil => exact nil_prefix
  | cons source rest ih =>
    rw [shift, map_cons, fields.kept_assign, map_cons, prefix_cons_inj]
    exact ih source

variable {gone : Element → Bool} {record : Element → State → State} (goneBy : Carried → Bool)
  (recordBy : Carried → State → State)

/-- What the loop looks at is carried: the elements that are left carry what those to be kept did,
and the fields that stay are those in front. -/
theorem prune_spec (looks : ∀ element, gone element = goneBy (fields.carried element))
    (reads : ∀ element, record element = recordBy (fields.carried element)) (fuel : Nat)
    (elements : List Element) (enough : elements.length ≤ fuel) (state : State) :
    (fields.prune gone record fuel elements state).1.map fields.carried =
        (elements.map fields.carried).filter (fun carried => !goneBy carried) ∧
      (fields.prune gone record fuel elements state).1.map fields.kept <+: elements.map fields.kept ∧
      (fields.prune gone record fuel elements state).2 =
        ((elements.map fields.carried).filter goneBy).foldl
          (fun state carried => recordBy carried state) state := by
  induction fuel generalizing elements state with
  | zero =>
    obtain rfl := eq_nil_of_length_eq_zero (Nat.le_zero.mp enough)
    exact ⟨rfl, nil_prefix, rfl⟩
  | succ fuel ih =>
    cases elements with
    | nil => exact ⟨rfl, nil_prefix, rfl⟩
    | cons element rest =>
      have few : rest.length ≤ fuel := Nat.le_of_succ_le_succ enough
      rw [prune, map_cons]
      cases leaves : gone element with
      | true =>
        have stays : goneBy (fields.carried element) = true := (looks element).symm.trans leaves
        have length : (fields.shift (element :: rest)).length = rest.length := by
          rw [← length_map fields.carried, shift_carried, length_map]
        obtain ⟨carried, kept, recorded⟩ :=
          ih (fields.shift (element :: rest)) (length ▸ few) (record element state)
        rw [shift_carried] at carried recorded
        rw [if_pos rfl, filter_cons_of_neg (by simp [stays]),
          filter_cons_of_pos stays, foldl_cons, ← reads]
        exact ⟨carried, kept.trans (fields.shift_kept element rest), recorded⟩
      | false =>
        have stays : goneBy (fields.carried element) = false := (looks element).symm.trans leaves
        obtain ⟨carried, kept, recorded⟩ := ih rest few state
        rw [if_neg Bool.false_ne_true, filter_cons_of_pos (by simp [stays]),
          filter_cons_of_neg (by simp [stays]), map_cons, map_cons, carried,
          map_cons, prefix_cons_inj]
        exact ⟨rfl, kept, recorded⟩

theorem eq_of_maps {first second : List Element}
    (carried : first.map fields.carried = second.map fields.carried)
    (kept : first.map fields.kept = second.map fields.kept) : first = second := by
  induction first generalizing second with
  | nil => exact (map_eq_nil_iff.mp carried.symm).symm
  | cons element rest ih =>
    cases second with
    | nil => exact nomatch carried
    | cons other others =>
      obtain ⟨sameCarried, restCarried⟩ := List.cons.inj carried
      obtain ⟨sameKept, restKept⟩ := List.cons.inj kept
      rw [fields.eq_of_fields element other sameCarried sameKept, ih restCarried restKept]

/-- The loop leaves the elements to be kept exactly when the fields that stay are the same. -/
theorem prune_eq_iff (looks : ∀ element, gone element = goneBy (fields.carried element))
    (reads : ∀ element, record element = recordBy (fields.carried element)) (state : State) :
    (fields.prune gone record elements.length elements state).1 =
        elements.filter (fun element => !gone element) ↔
      (elements.filter fun element => !gone element).map fields.kept <+: elements.map fields.kept := by
  obtain ⟨carried, kept, -⟩ :=
    fields.prune_spec goneBy recordBy looks reads elements.length elements (Nat.le_refl _) state
  constructor
  · intro same
    rwa [← same]
  · intro front
    have same : (fields.prune gone record elements.length elements state).1.map fields.carried =
        (elements.filter fun element => !gone element).map fields.carried := by
      rw [carried, filter_map]
      congr 1
      exact filter_congr fun element _ => by rw [Function.comp_apply, looks]
    have length : (fields.prune gone record elements.length elements state).1.length =
        (elements.filter fun element => !gone element).length := by
      rw [← length_map fields.carried, same, length_map]
    refine fields.eq_of_maps same ?_
    rw [prefix_iff_eq_take.mp kept, prefix_iff_eq_take.mp front, length_map,
      length_map, length]

end PartialAssign

end Agouti
