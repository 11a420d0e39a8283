import Mathlib.Data.List.Basic

/-! # Memo tables that forget nothing

A table remembers the first value that was computed for a key, and answers the key from then
on without computing. When what is computed changes with time, the answer is the present value
exactly when that is the first one again (`Memo.lookup_eq_iff`).
-/

namespace Agouti

open List Function

namespace Memo

variable {Key Value : Type}

/-- What is asked for, and what computing it gives at that time. -/
structure Query (Key Value : Type) where
  key : Key
  value : Option Value

/-- Ask the table, and compute and remember the value when it is not there. -/
def lookup [DecidableEq Key] (table : Key → Option Value) (query : Query Key Value) :
    (Key → Option Value) × Option Value :=
  match table query.key with
  | some value => (table, some value)
  | none =>
    match query.value with
    | some value => (Function.update table query.key (some value), some value)
    | none => (table, none)

/-- The query is the first one that has a value for the key; later queries stand in front. -/
structure Query.FirstFor (query : Query Key Value) (key : Key) (older : List (Query Key Value)) :
    Prop where
  key_eq : query.key = key
  value_isSome : query.value.isSome = true
  nothing : ∀ other ∈ older, other.key = key → other.value = none

/-- The key has the value that it had when it first had one. -/
def Unmoved (query : Query Key Value) (before : List (Query Key Value)) : Prop :=
  ∀ middle first older, before = middle ++ first :: older → first.FirstFor query.key older →
    query.value = first.value

/-- The table has the first value of each key. -/
structure TableOf (queries : List (Query Key Value)) (table : Key → Option Value) : Prop where
  held : ∀ key value, table key = some value → ∃ middle first older,
    queries = middle ++ first :: older ∧ first.FirstFor key older ∧ first.value = some value
  missing : ∀ key, table key = none → ∀ query ∈ queries, query.key = key → query.value = none

theorem TableOf.empty : TableOf [] fun _ : Key => (none : Option Value) :=
  ⟨fun _ _ found => by contradiction, fun _ _ _ member => absurd member not_mem_nil⟩

variable {queries : List (Query Key Value)} {table : Key → Option Value}

theorem Query.FirstFor.unique {key : Key} {middle middle' older older' : List (Query Key Value)}
    {first first' : Query Key Value}
    (split : middle ++ first :: older = middle' ++ first' :: older')
    (one : first.FirstFor key older) (other : first'.FirstFor key older') : first = first' := by
  have absent : ∀ {query : Query Key Value} {older rest : List (Query Key Value)}
      {later : Query Key Value}, query ∈ rest → later.FirstFor key rest →
      query.FirstFor key older → False := by
    intro query older rest later member firstly found
    have some := found.value_isSome
    rw [firstly.nothing query member found.key_eq] at some
    contradiction
  rcases append_eq_append_iff.mp split with ⟨more, _, tail⟩ | ⟨more, _, tail⟩
  · cases more with
    | nil => exact (List.cons.inj tail).1
    | cons head rest =>
      have member : first' ∈ older := by
        rw [(List.cons.inj tail).2]
        exact mem_append_right _ mem_cons_self
      exact (absent member one other).elim
  · cases more with
    | nil => exact (List.cons.inj tail).1.symm
    | cons head rest =>
      have member : first ∈ older' := by
        rw [(List.cons.inj tail).2]
        exact mem_append_right _ mem_cons_self
      exact (absent member other one).elim

variable [DecidableEq Key]

theorem lookup_held {query : Query Key Value} {value : Value}
    (held : table query.key = some value) : lookup table query = (table, some value) := by
  unfold lookup
  rw [held]

theorem lookup_missing {query : Query Key Value} (missing : table query.key = none) :
    (lookup table query).2 = query.value := by
  unfold lookup
  rw [missing]
  cases query.value with
  | none => rfl
  | some value => rfl

theorem lookup_again (table : Key → Option Value) (query : Query Key Value) :
    lookup (lookup table query).1 query = lookup table query := by
  cases held : table query.key with
  | some value => rw [lookup_held held, lookup_held held]
  | none =>
    cases value : query.value with
    | none => simp only [lookup, held, value]
    | some value => simp only [lookup, held, value, update_self]

theorem TableOf.lookup (exact : TableOf queries table) (query : Query Key Value) :
    TableOf (query :: queries) (Memo.lookup table query).1 := by
  -- a query that leaves the table only has to have nothing new
  have kept : (table query.key = none → query.value = none) → TableOf (query :: queries) table := by
    intro nothing
    refine ⟨fun key value found => ?_, fun key absent entry member same => ?_⟩
    · obtain ⟨middle, first, older, split, rest⟩ := exact.held key value found
      exact ⟨query :: middle, first, older, by rw [split]; rfl, rest⟩
    · rcases mem_cons.mp member with rfl | later
      · exact nothing (same ▸ absent)
      · exact exact.missing key absent entry later same
  cases held : table query.key with
  | some value =>
    rw [lookup_held held]
    exact kept fun absent => by rw [held] at absent; contradiction
  | none =>
    cases value : query.value with
    | none =>
      have same : (Memo.lookup table query).1 = table := by simp only [Memo.lookup, held, value]
      rw [same]
      exact kept fun _ => value
    | some new =>
      have updated : (Memo.lookup table query).1 =
          Function.update table query.key (some new) := by
        simp only [Memo.lookup, held, value]
      rw [updated]
      refine ⟨fun key old found => ?_, fun key absent entry member same => ?_⟩
      · by_cases here : key = query.key
        · subst here
          rw [update_self] at found
          obtain rfl := Option.some.inj found
          exact ⟨[], query, queries, rfl, ⟨rfl, by rw [value]; rfl, exact.missing _ held⟩, value⟩
        · rw [update_of_ne here] at found
          obtain ⟨middle, first, older, split, rest⟩ := exact.held key old found
          exact ⟨query :: middle, first, older, by rw [split]; rfl, rest⟩
      · have apart : key ≠ query.key := by
          rintro rfl
          rw [update_self] at absent
          contradiction
        rw [update_of_ne apart] at absent
        rcases mem_cons.mp member with rfl | later
        · exact absurd same.symm apart
        · exact exact.missing key absent entry later same

/-- **When the table is right.** The answer is the present value exactly when the key has the
value that it had first; and an answer with a value is never right otherwise. -/
theorem TableOf.lookup_eq_iff (exact : TableOf queries table) (query : Query Key Value) :
    ((Memo.lookup table query).2 = query.value ↔ Unmoved query queries) ∧
      ((∀ value, (Memo.lookup table query).2 = some value → query.value = some value) ↔
        Unmoved query queries) := by
  cases held : table query.key with
  | none =>
    have free : Unmoved query queries := by
      intro middle first older split firstly
      have member : first ∈ queries := by
        rw [split]
        exact mem_append_right _ mem_cons_self
      have some := firstly.value_isSome
      rw [exact.missing query.key held first member firstly.key_eq] at some
      contradiction
    rw [lookup_missing held]
    exact ⟨⟨fun _ => free, fun _ => rfl⟩, fun _ => free, fun _ _ same => same⟩
  | some value =>
    obtain ⟨middle, first, older, split, firstly, old⟩ := exact.held query.key value held
    have same : Unmoved query queries ↔ query.value = some value := by
      constructor
      · intro unmoved
        rw [unmoved middle first older split firstly, old]
      · intro now middle' first' older' split' firstly'
        rw [firstly'.unique (split'.symm.trans split) firstly, now, old]
    rw [lookup_held held, same]
    refine ⟨⟨Eq.symm, Eq.symm⟩, fun right => right value rfl, fun now other answered => ?_⟩
    rw [now]
    exact answered

end Memo

end Agouti
