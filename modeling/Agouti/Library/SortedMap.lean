import Mathlib.Algebra.BigOperators.Group.List.Basic
import Mathlib.Algebra.Order.Ring.Int

/-! # Maps in the order of their keys

A map is the list of its entries in increasing order of the keys, so that a loop over the map
sees them in one order only. Two maps that answer every lookup alike are equal, whatever order
their entries came in (`SortedMap.ext_lookup`).
-/

namespace Agouti

open List

/-- The entries of a map in increasing order of their keys. -/
structure SortedMap (Key Value : Type) [LinearOrder Key] where
  entries : List (Key × Value)
  sorted : entries.Pairwise fun left right => left.1 < right.1

namespace SortedMap

variable {Key Value Image : Type} [LinearOrder Key]

/-- The map without entries. -/
def empty : SortedMap Key Value := ⟨[], .nil⟩

/-- The value of a key. -/
def lookup (map : SortedMap Key Value) (key : Key) : Option Value := map.entries.lookup key

/-- Give a key a value in a sorted list of entries. -/
def setEntries (key : Key) (value : Value) : List (Key × Value) → List (Key × Value)
  | [] => [(key, value)]
  | (here, old) :: rest =>
    if key < here then (key, value) :: (here, old) :: rest
    else if key = here then (key, value) :: rest
    else (here, old) :: setEntries key value rest

variable {key : Key} {value : Value} {entry : Key × Value} {map : SortedMap Key Value}

theorem mem_setEntries {entries : List (Key × Value)}
    (member : entry ∈ setEntries key value entries) :
    entry = (key, value) ∨ entry ∈ entries := by
  induction entries with
  | nil => exact .inl (mem_singleton.mp member)
  | cons first rest ih =>
    obtain ⟨here, old⟩ := first
    unfold setEntries at member
    split at member
    · exact mem_cons.mp member
    · split at member
      · rcases mem_cons.mp member with same | later
        · exact .inl same
        · exact .inr (mem_cons_of_mem _ later)
      · rcases mem_cons.mp member with same | later
        · exact .inr (mem_cons.mpr (.inl same))
        · exact (ih later).imp_right (mem_cons_of_mem _)

theorem setEntries_sorted (key : Key) (value : Value) {entries : List (Key × Value)}
    (sorted : entries.Pairwise fun left right => left.1 < right.1) :
    (setEntries key value entries).Pairwise fun left right => left.1 < right.1 := by
  induction entries with
  | nil => exact pairwise_singleton _ _
  | cons first rest ih =>
    obtain ⟨here, old⟩ := first
    rw [pairwise_cons] at sorted
    unfold setEntries
    split
    · rename_i below
      refine pairwise_cons.mpr ⟨fun entry member => ?_, pairwise_cons.mpr sorted⟩
      rcases mem_cons.mp member with same | later
      · rw [same]
        exact below
      · exact below.trans (sorted.1 entry later)
    · split
      · rename_i same
        subst same
        exact pairwise_cons.mpr sorted
      · rename_i above apart
        refine pairwise_cons.mpr ⟨fun entry member => ?_, ih sorted.2⟩
        rcases mem_setEntries member with same | later
        · rw [same]
          exact lt_of_le_of_ne (not_lt.mp above) (Ne.symm apart)
        · exact sorted.1 entry later

/-- Give a key a value, as an assignment through `operator[]`. -/
def set (map : SortedMap Key Value) (key : Key) (value : Value) : SortedMap Key Value :=
  ⟨setEntries key value map.entries, setEntries_sorted key value map.sorted⟩

/-- Insert a key that has no value, as `std::map::insert`. -/
def insert (map : SortedMap Key Value) (key : Key) (value : Value) : SortedMap Key Value :=
  if (map.lookup key).isSome then map else map.set key value

/-- Erase a key, as `std::map::erase`. -/
def erase (map : SortedMap Key Value) (key : Key) : SortedMap Key Value :=
  ⟨map.entries.filter fun entry => decide (entry.1 ≠ key), map.sorted.filter _⟩

/-- The number of entries. -/
def size (map : SortedMap Key Value) : Nat := map.entries.length

/-- The first key, as `std::map::begin`. -/
def first (map : SortedMap Key Value) : Option Key := map.entries.head?.map Prod.fst

/-- The first key that is not less than the given one, as `std::map::lower_bound`. -/
def lowerBound (map : SortedMap Key Value) (key : Key) : Option Key :=
  (map.entries.find? fun entry => decide (key ≤ entry.1)).map Prod.fst

/-- The key behind the given one, as an iterator reaches it. -/
def after (map : SortedMap Key Value) (key : Key) : Option Key :=
  (map.entries.find? fun entry => decide (key < entry.1)).map Prod.fst

/-- The same keys with other values. -/
def mapValues (change : Value → Image) (map : SortedMap Key Value) : SortedMap Key Image where
  entries := map.entries.map fun entry => (entry.1, change entry.2)
  sorted := pairwise_map.mpr map.sorted

theorem mem_entries_iff :
    (key, value) ∈ map.entries ↔ map.lookup key = some value := by
  obtain ⟨entries, sorted⟩ := map
  unfold lookup
  simp only
  induction entries with
  | nil => simp
  | cons first rest ih =>
    obtain ⟨here, old⟩ := first
    rw [pairwise_cons] at sorted
    by_cases same : key = here
    · subst same
      rw [lookup_cons_self, mem_cons, Option.some.injEq, Prod.mk.injEq]
      constructor
      · rintro (⟨_, rfl⟩ | later)
        · rfl
        · exact absurd (sorted.1 _ later) (lt_irrefl key)
      · exact fun value => .inl ⟨rfl, value.symm⟩
    · rw [mem_cons, Prod.mk.injEq, lookup_cons,
        beq_eq_false_iff_ne.mpr same, ← ih sorted.2]
      exact or_iff_right fun here => same here.1

theorem ext_lookup {first second : SortedMap Key Value}
    (same : ∀ key, first.lookup key = second.lookup key) : first = second := by
  have perm : first.entries.Perm second.entries := by
    rw [perm_ext_iff_of_nodup]
    · rintro ⟨key, value⟩
      rw [mem_entries_iff, mem_entries_iff, same key]
    · exact first.sorted.imp fun below same => absurd (congrArg Prod.fst same) below.ne
    · exact second.sorted.imp fun below same => absurd (congrArg Prod.fst same) below.ne
  have equal := perm.eq_of_pairwise
    (fun left right _ _ below above => absurd (below.trans above) (lt_irrefl left.1))
    first.sorted second.sorted
  cases first
  cases second
  rw [mk.injEq]
  exact equal

theorem lookup_set (map : SortedMap Key Value) (key : Key) (value : Value) (other : Key) :
    (map.set key value).lookup other = if other = key then some value else map.lookup other := by
  obtain ⟨entries, sorted⟩ := map
  unfold set lookup
  simp only
  clear sorted
  induction entries with
  | nil =>
    by_cases same : other = key
    · simp [setEntries, same]
    · simp [setEntries, lookup_cons, same, beq_eq_false_iff_ne.mpr same]
  | cons first rest ih =>
    obtain ⟨here, old⟩ := first
    unfold setEntries
    by_cases same : other = key
    · subst same
      rw [if_pos rfl] at ih ⊢
      split
      · exact lookup_cons_self
      · split
        · exact lookup_cons_self
        · rename_i apart
          rw [lookup_cons, beq_eq_false_iff_ne.mpr apart]
          exact ih
    · rw [if_neg same] at ih ⊢
      split
      · rw [lookup_cons, beq_eq_false_iff_ne.mpr same]
      · split
        · rename_i found
          subst found
          rw [lookup_cons, lookup_cons, beq_eq_false_iff_ne.mpr same]
        · rw [lookup_cons, lookup_cons, ih]

theorem lookup_insert (map : SortedMap Key Value) (key : Key) (value : Value) (other : Key) :
    (map.insert key value).lookup other =
      if other = key then some ((map.lookup key).getD value) else map.lookup other := by
  unfold insert
  cases found : map.lookup key with
  | none => exact lookup_set map key value other
  | some old =>
    by_cases same : other = key
    · rw [if_pos same, same]
      exact found
    · rw [if_neg same]
      rfl

theorem lookup_mapValues (change : Value → Image) (map : SortedMap Key Value) (key : Key) :
    (map.mapValues change).lookup key = (map.lookup key).map change := by
  obtain ⟨entries, sorted⟩ := map
  unfold mapValues lookup
  simp only
  clear sorted
  induction entries with
  | nil => rfl
  | cons first rest ih =>
    rw [map_cons, lookup_cons, lookup_cons, ih]
    cases key == first.1 <;> rfl

theorem mapValues_id (map : SortedMap Key Value) : map.mapValues id = map := by
  apply ext_lookup
  intro key
  rw [lookup_mapValues, Option.map_id_fun, id]

theorem mapValues_mapValues {Last : Type} (first : Value → Image) (second : Image → Last)
    (map : SortedMap Key Value) :
    (map.mapValues first).mapValues second = map.mapValues (second ∘ first) := by
  apply ext_lookup
  intro key
  rw [lookup_mapValues, lookup_mapValues, lookup_mapValues, Option.map_map]

theorem lookup_empty (key : Key) : (empty : SortedMap Key Value).lookup key = none := rfl

theorem lookup_erase (map : SortedMap Key Value) (key other : Key) :
    (map.erase key).lookup other = if other = key then none else map.lookup other := by
  apply Option.ext
  intro value
  rw [← mem_entries_iff, erase, mem_filter, decide_eq_true_eq, mem_entries_iff]
  by_cases same : other = key
  · rw [if_pos same]
    exact ⟨fun member => absurd same member.2, fun found => absurd found (by simp)⟩
  · rw [if_neg same]
    exact and_iff_left same

theorem lookup_of_mem (member : entry ∈ map.entries) : map.lookup entry.1 = some entry.2 :=
  mem_entries_iff.mp member

/-- Erasing the key of an entry leaves the entries before and behind it. -/
theorem entries_erase {done rest : List (Key × Value)}
    (split : map.entries = done ++ entry :: rest) :
    (map.erase entry.1).entries = done ++ rest := by
  have sorted := map.sorted
  rw [split, pairwise_append, pairwise_cons] at sorted
  obtain ⟨-, ⟨behind, -⟩, before⟩ := sorted
  have others : ∀ other ∈ done ++ rest, decide (other.1 ≠ entry.1) = true := by
    intro other member
    rw [decide_eq_true_eq]
    rcases mem_append.mp member with early | late
    · exact (before other early entry mem_cons_self).ne
    · exact (behind other late).ne'
  change map.entries.filter _ = _
  rw [split, filter_append, filter_cons_of_neg (by simp), ← filter_append,
    filter_eq_self.mpr others]

theorem after_eq {done rest : List (Key × Value)} (split : map.entries = done ++ entry :: rest) :
    map.after entry.1 = rest.head?.map Prod.fst := by
  have sorted := map.sorted
  rw [split, pairwise_append, pairwise_cons] at sorted
  obtain ⟨-, ⟨behind, -⟩, before⟩ := sorted
  have early : done.find? (fun other => decide (entry.1 < other.1)) = none := by
    rw [List.find?_eq_none]
    intro other member
    rw [decide_eq_true_eq]
    exact (before other member entry mem_cons_self).asymm
  rw [after, split, List.find?_append, early, Option.none_or, List.find?_cons_of_neg (by simp)]
  cases rest with
  | nil => rfl
  | cons next rest =>
    have late := behind next mem_cons_self
    rw [List.find?_cons_of_pos (by exact decide_eq_true late)]
    rfl

theorem size_erase (found : map.lookup key = some value) : (map.erase key).size + 1 = map.size := by
  obtain ⟨done, rest, split⟩ := append_of_mem (mem_entries_iff.mpr found)
  rw [size, size, entries_erase split, split, length_append, length_append,
    length_cons, Nat.add_assoc]

theorem lookup_lowerBound {found : Key}
    (bound : map.lowerBound key = some found) : ∃ value, map.lookup found = some value := by
  obtain ⟨entry, member, rfl⟩ := Option.map_eq_some_iff.mp bound
  exact ⟨entry.2, lookup_of_mem (List.mem_of_find?_eq_some member)⟩

theorem lookup_first {found : Key} (begins : map.first = some found) :
    ∃ value, map.lookup found = some value := by
  obtain ⟨entry, member, rfl⟩ := Option.map_eq_some_iff.mp begins
  exact ⟨entry.2, lookup_of_mem (List.mem_of_head? member)⟩

/-- The sum of a weight over the values. -/
def total (weight : Value → Nat) (map : SortedMap Key Value) : Nat :=
  (map.entries.map fun entry => weight entry.2).sum

theorem total_erase (weight : Value → Nat) (found : map.lookup key = some value) :
    (map.erase key).total weight + weight value = map.total weight := by
  obtain ⟨done, rest, split⟩ := append_of_mem (mem_entries_iff.mpr found)
  rw [total, total, entries_erase split, split]
  simp only [map_append, map_cons, List.sum_append, List.sum_cons]
  omega

/-- The entries after an assignment are the new one and those of the other keys. -/
theorem perm_set (map : SortedMap Key Value) (key : Key) (value : Value) :
    (map.set key value).entries.Perm ((key, value) :: (map.erase key).entries) := by
  have nodup : ∀ other : SortedMap Key Value, other.entries.Nodup := fun other =>
    other.sorted.imp fun below same => absurd (congrArg Prod.fst same) below.ne
  have outside : (key, value) ∉ (map.erase key).entries := by
    rw [mem_entries_iff, lookup_erase, if_pos rfl]
    simp
  rw [perm_ext_iff_of_nodup (nodup _) (nodup_cons.mpr ⟨outside, nodup _⟩)]
  rintro ⟨other, held⟩
  rw [mem_cons, mem_entries_iff, mem_entries_iff, lookup_set, lookup_erase, Prod.mk.injEq]
  by_cases same : other = key
  · simp [same, eq_comm]
  · simp [same]

theorem total_set (weight : Value → Nat) (map : SortedMap Key Value) (key : Key) (value : Value) :
    (map.set key value).total weight + ((map.lookup key).map weight).getD 0 =
      map.total weight + weight value := by
  have sum : (map.set key value).total weight = weight value + (map.erase key).total weight :=
    ((map.perm_set key value).map fun entry : Key × Value => weight entry.2).sum_eq
  cases found : map.lookup key with
  | some old =>
    have erased := total_erase weight found
    rw [sum, Option.map_some, Option.getD_some]
    omega
  | none =>
    have kept : map.erase key = map := by
      apply ext_lookup
      intro other
      rw [lookup_erase]
      split
      case isTrue same => rw [same, found]
      case isFalse => rfl
    rw [sum, kept, Option.map_none, Option.getD_none]
    omega

theorem size_eq_total (map : SortedMap Key Value) : map.size = map.total fun _ => 1 := by
  simp [size, total]

theorem total_mapValues (weight : Value → Nat) (map : SortedMap Key Value) :
    (map.mapValues weight).total id = map.total weight := by
  unfold total mapValues
  rw [map_map]
  rfl

theorem total_congr (weight : Value → Nat) {first second : SortedMap Key Value}
    (same : ∀ key, (first.lookup key).map weight = (second.lookup key).map weight) :
    first.total weight = second.total weight := by
  have equal : first.mapValues weight = second.mapValues weight := by
    apply ext_lookup
    intro key
    rw [lookup_mapValues, lookup_mapValues, same]
  calc
    first.total weight = (first.mapValues weight).total id := (total_mapValues weight first).symm
    _ = (second.mapValues weight).total id := by rw [equal]
    _ = second.total weight := total_mapValues weight second

end SortedMap

end Agouti
