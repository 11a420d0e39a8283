import Agouti.Library.SortedMap

/-! # Maps with several values under a key

The entries of a multimap are in the order of their keys, those under one key in the order in which
they came in. A multimap mirrors a map when its entries are those of the map turned around: one for
each key of the map, under the value of that key (`SortedMultimap.Mirrors`).
-/

namespace Agouti

open List

namespace SortedMap

variable {Key Value : Type} [LinearOrder Key]

theorem size_set {map : SortedMap Key Value} {key : Key} (value : Value)
    (fresh : map.lookup key = none) : (map.set key value).size = map.size + 1 := by
  have sum := map.total_set (fun _ => 1) key value
  rw [fresh, ← SortedMap.size_eq_total, ← SortedMap.size_eq_total] at sum
  exact sum

theorem size_update {map : SortedMap Key Value} {key : Key} (value : Value) {old : Value}
    (found : map.lookup key = some old) : (map.set key value).size = map.size := by
  have sum := map.total_set (fun _ => 1) key value
  rw [found, ← SortedMap.size_eq_total, ← SortedMap.size_eq_total] at sum
  exact Nat.add_right_cancel sum

end SortedMap

/-- The entries of a multimap in the order of their keys. -/
structure SortedMultimap (Key Value : Type) [LinearOrder Key] where
  entries : List (Key × Value)
  sorted : entries.Pairwise fun left right => left.1 ≤ right.1

namespace SortedMultimap

variable {Key Value : Type} [LinearOrder Key]

/-- The multimap without entries. -/
def empty : SortedMultimap Key Value := ⟨[], .nil⟩

/-- Put an entry behind those with keys up to its own. -/
def insertEntry (entry : Key × Value) : List (Key × Value) → List (Key × Value)
  | [] => [entry]
  | first :: rest =>
    if entry.1 < first.1 then entry :: first :: rest else first :: insertEntry entry rest

theorem perm_insertEntry (entry : Key × Value) (entries : List (Key × Value)) :
    (insertEntry entry entries).Perm (entry :: entries) := by
  induction entries with
  | nil => exact .refl _
  | cons first rest ih =>
    unfold insertEntry
    split
    · exact .refl _
    · exact (ih.cons first).trans (.swap entry first rest)

theorem insertEntry_sorted (entry : Key × Value) {entries : List (Key × Value)}
    (sorted : entries.Pairwise fun left right => left.1 ≤ right.1) :
    (insertEntry entry entries).Pairwise fun left right => left.1 ≤ right.1 := by
  induction entries with
  | nil => exact pairwise_singleton _ _
  | cons first rest ih =>
    rw [pairwise_cons] at sorted
    unfold insertEntry
    split
    · rename_i below
      refine pairwise_cons.mpr ⟨fun other member => ?_, pairwise_cons.mpr sorted⟩
      rcases mem_cons.mp member with rfl | later
      · exact below.le
      · exact below.le.trans (sorted.1 other later)
    · rename_i above
      refine pairwise_cons.mpr ⟨fun other member => ?_, ih sorted.2⟩
      rcases mem_cons.mp ((perm_insertEntry entry rest).mem_iff.mp member) with rfl | later
      · exact not_lt.mp above
      · exact sorted.1 other later

/-- `std::multimap::insert`. -/
def insert (map : SortedMultimap Key Value) (key : Key) (value : Value) :
    SortedMultimap Key Value :=
  ⟨insertEntry (key, value) map.entries, insertEntry_sorted (key, value) map.sorted⟩

/-- The first entry, as `begin` reaches it. -/
def first (map : SortedMultimap Key Value) : Option (Key × Value) := map.entries.head?

/-- The entries of a key, as `std::multimap::equal_range`. -/
def equalRange (map : SortedMultimap Key Value) (key : Key) : List (Key × Value) :=
  map.entries.filter fun entry => decide (entry.1 = key)

/-- `erase` of the iterator to the first such entry. -/
def erase [DecidableEq Value] (map : SortedMultimap Key Value) (entry : Key × Value) :
    SortedMultimap Key Value :=
  ⟨map.entries.erase entry, map.sorted.sublist erase_sublist⟩

/-! ## Mirrors of a map -/

variable {Name : Type} [LinearOrder Name]

/-- The entries are those of a map, turned around. -/
def Mirrors (mirror : SortedMultimap Key Name) (map : SortedMap Name Key) : Prop :=
  mirror.entries.Perm (map.entries.map Prod.swap)

variable {mirror : SortedMultimap Key Name} {map : SortedMap Name Key}

theorem mirrors_empty : Mirrors (empty : SortedMultimap Key Name) SortedMap.empty := .refl _

variable {name : Name}

section

variable (mirrors : Mirrors mirror map)

include mirrors

theorem Mirrors.mem_iff {key : Key} :
    (key, name) ∈ mirror.entries ↔ map.lookup name = some key := by
  rw [List.Perm.mem_iff mirrors, ← SortedMap.mem_entries_iff]
  constructor
  · intro member
    obtain ⟨entry, stored, same⟩ := mem_map.mp member
    rwa [← Prod.swap_swap entry, same] at stored
  · exact fun stored => mem_map.mpr ⟨(name, key), stored, rfl⟩

theorem Mirrors.length_eq : mirror.entries.length = map.size := by
  rw [List.Perm.length_eq mirrors, length_map, SortedMap.size]

/-- The first entry is that of a key of the map; there is none when the map is empty. -/
theorem Mirrors.first_eq :
    (mirror.first = none ∧ map.size = 0) ∨
      ∃ key name, mirror.first = some (key, name) ∧ map.lookup name = some key := by
  rw [← mirrors.length_eq, first]
  cases entries : mirror.entries with
  | nil => exact .inl ⟨rfl, rfl⟩
  | cons entry rest =>
    refine .inr ⟨entry.1, entry.2, rfl, mirrors.mem_iff.mp ?_⟩
    rw [entries]
    exact mem_cons_self

theorem Mirrors.set (key : Key)
    (fresh : map.lookup name = none) : Mirrors (mirror.insert key name) (map.set name key) := by
  have kept : map.erase name = map := by
    apply SortedMap.ext_lookup
    intro other
    rw [SortedMap.lookup_erase]
    split
    case isTrue same => rw [same, fresh]
    case isFalse => rfl
  have added := (map.perm_set name key).map Prod.swap
  rw [kept, map_cons] at added
  exact ((perm_insertEntry (key, name) mirror.entries).trans (mirrors.cons _)).trans added.symm

theorem Mirrors.erase {key : Key}
    (found : map.lookup name = some key) :
    Mirrors (mirror.erase (key, name)) (map.erase name) := by
  obtain ⟨done, rest, split⟩ := append_of_mem (SortedMap.mem_entries_iff.mpr found)
  have others : (map.entries.map Prod.swap).Perm
      ((key, name) :: (map.erase name).entries.map Prod.swap) := by
    rw [SortedMap.entries_erase split, split, map_append, map_append, map_cons]
    exact perm_middle
  have without := (List.Perm.trans mirrors others).erase (key, name)
  rwa [erase_cons_head] at without

theorem Mirrors.update {old : Key} (key : Key)
    (found : map.lookup name = some old) :
    Mirrors ((mirror.erase (old, name)).insert key name) (map.set name key) := by
  have same : (map.erase name).set name key = map.set name key := by
    apply SortedMap.ext_lookup
    intro other
    rw [SortedMap.lookup_set, SortedMap.lookup_set, SortedMap.lookup_erase]
    split <;> rfl
  rw [← same]
  apply (mirrors.erase found).set
  rw [SortedMap.lookup_erase, if_pos rfl]

end

end SortedMultimap

end Agouti
