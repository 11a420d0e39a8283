import Agouti.Library.SortedMap
import Mathlib.Data.Finset.Basic

/-! # Inverse indices

An index from keys to the sets of values that stand in a relation to them, kept beside
the data it is made from. Values are added under keys and removed from them one at a
time, a set that becomes empty is dropped with its key. The index is exact for a relation
when it holds exactly its pairs and no empty set; adding and removing keep it so for the
relation with the pairs added and removed (`Exact.addAll`, `Exact.removeAll`).
-/

namespace Agouti

/-- For every key the set of its values. -/
abbrev InverseIndex (Key Value : Type) [LinearOrder Key] := SortedMap Key (Finset Value)

namespace InverseIndex

variable {Key Value : Type} [LinearOrder Key]

/-- The set of a key; a key without one has no values. -/
def values (index : InverseIndex Key Value) (key : Key) : Finset Value :=
  (index.lookup key).getD ∅

theorem exists_lookup_iff (index : InverseIndex Key Value) (key : Key) (value : Value) :
    (∃ set, index.lookup key = some set ∧ value ∈ set) ↔ value ∈ index.values key := by
  rw [values]
  cases index.lookup key with
  | none => simp
  | some set => simp

/-- The index holds exactly the pairs of the relation, and no empty set. -/
structure Exact (index : InverseIndex Key Value) (relation : Key → Value → Prop) : Prop where
  holds : ∀ key value, value ∈ index.values key ↔ relation key value
  nonempty : ∀ key values, index.lookup key = some values → values.Nonempty

theorem exact_empty : Exact (SortedMap.empty : InverseIndex Key Value) fun _ _ => False :=
  ⟨fun _ _ => iff_of_false (Finset.notMem_empty _) id, fun _ _ found => by contradiction⟩

variable {index : InverseIndex Key Value} {relation : Key → Value → Prop}

/-- An index is exact for every relation with the same pairs. -/
theorem Exact.congr {other : Key → Value → Prop} (exact : index.Exact relation)
    (same : ∀ key value, relation key value ↔ other key value) :
    index.Exact other :=
  ⟨fun key value => (exact.holds key value).trans (same key value), exact.nonempty⟩

theorem values_set (index : InverseIndex Key Value) (key other : Key) (set : Finset Value) :
    values (index.set key set) other = if other = key then set else index.values other := by
  rw [values, SortedMap.lookup_set]
  split
  · rfl
  · rfl

theorem values_erase (index : InverseIndex Key Value) (key other : Key) :
    values (index.erase key) other = if other = key then ∅ else index.values other := by
  rw [values, SortedMap.lookup_erase]
  split
  · rfl
  · rfl

variable [DecidableEq Value]

/-- Add a value under a key, as `index[key].insert(value)`. -/
def add (value : Value) (index : InverseIndex Key Value) (key : Key) : InverseIndex Key Value :=
  index.set key (insert value (index.values key))

/-- Remove a value from the set of a key, and the key with its last value. -/
def remove (value : Value) (index : InverseIndex Key Value) (key : Key) :
    InverseIndex Key Value :=
  match index.lookup key with
  | none => index
  | some values =>
    let values := values.erase value
    if values = ∅ then index.erase key else index.set key values

theorem Exact.add (exact : index.Exact relation) (value : Value) (key : Key) :
    (index.add value key).Exact fun k v => relation k v ∨ k = key ∧ v = value := by
  constructor
  · intro k v
    rw [← exact.holds, InverseIndex.add, values_set]
    split
    case isTrue here => rw [Finset.mem_insert, here, or_comm, eq_self, true_and]
    case isFalse other =>
        constructor
        · exact .inl
        · exact fun either => either.resolve_right fun same => other same.1
  · intro k values found
    rw [InverseIndex.add, SortedMap.lookup_set] at found
    split at found
    · rw [← Option.some.inj found]
      exact Finset.insert_nonempty _ _
    · exact exact.nonempty k values found

theorem values_remove (value : Value) (index : InverseIndex Key Value) (key other : Key) :
    values (index.remove value key) other =
      if other = key then (index.values key).erase value else index.values other := by
  unfold remove
  cases found : index.lookup key with
  | none =>
    dsimp only
    split
    case isTrue here =>
        rw [here, values, found]
        rfl
    case isFalse => rfl
  | some set =>
    have here : index.values key = set := by
      rw [values, found]
      rfl
    dsimp only
    split
    case isTrue empty => rw [values_erase, here, empty]
    case isFalse => rw [values_set, here]

theorem Exact.remove (exact : index.Exact relation) (value : Value) (key : Key) :
    (index.remove value key).Exact fun k v => relation k v ∧ ¬(k = key ∧ v = value) := by
  constructor
  · intro k v
    rw [← exact.holds, values_remove]
    split
    case isTrue here => rw [Finset.mem_erase, here, and_comm, eq_self, true_and]
    case isFalse other =>
        exact ⟨fun member => ⟨member, fun same => other same.1⟩, And.left⟩
  · intro k others present
    unfold InverseIndex.remove at present
    split at present
    · exact exact.nonempty k others present
    · dsimp only at present
      split at present
      case isTrue =>
          rw [SortedMap.lookup_erase] at present
          split at present
          · contradiction
          · exact exact.nonempty k others present
      case isFalse nonempty =>
          rw [SortedMap.lookup_set] at present
          split at present
          · rw [← Option.some.inj present]
            exact Finset.nonempty_iff_ne_empty.mpr nonempty
          · exact exact.nonempty k others present

/-- A value is added under several keys, one after the other. -/
theorem Exact.addAll (exact : index.Exact relation) (value : Value) (keys : List Key) :
    (keys.foldl (InverseIndex.add value) index).Exact fun k v =>
      relation k v ∨ k ∈ keys ∧ v = value := by
  induction keys generalizing index relation with
  | nil => exact exact.congr fun k v => by simp
  | cons key keys ih =>
    refine (ih (exact.add value key)).congr fun k v => ?_
    rw [List.mem_cons, or_and_right, or_assoc]

/-- A value is removed from several keys, one after the other. -/
theorem Exact.removeAll (exact : index.Exact relation) (value : Value) (keys : List Key) :
    (keys.foldl (InverseIndex.remove value) index).Exact fun k v =>
      relation k v ∧ ¬(k ∈ keys ∧ v = value) := by
  induction keys generalizing index relation with
  | nil => exact exact.congr fun k v => by simp
  | cons key keys ih =>
    refine (ih (exact.remove value key)).congr fun k v => ?_
    rw [List.mem_cons, or_and_right, not_or, and_assoc]

end InverseIndex

end Agouti
