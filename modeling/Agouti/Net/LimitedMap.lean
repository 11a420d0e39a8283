import Agouti.Library.Outcome
import Agouti.Library.SortedMultimap
import Mathlib.Data.List.Induction

/-! # Maps of limited size

`limitedmap` of `limitedmap.h`: a map, and a multimap from the values to iterators into it, which are
keys here. An insertion compares the size behind it with the maximum by equality and drops an
element before the new one is entered into the multimap. So a map with maximum 1 looks for the first
entry of an empty multimap, a map that is full (behind `max_size`) grows without a limit, and any
other stays one below its maximum. The container keeps its promises in exactly those runs in which
every new element finds room (`limitedmap_promises_iff`).
-/

namespace Agouti

open Outcome List Option

/-- Why a call has no result. -/
inductive LimitedMapFault where
  /-- `rmap.begin()` of an empty multimap is used -/
  | emptyRmap
  /-- an iterator to no element is used -/
  | noElement
  /-- `assert(0)` -/
  | assertion
  deriving DecidableEq, Repr

/-- A map of bounded size. -/
structure LimitedMap (K V : Type) [LinearOrder K] [LinearOrder V] where
  map : SortedMap K V
  rmap : SortedMultimap V K
  nMaxSize : Nat

/-- The calls that change a `limitedmap`. -/
inductive LimitedMapCall (K V : Type) where
  | insert (x : K × V)
  | erase (k : K)
  /-- with an iterator to the element of a key -/
  | update (k : K) (v : V)
  | maxSize (s : Nat)
  deriving DecidableEq, Repr

namespace LimitedMap

variable {K V : Type} [LinearOrder K] [LinearOrder V]

abbrev LimitedMapM := Except LimitedMapFault

def new (nMaxSizeIn : Nat) : LimitedMap K V := ⟨.empty, .empty, nMaxSizeIn⟩

section

variable (m : LimitedMap K V)

/-- `map.erase(rmap.begin()->second); rmap.erase(rmap.begin());` -/
def dropFirst : LimitedMapM (LimitedMap K V) :=
  match m.rmap.first with
  | none => .error .emptyRmap
  | some (v, k) =>
    if (m.map.lookup k).isSome then
      .ok { m with
        map := m.map.erase k
        rmap := m.rmap.erase (v, k) }
    else .error .noElement

def insert (x : K × V) : LimitedMapM (LimitedMap K V) :=
  if (m.map.lookup x.1).isSome then .ok m
  else do
    let m := { m with map := m.map.set x.1 x.2 }
    let m ← if m.nMaxSize ≠ 0 ∧ m.map.size = m.nMaxSize then m.dropFirst else .ok m
    .ok { m with rmap := m.rmap.insert x.2 x.1 }

def erase (k : K) : LimitedMapM (LimitedMap K V) :=
  match m.map.lookup k with
  | none => .ok m
  | some v =>
    if (v, k) ∈ m.rmap.equalRange v then
      .ok { m with
        map := m.map.erase k
        rmap := m.rmap.erase (v, k) }
    else .error .assertion

def update (k : K) (v : V) : LimitedMapM (LimitedMap K V) :=
  match m.map.lookup k with
  | none => .ok m
  | some old =>
    if (old, k) ∈ m.rmap.equalRange old then
      .ok { m with
        map := m.map.set k v
        rmap := (m.rmap.erase (old, k)).insert v k }
    else .error .assertion

/-- The loop of `max_size`; every turn erases an element, so the size is enough fuel. -/
def dropDownTo (s : Nat) : Nat → LimitedMap K V → LimitedMapM (LimitedMap K V)
  | 0, m => .ok m
  | fuel + 1, m => if s < m.map.size then m.dropFirst >>= dropDownTo s fuel else .ok m

/-- `max_size(size_type s)`. -/
def maxSize (s : Nat) : LimitedMapM (LimitedMap K V) := do
  let m ← if s ≠ 0 then dropDownTo s m.map.size m else .ok m
  .ok { m with nMaxSize := s }

def call : LimitedMapCall K V → LimitedMapM (LimitedMap K V)
  | .insert x => m.insert x
  | .erase k => m.erase k
  | .update k v => m.update k v
  | .maxSize s => m.maxSize s

def run (calls : List (LimitedMapCall K V)) : LimitedMapM (LimitedMap K V) :=
  calls.foldlM (fun m next => m.call next) m

end

/-! ## What the container promises -/

/-- `rmap` has one entry for each element, and the size is at most the maximum; without a maximum
`nMaxSize` is zero. -/
structure Sound (m : LimitedMap K V) : Prop where
  mirrors : m.rmap.Mirrors m.map
  limited : m.nMaxSize ≠ 0 → m.map.size ≤ m.nMaxSize

/-- A new key finds room. -/
def Room (m : LimitedMap K V) : LimitedMapCall K V → Prop
  | .insert x => m.map.lookup x.1 = none →
      m.nMaxSize = 0 ∨ (m.nMaxSize ≠ 1 ∧ m.map.size < m.nMaxSize)
  | _ => True

/-- Among elements with keys of their own, the `nMaxSize` ones with the highest values are kept. -/
structure KeepsHighest (nMaxSize : Nat) (given kept : List (K × V)) : Prop where
  subset : kept ⊆ given
  count : kept.length = if nMaxSize = 0 then given.length else min nMaxSize given.length
  highest : ∀ here ∈ kept, ∀ gone ∈ given, gone ∉ kept → gone.2 ≤ here.2

variable {m after : LimitedMap K V}

theorem sound_new (nMaxSizeIn : Nat) : Sound (new nMaxSizeIn : LimitedMap K V) :=
  ⟨SortedMultimap.mirrors_empty, fun _ => Nat.zero_le _⟩

/-! ## One call -/

theorem dropFirst_mirrors (mirrors : m.rmap.Mirrors m.map) (filled : m.map.size ≠ 0) :
    ∃ after, m.dropFirst = .ok after ∧ after.rmap.Mirrors after.map ∧
      after.map.size + 1 = m.map.size ∧ after.nMaxSize = m.nMaxSize := by
  rcases mirrors.first_eq with ⟨-, empty⟩ | ⟨v, k, first, found⟩
  · exact absurd empty filled
  · refine ⟨{ m with
      map := m.map.erase k
      rmap := m.rmap.erase (v, k) }, ?_, mirrors.erase found, SortedMap.size_erase found, rfl⟩
    rw [dropFirst, first]
    simp only [found, isSome_some, if_true]

theorem dropDownTo_mirrors (s fuel : Nat) (mirrors : m.rmap.Mirrors m.map)
    (enough : m.map.size ≤ s + fuel) :
    ∃ after, dropDownTo s fuel m = .ok after ∧ after.rmap.Mirrors after.map ∧
      after.map.size ≤ s := by
  induction fuel generalizing m with
  | zero => exact ⟨m, rfl, mirrors, enough⟩
  | succ fuel ih =>
    unfold dropDownTo
    split
    · rename_i above
      obtain ⟨less, dropped, mirrorsLess, size, -⟩ := dropFirst_mirrors mirrors (by omega)
      rw [dropped]
      exact ih mirrorsLess (by omega)
    · rename_i within
      exact ⟨m, rfl, mirrors, not_lt.mp within⟩

theorem mem_equalRange (mirrors : m.rmap.Mirrors m.map) {k : K} {v : V}
    (found : m.map.lookup k = some v) : (v, k) ∈ m.rmap.equalRange v :=
  mem_filter.mpr ⟨mirrors.mem_iff.mpr found, decide_eq_true rfl⟩

theorem insert_below {x : K × V} (fresh : m.map.lookup x.1 = none)
    (below : m.nMaxSize = 0 ∨ m.map.size + 1 ≠ m.nMaxSize) :
    m.insert x = .ok { m with
      map := m.map.set x.1 x.2
      rmap := m.rmap.insert x.2 x.1 } := by
  have stays : ¬(m.nMaxSize ≠ 0 ∧ (m.map.set x.1 x.2).size = m.nMaxSize) := by
    rw [SortedMap.size_set x.2 fresh]
    tauto
  simp only [insert, fresh, isSome_none, Bool.false_eq_true, if_false, stays]
  rfl

/-- A new element at the maximum makes the first entry of the multimap go before its own comes. -/
theorem insert_at {x : K × V} (fresh : m.map.lookup x.1 = none)
    (here : m.nMaxSize ≠ 0 ∧ m.map.size + 1 = m.nMaxSize) :
    m.insert x = (do
      let m ← dropFirst { m with map := m.map.set x.1 x.2 }
      .ok { m with rmap := m.rmap.insert x.2 x.1 }) := by
  have drops : m.nMaxSize ≠ 0 ∧ (m.map.set x.1 x.2).size = m.nMaxSize := by
    rwa [SortedMap.size_set x.2 fresh]
  simp only [insert, fresh, isSome_none, Bool.false_eq_true, if_false, drops,
    not_false_iff, ne_eq, and_self, if_true]

theorem insert_at_mirrors {x : K × V} (mirrors : m.rmap.Mirrors m.map)
    (fresh : m.map.lookup x.1 = none) (here : m.map.size + 1 = m.nMaxSize) (large : m.nMaxSize ≠ 1) :
    ∃ after, m.insert x = .ok after ∧ after.rmap.Mirrors after.map ∧
      after.map.size + 1 = m.nMaxSize ∧ after.nMaxSize = m.nMaxSize ∧
      ∀ k, after.map.lookup k ≠ none → k = x.1 ∨ m.map.lookup k ≠ none := by
  rcases mirrors.first_eq with ⟨-, empty⟩ | ⟨v, k, first, found⟩
  · omega
  have apart : k ≠ x.1 := by
    rintro rfl
    rw [fresh] at found
    cases found
  have foundAfter : (m.map.set x.1 x.2).lookup k = some v := by
    rw [SortedMap.lookup_set, if_neg apart, found]
  have swapped : (m.map.set x.1 x.2).erase k = (m.map.erase k).set x.1 x.2 := by
    apply SortedMap.ext_lookup
    intro other
    simp only [SortedMap.lookup_erase, SortedMap.lookup_set]
    by_cases same : other = k
    · rw [if_pos same, if_neg (same ▸ apart), if_pos same]
    · rw [if_neg same, if_neg same]
  have freshAfter : (m.map.erase k).lookup x.1 = none := by
    rw [SortedMap.lookup_erase, if_neg (Ne.symm apart), fresh]
  have dropped : dropFirst { m with map := m.map.set x.1 x.2 } =
      .ok { m with
        map := (m.map.erase k).set x.1 x.2
        rmap := m.rmap.erase (v, k) } := by
    simp only [dropFirst, first, foundAfter, isSome_some, if_true, swapped]
  refine ⟨{ m with
    map := (m.map.erase k).set x.1 x.2
    rmap := (m.rmap.erase (v, k)).insert x.2 x.1 }, ?_, (mirrors.erase found).set x.2 freshAfter,
    ?_, rfl, fun other there => ?_⟩
  · rw [insert_at fresh ⟨by omega, here⟩, dropped]
    rfl
  · have less := SortedMap.size_erase found
    simp only [SortedMap.size_set x.2 freshAfter]
    omega
  · rw [SortedMap.lookup_set, SortedMap.lookup_erase] at there
    split at there
    · rename_i same
      exact .inl same
    · split at there
      · exact absurd rfl there
      · exact .inr there

/-- **One call.** A call in which a new element finds room keeps the promises. -/
theorem Sound.call (sound : Sound m) {next : LimitedMapCall K V} (room : Room m next) :
    ∃ after, m.call next = .ok after ∧ Sound after := by
  obtain ⟨mirrors, limited⟩ := sound
  cases next with
  | insert x =>
    cases found : m.map.lookup x.1 with
    | some v =>
      refine ⟨m, ?_, mirrors, limited⟩
      simp only [LimitedMap.call, insert, found, isSome_some, if_true]
    | none =>
      by_cases stays : m.nMaxSize = 0 ∨ m.map.size + 1 ≠ m.nMaxSize
      · refine ⟨_, insert_below found stays, mirrors.set x.2 found, fun bounded => ?_⟩
        simp only [SortedMap.size_set x.2 found]
        have free := (room found).resolve_left bounded
        exact free.2
      · obtain ⟨bounded, here⟩ := not_or.mp stays
        have free := (room found).resolve_left bounded
        obtain ⟨after, inserted, mirrorsAfter, size, same, -⟩ :=
          insert_at_mirrors mirrors found (not_not.mp here) free.1
        refine ⟨after, inserted, mirrorsAfter, fun _ => ?_⟩
        omega
  | erase k =>
    cases found : m.map.lookup k with
    | none =>
      refine ⟨m, ?_, mirrors, limited⟩
      simp only [LimitedMap.call, erase, found]
    | some v =>
      refine ⟨{ m with
        map := m.map.erase k
        rmap := m.rmap.erase (v, k) }, ?_, mirrors.erase found, fun bounded => ?_⟩
      · simp only [LimitedMap.call, erase, found, mem_equalRange mirrors found, if_true]
      · have less := SortedMap.size_erase found
        exact (Nat.le_of_succ_le less.le).trans (limited bounded)
  | update k v =>
    cases found : m.map.lookup k with
    | none =>
      refine ⟨m, ?_, mirrors, limited⟩
      simp only [LimitedMap.call, update, found]
    | some old =>
      refine ⟨{ m with
        map := m.map.set k v
        rmap := (m.rmap.erase (old, k)).insert v k }, ?_, mirrors.update v found,
        fun bounded => ?_⟩
      · simp only [LimitedMap.call, update, found, mem_equalRange mirrors found, if_true]
      · exact (SortedMap.size_update v found).le.trans (limited bounded)
  | maxSize s =>
    by_cases bounded : s = 0
    · refine ⟨{ m with nMaxSize := s }, ?_, mirrors, fun positive => absurd bounded positive⟩
      simp only [LimitedMap.call, maxSize, bounded, ne_eq, not_true_eq_false, if_false]
      rfl
    · obtain ⟨less, dropped, mirrorsLess, size⟩ :=
        dropDownTo_mirrors s m.map.size mirrors (Nat.le_add_left _ s)
      refine ⟨{ less with nMaxSize := s }, ?_, mirrorsLess, fun _ => size⟩
      simp only [LimitedMap.call, maxSize, ne_eq, bounded, not_false_iff, if_true, dropped]
      rfl

/-- An insertion that keeps the map sound had room. -/
theorem Sound.room (sound : Sound m) {next : LimitedMapCall K V}
    (called : m.call next = .ok after) (soundAfter : Sound after) : Room m next := by
  obtain ⟨mirrors, limited⟩ := sound
  cases next with
  | insert x =>
    intro fresh
    by_contra full
    obtain ⟨bounded, tight⟩ := not_or.mp full
    have within := limited bounded
    by_cases here : m.map.size + 1 = m.nMaxSize
    · -- the maximum is 1, and the multimap is empty
      have empty : m.map.size = 0 := by
        by_contra filled
        exact tight ⟨by omega, by omega⟩
      have first : m.rmap.first = none := by
        rcases mirrors.first_eq with ⟨none, -⟩ | ⟨v, k, -, found⟩
        · exact none
        · have less := SortedMap.size_erase found
          omega
      have fault : m.call (.insert x) = .error .emptyRmap := by
        simp only [LimitedMap.call, insert_at fresh ⟨bounded, here⟩, dropFirst, first]
        rfl
      rw [fault] at called
      cases called
    · have grown : m.call (.insert x) = .ok { m with
          map := m.map.set x.1 x.2
          rmap := m.rmap.insert x.2 x.1 } := insert_below fresh (.inr here)
      rw [grown] at called
      obtain rfl := Except.ok.inj called
      have size := soundAfter.limited bounded
      simp only [SortedMap.size_set x.2 fresh] at size
      exact tight ⟨by omega, by omega⟩
  | erase _ | update _ _ | maxSize _ => trivial

/-! ## Runs -/

theorem run_snoc (m : LimitedMap K V) (calls : List (LimitedMapCall K V))
    (next : LimitedMapCall K V) :
    m.run (calls ++ [next]) = m.run calls >>= fun m => m.call next := by
  rw [run, foldlM_append]
  congr 1
  funext m
  simp only [foldlM_cons, foldlM_nil, bind_pure]

theorem sound_iff (nMaxSizeIn : Nat) (calls : List (LimitedMapCall K V)) :
    (∀ done, done <+: calls → ∃ m, (new nMaxSizeIn).run done = .ok m ∧ Sound m) ↔
      ∀ done next m, done ++ [next] <+: calls → (new nMaxSizeIn).run done = .ok m →
        Room m next := by
  constructor
  · intro sound done next m within reached
    obtain ⟨before, same, soundBefore⟩ := sound done ((prefix_append _ _).trans within)
    obtain ⟨after, called, soundAfter⟩ := sound _ within
    rw [reached] at same
    obtain rfl := Except.ok.inj same
    rw [run_snoc, reached] at called
    exact soundBefore.room called soundAfter
  · intro room done
    induction done using List.reverseRecOn with
    | nil => exact fun _ => ⟨_, rfl, sound_new nMaxSizeIn⟩
    | append_singleton done next ih =>
      intro within
      obtain ⟨m, reached, sound⟩ := ih ((prefix_append _ _).trans within)
      obtain ⟨after, called, soundAfter⟩ := sound.call (room done next m within reached)
      refine ⟨after, ?_, soundAfter⟩
      rw [run_snoc, reached]
      exact called

/-! ## Insertions only -/

theorem fresh_of_within {given : List (K × V)} {x : K × V}
    (within : ∀ k, m.map.lookup k ≠ none → k ∈ given.map Prod.fst)
    (distinct : ((given ++ [x]).map Prod.fst).Nodup) : m.map.lookup x.1 = none := by
  by_contra there
  rw [map_append, nodup_append] at distinct
  exact distinct.2.2 _ (within x.1 there) x.1 (by simp) rfl

theorem run_insert_below {nMaxSizeIn : Nat} (given : List (K × V))
    (distinct : (given.map Prod.fst).Nodup)
    (below : nMaxSizeIn = 0 ∨ given.length < nMaxSizeIn) :
    ∃ m, (new nMaxSizeIn).run (given.map .insert) = .ok m ∧ m.map.entries.Perm given ∧
      m.nMaxSize = nMaxSizeIn := by
  induction given using List.reverseRecOn with
  | nil => exact ⟨_, rfl, .refl _, rfl⟩
  | append_singleton given x ih =>
    rw [length_append, length_singleton] at below
    have before : (given.map Prod.fst).Nodup := by
      rw [map_append, nodup_append] at distinct
      exact distinct.1
    obtain ⟨m, reached, kept, same⟩ := ih before (by omega)
    have fresh : m.map.lookup x.1 = none := by
      refine fresh_of_within (fun k there => ?_) distinct
      obtain ⟨v, found⟩ := ne_none_iff_exists'.mp there
      have member := kept.mem_iff.mp (SortedMap.mem_entries_iff.mpr found)
      exact mem_map.mpr ⟨(k, v), member, rfl⟩
    have size : m.map.size = given.length := kept.length_eq
    refine ⟨{ m with
      map := m.map.set x.1 x.2
      rmap := m.rmap.insert x.2 x.1 }, ?_, ?_, same⟩
    · rw [map_append, map_singleton, run_snoc, reached]
      exact insert_below fresh (by omega)
    · have others : m.map.erase x.1 = m.map := by
        apply SortedMap.ext_lookup
        intro other
        rw [SortedMap.lookup_erase]
        split
        case isTrue same => rw [same, fresh]
        case isFalse => rfl
      have added := m.map.perm_set x.1 x.2
      rw [others] at added
      exact (added.trans (kept.cons x)).trans (perm_append_singleton x given).symm

/-- With a maximum above 1 at most one less than the maximum is kept. -/
theorem run_insert_size {nMaxSizeIn : Nat} (large : 2 ≤ nMaxSizeIn) (given : List (K × V))
    (distinct : (given.map Prod.fst).Nodup) :
    ∃ m, (new nMaxSizeIn).run (given.map .insert) = .ok m ∧ m.rmap.Mirrors m.map ∧
      m.map.size < nMaxSizeIn ∧ m.nMaxSize = nMaxSizeIn ∧
      ∀ k, m.map.lookup k ≠ none → k ∈ given.map Prod.fst := by
  induction given using List.reverseRecOn with
  | nil =>
    refine ⟨_, rfl, SortedMultimap.mirrors_empty, ?_, rfl, fun k there => absurd rfl there⟩
    exact Nat.lt_of_lt_of_le Nat.zero_lt_two large
  | append_singleton given x ih =>
    have before : (given.map Prod.fst).Nodup := by
      rw [map_append, nodup_append] at distinct
      exact distinct.1
    obtain ⟨m, reached, mirrors, size, same, within⟩ := ih before
    have fresh := fresh_of_within within distinct
    rw [map_append, map_singleton, run_snoc, reached, map_append,
      map_singleton]
    by_cases here : m.map.size + 1 = m.nMaxSize
    · obtain ⟨after, inserted, mirrorsAfter, less, sameAfter, keys⟩ :=
        insert_at_mirrors mirrors fresh here (by omega)
      refine ⟨after, inserted, mirrorsAfter, by omega, sameAfter.trans same, fun k there => ?_⟩
      rcases keys k there with rfl | old
      · exact mem_append_right _ (mem_singleton_self _)
      · exact mem_append_left _ (within k old)
    · refine ⟨_, insert_below fresh (.inr here), mirrors.set x.2 fresh, ?_, same,
        fun k there => ?_⟩
      · simp only [SortedMap.size_set x.2 fresh]
        omega
      · simp only [SortedMap.lookup_set] at there
        split at there
        · rename_i new
          rw [new]
          exact mem_append_right _ (mem_singleton_self _)
        · exact mem_append_left _ (within k there)

theorem run_insert_one (x : K × V) (given : List (K × V)) :
    (new 1).run ((x :: given).map .insert) = .error .emptyRmap := by
  have first : (new 1).call (.insert x) = .error .emptyRmap := by
    have room : (new 1 : LimitedMap K V).nMaxSize ≠ 0 ∧
        (new 1 : LimitedMap K V).map.size + 1 = (new 1 : LimitedMap K V).nMaxSize :=
      ⟨Nat.one_ne_zero, rfl⟩
    change insert (new 1) x = _
    rw [insert_at rfl room]
    rfl
  rw [map_cons, run, foldlM_cons, first]
  rfl

theorem keepsHighest_iff {nMaxSizeIn : Nat} {given : List (K × V)}
    (distinct : (given.map Prod.fst).Nodup) :
    (∃ m, (new nMaxSizeIn).run (given.map .insert) = .ok m ∧
        KeepsHighest nMaxSizeIn given m.map.entries) ↔
      nMaxSizeIn = 0 ∨ given.length < nMaxSizeIn := by
  constructor
  · rintro ⟨m, reached, highest⟩
    by_contra full
    obtain ⟨bounded, many⟩ := not_or.mp full
    rcases Nat.lt_or_ge nMaxSizeIn 2 with single | large
    · obtain rfl : nMaxSizeIn = 1 := by omega
      cases given with
      | nil => exact many Nat.zero_lt_one
      | cons x given =>
        rw [run_insert_one] at reached
        cases reached
    · obtain ⟨same, run, -, less, -⟩ := run_insert_size large given distinct
      rw [reached] at run
      obtain rfl := Except.ok.inj run
      have count := highest.count
      rw [if_neg bounded] at count
      change m.map.size = _ at count
      omega
  · intro below
    obtain ⟨m, reached, kept, -⟩ := run_insert_below given distinct below
    refine ⟨m, reached, kept.subset, ?_, fun here _ gone member outside => ?_⟩
    · rw [kept.length_eq]
      split
      · rfl
      · rename_i bounded
        exact (Nat.min_eq_right (below.resolve_left bounded).le).symm
    · exact absurd (kept.mem_iff.mpr member) outside

/-- **When a limited map keeps its promises.** In every run each call returns and each state has one
entry of `rmap` for each element and no more elements than the maximum if and only if every new
element finds room: there is no maximum, or the maximum is not 1 and the size is below it. Behind
insertions of distinct keys the elements with the highest values are there, as many as the maximum
allows, if and only if there is no maximum or fewer elements than it were inserted. -/
theorem limitedmap_promises_iff (nMaxSizeIn : Nat) :
    (∀ calls : List (LimitedMapCall K V),
      (∀ done, done <+: calls → ∃ m, (new nMaxSizeIn).run done = .ok m ∧ Sound m) ↔
        ∀ done next m, done ++ [next] <+: calls → (new nMaxSizeIn).run done = .ok m →
          Room m next) ∧
    ∀ given : List (K × V), (given.map Prod.fst).Nodup →
      ((∃ m, (new nMaxSizeIn).run (given.map .insert) = .ok m ∧
          KeepsHighest nMaxSizeIn given m.map.entries) ↔
        nMaxSizeIn = 0 ∨ given.length < nMaxSizeIn) :=
  ⟨sound_iff nMaxSizeIn, fun _ distinct => keepsHighest_iff distinct⟩

/-- Two elements below a maximum of three. -/
theorem limitedmap_promises_three :
    ∃ m, (new 3).run [.insert (1, 5), .insert (2, 1)] = .ok m ∧
      KeepsHighest 3 [(1, 5), (2, 1)] m.map.entries :=
  ((limitedmap_promises_iff 3).2 [(1, 5), (2, 1)] (by decide)).mpr (.inr (by decide))

/-- The promises do not hold in every run. -/
theorem limitedmap_not_promised :
    (¬ ∀ (nMaxSizeIn : Nat) (calls : List (LimitedMapCall Nat Nat)),
      ∃ m, (new nMaxSizeIn).run calls = .ok m ∧ m.rmap.Mirrors m.map) ∧
    (¬ ∀ (nMaxSizeIn : Nat) (calls : List (LimitedMapCall Nat Nat)) (m : LimitedMap Nat Nat),
      (new nMaxSizeIn).run calls = .ok m → m.nMaxSize ≠ 0 → m.map.size ≤ m.nMaxSize) ∧
    ¬ ∀ (nMaxSizeIn : Nat) (given : List (Nat × Nat)) (m : LimitedMap Nat Nat),
      (given.map Prod.fst).Nodup → (new nMaxSizeIn).run (given.map .insert) = .ok m →
        KeepsHighest nMaxSizeIn given m.map.entries := by
  refine ⟨fun claimed => ?_, fun claimed => ?_, fun claimed => ?_⟩
  · obtain ⟨m, returned, -⟩ := claimed 1 [.insert (1, 5)]
    cases returned
  · have within := claimed 0 [.insert (1, 5), .maxSize 1, .insert (2, 1)] _ rfl (by decide)
    exact absurd within (by decide)
  · have highest := claimed 2 [(1, 5), (2, 1)] _ (by decide) rfl
    exact absurd highest.count (by decide)

end LimitedMap

end Agouti
