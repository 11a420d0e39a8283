import Agouti.Library.InverseIndex
import Agouti.Primitives.Serialize

/-! # Orphan transactions

`mapOrphanTransactions` holds transactions whose parents are missing, and
`mapOrphanTransactionsByPrev` the hashes of the orphans that spend from a transaction. Whatever is
added, erased and evicted, in whatever order, the second map is exactly the inverse of the first
(`OrphanMaps.Exact`, `orphans_of_run`).
-/

namespace Agouti

open List

abbrev NodeId := Int

/-- A transaction and who sent it. -/
structure COrphanTx where
  tx : CTransaction
  fromPeer : NodeId

/-- `mapOrphanTransactions` and `mapOrphanTransactionsByPrev`. -/
structure OrphanMaps where
  mapOrphanTransactions : SortedMap Uint256 COrphanTx
  mapOrphanTransactionsByPrev : InverseIndex Uint256 Uint256

/-- The hashes of the transactions whose outputs a transaction spends, input by input. -/
def CTransaction.prevHashes (tx : CTransaction) : List Uint256 :=
  tx.vin.map fun txin => txin.prevout.hash

namespace OrphanMaps

def empty : OrphanMaps := ⟨.empty, .empty⟩

def eraseOrphanTx (maps : OrphanMaps) (hash : Uint256) : OrphanMaps :=
  match maps.mapOrphanTransactions.lookup hash with
  | none => maps
  | some orphan =>
    { mapOrphanTransactionsByPrev :=
        orphan.tx.prevHashes.foldl (InverseIndex.remove hash) maps.mapOrphanTransactionsByPrev
      mapOrphanTransactions := maps.mapOrphanTransactions.erase hash }

/-- The loop of `LimitOrphanTxSize`, with the random hashes it draws; the number of turns is
what it returns. Without an entry to erase, an iterator past the end would be read. -/
def limitLoop (randomhash : Nat → Uint256) (nMaxOrphans : Nat) :
    Nat → Nat → OrphanMaps → Option (OrphanMaps × Nat)
  | fuel, nEvicted, maps =>
    if nMaxOrphans < maps.mapOrphanTransactions.size then
      match fuel with
      | 0 => none
      | fuel + 1 =>
        let it := maps.mapOrphanTransactions.lowerBound (randomhash nEvicted)
        match it.or maps.mapOrphanTransactions.first with
        | none => none
        | some hash =>
          limitLoop randomhash nMaxOrphans fuel (nEvicted + 1) (maps.eraseOrphanTx hash)
    else some (maps, nEvicted)

def limitOrphanTxSize (randomhash : Nat → Uint256) (nMaxOrphans : Nat) (maps : OrphanMaps) :
    Option (OrphanMaps × Nat) :=
  limitLoop randomhash nMaxOrphans maps.mapOrphanTransactions.size 0 maps

variable [Crypto]

def addOrphanTx (maps : OrphanMaps) (tx : CTransaction) (peer : NodeId) : OrphanMaps × Bool :=
  let hash := tx.getHash
  if (maps.mapOrphanTransactions.lookup hash).isSome then (maps, false)
  else if 5000 < (Serialize.transaction tx).length then (maps, false)
  else
    ({ mapOrphanTransactions := maps.mapOrphanTransactions.set hash ⟨tx, peer⟩
       mapOrphanTransactionsByPrev :=
          tx.prevHashes.foldl (InverseIndex.add hash) maps.mapOrphanTransactionsByPrev }, true)

/-- The loop of `EraseOrphansFor` from the entry an iterator points to; an iterator whose
entry is erased must not be followed. -/
def eraseLoop (peer : NodeId) : Nat → Option Uint256 → OrphanMaps → Option OrphanMaps
  | _, none, maps => some maps
  | 0, some _, _ => none
  | fuel + 1, some maybeErase, maps =>
    match maps.mapOrphanTransactions.lookup maybeErase with
    | none => none
    | some orphan =>
      let iter := maps.mapOrphanTransactions.after maybeErase
      eraseLoop peer fuel iter
        (if orphan.fromPeer = peer then maps.eraseOrphanTx orphan.tx.getHash else maps)

def eraseOrphansFor (peer : NodeId) (maps : OrphanMaps) : Option OrphanMaps :=
  eraseLoop peer maps.mapOrphanTransactions.size maps.mapOrphanTransactions.first maps

/-- The orphan spends an output of `prev`. -/
def Spends (maps : OrphanMaps) (prev hash : Uint256) : Prop :=
  ∃ orphan, maps.mapOrphanTransactions.lookup hash = some orphan ∧ prev ∈ orphan.tx.prevHashes

/-- Every orphan is under its own hash, and the second map is the inverse of the first. -/
structure Exact (maps : OrphanMaps) : Prop where
  keyed : ∀ hash orphan, maps.mapOrphanTransactions.lookup hash = some orphan →
    orphan.tx.getHash = hash
  inverse : maps.mapOrphanTransactionsByPrev.Exact maps.Spends

theorem exact_empty : empty.Exact := by
  refine ⟨fun hash orphan found => by contradiction, ?_⟩
  refine InverseIndex.exact_empty.congr fun prev hash => ?_
  exact ⟨False.elim, fun ⟨orphan, found, _⟩ => by contradiction⟩

/-! ## Single transactions -/

variable {maps : OrphanMaps}

theorem Exact.addOrphanTx (exact : maps.Exact) (tx : CTransaction)
    (peer : NodeId) : (maps.addOrphanTx tx peer).1.Exact := by
  unfold OrphanMaps.addOrphanTx
  dsimp only
  split
  case isTrue => exact exact
  case isFalse fresh =>
  split
  case isTrue => exact exact
  case isFalse small =>
      rw [Option.not_isSome_iff_eq_none] at fresh
      constructor
      · intro hash orphan found
        rw [SortedMap.lookup_set] at found
        split at found
        case isTrue same =>
            rw [← Option.some.inj found]
            exact same.symm
        case isFalse => exact exact.keyed hash orphan found
      · refine (exact.inverse.addAll tx.getHash tx.prevHashes).congr fun prev hash => ?_
        unfold Spends
        simp only [SortedMap.lookup_set]
        by_cases same : hash = tx.getHash
        · subst same
          rw [fresh]
          simp
        · simp [same]

omit [Crypto] in
theorem eraseOrphanTx_eq (maps : OrphanMaps) (hash : Uint256) :
    (maps.eraseOrphanTx hash).mapOrphanTransactions.lookup =
      fun other => if other = hash then none else maps.mapOrphanTransactions.lookup other := by
  funext other
  unfold eraseOrphanTx
  cases found : maps.mapOrphanTransactions.lookup hash with
  | none =>
    dsimp only
    split
    case isTrue same => rw [same, found]
    case isFalse => rfl
  | some orphan => exact SortedMap.lookup_erase _ hash other

theorem Exact.eraseOrphanTx (exact : maps.Exact) (hash : Uint256) :
    (maps.eraseOrphanTx hash).Exact := by
  have held := eraseOrphanTx_eq maps hash
  constructor
  · intro other orphan found
    rw [held] at found
    dsimp only at found
    split at found
    · contradiction
    · exact exact.keyed other orphan found
  · have relation : ∀ prev other, (maps.eraseOrphanTx hash).Spends prev other ↔
        maps.Spends prev other ∧ other ≠ hash := by
      intro prev other
      unfold Spends
      rw [held]
      by_cases same : other = hash
      · simp [same]
      · simp [same]
    have index : ∃ index : InverseIndex Uint256 Uint256,
        (maps.eraseOrphanTx hash).mapOrphanTransactionsByPrev = index ∧
          index.Exact fun prev other => maps.Spends prev other ∧ other ≠ hash := by
      unfold OrphanMaps.eraseOrphanTx
      cases found : maps.mapOrphanTransactions.lookup hash with
      | none =>
        refine ⟨_, rfl, exact.inverse.congr fun prev other => ?_⟩
        refine ⟨fun spends => ⟨spends, fun same => ?_⟩, And.left⟩
        obtain ⟨orphan, present, -⟩ := spends
        rw [same, found] at present
        contradiction
      | some orphan =>
        refine ⟨_, rfl, (exact.inverse.removeAll hash orphan.tx.prevHashes).congr ?_⟩
        intro prev other
        refine and_congr_right fun spends => not_congr ⟨And.right, fun same => ⟨?_, same⟩⟩
        obtain ⟨present, known, member⟩ := spends
        rw [same, found] at known
        rw [Option.some.inj known]
        exact member
    obtain ⟨index, same, exactly⟩ := index
    rw [same]
    exact exactly.congr fun prev other => (relation prev other).symm

/-! ## Eviction -/

omit [Crypto] in
theorem size_eraseOrphanTx {hash : Uint256} {orphan : COrphanTx}
    (found : maps.mapOrphanTransactions.lookup hash = some orphan) :
    (maps.eraseOrphanTx hash).mapOrphanTransactions.size + 1 =
      maps.mapOrphanTransactions.size := by
  unfold eraseOrphanTx
  rw [found]
  exact SortedMap.size_erase found

omit [Crypto] in
theorem limitLoop_ends (randomhash : Nat → Uint256) (nMaxOrphans fuel nEvicted : Nat)
    (maps : OrphanMaps) (enough : maps.mapOrphanTransactions.size ≤ fuel) :
    ∃ after count, limitLoop randomhash nMaxOrphans fuel nEvicted maps = some (after, count) ∧
      after.mapOrphanTransactions.size = min maps.mapOrphanTransactions.size nMaxOrphans ∧
      after.mapOrphanTransactions.size + count = maps.mapOrphanTransactions.size + nEvicted := by
  induction fuel generalizing maps nEvicted with
  | zero =>
    refine ⟨maps, nEvicted, ?_, by omega, rfl⟩
    rw [limitLoop, if_neg (by omega)]
  | succ fuel ih =>
    rw [limitLoop]
    split
    case isFalse few => exact ⟨maps, nEvicted, rfl, by omega, rfl⟩
    case isTrue many =>
        obtain ⟨hash, orphan, chosen, found⟩ : ∃ hash orphan,
            (maps.mapOrphanTransactions.lowerBound (randomhash nEvicted)).or
              maps.mapOrphanTransactions.first = some hash ∧
            maps.mapOrphanTransactions.lookup hash = some orphan := by
          cases bound : maps.mapOrphanTransactions.lowerBound (randomhash nEvicted) with
          | some hash =>
            obtain ⟨orphan, found⟩ := SortedMap.lookup_lowerBound bound
            exact ⟨hash, orphan, rfl, found⟩
          | none =>
            cases begins : maps.mapOrphanTransactions.first with
            | some hash =>
              obtain ⟨orphan, found⟩ := SortedMap.lookup_first begins
              exact ⟨hash, orphan, rfl, found⟩
            | none =>
              rw [SortedMap.first, Option.map_eq_none_iff, List.head?_eq_none_iff] at begins
              rw [SortedMap.size, begins, length_nil] at many
              omega
        have smaller := size_eraseOrphanTx found
        obtain ⟨after, count, ends, size, counted⟩ :=
          ih (nEvicted + 1) (maps.eraseOrphanTx hash) (by omega)
        dsimp only
        rw [chosen]
        exact ⟨after, count, ends, by omega, by omega⟩

theorem Exact.limitLoop {after : OrphanMaps} (exact : maps.Exact) {randomhash : Nat → Uint256}
    {nMaxOrphans fuel nEvicted count : Nat}
    (ends : limitLoop randomhash nMaxOrphans fuel nEvicted maps = some (after, count)) :
    after.Exact := by
  induction fuel generalizing maps nEvicted with
  | zero =>
    rw [OrphanMaps.limitLoop] at ends
    split at ends
    · contradiction
    · rw [← (Prod.mk.inj (Option.some.inj ends)).1]
      exact exact
  | succ fuel ih =>
    rw [OrphanMaps.limitLoop] at ends
    split at ends
    · dsimp only at ends
      split at ends
      · contradiction
      · exact ih (exact.eraseOrphanTx _) ends
    · rw [← (Prod.mk.inj (Option.some.inj ends)).1]
      exact exact

/-! ## Peers -/

theorem eraseLoop_eq (peer : NodeId) (rest : List (Uint256 × COrphanTx)) (exact : maps.Exact)
    (done : List (Uint256 × COrphanTx))
    (split : maps.mapOrphanTransactions.entries = done ++ rest) :
    ∃ after, eraseLoop peer rest.length (rest.head?.map Prod.fst) maps = some after ∧
      after.Exact ∧ after.mapOrphanTransactions.entries =
        done ++ rest.filter fun entry => decide (entry.2.fromPeer ≠ peer) := by
  induction rest generalizing maps done with
  | nil => exact ⟨maps, rfl, exact, split⟩
  | cons entry rest ih =>
    have member : entry ∈ maps.mapOrphanTransactions.entries := by
      rw [split]
      exact mem_append_right _ mem_cons_self
    have found := SortedMap.lookup_of_mem member
    have next := SortedMap.after_eq split
    rw [length_cons, List.head?_cons, Option.map_some, eraseLoop, found]
    dsimp only
    rw [next]
    by_cases own : entry.2.fromPeer = peer
    · have erased : (maps.eraseOrphanTx entry.1).mapOrphanTransactions.entries = done ++ rest := by
        rw [← SortedMap.entries_erase split, OrphanMaps.eraseOrphanTx, found]
      rw [if_pos own, exact.keyed _ _ found, filter_cons_of_neg (by simp [own])]
      exact ih (exact.eraseOrphanTx entry.1) done erased
    · rw [if_neg own, filter_cons_of_pos (by simp [own])]
      have further : maps.mapOrphanTransactions.entries = (done ++ [entry]) ++ rest := by
        rw [split, append_assoc, singleton_append]
      obtain ⟨after, ends, exactly, left⟩ := ih exact (done ++ [entry]) further
      refine ⟨after, ends, exactly, ?_⟩
      rw [left, append_assoc, singleton_append]

theorem Exact.eraseOrphansFor (exact : maps.Exact) (peer : NodeId) :
    ∃ after, eraseOrphansFor peer maps = some after ∧ after.Exact ∧
      ∀ hash orphan, after.mapOrphanTransactions.lookup hash = some orphan ↔
        maps.mapOrphanTransactions.lookup hash = some orphan ∧ orphan.fromPeer ≠ peer := by
  obtain ⟨after, ends, exactly, entries⟩ := eraseLoop_eq peer _ exact [] (nil_append _).symm
  refine ⟨after, ends, exactly, fun hash orphan => ?_⟩
  rw [← SortedMap.mem_entries_iff, entries, nil_append, mem_filter,
    SortedMap.mem_entries_iff, decide_eq_true_eq]

end OrphanMaps

/-- The maps that orphan handling reaches, whatever the transactions, peers, limits and random
hashes. -/
inductive OrphanRun [Crypto] : OrphanMaps → Prop
  | start : OrphanRun .empty
  | add {maps : OrphanMaps} (run : OrphanRun maps) (tx : CTransaction) (peer : NodeId) :
      OrphanRun (maps.addOrphanTx tx peer).1
  | erase {maps : OrphanMaps} (run : OrphanRun maps) (hash : Uint256) :
      OrphanRun (maps.eraseOrphanTx hash)
  | erasePeer {maps after : OrphanMaps} (run : OrphanRun maps) (peer : NodeId)
      (ends : OrphanMaps.eraseOrphansFor peer maps = some after) : OrphanRun after
  | limit {maps after : OrphanMaps} (run : OrphanRun maps) (randomhash : Nat → Uint256)
      (nMaxOrphans nEvicted : Nat)
      (ends : OrphanMaps.limitOrphanTxSize randomhash nMaxOrphans maps = some (after, nEvicted)) :
      OrphanRun after

theorem OrphanRun.exact [Crypto] {maps : OrphanMaps} (run : OrphanRun maps) : maps.Exact := by
  induction run with
  | start => exact OrphanMaps.exact_empty
  | add run tx peer ih => exact ih.addOrphanTx tx peer
  | erase run hash ih => exact ih.eraseOrphanTx hash
  | erasePeer run peer ends ih =>
    obtain ⟨after, result, exactly, -⟩ := ih.eraseOrphansFor peer
    rw [ends, Option.some.injEq] at result
    rw [result]
    exact exactly
  | limit run randomhash nMaxOrphans nEvicted ends ih => exact ih.limitLoop ends

/-- **The inverse map is exact.** In every run the orphans by parent are exactly those that
spend from it, and no set is empty; `EraseOrphansFor` ends and leaves the orphans of the
other peers and no others; and `LimitOrphanTxSize` ends for all maps and random hashes with
at most the given number of orphans. -/
theorem orphans_of_run [Crypto] :
    (∀ maps : OrphanMaps, OrphanRun maps →
      (∀ prev hash, (∃ hashes, maps.mapOrphanTransactionsByPrev.lookup prev = some hashes ∧
          hash ∈ hashes) ↔
        ∃ orphan, maps.mapOrphanTransactions.lookup hash = some orphan ∧
          ∃ txin ∈ orphan.tx.vin, txin.prevout.hash = prev) ∧
      (∀ prev hashes, maps.mapOrphanTransactionsByPrev.lookup prev = some hashes →
        hashes.Nonempty) ∧
      ∀ peer, ∃ after, OrphanMaps.eraseOrphansFor peer maps = some after ∧
        ∀ hash orphan, after.mapOrphanTransactions.lookup hash = some orphan ↔
          maps.mapOrphanTransactions.lookup hash = some orphan ∧ orphan.fromPeer ≠ peer) ∧
    ∀ (maps : OrphanMaps) (randomhash : Nat → Uint256) (nMaxOrphans : Nat),
      ∃ after nEvicted,
        OrphanMaps.limitOrphanTxSize randomhash nMaxOrphans maps = some (after, nEvicted) ∧
          after.mapOrphanTransactions.size ≤ nMaxOrphans := by
  constructor
  · intro maps run
    have exact := run.exact
    refine ⟨fun prev hash => ?_, exact.inverse.nonempty, fun peer => ?_⟩
    · rw [InverseIndex.exists_lookup_iff, exact.inverse.holds]
      simp only [OrphanMaps.Spends, CTransaction.prevHashes, mem_map]
    · obtain ⟨after, ends, -, left⟩ := exact.eraseOrphansFor peer
      exact ⟨after, ends, left⟩
  · intro maps randomhash nMaxOrphans
    obtain ⟨after, nEvicted, ends, size, -⟩ :=
      OrphanMaps.limitLoop_ends randomhash nMaxOrphans _ 0 maps le_rfl
    exact ⟨after, nEvicted, ends, size.trans_le (Nat.min_le_right _ _)⟩

def twiceSpending (parent : Uint256) : CTransaction :=
  ⟨1, [⟨⟨parent, 0⟩, [], 0⟩, ⟨⟨parent, 1⟩, [], 0⟩], [], 0⟩

section

local instance orphanCrypto : Crypto := checksumCrypto

/-- The maps after two peers have sent an orphan each, with two inputs from its parent. -/
def twoOrphans : OrphanMaps :=
  ((OrphanMaps.empty.addOrphanTx (twiceSpending 7) 1).1.addOrphanTx (twiceSpending 9) 2).1

/-- The disconnection of the first peer leaves the orphan of the second. -/
theorem orphans_of_run_two :
    ∃ after, OrphanMaps.eraseOrphansFor 1 twoOrphans = some after ∧
      ∀ hash orphan, after.mapOrphanTransactions.lookup hash = some orphan ↔
        twoOrphans.mapOrphanTransactions.lookup hash = some orphan ∧ orphan.fromPeer ≠ 1 := by
  have run : OrphanRun twoOrphans :=
    (OrphanRun.start.add (twiceSpending 7) 1).add (twiceSpending 9) 2
  exact (orphans_of_run.1 twoOrphans run).2.2 1

end

end Agouti
