import Agouti.Mempool.MemPool

/-! # The representation invariant of the memory pool

What `CTxMemPool::check` asserts of the three fields of the pool (`CTxMemPool.Consistent`), with the
outputs that the chain offers given as a set. Taking out a transaction leaves the ones that spend
its outputs without inputs; the loop of `remove` has their hashes in its queue until they are gone
as well (`Consistent.remove`).
-/

namespace Agouti

open List Function Option

namespace Mempool

theorem sum_map_erase {Key : Type} {Value : Key → Type} {M : Type} [DecidableEq Key]
    [AddCommMonoid M] {entries : AList Value} {key : Key} {value : Value key}
    (found : entries.lookup key = some value) (f : Sigma Value → M) :
    (entries.entries.map f).sum = f ⟨key, value⟩ + ((entries.erase key).entries.map f).sum := by
  have member : key ∈ entries.entries.keys :=
    AList.mem_keys.mp (AList.lookup_isSome.mp (isSome_of_eq_some found))
  obtain ⟨other, before, after, _, split, erased⟩ := exists_of_kerase member
  have same : other = value := by
    have there : (⟨key, other⟩ : Sigma Value) ∈ entries.entries := by
      rw [split]
      exact mem_append_right before mem_cons_self
    have lookup := AList.mem_lookup_iff.mpr there
    rw [found] at lookup
    exact (some.inj lookup).symm
  change _ = f ⟨key, value⟩ + ((entries.entries.kerase key).map f).sum
  rw [erased, split, same]
  simp only [map_append, map_cons, List.sum_append, List.sum_cons]
  exact add_left_comm _ _ _

namespace CTxMemPool

theorem eraseInputs_apply (tx : CTransaction) (next : COutPoint → Option CInPoint)
    (out : COutPoint) :
    eraseInputs tx next out = if out ∈ tx.vin.map CTxIn.prevout then none else next out := by
  unfold eraseInputs
  induction tx.vin generalizing next with
  | nil => rfl
  | cons txin rest ih =>
    rw [foldl_cons, ih, map_cons]
    by_cases here : out = txin.prevout
    · rw [here, update_self, ite_self, if_pos mem_cons_self]
    · rw [update_of_ne here]
      simp only [mem_cons, here, false_or]

theorem exists_input_cons {txin : CTxIn} {rest : List CTxIn} {out : COutPoint} {start n : Nat} :
    (∃ i, n = start + i ∧ ((txin :: rest)[i]?).map CTxIn.prevout = some out) ↔
      (n = start ∧ txin.prevout = out) ∨
        ∃ i, n = start + 1 + i ∧ (rest[i]?).map CTxIn.prevout = some out := by
  constructor
  · rintro ⟨i, position, found⟩
    cases i with
    | zero => exact .inl ⟨position, some.inj found⟩
    | succ i => exact .inr ⟨i, by omega, found⟩
  · rintro (⟨position, rfl⟩ | ⟨i, position, found⟩)
    · exact ⟨0, position, rfl⟩
    · exact ⟨i + 1, by omega, found⟩

theorem noteInputs_loop {tx : CTransaction} {out : COutPoint} {point : CInPoint}
    {vin : List CTxIn} (start : Nat) (next : COutPoint → Option CInPoint)
    (different : (vin.map CTxIn.prevout).Nodup) :
    (vin.zipIdx start).foldl (fun next (input : CTxIn × Nat) =>
        Function.update next input.1.prevout (some ⟨tx, input.2⟩)) next out = some point ↔
      (point.ptx = tx ∧ ∃ i, point.n = start + i ∧ (vin[i]?).map CTxIn.prevout = some out) ∨
        (out ∉ vin.map CTxIn.prevout ∧ next out = some point) := by
  induction vin generalizing start next with
  | nil => simp
  | cons txin rest ih =>
    rw [map_cons, nodup_cons] at different
    rw [zipIdx_cons, foldl_cons, ih _ _ different.2, map_cons, mem_cons,
      not_or, exists_input_cons]
    by_cases here : out = txin.prevout
    · subst here
      have absent : ∀ i : Nat, (rest[i]?).map CTxIn.prevout ≠ some txin.prevout := by
        intro i found
        obtain ⟨other, there, same⟩ := map_eq_some_iff.mp found
        exact different.1 (same ▸ mem_map_of_mem (mem_of_getElem? there))
      obtain ⟨ptx, n⟩ := point
      simp only [update_self, absent, and_false, exists_false, or_false, and_true,
        some.injEq, CInPoint.mk.injEq, not_true_eq_false, false_and, false_or,
        different.1, not_false_eq_true, true_and]
      exact ⟨fun ⟨same, position⟩ => ⟨same.symm, position.symm⟩,
        fun ⟨same, position⟩ => ⟨same.symm, position.symm⟩⟩
    · rw [update_of_ne here]
      simp only [here, not_false_eq_true, true_and, Ne.symm here, and_false, false_or]

theorem noteInputs_eq_some {tx : CTransaction} (different : (tx.vin.map CTxIn.prevout).Nodup)
    (next : COutPoint → Option CInPoint) {out : COutPoint} {point : CInPoint} :
    noteInputs tx next out = some point ↔
      (point.ptx = tx ∧ (tx.vin[point.n]?).map CTxIn.prevout = some out) ∨
        (out ∉ tx.vin.map CTxIn.prevout ∧ next out = some point) := by
  unfold noteInputs
  rw [noteInputs_loop 0 next different]
  simp only [Nat.zero_add, exists_eq_left']

section

variable {pool after : CTxMemPool} {hash : Uint256} {entry : CTxMemPoolEntry}

theorem contains_eq (pool : CTxMemPool) (hash : Uint256) :
    pool.contains hash = (pool.lookup hash).isSome := by
  rw [contains, lookup, isSome_map]

@[simp] theorem lookup_eraseEntry (pool : CTxMemPool) (hash other : Uint256)
    (entry : CTxMemPoolEntry) :
    (pool.eraseEntry hash entry).lookup other = if other = hash then none else pool.lookup other := by
  unfold lookup eraseEntry
  by_cases here : other = hash
  · rw [if_pos here, here, AList.lookup_erase, map_none]
  · rw [if_neg here, AList.lookup_erase_ne here]

@[simp] theorem lookup_addUnchecked (pool : CTxMemPool) (hash other : Uint256)
    (entry : CTxMemPoolEntry) :
    (pool.addUnchecked hash entry).lookup other =
      if other = hash then some entry.tx else pool.lookup other := by
  unfold lookup addUnchecked
  by_cases here : other = hash
  · rw [if_pos here, here, AList.lookup_insert, map_some]
  · rw [if_neg here, AList.lookup_insert_ne here]

theorem outputCount_eraseEntry (found : pool.mapTx.lookup hash = some entry) :
    pool.outputCount = entry.tx.vout.length + (pool.eraseEntry hash entry).outputCount :=
  sum_map_erase found _

/-- Every transaction of the second pool is one of the first pool. -/
def Shrinks (pool after : CTxMemPool) : Prop :=
  ∀ hash tx, after.lookup hash = some tx → pool.lookup hash = some tx

theorem Shrinks.refl (pool : CTxMemPool) : pool.Shrinks pool := fun _ _ found => found

theorem Shrinks.trans {middle : CTxMemPool} (first : pool.Shrinks middle)
    (second : middle.Shrinks after) : pool.Shrinks after :=
  fun hash tx found => first hash tx (second hash tx found)

theorem Shrinks.eraseEntry (pool : CTxMemPool) (hash : Uint256) (entry : CTxMemPoolEntry) :
    pool.Shrinks (pool.eraseEntry hash entry) := by
  intro other tx found
  rw [lookup_eraseEntry] at found
  split at found
  · contradiction
  · exact found

theorem Shrinks.lookup_none (shrinks : pool.Shrinks after) {hash : Uint256}
    (absent : pool.lookup hash = none) : after.lookup hash = none := by
  cases found : after.lookup hash with
  | none => rfl
  | some tx =>
    rw [shrinks hash tx found] at absent
    contradiction

end

variable [Crypto]

/-- The maps and the counter of the pool agree: a transaction is stored under its hash,
`mapNextTx` maps exactly the inputs of the pool to the transaction and the index that spend them,
and `totalTxSize` is the sum of the entry sizes. -/
structure Indexed (pool : CTxMemPool) : Prop where
  stored : ∀ hash tx, pool.lookup hash = some tx → tx.getHash = hash
  next : ∀ out point, pool.mapNextTx out = some point ↔
    pool.lookup point.ptx.getHash = some point.ptx ∧
      (point.ptx.vin[point.n]?).map CTxIn.prevout = some out
  total : pool.totalTxSize = pool.entrySizes

/-- An outpoint is an unspent output of a transaction of the pool, or else of the chain. -/
def provides (pool : CTxMemPool) (chain : Set COutPoint) (out : COutPoint) : Prop :=
  match pool.lookup out.hash with
  | some parent => out ∈ parent.offers
  | none => out ∈ chain

/-- The invariant of the pool. Every input is an unspent output of the chain or of another
transaction of the pool. -/
structure Consistent (pool : CTxMemPool) (chain : Set COutPoint) : Prop extends Indexed pool where
  inputs : ∀ hash tx, pool.lookup hash = some tx → ∀ txin ∈ tx.vin,
    txin.prevout.hash ≠ hash ∧ pool.provides chain txin.prevout

section

variable {pool after : CTxMemPool} {chain : Set COutPoint} {hash : Uint256} {tx : CTransaction}

variable {out : COutPoint}

theorem provides_some {parent : CTransaction} (found : pool.lookup out.hash = some parent) :
    pool.provides chain out ↔ out ∈ parent.offers := by
  rw [provides, found]

theorem provides_none (absent : pool.lookup out.hash = none) :
    pool.provides chain out ↔ out ∈ chain := by
  rw [provides, absent]

theorem provides_mono {other : Set COutPoint} (more : out ∈ chain → out ∈ other)
    (provided : pool.provides chain out) :
    pool.provides other out := by
  cases found : pool.lookup out.hash with
  | some parent => exact (provides_some found).mpr ((provides_some found).mp provided)
  | none => exact (provides_none found).mpr (more ((provides_none found).mp provided))

theorem Consistent.mono {other : Set COutPoint} (consistent : pool.Consistent chain)
    (more : chain ⊆ other) : pool.Consistent other where
  toIndexed := consistent.toIndexed
  inputs hash tx found txin member := by
    obtain ⟨apart, provided⟩ := consistent.inputs hash tx found txin member
    exact ⟨apart, provides_mono (fun there => more there) provided⟩

/-- The assertions of `CTxMemPool::check` about the inputs of the pool, `mapNextTx` and the sum of
the sizes. -/
structure Checked (pool : CTxMemPool) (pcoins : CCoinsViewCache) : Prop where
  inputs : ∀ hash tx, pool.lookup hash = some tx → ∀ (i : Nat) (txin : CTxIn),
    tx.vin[i]? = some txin →
      match pool.lookup txin.prevout.hash with
      | some tx2 => ∃ txout, tx2.vout[txin.prevout.n]? = some txout ∧ txout.isNull = false
      | none => (pcoins.coins txin.prevout.hash).isAvailable txin.prevout.n = true
  spenders : ∀ hash tx, pool.lookup hash = some tx → ∀ (i : Nat) (txin : CTxIn),
    tx.vin[i]? = some txin → pool.mapNextTx txin.prevout = some ⟨tx, i⟩
  next : ∀ out point, pool.mapNextTx out = some point →
    pool.lookup point.ptx.getHash = some point.ptx ∧
      ∃ txin, point.ptx.vin[point.n]? = some txin ∧ out = txin.prevout
  total : pool.totalTxSize = pool.entrySizes

theorem not_consistent_of_missing {txin : CTxIn} (found : pool.lookup hash = some tx)
    (member : txin ∈ tx.vin) (gone : pool.lookup txin.prevout.hash = none)
    (missing : txin.prevout ∉ chain) : ¬ pool.Consistent chain := by
  intro consistent
  have provided := (consistent.inputs hash tx found txin member).2
  exact missing ((provides_none gone).mp provided)

theorem Consistent.empty (chain : Set COutPoint) : empty.Consistent chain where
  stored _ _ found := by contradiction
  next _ _ := ⟨fun found => by contradiction, fun found => by cases found.1⟩
  total := rfl
  inputs _ _ found := by contradiction

omit [Crypto] in
theorem output_of_fromTx {tx : CTransaction} {n : Nat}
    (available : (CCoins.fromTx tx 0).isAvailable n = true) :
    ∃ txout, tx.vout[n]? = some txout ∧ txout.isNull = false := by
  rw [CCoins.isAvailable_eq, isSome_iff_exists] at available
  obtain ⟨txout, there⟩ := available
  rw [CCoins.fromTx, CCoins.clearUnspendable, CCoins.unspent_cleanup] at there
  obtain ⟨kept, live⟩ := CCoins.unspent_eq_some.mp there
  rw [List.getElem?_map, map_eq_some_iff] at kept
  obtain ⟨original, found, same⟩ := kept
  refine ⟨original, found, ?_⟩
  split at same
  · rw [← same] at live
    contradiction
  · rw [same]
    exact live

theorem Consistent.checked {pcoins : CCoinsViewCache}
    (consistent : pool.Consistent pcoins.available) : pool.Checked pcoins where
  inputs hash tx found i txin input := by
    have provided := (consistent.inputs hash tx found txin (mem_of_getElem? input)).2
    rw [provides] at provided
    split
    · rename_i tx2 parent
      rw [parent] at provided
      exact output_of_fromTx provided.2
    · rename_i absent
      rw [absent] at provided
      exact provided
  spenders hash tx found i txin input := by
    refine (consistent.next _ ⟨tx, i⟩).mpr ⟨?_, by rw [input]; rfl⟩
    rw [consistent.stored hash tx found]
    exact found
  next out point found := by
    obtain ⟨there, input⟩ := (consistent.next out point).mp found
    obtain ⟨txin, inside, same⟩ := map_eq_some_iff.mp input
    exact ⟨there, txin, inside, same.symm⟩
  total := consistent.total

theorem Indexed.spender (indexed : pool.Indexed) (found : pool.lookup hash = some tx) {txin : CTxIn}
    (member : txin ∈ tx.vin) : ∃ n, pool.mapNextTx txin.prevout = some ⟨tx, n⟩ := by
  obtain ⟨n, here⟩ := List.getElem?_of_mem member
  refine ⟨n, (indexed.next _ _).mpr ⟨?_, by rw [here]; rfl⟩⟩
  rw [indexed.stored hash tx found]
  exact found

theorem Shrinks.next (shrinks : pool.Shrinks after) (indexed : pool.Indexed) (still : after.Indexed)
    {point : CInPoint}
    (found : after.mapNextTx out = some point) : pool.mapNextTx out = some point := by
  obtain ⟨there, input⟩ := (still.next out point).mp found
  exact (indexed.next out point).mpr ⟨shrinks _ _ there, input⟩

theorem Indexed.eraseEntry (indexed : pool.Indexed) {entry : CTxMemPoolEntry}
    (found : pool.mapTx.lookup hash = some entry) : (pool.eraseEntry hash entry).Indexed := by
  have there : pool.lookup hash = some entry.tx := by rw [lookup, found, map_some]
  constructor
  case stored =>
    intro other tx left
    exact indexed.stored other tx (Shrinks.eraseEntry pool hash entry other tx left)
  case next =>
    intro out point
    change eraseInputs entry.tx pool.mapNextTx out = some point ↔ _
    rw [eraseInputs_apply, lookup_eraseEntry]
    by_cases spent : out ∈ entry.tx.vin.map CTxIn.prevout
    · -- the spender of this outpoint is the removed transaction
      obtain ⟨txin, member, rfl⟩ := mem_map.mp spent
      obtain ⟨n, spender⟩ := indexed.spender there member
      rw [if_pos spent]
      refine ⟨fun absent => by contradiction, fun ⟨other, input⟩ => ?_⟩
      split at other
      · contradiction
      · rename_i apart
        have same := (indexed.next _ point).mpr ⟨other, input⟩
        rw [spender] at same
        obtain rfl := some.inj same
        exact absurd (indexed.stored hash entry.tx there) apart
    · rw [if_neg spent, indexed.next]
      by_cases here : point.ptx.getHash = hash
      · rw [if_pos here]
        refine ⟨fun ⟨same, input⟩ => ?_, fun ⟨absent, _⟩ => by contradiction⟩
        rw [here, there] at same
        obtain ⟨txin, inside, rfl⟩ := map_eq_some_iff.mp input
        rw [← some.inj same] at inside
        exact absurd (mem_map_of_mem (mem_of_getElem? inside)) spent
      · rw [if_neg here]
  case total =>
    have sizes : pool.entrySizes = entry.nTxSize + (pool.eraseEntry hash entry).entrySizes :=
      sum_map_erase found _
    change pool.totalTxSize - entry.nTxSize = _
    rw [indexed.total, sizes, BitVec.add_comm, BitVec.add_sub_cancel]

theorem Indexed.addUnchecked (indexed : pool.Indexed) (fresh : pool.lookup tx.getHash = none)
    (plain : tx.isZerocoinSpend = false) (different : (tx.vin.map CTxIn.prevout).Nodup)
    (unspent : ∀ txin ∈ tx.vin, pool.mapNextTx txin.prevout = none) :
    (pool.addUnchecked tx.getHash (.ofTx tx)).Indexed := by
  constructor
  case stored =>
    intro hash other found
    rw [lookup_addUnchecked] at found
    split at found
    · rename_i here
      obtain rfl := some.inj found
      exact here.symm
    · exact indexed.stored hash other found
  case next =>
    intro out point
    have noted : (pool.addUnchecked tx.getHash (.ofTx tx)).mapNextTx =
        noteInputs tx pool.mapNextTx := by
      change (if tx.isZerocoinSpend then _ else _) = _
      rw [plain, if_neg Bool.false_ne_true]
      rfl
    rw [noted, noteInputs_eq_some different, lookup_addUnchecked, indexed.next]
    by_cases here : point.ptx.getHash = tx.getHash
    · rw [if_pos here, here, fresh]
      constructor
      · rintro (⟨same, input⟩ | ⟨_, absent, _⟩)
        · exact ⟨congrArg some same.symm, same ▸ input⟩
        · contradiction
      · rintro ⟨same, input⟩
        have same : tx = point.ptx := some.inj same
        refine .inl ⟨same.symm, ?_⟩
        rw [same]
        exact input
    · rw [if_neg here]
      constructor
      · rintro (⟨same, _⟩ | ⟨_, there⟩)
        · exact absurd (congrArg CTransaction.getHash same) here
        · exact there
      · rintro ⟨there, input⟩
        refine .inr ⟨fun spent => ?_, there, input⟩
        obtain ⟨txin, member, rfl⟩ := mem_map.mp spent
        have found := (indexed.next _ point).mpr ⟨there, input⟩
        rw [unspent txin member] at found
        contradiction
  case total =>
    have absent : tx.getHash ∉ pool.mapTx := by
      rw [lookup, map_eq_none_iff] at fresh
      exact AList.lookup_eq_none.mp fresh
    have entries : (pool.addUnchecked tx.getHash (.ofTx tx)).entrySizes =
        (CTxMemPoolEntry.ofTx tx).nTxSize + pool.entrySizes := by
      unfold entrySizes CTxMemPool.addUnchecked
      rw [AList.entries_insert_of_notMem absent, map_cons, List.sum_cons]
    rw [entries, ← indexed.total, BitVec.add_comm]
    rfl

end

/-! ## The loop of `remove` -/

section

variable {pool : CTxMemPool} {chain : Set COutPoint} {origTx : CTransaction}

/-- The transactions of the pool have their inputs, apart from the ones in the queue. -/
structure Pending (chain : Set COutPoint) (origTx : CTransaction) (start : CTxMemPool)
    (queue : List Uint256) (state : Removal) : Prop where
  indexed : state.1.Indexed
  shrinks : start.Shrinks state.1
  gone : origTx.getHash ∈ queue ∨ state.1.lookup origTx.getHash = none
  inputs : ∀ hash tx, state.1.lookup hash = some tx → ∀ txin ∈ tx.vin,
    txin.prevout.hash ≠ hash ∧ (state.1.provides chain txin.prevout ∨ hash ∈ queue)

theorem Indexed.mem_spenders (indexed : pool.Indexed) {hash : Uint256} {tx : CTransaction}
    (found : pool.lookup hash = some tx) {txin : CTxIn} (member : txin ∈ tx.vin) {size : Nat}
    (inside : txin.prevout.n < size) : hash ∈ pool.spenders txin.prevout.hash size := by
  obtain ⟨n, spender⟩ := indexed.spender found member
  rw [spenders, mem_filterMap]
  refine ⟨txin.prevout.n, List.mem_range.mpr inside, ?_⟩
  rw [spender, map_some, indexed.stored hash tx found]

theorem lt_of_offers {tx : CTransaction} {out : COutPoint} (offered : out ∈ tx.offers) :
    out.n < tx.vout.length := by
  obtain ⟨txout, found, _⟩ := output_of_fromTx offered.2
  exact (List.getElem?_eq_some_iff.mp found).1

/-- One round of the recursive loop: the transaction goes, and whoever spends its outputs enters
the queue. -/
theorem Pending.take {start : CTxMemPool} {hash : Uint256} {queue found : List Uint256}
    {state next : Removal} (pending : Pending chain origTx start (hash :: queue) state)
    (visited : removeHash true hash state = some (next, found)) :
    Pending chain origTx start (queue ++ found) next := by
  obtain ⟨entry, there, same⟩ := map_eq_some_iff.mp visited
  obtain ⟨rfl, rfl⟩ := Prod.mk.inj same
  rw [if_pos rfl]
  have parent : state.1.lookup hash = some entry.tx := by rw [lookup, there, map_some]
  constructor
  case indexed => exact pending.indexed.eraseEntry there
  case shrinks => exact pending.shrinks.trans (Shrinks.eraseEntry _ hash entry)
  case gone =>
    rw [lookup_eraseEntry]
    by_cases here : origTx.getHash = hash
    · exact .inr (if_pos here)
    · rw [if_neg here]
      rcases pending.gone with member | absent
      · exact .inl (mem_append_left _ ((mem_cons.mp member).resolve_left here))
      · exact .inr absent
  case inputs =>
    intro other tx left txin member
    have apart : other ≠ hash := by
      rintro rfl
      rw [lookup_eraseEntry, if_pos rfl] at left
      contradiction
    have before := Shrinks.eraseEntry state.1 hash entry other tx left
    obtain ⟨different, provided | queued⟩ := pending.inputs other tx before txin member
    · refine ⟨different, ?_⟩
      by_cases child : txin.prevout.hash = hash
      · right
        have offered := (provides_some (child ▸ parent)).mp provided
        have found := pending.indexed.mem_spenders before member (lt_of_offers offered)
        rw [child] at found
        exact mem_append_right queue found
      · left
        rw [provides, lookup_eraseEntry, if_neg child]
        exact provided
    · exact ⟨different, .inr (mem_append_left _ ((mem_cons.mp queued).resolve_left apart))⟩

/-- What is left of the chain when the outputs of a transaction are gone. -/
def without (chain : Set COutPoint) (tx : CTransaction) : Set COutPoint :=
  { out | out ∈ chain ∧ ¬ (out.hash = tx.getHash ∧ out.n < tx.vout.length) }

/-- The queue of a recursive removal has everybody that spends an output of the transaction,
unless the pool has the transaction. -/
theorem Consistent.pending (consistent : pool.Consistent chain) (origTx : CTransaction) :
    Pending (without chain origTx) origTx pool (pool.txToRemove origTx true) (pool, []) where
  indexed := consistent.toIndexed
  shrinks := .refl pool
  gone := .inl mem_cons_self
  inputs hash tx found txin member := by
    obtain ⟨apart, provided⟩ := consistent.inputs hash tx found txin member
    refine ⟨apart, ?_⟩
    by_cases output : txin.prevout.hash = origTx.getHash ∧ txin.prevout.n < origTx.vout.length
    · obtain ⟨child, inside⟩ := output
      cases parent : pool.lookup txin.prevout.hash with
      | some other =>
        exact .inl ((provides_some parent).mpr ((provides_some parent).mp provided))
      | none =>
        right
        rw [child] at parent
        rw [txToRemove, contains_eq, parent]
        have found := consistent.mem_spenders found member inside
        rw [child] at found
        exact mem_cons_of_mem _ found
    · exact .inl (provides_mono (fun there => ⟨there, output⟩) provided)

theorem removeHash_supplied (fRecursive : Bool) :
    Worklist.Supplied (removeHash fRecursive) fun state : Removal => state.1.outputCount := by
  intro hash state next found visited
  obtain ⟨entry, there, same⟩ := map_eq_some_iff.mp visited
  obtain ⟨rfl, rfl⟩ := Prod.mk.inj same
  have count := outputCount_eraseEntry there
  have few : (if fRecursive then state.1.spenders hash entry.tx.vout.length else []).length ≤
      entry.tx.vout.length := by
    cases fRecursive with
    | false => exact Nat.zero_le _
    | true =>
      rw [if_pos rfl, spenders]
      calc _ ≤ (List.range entry.tx.vout.length).length := length_filterMap_le _ _
        _ = entry.tx.vout.length := length_range
  change (state.1.eraseEntry hash entry).outputCount + _ ≤ state.1.outputCount
  omega

/-- What a recursive removal leaves. -/
structure Removed (chain : Set COutPoint) (tx : CTransaction) (pool after : CTxMemPool) : Prop where
  consistent : after.Consistent (without chain tx)
  shrinks : pool.Shrinks after
  gone : after.lookup tx.getHash = none

/-- **A recursive removal** takes out the transaction and everybody that depends on it. -/
theorem Consistent.remove (consistent : pool.Consistent chain) (origTx : CTransaction) :
    Removed chain origTx pool (pool.remove origTx true).1 := by
  have last : Pending (without chain origTx) origTx pool [] (pool.remove origTx true) := by
    unfold CTxMemPool.remove
    apply Worklist.run_rule (removeHash_supplied true) (Pending (without chain origTx) origTx pool)
    · intro hash queue state pending absent
      rw [removeHash, map_eq_none_iff] at absent
      have none : state.1.lookup hash = none := by rw [lookup, absent, map_none]
      refine ⟨pending.indexed, pending.shrinks, ?_, fun other tx found txin member => ?_⟩
      · rcases pending.gone with member | gone
        · rcases mem_cons.mp member with here | member
          · exact .inr (here ▸ none)
          · exact .inl member
        · exact .inr gone
      · obtain ⟨apart, provided | queued⟩ := pending.inputs other tx found txin member
        · exact ⟨apart, .inl provided⟩
        · rcases mem_cons.mp queued with rfl | queued
          · rw [none] at found
            contradiction
          · exact ⟨apart, .inr queued⟩
    · intro hash queue state next found pending visited
      exact pending.take visited
    · exact le_rfl
    · exact consistent.pending origTx
  refine ⟨⟨last.indexed, fun hash tx found txin member => ?_⟩, last.shrinks, ?_⟩
  · obtain ⟨apart, provided | queued⟩ := last.inputs hash tx found txin member
    · exact ⟨apart, provided⟩
    · exact absurd queued not_mem_nil
  · exact last.gone.resolve_left not_mem_nil

theorem remove_false (pool : CTxMemPool) (origTx : CTransaction) :
    (pool.remove origTx false).1 =
      match pool.mapTx.lookup origTx.getHash with
      | none => pool
      | some entry => pool.eraseEntry origTx.getHash entry := by
  have fuel : ([origTx.getHash].length + pool.outputCount) = pool.outputCount + 1 :=
    Nat.add_comm _ _
  have queue : pool.txToRemove origTx false = [origTx.getHash] := rfl
  rw [CTxMemPool.remove, queue, fuel, Worklist.run, removeHash]
  cases found : pool.mapTx.lookup origTx.getHash with
  | none => rw [map_none, Worklist.run_nil]
  | some entry =>
    simp only [map_some, Bool.false_eq_true, ↓reduceIte, append_nil,
      Worklist.run_nil]

/-- **A removal that is not recursive** is right for a transaction whose outputs the chain has
where the pool spends them. -/
theorem Consistent.remove_false (consistent : pool.Consistent chain) {origTx : CTransaction}
    (handed : ∀ tx, pool.lookup origTx.getHash = some tx → ∀ out ∈ tx.offers,
      out ∈ chain ∨ pool.mapNextTx out = none) :
    (pool.remove origTx false).1.Consistent chain ∧
      pool.Shrinks (pool.remove origTx false).1 ∧
      (pool.remove origTx false).1.lookup origTx.getHash = none := by
  rw [CTxMemPool.remove_false]
  cases found : pool.mapTx.lookup origTx.getHash with
  | none => exact ⟨consistent, .refl pool, by rw [lookup, found, map_none]⟩
  | some entry =>
    have there : pool.lookup origTx.getHash = some entry.tx := by
      rw [lookup, found, map_some]
    refine ⟨⟨consistent.eraseEntry found, fun hash tx left txin member => ?_⟩,
      .eraseEntry pool _ entry, by simp only [lookup_eraseEntry, ↓reduceIte]⟩
    have before := Shrinks.eraseEntry pool _ entry hash tx left
    obtain ⟨apart, provided⟩ := consistent.inputs hash tx before txin member
    refine ⟨apart, ?_⟩
    rw [provides, lookup_eraseEntry]
    by_cases child : txin.prevout.hash = origTx.getHash
    · rw [if_pos child]
      have offered := (provides_some (child ▸ there)).mp provided
      obtain ⟨n, spender⟩ := consistent.spender before member
      rcases handed entry.tx there _ offered with onChain | unspent
      · exact onChain
      · rw [spender] at unspent
        contradiction
    · rw [if_neg child]
      exact provided

end

/-! ## Adding a transaction -/

section

variable {pool : CTxMemPool} {chain other : Set COutPoint} {tx : CTransaction}

/-- **Adding a transaction** that is not in the pool and whose inputs are provided and not spent by
the pool. From then on the pool offers the outputs of the transaction, and not the chain. -/
theorem Consistent.addUnchecked (consistent : pool.Consistent chain)
    (fresh : pool.lookup tx.getHash = none) (plain : tx.isZerocoinSpend = false)
    (different : (tx.vin.map CTxIn.prevout).Nodup)
    (unspent : ∀ txin ∈ tx.vin, pool.mapNextTx txin.prevout = none)
    (provided : ∀ txin ∈ tx.vin,
      txin.prevout.hash ≠ tx.getHash ∧ pool.provides other txin.prevout)
    (own : ∀ out ∈ chain, out.hash = tx.getHash → out ∈ tx.offers)
    (others : ∀ out ∈ chain, out.hash ≠ tx.getHash → out ∈ other) :
    (pool.addUnchecked tx.getHash (.ofTx tx)).Consistent other where
  toIndexed := consistent.toIndexed.addUnchecked fresh plain different unspent
  inputs hash spender found txin member := by
    rw [lookup_addUnchecked] at found
    rw [provides, lookup_addUnchecked]
    split at found
    · rename_i here
      obtain rfl := some.inj found
      obtain ⟨apart, input⟩ := provided txin member
      rw [if_neg apart, here]
      exact ⟨apart, input⟩
    · obtain ⟨apart, input⟩ := consistent.inputs hash spender found txin member
      refine ⟨apart, ?_⟩
      by_cases child : txin.prevout.hash = tx.getHash
      · rw [if_pos child]
        exact own _ ((provides_none (child ▸ fresh)).mp input) child
      · rw [if_neg child]
        exact provides_mono (fun there => others _ there child) input

end

/-! ## Conflicts -/

section

variable {pool : CTxMemPool} {chain : Set COutPoint} {tx : CTransaction}

/-- What the loop of `removeConflicts` has done after some of the inputs. -/
structure Cleared (tx : CTransaction) (chain : Set COutPoint) (start : CTxMemPool)
    (done : List CTxIn) (after : CTxMemPool) : Prop where
  consistent : after.Consistent chain
  shrinks : start.Shrinks after
  unspent : start.lookup tx.getHash = none → ∀ txin ∈ done, after.mapNextTx txin.prevout = none

/-- One input of the loop. -/
theorem Cleared.step {done : List CTxIn} {state : Removal}
    (cleared : Cleared tx chain pool done state.1) (txin : CTxIn) :
    Cleared tx chain pool (done ++ [txin]) (removeConflict tx state txin).1 := by
  have extended : ∀ after : CTxMemPool, after.Consistent chain → state.1.Shrinks after →
      (pool.lookup tx.getHash = none → after.mapNextTx txin.prevout = none) →
      Cleared tx chain pool (done ++ [txin]) after := by
    intro after consistent shrinks last
    refine ⟨consistent, cleared.shrinks.trans shrinks, fun absent other member => ?_⟩
    rcases mem_append.mp member with earlier | here
    · cases spender : after.mapNextTx other.prevout with
      | none => rfl
      | some point =>
        have before := shrinks.next cleared.consistent.toIndexed consistent.toIndexed spender
        rw [cleared.unspent absent other earlier] at before
        contradiction
    · rw [mem_singleton.mp here]
      exact last absent
  unfold removeConflict
  cases spender : state.1.mapNextTx txin.prevout with
  | none => exact extended state.1 cleared.consistent (.refl _) fun _ => spender
  | some point =>
    simp only
    have there := ((cleared.consistent.next _ point).mp spender).1
    split
    · rename_i same
      refine extended state.1 cleared.consistent (.refl _) fun absent => ?_
      rw [same, cleared.shrinks.lookup_none absent] at there
      contradiction
    · have removed := cleared.consistent.remove point.ptx
      refine extended _ (removed.consistent.mono fun out left => left.1) removed.shrinks
        fun _ => ?_
      cases again : (state.1.remove point.ptx true).1.mapNextTx txin.prevout with
      | none => rfl
      | some other =>
        have before := removed.shrinks.next cleared.consistent.toIndexed
          removed.consistent.toIndexed again
        rw [spender] at before
        obtain rfl := some.inj before
        have left := ((removed.consistent.next _ point).mp again).1
        rw [removed.gone] at left
        contradiction

/-- **Removing conflicts** takes out everybody that spends an input of the transaction, unless it
is the transaction itself. -/
theorem Consistent.removeConflicts (consistent : pool.Consistent chain) (tx : CTransaction) :
    Cleared tx chain pool tx.vin (pool.removeConflicts tx).1 := by
  have loop : ∀ (rest done : List CTxIn) (state : Removal),
      Cleared tx chain pool done state.1 →
        Cleared tx chain pool (done ++ rest) (rest.foldl (removeConflict tx) state).1 := by
    intro rest
    induction rest with
    | nil =>
      intro done state cleared
      rw [append_nil]
      exact cleared
    | cons txin rest ih =>
      intro done state cleared
      rw [foldl_cons, ← singleton_append, ← append_assoc]
      exact ih _ _ (cleared.step txin)
  exact loop tx.vin [] (pool, [])
    ⟨consistent, .refl pool, fun _ txin absent => absurd absent not_mem_nil⟩

theorem Consistent.narrow {less : Set COutPoint} (consistent : pool.Consistent chain)
    (narrower : ∀ out ∈ chain, out ∈ less ∨ pool.mapNextTx out = none) : pool.Consistent less where
  toIndexed := consistent.toIndexed
  inputs hash tx found txin member := by
    obtain ⟨apart, provided⟩ := consistent.inputs hash tx found txin member
    refine ⟨apart, provides_mono (fun there => ?_) provided⟩
    obtain ⟨n, spender⟩ := consistent.spender found member
    rcases narrower _ there with left | unspent
    · exact left
    · rw [spender] at unspent
      contradiction

/-- Recursive removals one after the other keep the invariant. -/
theorem Consistent.removeEach (consistent : pool.Consistent chain) (txs : List CTransaction) :
    (txs.foldl (fun pool tx => (pool.remove tx true).1) pool).Consistent chain ∧
      pool.Shrinks (txs.foldl (fun pool tx => (pool.remove tx true).1) pool) := by
  induction txs generalizing pool with
  | nil => exact ⟨consistent, .refl pool⟩
  | cons tx rest ih =>
    have removed := consistent.remove tx
    obtain ⟨last, shrinks⟩ := ih (removed.consistent.mono fun out left => left.1)
    exact ⟨last, removed.shrinks.trans shrinks⟩

/-- **Removing immature spends** keeps the invariant. -/
theorem Consistent.removeCoinbaseSpends [ChainParams] (consistent : pool.Consistent chain)
    (pcoins : CCoinsViewCache) (nMemPoolHeight : Int) :
    (pool.removeCoinbaseSpends pcoins nMemPoolHeight).Consistent chain ∧
      pool.Shrinks (pool.removeCoinbaseSpends pcoins nMemPoolHeight) :=
  consistent.removeEach _

end

end CTxMemPool

end Mempool

end Agouti
