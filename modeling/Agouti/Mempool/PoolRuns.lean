import Agouti.Consensus.BlockUndo
import Agouti.Mempool.Accept
import Agouti.Mempool.Consistent

/-! # The memory pool along runs of the node

The invariant of the pool is kept when transactions are accepted and removed and when blocks are
connected and disconnected, in every order (`consistent_of_run`). While a block is connected the
pool may still spend outputs that the rest of the block spends, and while one is disconnected it
may spend outputs that the rest of the block offered; each round of the loop over the block settles
one transaction. A removal that is not recursive is right for a transaction that the chain takes
over, and otherwise leaves its children without inputs (`parentRemoved_dangling`).
-/

namespace Agouti

open List

namespace Mempool

open Verdict

/-! ## Accepting a transaction -/

section

variable [ChainParams] [Crypto] {data : LocalData} {node : Node} {policy : RelayPolicy}
  {pool after : CTxMemPool} {tx : CTransaction}

/-- What `AcceptToMemoryPool` has checked of the coins and the pool. -/
structure Admitted (pool : CTxMemPool) (coins : CCoinsViewCache) (tx : CTransaction) : Prop where
  fresh : pool.lookup tx.getHash = none
  plain : tx.isZerocoinSpend = false
  different : (tx.vin.map CTxIn.prevout).Nodup
  unspent : ∀ txin ∈ tx.vin, pool.mapNextTx txin.prevout = none
  provided : ∀ txin ∈ tx.vin,
    txin.prevout.hash ≠ tx.getHash ∧ pool.provides coins.available txin.prevout
  unused : ∀ out ∈ coins.available, out.hash ≠ tx.getHash

omit [ChainParams] in
theorem CTxMemPool.Indexed.provides_of_view (indexed : pool.Indexed) {coins : CCoinsViewCache}
    {out : COutPoint} (available : out ∈ (pool.view coins).available) :
    pool.provides coins.available out := by
  have available : ((pool.view coins).coins out.hash).isAvailable out.n = true := available
  cases found : pool.lookup out.hash with
  | some parent =>
    rw [CTxMemPool.provides_some found]
    simp only [CTxMemPool.view, found] at available
    exact ⟨(indexed.stored _ parent found).symm, available⟩
  | none =>
    rw [CTxMemPool.provides_none found]
    simp only [CTxMemPool.view, found] at available
    exact available

theorem acceptToMemoryPool_ok (indexed : pool.Indexed)
    (accepted : acceptToMemoryPool data node policy pool tx = .ok after) :
    Admitted pool node.pcoinsTip tx ∧ after = pool.addUnchecked tx.getHash (.ofTx tx) := by
  simp only [acceptToMemoryPool, bind_eq_ok, reject_eq_ok, mapError_eq_ok] at accepted
  obtain ⟨_, checked, _, zerocoins, _, coinbase, _, coinstake, _, standard, _, exists_, _, locked, _,
    conflicts, _, unused, _, existing, _, inputs, _, inputsStandard, _, sigOps, _, fee, _, values, _,
    scripts, added⟩ := accepted
  have fresh : pool.lookup tx.getHash = none := by
    rw [CTxMemPool.contains_eq, Option.isSome_eq_false_iff, Option.isNone_iff_eq_none] at exists_
    exact exists_
  have pruned : (node.pcoinsTip.coins tx.getHash).isPruned = true := by
    simpa only [CTxMemPool.view, fresh, Bool.not_eq_eq_eq_not, Bool.not_false] using unused
  have notThere : ∀ out ∈ (pool.view node.pcoinsTip).available, out.hash ≠ tx.getHash := by
    intro out there named
    have there : ((pool.view node.pcoinsTip).coins out.hash).isAvailable out.n = true := there
    rw [named, CCoins.isAvailable_eq] at there
    rw [Bool.not_eq_eq_eq_not, Bool.not_false, CCoins.isPruned_iff] at unused
    rw [unused out.n] at there
    contradiction
  refine ⟨⟨fresh, ?_, ?_, ?_, ?_, ?_⟩, (Except.ok.inj added).symm⟩
  · rw [CTransaction.containsZerocoins, Bool.or_eq_false_iff] at zerocoins
    exact zerocoins.1
  · simp only [checkTransaction, bind_eq_ok, reject_eq_ok] at checked
    obtain ⟨_, _, _, _, _, _, _, _, _, different, _⟩ := checked
    simpa using different
  · intro txin member
    have none := any_eq_false.mp conflicts txin member
    simpa using none
  · intro txin member
    have available : txin.prevout ∈ (pool.view node.pcoinsTip).available := by
      rw [CCoinsViewCache.haveInputs, coinbase, Bool.false_or, Bool.not_eq_eq_eq_not,
        Bool.not_false] at inputs
      exact all_eq_true.mp inputs txin member
    exact ⟨notThere _ available, indexed.provides_of_view available⟩
  · intro out there named
    have there : (node.pcoinsTip.coins out.hash).isAvailable out.n = true := there
    rw [named, CCoins.isAvailable_eq, CCoins.isPruned_iff.mp pruned out.n] at there
    contradiction

theorem CTxMemPool.Consistent.accept {more less : Set COutPoint}
    (consistent : pool.Consistent (node.pcoinsTip.available ∪ more))
    (accepted : acceptToMemoryPool data node policy pool tx = .ok after)
    (own : ∀ out ∈ more, out.hash = tx.getHash → out ∈ tx.offers)
    (others : ∀ out ∈ more, out.hash ≠ tx.getHash → out ∈ less) :
    after.Consistent (node.pcoinsTip.available ∪ less) := by
  obtain ⟨admitted, rfl⟩ := acceptToMemoryPool_ok consistent.toIndexed accepted
  apply consistent.addUnchecked admitted.fresh admitted.plain admitted.different admitted.unspent
  · intro txin member
    obtain ⟨apart, provided⟩ := admitted.provided txin member
    exact ⟨apart, CTxMemPool.provides_mono .inl provided⟩
  · rintro out (there | offered) named
    · exact absurd named (admitted.unused out there)
    · exact own out offered named
  · rintro out (there | offered) apart
    · exact .inl there
    · exact .inr (others out offered apart)

end

/-! ## The loops over a block -/

section

variable [Crypto] {known : Set CTransaction} {pool : CTxMemPool}

def spentBy (txs : List CTransaction) : Set COutPoint := { out | ∃ tx ∈ txs, out ∈ tx.spends }

def offeredBy (txs : List CTransaction) : Set COutPoint := { out | ∃ tx ∈ txs, out ∈ tx.offers }

/-- The transactions of the pool are known ones. -/
def Members (known : Set CTransaction) (pool : CTxMemPool) : Prop :=
  ∀ hash tx, pool.lookup hash = some tx → tx ∈ known

omit [Crypto] in
theorem Members.shrinks {after : CTxMemPool} (members : Members known pool)
    (shrinks : pool.Shrinks after) : Members known after :=
  fun hash tx found => members hash tx (shrinks hash tx found)

omit [Crypto] in
theorem mem_spends {tx : CTransaction} {out : COutPoint} (spent : out ∈ tx.spends) :
    out ∈ tx.vin.map CTxIn.prevout := by
  rw [CTransaction.spends] at spent
  split at spent
  · exact spent
  · exact absurd spent not_mem_nil

/-- One round for a connected block: its transaction hands its outputs to the chain, and nobody
spends its inputs any more. -/
theorem removeBlockTx_consistent (distinct : known.InjOn CTransaction.getHash)
    {final : Set COutPoint} {tx : CTransaction} {rest : List CTransaction} (isKnown : tx ∈ known)
    (offered : ∀ out ∈ tx.offers, out ∈ final ∨ out ∈ spentBy rest) {state : CTxMemPool.Removal}
    (members : Members known state.1)
    (consistent : state.1.Consistent (final ∪ spentBy (tx :: rest))) :
    (CTxMemPool.removeBlockTx state tx).1.Consistent (final ∪ spentBy rest) ∧
      state.1.Shrinks (CTxMemPool.removeBlockTx state tx).1 := by
  have handed : ∀ other, state.1.lookup tx.getHash = some other → ∀ out ∈ other.offers,
      out ∈ final ∪ spentBy (tx :: rest) ∨ state.1.mapNextTx out = none := by
    intro other found out offer
    have same : other = tx :=
      distinct (members _ other found) isKnown (consistent.stored _ other found)
    rw [same] at offer
    rcases offered out offer with there | ⟨later, member, spent⟩
    · exact .inl (.inl there)
    · exact .inl (.inr ⟨later, mem_cons_of_mem tx member, spent⟩)
  obtain ⟨left, shrinks, gone⟩ := consistent.remove_false handed
  have cleared := left.removeConflicts tx
  refine ⟨cleared.consistent.narrow ?_, shrinks.trans cleared.shrinks⟩
  rintro out (there | ⟨other, member, spent⟩)
  · exact .inl (.inl there)
  · rcases mem_cons.mp member with rfl | member
    · obtain ⟨txin, inside, rfl⟩ := mem_map.mp (mem_spends spent)
      exact .inr (cleared.unspent gone txin inside)
    · exact .inl (.inr ⟨other, member, spent⟩)

/-- **Removing the transactions of a block** that the chain has taken over. -/
theorem CTxMemPool.Consistent.removeForBlock (distinct : known.InjOn CTransaction.getHash)
    {final : Set COutPoint} {vtx : List CTransaction} (areKnown : ∀ tx ∈ vtx, tx ∈ known)
    (offered : ∀ tx rest, tx :: rest <:+ vtx → ∀ out ∈ tx.offers,
      out ∈ final ∨ ∃ other ∈ rest, out ∈ other.spends)
    (members : Members known pool) (consistent : pool.Consistent (final ∪ spentBy vtx)) :
    (pool.removeForBlock vtx).1.Consistent final ∧ pool.Shrinks (pool.removeForBlock vtx).1 := by
  have loop : ∀ (rest : List CTransaction) (state : CTxMemPool.Removal), rest <:+ vtx →
      Members known state.1 → state.1.Consistent (final ∪ spentBy rest) →
        (rest.foldl CTxMemPool.removeBlockTx state).1.Consistent final ∧
          state.1.Shrinks (rest.foldl CTxMemPool.removeBlockTx state).1 := by
    intro rest
    induction rest with
    | nil =>
      intro state _ _ consistent
      refine ⟨consistent.mono ?_, .refl _⟩
      rintro out (there | ⟨tx, absent, _⟩)
      · exact there
      · exact absurd absent not_mem_nil
    | cons tx rest ih =>
      intro state suffix members consistent
      have isKnown := areKnown tx (suffix.subset mem_cons_self)
      obtain ⟨next, shrinks⟩ := removeBlockTx_consistent distinct isKnown
        (offered tx rest suffix) members consistent
      obtain ⟨last, fewer⟩ := ih (CTxMemPool.removeBlockTx state tx)
        ((suffix_cons tx rest).trans suffix) (members.shrinks shrinks) next
      exact ⟨last, shrinks.trans fewer⟩
  exact loop vtx (pool, []) (suffix_refl vtx) members consistent

variable [ChainParams] (data : LocalData) (node : Node) (policy : RelayPolicy)

/-- One round for a disconnected block: its transaction is back in the pool, or nobody spends its
outputs. -/
theorem resurrect_consistent (distinct : known.InjOn CTransaction.getHash) {tx : CTransaction}
    {rest : List CTransaction} (areKnown : ∀ other ∈ tx :: rest, other ∈ known)
    (members : Members known pool)
    (consistent : pool.Consistent (node.pcoinsTip.available ∪ offeredBy (tx :: rest))) :
    (PoolNode.resurrect data node policy pool tx).Consistent
        (node.pcoinsTip.available ∪ offeredBy rest) ∧
      Members known (PoolNode.resurrect data node policy pool tx) := by
  unfold PoolNode.resurrect
  simp only
  split
  · rename_i after accepted
    split at accepted
    · contradiction
    · rw [toOption_eq_some] at accepted
      constructor
      · apply consistent.accept accepted
        · intro out offered named
          exact Issued.offers distinct
            (offered.imp fun other offer => ⟨areKnown other offer.1, offer.2⟩)
            (areKnown tx mem_cons_self) named
        · rintro out ⟨other, member, offer⟩ apart
          rcases mem_cons.mp member with rfl | member
          · exact absurd offer.1 apart
          · exact ⟨other, member, offer⟩
      · obtain ⟨_, rfl⟩ := acceptToMemoryPool_ok consistent.toIndexed accepted
        intro hash other found
        rw [CTxMemPool.lookup_addUnchecked] at found
        split at found
        · obtain rfl := Option.some.inj found
          exact areKnown _ mem_cons_self
        · exact members hash other found
  · have removed := consistent.remove tx
    refine ⟨removed.consistent.mono ?_, members.shrinks removed.shrinks⟩
    rintro out ⟨there | ⟨other, member, offer⟩, apart⟩
    · exact .inl there
    · rcases mem_cons.mp member with rfl | member
      · exact absurd ⟨offer.1, CTxMemPool.lt_of_offers offer⟩ apart
      · exact .inr ⟨other, member, offer⟩

/-- **Resurrecting the transactions of a block** whose outputs the chain has lost. -/
theorem resurrect_all (distinct : known.InjOn CTransaction.getHash) {vtx : List CTransaction}
    (areKnown : ∀ tx ∈ vtx, tx ∈ known) (members : Members known pool)
    (consistent : pool.Consistent (node.pcoinsTip.available ∪ offeredBy vtx)) :
    (vtx.foldl (PoolNode.resurrect data node policy) pool).Consistent node.pcoinsTip.available ∧
      Members known (vtx.foldl (PoolNode.resurrect data node policy) pool) := by
  induction vtx generalizing pool with
  | nil =>
    refine ⟨consistent.mono ?_, members⟩
    rintro out (there | ⟨tx, absent, _⟩)
    · exact there
    · exact absurd absent not_mem_nil
  | cons tx rest ih =>
    obtain ⟨next, still⟩ :=
      resurrect_consistent data node policy distinct areKnown members consistent
    exact ih (fun other member => areKnown other (mem_cons_of_mem tx member)) still next

end

/-! ## What connecting and disconnecting does to the coins and the undo data -/

section

variable [ChainParams] [Crypto] {known : Set CTransaction} {data : LocalData} {node : Node}

omit [ChainParams] [Crypto] in
theorem storeIndex_disk (node : Node) (pindex : CBlockIndex) :
    (node.storeIndex pindex).diskUndo = node.diskUndo ∧
      (node.storeIndex pindex).diskBlocks = node.diskBlocks ∧
      (node.storeIndex pindex).pcoinsTip = node.pcoinsTip := by
  unfold Node.storeIndex
  cases pindex.phashBlock with
  | none => exact ⟨rfl, rfl, rfl⟩
  | some hash => exact ⟨rfl, rfl, rfl⟩

omit [ChainParams] [Crypto] in
theorem invalidBlockFound_disk (node : Node) (hash : Uint256) (state : CValidationState) :
    (node.invalidBlockFound hash state).diskUndo = node.diskUndo ∧
      (node.invalidBlockFound hash state).diskBlocks = node.diskBlocks ∧
      (node.invalidBlockFound hash state).pcoinsTip = node.pcoinsTip := by
  unfold Node.invalidBlockFound
  split
  · exact ⟨rfl, rfl, rfl⟩
  · cases node.mapBlockIndex hash with
    | none => exact ⟨rfl, rfl, rfl⟩
    | some pindex => exact ⟨rfl, rfl, rfl⟩

/-- The undo data after a call: that of before, and perhaps new data for one block. -/
structure WroteUndo (before after : Node) (hash : Uint256) : Prop where
  undo : ∀ other, other ≠ hash → after.diskUndo other = before.diskUndo other
  blocks : after.diskBlocks = before.diskBlocks
  coins : after.pcoinsTip = before.pcoinsTip

omit [ChainParams] [Crypto] in
theorem writeUndo_disk (node : Node) (pindex : CBlockIndex) (vtxundo : List (List CTxInUndo)) :
    WroteUndo node (node.writeUndo pindex vtxundo).1 pindex.getBlockHash := by
  unfold Node.writeUndo
  split
  · simp only
    obtain ⟨undo, blocks, coins⟩ := storeIndex_disk
      { node with
        diskUndo :=
          if pindex.nStatus.haveUndo then node.diskUndo
          else Function.update node.diskUndo pindex.getBlockHash (some vtxundo) }
      ({ pindex with nStatus := { pindex.nStatus with haveUndo := true } }.raiseValidity
        BLOCK_VALID_SCRIPTS)
    refine ⟨fun other apart => ?_, blocks, coins⟩
    rw [undo]
    cases pindex.nStatus.haveUndo with
    | true => rfl
    | false => exact Function.update_of_ne apart _ _
  · exact ⟨fun _ _ => rfl, rfl, rfl⟩

theorem connectBlock_disk (data : LocalData) (node : Node) (fScriptChecks : Bool) (block : CBlock)
    (pindex : CBlockIndex) (view : CCoinsViewCache) :
    WroteUndo node (connectBlock data node fScriptChecks block pindex view false).node
        pindex.getBlockHash ∧
      ((connectBlock data node fScriptChecks block pindex view false).node.diskUndo =
          node.diskUndo ∨
        ∃ coins vtxundo, Updates pindex.nHeight block.vtx view coins vtxundo) := by
  have untouched : ∀ after : Node, after.diskUndo = node.diskUndo ∧
      after.diskBlocks = node.diskBlocks ∧ after.pcoinsTip = node.pcoinsTip →
      WroteUndo node after pindex.getBlockHash := by
    rintro after ⟨undo, blocks, coins⟩
    exact ⟨fun other _ => by rw [undo], blocks, coins⟩
  unfold connectBlock
  split
  · exact ⟨untouched node ⟨rfl, rfl, rfl⟩, .inl rfl⟩
  · split
    · exact ⟨untouched node ⟨rfl, rfl, rfl⟩, .inl rfl⟩
    · rename_i coins vtxundo totals connected
      have updates : Updates pindex.nHeight block.vtx view coins vtxundo := by
        simp only [connectCoins, applyTransactions, bind_eq_ok, reject_eq_ok] at connected
        obtain ⟨_, _, _, _, _, _, _, _, _, _, connected⟩ := connected
        exact connectTransactions_updates connected
      refine ⟨?_, .inr ⟨coins, vtxundo, updates⟩⟩
      have stored := storeIndex_disk node (node.withSupply pindex totals)
      unfold connectFinish
      simp only [Bool.false_eq_true, ↓reduceIte]
      split
      · exact untouched _ stored
      · have wrote := writeUndo_disk (node.storeIndex (node.withSupply pindex totals))
          (node.withSupply pindex totals) vtxundo.tail
        have whole : WroteUndo node ((node.storeIndex (node.withSupply pindex totals)).writeUndo
            (node.withSupply pindex totals) vtxundo.tail).1 pindex.getBlockHash :=
          ⟨fun other apart => (wrote.undo other apart).trans (by rw [stored.1]),
            wrote.blocks.trans stored.2.1, wrote.coins.trans stored.2.2⟩
        split
        · exact whole
        · rename_i result recorded
          unfold Node.recordPointer at recorded
          simp only at recorded
          split at recorded
          · cases recorded
            exact whole
          · split at recorded
            · contradiction
            · cases recorded
              exact ⟨whole.undo, whole.blocks, whole.coins⟩

end

/-! ## The invariant of the node and its pool -/

section

variable [ChainParams] [Crypto] {known : Set CTransaction} {state : PoolNode}

/-- A consistent pool, with coins and undo data of known transactions. -/
structure Sourced (known : Set CTransaction) (state : PoolNode) : Prop where
  pool : state.mempool.Consistent state.node.pcoinsTip.available
  members : Members known state.mempool
  coins : state.node.pcoinsTip.available ⊆ Issued known
  undo : ∀ hash vtxundo block, state.node.diskUndo hash = some vtxundo →
    state.node.diskBlocks hash = some block →
      ∀ tx ∈ block.vtx, tx ∈ known ∧ ∀ out ∈ tx.spends, out ∈ Issued known

omit [ChainParams] in
theorem Sourced.withPool (sourced : Sourced known state) {pool : CTxMemPool}
    (consistent : pool.Consistent state.node.pcoinsTip.available) (members : Members known pool) :
    Sourced known { state with mempool := pool } :=
  ⟨consistent, members, sourced.coins, sourced.undo⟩

/-- The block of a call of `ConnectTip` is the one on disk, its transactions are known ones, and
the genesis block is connected before the pool has transactions. -/
structure Connects (known : Set CTransaction) (state : PoolNode) (pindexNew : CBlockIndex)
    (block : CBlock) : Prop where
  stored : state.node.diskBlocks pindexNew.getBlockHash = some block
  areKnown : ∀ tx ∈ block.vtx, tx ∈ known
  genesis : block.getHash = ChainParams.hashGenesisBlock →
    ∀ hash, state.mempool.lookup hash = none

variable {block : CBlock}

theorem connectBlock_coins {data : LocalData} {node : Node} {fScriptChecks : Bool}
    {pindex : CBlockIndex} {before after : CCoinsViewCache} {undo : Option (List (List CTxInUndo))}
    (accepted : (connectBlock data node fScriptChecks block pindex before false).verdict =
      .ok (after, undo)) :
    (block.getHash = ChainParams.hashGenesisBlock ∧ after.available = before.available) ∨
      ∃ coins vtxundo, Updates pindex.nHeight block.vtx before coins vtxundo ∧
        after.available = coins.available := by
  cases undo with
  | some vtxundo =>
    obtain ⟨_, coins, updates, rfl⟩ := (connectBlock_accepted accepted).updates
    exact .inr ⟨coins, _, updates, rfl⟩
  | none =>
    unfold connectBlock at accepted
    split at accepted
    · rename_i genesis
      simp only [bind_eq_ok, Except.ok.injEq, Prod.mk.injEq, and_true] at accepted
      obtain ⟨_, _, _, _, rfl⟩ := accepted
      exact .inl ⟨genesis, rfl⟩
    · split at accepted
      · contradiction
      · unfold connectFinish at accepted
        simp only [Bool.false_eq_true, ↓reduceIte] at accepted
        split at accepted
        · contradiction
        · split at accepted
          · contradiction
          · simp only [Except.ok.injEq, Prod.mk.injEq, reduceCtorEq, and_false] at accepted

theorem Sourced.wroteUndo (distinct : known.InjOn CTransaction.getHash)
    (sourced : Sourced known state) {pindexNew : CBlockIndex}
    (connects : Connects known state pindexNew block) (data : LocalData) (fScriptChecks : Bool)
    (hash : Uint256) (vtxundo : List (List CTxInUndo)) (other : CBlock)
    (wrote : (connectBlock data state.node fScriptChecks block pindexNew state.node.pcoinsTip
      false).node.diskUndo hash = some vtxundo) (found : state.node.diskBlocks hash = some other) :
    ∀ tx ∈ other.vtx, tx ∈ known ∧ ∀ out ∈ tx.spends, out ∈ Issued known := by
  obtain ⟨frame, unchanged | ⟨coins, undo, updates⟩⟩ := connectBlock_disk data state.node
    fScriptChecks block pindexNew state.node.pcoinsTip
  · rw [unchanged] at wrote
    exact sourced.undo hash vtxundo other wrote found
  · by_cases here : hash = pindexNew.getBlockHash
    · rw [here, connects.stored] at found
      obtain rfl := Option.some.inj found
      have supplies := updates.supplies distinct connects.areKnown sourced.coins
      exact fun tx member => ⟨connects.areKnown tx member, supplies.spends tx member⟩
    · rw [frame.undo hash here] at wrote
      exact sourced.undo hash vtxundo other wrote found

theorem Sourced.removeForBlock (distinct : known.InjOn CTransaction.getHash)
    (sourced : Sourced known state) {pindexNew : CBlockIndex}
    (connects : Connects known state pindexNew block) {data : LocalData} {fScriptChecks : Bool}
    {after : CCoinsViewCache} {undo : Option (List (List CTxInUndo))}
    (accepted : (connectBlock data state.node fScriptChecks block pindexNew state.node.pcoinsTip
      false).verdict = .ok (after, undo)) :
    (state.mempool.removeForBlock block.vtx).1.Consistent after.available ∧
      Members known (state.mempool.removeForBlock block.vtx).1 ∧
      after.available ⊆ Issued known := by
  rcases connectBlock_coins accepted with ⟨genesis, same⟩ | ⟨coins, vtxundo, updates, same⟩
  · -- the pool is empty, so what the block offers does not matter
    have empty := connects.genesis genesis
    have wide : state.mempool.Consistent (Set.univ ∪ spentBy block.vtx) :=
      sourced.pool.mono fun out there => .inl trivial
    obtain ⟨left, shrinks⟩ := wide.removeForBlock distinct connects.areKnown
      (fun _ _ _ _ _ => .inl trivial) sourced.members
    refine ⟨⟨left.toIndexed, fun hash tx found => ?_⟩, sourced.members.shrinks shrinks, ?_⟩
    · rw [shrinks.lookup_none (empty hash)] at found
      contradiction
    · rw [same]
      exact sourced.coins
  · have supplies := updates.supplies distinct connects.areKnown sourced.coins
    rw [same]
    have spends : state.mempool.Consistent (coins.available ∪ spentBy block.vtx) := by
      apply sourced.pool.mono
      intro out there
      rcases supplies.kept out there with left | spent
      · exact .inl left
      · exact .inr spent
    obtain ⟨left, shrinks⟩ := spends.removeForBlock distinct connects.areKnown supplies.offered
      sourced.members
    exact ⟨left, sourced.members.shrinks shrinks, supplies.issued⟩

/-- **Connecting a block** keeps the invariant. -/
theorem Sourced.connectTip (distinct : known.InjOn CTransaction.getHash)
    (sourced : Sourced known state) (data : LocalData) (fScriptChecks : Bool)
    (pindexNew : CBlockIndex) (pblock : Option CBlock)
    (connects : ∀ block, state.tipBlock pindexNew pblock = some block →
      Connects known state pindexNew block) :
    Sourced known (state.connectTip data fScriptChecks pindexNew pblock true).1 := by
  unfold PoolNode.connectTip Agouti.connectTip
  change ∀ block, (pblock <|> state.node.readBlockFromDisk pindexNew) = some block → _ at connects
  simp only [PoolNode.tipBlock]
  cases found : pblock <|> state.node.readBlockFromDisk pindexNew with
  | none => exact sourced.withPool sourced.pool sourced.members
  | some block =>
    have connecting := connects block found
    have wrote := sourced.wroteUndo distinct connecting data fScriptChecks
    have frame := (connectBlock_disk data state.node fScriptChecks block pindexNew
      state.node.pcoinsTip).1
    simp only [Option.map_some, Option.getD_some]
    cases verdict : (connectBlock data state.node fScriptChecks block pindexNew
        state.node.pcoinsTip false).verdict with
    | error refusal =>
      have failed : ∀ node : Node,
          node.diskUndo = (connectBlock data state.node fScriptChecks block pindexNew
            state.node.pcoinsTip false).node.diskUndo →
          node.diskBlocks = state.node.diskBlocks → node.pcoinsTip = state.node.pcoinsTip →
            Sourced known { state with node := node } := by
        intro node undo blocks coins
        refine ⟨coins ▸ sourced.pool, sourced.members, coins ▸ sourced.coins, ?_⟩
        intro hash vtxundo other written stored
        rw [blocks] at stored
        rw [undo] at written
        exact wrote hash vtxundo other written stored
      cases invalid : refusal.isInvalid with
      | false =>
        simp only [invalid, Bool.false_eq_true, ↓reduceIte]
        exact failed _ rfl frame.blocks frame.coins
      | true =>
        simp only [invalid, ↓reduceIte]
        obtain ⟨undo, blocks, coins⟩ := invalidBlockFound_disk
          (connectBlock data state.node fScriptChecks block pindexNew state.node.pcoinsTip
            false).node pindexNew.getBlockHash refusal
        exact failed _ undo (blocks.trans frame.blocks) (coins.trans frame.coins)
    | ok result =>
      obtain ⟨view, undo⟩ := result
      obtain ⟨consistent, members, coins⟩ :=
        sourced.removeForBlock distinct connecting verdict
      refine ⟨consistent, members, coins, ?_⟩
      intro hash vtxundo other written stored
      change (connectBlock data state.node fScriptChecks block pindexNew state.node.pcoinsTip
        false).node.diskBlocks hash = some other at stored
      rw [frame.blocks] at stored
      exact wrote hash vtxundo other written stored

/-- What `DisconnectBlock` does to the node and to the available outputs. -/
structure Disconnects (node changed : Node) (block : CBlock) (pindex : CBlockIndex)
    (view : CCoinsViewCache) (fClean : Bool) : Prop where
  undo : changed.diskUndo = node.diskUndo
  blocks : changed.diskBlocks = node.diskBlocks
  coins : changed.pcoinsTip = node.pcoinsTip
  wrote : ∃ vtxundo, node.diskUndo pindex.getBlockHash = some vtxundo
  returns : fClean = true → Returns block.vtx node.pcoinsTip view

theorem disconnectBlock_disconnects {node changed : Node} {pindex : CBlockIndex}
    {view : CCoinsViewCache} {fClean : Bool}
    (disconnected : disconnectBlock node block pindex node.pcoinsTip =
      some (changed, view, fClean)) : Disconnects node changed block pindex view fClean := by
  simp only [disconnectBlock, disconnectCoins, Option.bind_eq_bind, Option.pure_def,
    Option.bind_eq_some_iff] at disconnected
  obtain ⟨_, _, vtxundo, wrote, ⟨after, clean⟩, ⟨_, _, _, lengths, ⟨coins, _⟩, rewound, hashPrev, _,
    final⟩, same⟩ := disconnected
  obtain ⟨rfl, rfl⟩ := Prod.mk.inj (Option.some.inj final)
  simp only [Option.some.injEq, Prod.mk.injEq] at same
  obtain ⟨rfl, rfl, rfl⟩ := same
  have disk : (node.erasePointer block pindex).diskUndo = node.diskUndo ∧
      (node.erasePointer block pindex).diskBlocks = node.diskBlocks ∧
      (node.erasePointer block pindex).pcoinsTip = node.pcoinsTip := by
    unfold Node.erasePointer
    split
    · exact ⟨rfl, rfl, rfl⟩
    · exact ⟨rfl, rfl, rfl⟩
  refine ⟨disk.1, disk.2.1, disk.2.2, ⟨vtxundo, wrote⟩, fun clean => ?_⟩
  rw [clean] at rewound
  have returns := disconnectTransactions_returns rewound
  have same : vtxundo.length + 1 = block.vtx.length := by
    by_contra different
    rw [guard, if_neg different] at lengths
    contradiction
  rw [map_fst_zip (by rw [length_cons]; omega)] at returns
  exact ⟨returns.kept, returns.returned⟩

/-- **Disconnecting a block** keeps the invariant. -/
theorem Sourced.disconnectTip (distinct : known.InjOn CTransaction.getHash)
    (sourced : Sourced known state) (data : LocalData) (policy : RelayPolicy) :
    Sourced known (state.disconnectTip data policy true).1 := by
  unfold PoolNode.disconnectTip Agouti.disconnectTip
  cases tip : state.node.tip with
  | none => exact sourced.withPool sourced.pool sourced.members
  | some pindexDelete =>
    simp only [Option.bind_some]
    cases read : state.node.readBlockFromDisk pindexDelete with
    | none => exact sourced.withPool sourced.pool sourced.members
    | some block =>
      simp only [Option.map_some]
      cases disconnected : disconnectBlock state.node block pindexDelete state.node.pcoinsTip with
      | none => exact sourced.withPool sourced.pool sourced.members
      | some result =>
        obtain ⟨changed, view, fClean⟩ := result
        have disconnects := disconnectBlock_disconnects disconnected
        have undo : ∀ hash vtxundo other, changed.diskUndo hash = some vtxundo →
            changed.diskBlocks hash = some other →
              ∀ tx ∈ other.vtx, tx ∈ known ∧ ∀ out ∈ tx.spends, out ∈ Issued known := by
          intro hash vtxundo other
          rw [disconnects.undo, disconnects.blocks]
          exact sourced.undo hash vtxundo other
        cases fClean with
        | false =>
          exact ⟨disconnects.coins ▸ sourced.pool, sourced.members,
            disconnects.coins ▸ sourced.coins, undo⟩
        | true =>
          obtain ⟨vtxundo, wrote⟩ := disconnects.wrote
          have stored : state.node.diskBlocks pindexDelete.getBlockHash = some block := by
            unfold Node.readBlockFromDisk at read
            split at read
            · exact read
            · contradiction
          have issued := sourced.undo _ vtxundo block wrote stored
          have areKnown : ∀ tx ∈ block.vtx, tx ∈ known :=
            fun tx member => (issued tx member).1
          have returns := disconnects.returns rfl
          simp only [Bool.not_true, Bool.false_eq_true, ↓reduceIte]
          have offered : state.mempool.Consistent (view.available ∪ offeredBy block.vtx) := by
            apply sourced.pool.mono
            intro out there
            by_cases apart : ∀ tx ∈ block.vtx, out.hash ≠ tx.getHash
            · exact .inl (returns.kept out there apart)
            · push Not at apart
              obtain ⟨tx, member, named⟩ := apart
              exact .inr ⟨tx, member, Issued.offers distinct (sourced.coins there)
                (areKnown tx member) named⟩
          obtain ⟨left, members⟩ := resurrect_all data
            { changed with pcoinsTip := view }.dropTip policy distinct areKnown
            sourced.members offered
          obtain ⟨last, fewer⟩ := left.removeCoinbaseSpends view pindexDelete.nHeight
          refine ⟨last, members.shrinks fewer, fun out there => ?_, undo⟩
          rcases returns.returned out there with before | ⟨tx, member, spent⟩
          · exact sourced.coins before
          · exact (issued tx member).2 out spent

/-! ## Runs -/

/-- One operation on the node or its pool. The coins change in `ConnectTip` and `DisconnectTip`
alone; where the coins cannot be written these abort the node. -/
inductive PoolStep (known : Set CTransaction) : PoolNode → PoolNode → Prop
  | accept {state : PoolNode} {pool : CTxMemPool} (data : LocalData) (policy : RelayPolicy)
      {tx : CTransaction} (isKnown : tx ∈ known)
      (accepted : acceptToMemoryPool data state.node policy state.mempool tx = .ok pool) :
      PoolStep known state { state with mempool := pool }
  | remove (state : PoolNode) (tx : CTransaction) :
      PoolStep known state { state with mempool := (state.mempool.remove tx true).1 }
  | removeChildless {state : PoolNode} {tx : CTransaction}
      (childless : ∀ n, state.mempool.mapNextTx ⟨tx.getHash, n⟩ = none) :
      PoolStep known state { state with mempool := (state.mempool.remove tx false).1 }
  | removeConflicts (state : PoolNode) (tx : CTransaction) :
      PoolStep known state { state with mempool := (state.mempool.removeConflicts tx).1 }
  | removeCoinbaseSpends (state : PoolNode) (nMemPoolHeight : Int) :
      PoolStep known state
        { state with
          mempool := state.mempool.removeCoinbaseSpends state.node.pcoinsTip nMemPoolHeight }
  | connectTip {state : PoolNode} (data : LocalData) (fScriptChecks : Bool)
      (pindexNew : CBlockIndex) (pblock : Option CBlock)
      (connects : ∀ block, state.tipBlock pindexNew pblock = some block →
        Connects known state pindexNew block) :
      PoolStep known state (state.connectTip data fScriptChecks pindexNew pblock true).1
  | disconnectTip (state : PoolNode) (data : LocalData) (policy : RelayPolicy) :
      PoolStep known state (state.disconnectTip data policy true).1
  | other {state : PoolNode} {node : Node} (coins : node.pcoinsTip = state.node.pcoinsTip)
      (undo : node.diskUndo = state.node.diskUndo)
      (blocks : ∀ hash, (node.diskUndo hash).isSome = true →
        node.diskBlocks hash = state.node.diskBlocks hash) :
      PoolStep known state { state with node := node }

/-- Runs of a node and its pool. -/
inductive PoolRun (known : Set CTransaction) : PoolNode → PoolNode → Prop
  | refl (state : PoolNode) : PoolRun known state state
  | step {start state next : PoolNode} (run : PoolRun known start state)
      (last : PoolStep known state next) : PoolRun known start next

/-- One step of the node or its pool. -/
theorem Sourced.step (distinct : known.InjOn CTransaction.getHash) {next : PoolNode}
    (sourced : Sourced known state) (step : PoolStep known state next) : Sourced known next := by
  cases step with
  | accept data policy isKnown accepted =>
    rename_i pool tx
    have before : state.mempool.Consistent (state.node.pcoinsTip.available ∪ ∅) := by
      rw [Set.union_empty]
      exact sourced.pool
    have after : pool.Consistent (state.node.pcoinsTip.available ∪ ∅) :=
      before.accept accepted (fun out absent => absurd absent (Set.notMem_empty out))
        fun out absent => absurd absent (Set.notMem_empty out)
    rw [Set.union_empty] at after
    obtain ⟨_, rfl⟩ := acceptToMemoryPool_ok sourced.pool.toIndexed accepted
    apply sourced.withPool
    · exact after
    · intro hash other found
      rw [CTxMemPool.lookup_addUnchecked] at found
      split at found
      · obtain rfl := Option.some.inj found
        exact isKnown
      · exact sourced.members hash other found
  | remove tx =>
    have removed := sourced.pool.remove tx
    exact sourced.withPool (removed.consistent.mono fun out left => left.1)
      (sourced.members.shrinks removed.shrinks)
  | removeChildless childless =>
    rename_i tx
    have handed : ∀ other, state.mempool.lookup tx.getHash = some other → ∀ out ∈ other.offers,
        out ∈ state.node.pcoinsTip.available ∨ state.mempool.mapNextTx out = none := by
      intro other found out offered
      right
      have named : out.hash = tx.getHash :=
        offered.1.trans (sourced.pool.stored _ other found)
      obtain ⟨hash, n⟩ := out
      obtain rfl : hash = tx.getHash := named
      exact childless n
    obtain ⟨left, shrinks, _⟩ := sourced.pool.remove_false handed
    exact sourced.withPool left (sourced.members.shrinks shrinks)
  | removeConflicts tx =>
    have cleared := sourced.pool.removeConflicts tx
    exact sourced.withPool cleared.consistent (sourced.members.shrinks cleared.shrinks)
  | removeCoinbaseSpends nMemPoolHeight =>
    obtain ⟨left, shrinks⟩ :=
      sourced.pool.removeCoinbaseSpends state.node.pcoinsTip nMemPoolHeight
    exact sourced.withPool left (sourced.members.shrinks shrinks)
  | connectTip data fScriptChecks pindexNew pblock connects =>
    exact sourced.connectTip distinct data fScriptChecks pindexNew pblock connects
  | disconnectTip data policy => exact sourced.disconnectTip distinct data policy
  | other coins undo blocks =>
    refine ⟨coins ▸ sourced.pool, sourced.members, coins ▸ sourced.coins, ?_⟩
    intro hash vtxundo block wrote stored
    change Node.diskBlocks _ hash = _ at stored
    change Node.diskUndo _ hash = _ at wrote
    rw [blocks hash (Option.isSome_of_eq_some wrote)] at stored
    rw [undo] at wrote
    exact sourced.undo hash vtxundo block wrote stored

theorem PoolRun.sourced (distinct : known.InjOn CTransaction.getHash) {start last : PoolNode}
    (run : PoolRun known start last) (sourced : Sourced known start) : Sourced known last := by
  induction run with
  | refl => exact sourced
  | step run last ih => exact ih.step distinct last

/-- **The memory pool stays consistent.** Every run of the operations, from a node whose pool is
consistent with its coins, ends in a pool that is and that passes the assertions of
`CTxMemPool::check`, if no two of the transactions that come up share a hash. -/
theorem consistent_of_run (distinct : known.InjOn CTransaction.getHash) {start last : PoolNode}
    (sourced : Sourced known start) (run : PoolRun known start last) :
    last.mempool.Consistent last.node.pcoinsTip.available ∧
      last.mempool.Checked last.node.pcoinsTip := by
  have end_ := run.sourced distinct sourced
  exact ⟨end_.pool, end_.pool.checked⟩

end

namespace Family

/-! A tip block with a transaction, whose child and grandchild are in the pool. -/

@[reducible] def params : ChainParams := regTestParams 0

def hash (tx : CTransaction) : Uint256 := @CTransaction.getHash checksumCrypto tx

def input (tx : CTransaction) : CTxIn := { prevout := ⟨hash tx, 0⟩, scriptSig := [] }

def payment (txin : CTxIn) (nValue : CAmount) : CTransaction :=
  { nVersion := 1, vin := [txin], vout := [{ nValue := nValue, scriptPubKey := [0x51] }],
    nLockTime := 0 }

def funding : CTransaction := payment { prevout := ⟨1, 0⟩, scriptSig := [] } 100
def coinbase : CTransaction :=
  { nVersion := 1, vin := [{ prevout := .null, scriptSig := [0x01, 0x02] }],
    vout := [{ nValue := 5, scriptPubKey := [0x51] }], nLockTime := 0 }
def parent : CTransaction := payment (input funding) 90
def child : CTransaction := payment (input parent) 80
def grandchild : CTransaction := payment (input child) 70

def txs : List CTransaction := [funding, coinbase, parent, child, grandchild]

def block : CBlock :=
  { nVersion := 4, hashPrevBlock := 6, hashMerkleRoot := 0, nTime := 0, nBits := 0, nNonce := 0,
    vtx := [coinbase, parent] }

def tip : CBlockIndex :=
  { phashBlock := some 7, pprev := some 6, nHeight := 200,
    nStatus := { valid := BLOCK_VALID_SCRIPTS, haveData := true, haveUndo := true } }

def node : Node where
  mapBlockIndex hash :=
    if hash = 7 then some tip
    else if hash = 6 then some { phashBlock := some 6, nHeight := 199 }
    else none
  vChain := [6, 7]
  diskBlocks hash := if hash = 7 then some block else none
  diskUndo hash :=
    if hash = 7 then
      some [[{ txout := { nValue := 100, scriptPubKey := [0x51] }, nHeight := 50, nVersion := 1 }]]
    else none
  pcoinsTip :=
    { coins := fun txid =>
        if txid = hash coinbase then .fromTx coinbase 200
        else if txid = hash parent then .fromTx parent 200
        else {}
      hashBlock := 7 }
  mapProofOfStake := []
  setStakeSeen := []
  mapUsedStakePointers _ := none
  setBlockIndexCandidates := [7]
  mapBlocksUnlinked := []
  nBlockSequenceId := 1

def data : LocalData where
  adjustedTime := 0
  fInitialBlockDownload := false
  isSporkActive _ := false
  mapLockedInputs _ := none
  fSynced := false
  nEnabled := 0
  mapMasternodeBlocks _ := none
  mapFinalizedBudgets := []
  mapSeenVetoVotes := []
  winningNode := none
  fCheckpoints := true
  maxreorg := none
  nRand := 0

/-- Everything that is relayed is accepted. -/
def policy : RelayPolicy where
  nonstandard _ := none
  areInputsStandard _ _ := true
  checkFee _ _ := .ok ()
  checkScripts _ _ := .ok ()

def one : CTxMemPool := CTxMemPool.empty.addUnchecked (hash child) (.ofTx child)

def both : CTxMemPool := one.addUnchecked (hash grandchild) (.ofTx grandchild)

end Family

section

local instance Family.instParams : ChainParams := Family.params
local instance Family.instCrypto : Crypto := checksumCrypto

namespace Family

theorem checked :
    (∀ a ∈ txs, ∀ b ∈ txs, a.getHash = b.getHash → a = b) ∧
      (∀ tx ∈ block.vtx, tx ∈ txs ∧ ∀ out ∈ tx.spends,
        out.hash = funding.getHash ∧ (CCoins.fromTx funding 0).isAvailable out.n = true) ∧
      (acceptToMemoryPool data node policy .empty child).toOption.isSome = true ∧
      (acceptToMemoryPool data node policy one grandchild).toOption.isSome = true := by
  decide +kernel

theorem distinct : Set.InjOn CTransaction.getHash { tx | tx ∈ txs } :=
  fun a first b second same => checked.1 a first b second same

theorem node_coins (txid : Uint256) :
    node.pcoinsTip.coins txid =
      if txid = hash coinbase then .fromTx coinbase 200
      else if txid = hash parent then .fromTx parent 200
      else {} := rfl

theorem member_txs (i : Nat) {tx : CTransaction} (found : txs[i]? = some tx) :
    tx ∈ { tx | tx ∈ txs } := mem_of_getElem? found

theorem sourced : Sourced { tx | tx ∈ txs } ⟨node, .empty⟩ where
  pool := .empty _
  members _ _ found := by contradiction
  coins out there := by
    have there : (node.pcoinsTip.coins out.hash).isAvailable out.n = true := there
    by_cases first : out.hash = hash coinbase
    · rw [node_coins, if_pos first] at there
      exact ⟨coinbase, member_txs 1 rfl, first, there⟩
    · rw [node_coins, if_neg first] at there
      by_cases second : out.hash = hash parent
      · rw [if_pos second] at there
        exact ⟨parent, member_txs 2 rfl, second, there⟩
      · rw [if_neg second] at there
        contradiction
  undo hash vtxundo other wrote stored := by
    have here : hash = 7 := by
      by_contra apart
      simp only [node, apart, ↓reduceIte, reduceCtorEq] at stored
    subst here
    obtain rfl := Option.some.inj stored
    intro tx member
    obtain ⟨isKnown, spends⟩ := checked.2.1 tx member
    exact ⟨isKnown, fun out spent => ⟨funding, member_txs 0 rfl, spends out spent⟩⟩

theorem PoolStep.of_accepts {pool : CTxMemPool} (indexed : pool.Indexed) {tx : CTransaction}
    (isKnown : tx ∈ { tx | tx ∈ txs })
    (accepts : (acceptToMemoryPool data node policy pool tx).toOption.isSome = true) :
    PoolStep { tx | tx ∈ txs } ⟨node, pool⟩
      ⟨node, pool.addUnchecked tx.getHash (.ofTx tx)⟩ := by
  obtain ⟨after, accepted⟩ := Option.isSome_iff_exists.mp accepts
  rw [toOption_eq_some] at accepted
  obtain ⟨_, rfl⟩ := acceptToMemoryPool_ok indexed accepted
  exact .accept data policy isKnown accepted

theorem run : PoolRun { tx | tx ∈ txs } ⟨node, .empty⟩ ⟨node, both⟩ := by
  have first : PoolRun { tx | tx ∈ txs } ⟨node, .empty⟩ ⟨node, one⟩ :=
    (PoolRun.refl _).step
      (PoolStep.of_accepts sourced.pool.toIndexed (member_txs 3 rfl) checked.2.2.1)
  have indexed := (first.sourced distinct sourced).pool.toIndexed
  exact first.step (PoolStep.of_accepts indexed (member_txs 4 rfl) checked.2.2.2)

end Family

/-- Without the update of the chain a removal that is not recursive takes the inputs from the
child of its transaction, and without the resurrection of transactions so does `DisconnectTip`,
when it cannot write the coins. -/
theorem parentRemoved_dangling :
    Family.both.Consistent Family.node.pcoinsTip.available ∧
      ¬ (Family.both.remove Family.child false).1.Consistent Family.node.pcoinsTip.available ∧
      ¬ (PoolNode.disconnectTip Family.data Family.policy ⟨Family.node, Family.both⟩
          false).1.mempool.Consistent
        (PoolNode.disconnectTip Family.data Family.policy ⟨Family.node, Family.both⟩
          false).1.node.pcoinsTip.available := by
  refine ⟨(Family.run.sourced Family.distinct Family.sourced).pool, fun consistent => ?_,
    fun consistent => ?_⟩
  · have left : (Family.both.remove Family.child false).1.lookup (Family.hash Family.grandchild) =
        some Family.grandchild := by decide +kernel
    have gone : (Family.both.remove Family.child false).1.lookup
        (Family.input Family.child).prevout.hash = none := by decide +kernel
    have missing : (Family.node.pcoinsTip.coins (Family.input Family.child).prevout.hash).isAvailable
        (Family.input Family.child).prevout.n = false := by decide +kernel
    exact CTxMemPool.not_consistent_of_missing left (mem_singleton_self _) gone
      (Bool.eq_false_iff.mp missing) consistent
  · have left : (PoolNode.disconnectTip Family.data Family.policy ⟨Family.node, Family.both⟩
        false).1.mempool.lookup (Family.hash Family.child) = some Family.child := by decide +kernel
    have gone : (PoolNode.disconnectTip Family.data Family.policy ⟨Family.node, Family.both⟩
        false).1.mempool.lookup (Family.input Family.parent).prevout.hash = none := by
      decide +kernel
    have missing : ((PoolNode.disconnectTip Family.data Family.policy ⟨Family.node, Family.both⟩
        false).1.node.pcoinsTip.coins (Family.input Family.parent).prevout.hash).isAvailable
        (Family.input Family.parent).prevout.n = false := by decide +kernel
    exact CTxMemPool.not_consistent_of_missing left (mem_singleton_self _) gone
      (Bool.eq_false_iff.mp missing) consistent

/-- The block of the parent is disconnected: all three transactions are in the pool. -/
theorem consistent_of_run_resurrected :
    ((PoolNode.disconnectTip Family.data Family.policy ⟨Family.node, Family.both⟩
        true).1.mempool.lookup (Family.hash Family.parent) = some Family.parent) ∧
      (PoolNode.disconnectTip Family.data Family.policy ⟨Family.node, Family.both⟩
          true).1.mempool.Consistent
        (PoolNode.disconnectTip Family.data Family.policy ⟨Family.node, Family.both⟩
          true).1.node.pcoinsTip.available := by
  refine ⟨by decide +kernel, ?_⟩
  exact (consistent_of_run Family.distinct Family.sourced
    (Family.run.step (.disconnectTip _ Family.data Family.policy))).1

end

end Mempool

end Agouti
