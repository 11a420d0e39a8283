import Agouti.Consensus.PointerScan
import Agouti.Validation.TxIndex

/-! # What a failed `ConnectBlock` leaves behind

`ConnectBlock` sets the money supply and the mint of the entry before it checks the reward, and it
looks for its stake pointer among the used ones only after it has written the undo data, the status
of the entry and the transaction index. A failed call has changed nothing exactly when it failed
before the money supply was set or what it wrote was there already (`failedConnect_atomic`).
-/

namespace Agouti

open Verdict List Function Option

section

variable [ChainParams] [Crypto]

namespace ConnectCall

/-- The loop of `ConnectBlock` over the transactions has come to its end. -/
def Applied (call : ConnectCall) (s : IndexedNode) (view : CCoinsViewCache)
    (vtxundo : List (List CTxInUndo)) (totals : ConnectTotals) : Prop :=
  call.block.getHash ≠ ChainParams.hashGenesisBlock ∧
    connectCoins call.data s.node call.fScriptChecks call.block call.pindex call.view
      call.fJustCheck = .ok (view, vtxundo, totals)

/-- The reward and the scripts have passed, and the block is connected in earnest. -/
def Rewarded (call : ConnectCall) (s : IndexedNode) (totals : ConnectTotals) : Prop :=
  call.io.fWriteBlockIndex = true ∧
    connectReward call.data (s.node.storeIndex (s.node.withSupply call.pindex totals)) call.block
      (s.node.withSupply call.pindex totals) totals = .ok () ∧
    call.fJustCheck = false

/-- The undo data is there or can be written. -/
def Undone (call : ConnectCall) : Prop :=
  call.pindex.nStatus.haveUndo = true ∨
    (call.io.fFindUndoPos = true ∧ call.io.fWriteUndo = true)

/-- The call changes nothing even where it fails: it fails before the money supply is set, or the
entry and the transaction index already are what it makes of them. -/
def Harmless (call : ConnectCall) (s : IndexedNode) : Prop :=
  ∀ view vtxundo totals, call.Applied s view vtxundo totals →
    s.node.withSupply call.pindex totals = call.pindex ∧
      (call.Rewarded s totals → call.Undone →
        (call.pindex.nStatus.haveUndo = true ∧ (call.pindex.nStatus.failed = true ∨
          BLOCK_VALID_SCRIPTS ≤ call.pindex.nStatus.valid)) ∧
        (s.fTxIndex = true → call.io.fWriteTxIndex = true →
          s.txindex.writeTxIndex (vPos call.block call.pindex) = s.txindex))

/-- The call does not meet a used stake pointer once the transaction index is written. -/
def PointerFree (call : ConnectCall) (s : IndexedNode) : Prop :=
  ∀ view vtxundo totals, call.Applied s view vtxundo totals → call.Rewarded s totals →
    call.Undone → s.fTxIndex = true → call.io.fWriteTxIndex = true →
      isV5Stake call.block call.pindex = true →
        s.node.mapUsedStakePointers (stakePointerHash call.block.stakePointer.outpoint) = none

end ConnectCall

structure Unchanged (before after : IndexedNode) : Prop where
  mapBlockIndex : after.node.mapBlockIndex = before.node.mapBlockIndex
  mapUsedStakePointers : after.node.mapUsedStakePointers = before.node.mapUsedStakePointers
  txindex : after.txindex = before.txindex

/-! ## The writes -/

section

variable {node : Node} {pindex : CBlockIndex} {hash : Uint256}

omit [ChainParams] [Crypto]

theorem storeIndex_map (named : pindex.phashBlock = some hash) :
    (node.storeIndex pindex).mapBlockIndex =
      update node.mapBlockIndex hash (some pindex) := by
  simp only [Node.storeIndex, named, Node.setIndex]

theorem storeIndex_used (node : Node) (pindex : CBlockIndex) :
    (node.storeIndex pindex).mapUsedStakePointers = node.mapUsedStakePointers := by
  unfold Node.storeIndex
  split
  · rfl
  · rfl

theorem update_entry_iff {index : BlockMap} {stored other : CBlockIndex}
    (found : index hash = some stored) :
    update index hash (some other) = index ↔ other = stored := by
  rw [update_eq_self_iff, found, some.injEq]

theorem writeUndo_map (named : pindex.phashBlock = some hash)
    (found : node.mapBlockIndex hash = some pindex) (vtxundo : List (List CTxInUndo)) :
    (node.writeUndo pindex vtxundo).1.mapBlockIndex = update node.mapBlockIndex hash
      (some (node.writeUndo pindex vtxundo).2) := by
  unfold Node.writeUndo
  split
  · apply storeIndex_map
    rw [CBlockIndex.raiseValidity_phashBlock]
    exact named
  · exact ((update_entry_iff found).mpr rfl).symm

theorem writeUndo_used (node : Node) (pindex : CBlockIndex) (vtxundo : List (List CTxInUndo)) :
    (node.writeUndo pindex vtxundo).1.mapUsedStakePointers = node.mapUsedStakePointers := by
  unfold Node.writeUndo
  split
  · exact storeIndex_used _ _
  · rfl

theorem writeUndo_status (node : Node) (pindex : CBlockIndex) (vtxundo : List (List CTxInUndo)) :
    ∃ nStatus, (node.writeUndo pindex vtxundo).2 = { pindex with nStatus := nStatus } ∧
      (nStatus = pindex.nStatus ↔ pindex.nStatus.haveUndo = true ∧
        (pindex.nStatus.failed = true ∨ BLOCK_VALID_SCRIPTS ≤ pindex.nStatus.valid)) := by
  obtain ⟨phashBlock, pprev, nHeight, nChainWork, nTx, nChainTx, nStatus⟩ := pindex
  obtain ⟨valid, haveData, haveUndo, failedValid, failedChild⟩ := nStatus
  unfold Node.writeUndo CBlockIndex.raiseValidity CBlockIndex.isValid BlockStatus.failed
  by_cases raised : BLOCK_VALID_SCRIPTS ≤ valid
  · cases haveUndo <;> cases failedValid <;> cases failedChild <;>
      simp [raised, Nat.not_lt.mpr raised]
  · have lower := Nat.not_le.mp raised
    cases haveUndo <;> cases failedValid <;> cases failedChild <;>
      simp [raised, lower, Nat.ne_of_gt lower]

end

/-! ## A failed call -/

section

variable {s : IndexedNode} {call : ConnectCall} {hash : Uint256} {refusal : CValidationState}

omit [ChainParams] in
theorem vPos_congr (block : CBlock) {pindex changed : CBlockIndex}
    (same : changed.phashBlock = pindex.phashBlock) : vPos block changed = vPos block pindex := by
  simp only [vPos, CBlockIndex.getBlockHash, same]

omit [ChainParams] [Crypto] in
theorem writeUndoIO_cases (node : Node) (pindex : CBlockIndex) (vtxundo : List (List CTxInUndo))
    (same : call.pindex.nStatus.haveUndo = pindex.nStatus.haveUndo) :
    ((∃ state, node.writeUndoIO call.io pindex vtxundo = .error state) ∧ ¬ call.Undone) ∨
      (node.writeUndoIO call.io pindex vtxundo = .ok (node.writeUndo pindex vtxundo) ∧
        call.Undone) := by
  unfold Node.writeUndoIO ConnectCall.Undone
  rw [same]
  cases pindex.nStatus.haveUndo with
  | true => exact .inr ⟨rfl, .inl rfl⟩
  | false =>
    cases call.io.fFindUndoPos with
    | false => exact .inl ⟨⟨_, rfl⟩, by simp⟩
    | true =>
      cases call.io.fWriteUndo with
      | false => exact .inl ⟨⟨_, rfl⟩, by simp⟩
      | true => exact .inr ⟨rfl, by simp⟩

theorem recordPointer_error {node : Node} {block : CBlock} {pindex : CBlockIndex}
    {state : CValidationState} (failed : node.recordPointer block pindex = .error state) :
    isV5Stake block pindex = true ∧
      (node.mapUsedStakePointers (stakePointerHash block.stakePointer.outpoint)).isSome = true := by
  unfold Node.recordPointer at failed
  simp only at failed
  split at failed
  · contradiction
  · rename_i staked
    split at failed
    · rename_i used
      exact ⟨by simpa using staked, used⟩
    · contradiction

/-- What a call leaves that fails behind the check of the reward. -/
structure WroteAll (s : IndexedNode) (call : ConnectCall) (hash : Uint256)
    (totals : ConnectTotals) (after : IndexedNode) : Prop where
  entry : ∃ nStatus, (nStatus = call.pindex.nStatus ↔ call.pindex.nStatus.haveUndo = true ∧
      (call.pindex.nStatus.failed = true ∨ BLOCK_VALID_SCRIPTS ≤ call.pindex.nStatus.valid)) ∧
    after.node.mapBlockIndex = update s.node.mapBlockIndex hash
      (some { s.node.withSupply call.pindex totals with nStatus := nStatus })
  used : after.node.mapUsedStakePointers = s.node.mapUsedStakePointers
  txindex : after.txindex = if s.fTxIndex = true ∧ call.io.fWriteTxIndex = true then
    s.txindex.writeTxIndex (vPos call.block call.pindex) else s.txindex
  pointer : s.fTxIndex = true → call.io.fWriteTxIndex = true →
    isV5Stake call.block call.pindex = true ∧
      (s.node.mapUsedStakePointers
        (stakePointerHash call.block.stakePointer.outpoint)).isSome = true

variable {view : CCoinsViewCache} {vtxundo : List (List CTxInUndo)}

theorem connectWrites_refused {pindex : CBlockIndex} (undone : call.Undone)
    (failed : (s.connectWrites call pindex view vtxundo).verdict = .error refusal)
    (same : call.pindex.nStatus.haveUndo = pindex.nStatus.haveUndo) :
    (s.connectWrites call pindex view vtxundo).state.node = (s.node.writeUndo pindex vtxundo).1 ∧
      (s.connectWrites call pindex view vtxundo).state.txindex =
        (if s.fTxIndex = true ∧ call.io.fWriteTxIndex = true then
          s.txindex.writeTxIndex (vPos call.block (s.node.writeUndo pindex vtxundo).2)
        else s.txindex) ∧
      (s.fTxIndex = true → call.io.fWriteTxIndex = true →
        isV5Stake call.block (s.node.writeUndo pindex vtxundo).2 = true ∧
          ((s.node.writeUndo pindex vtxundo).1.mapUsedStakePointers
            (stakePointerHash call.block.stakePointer.outpoint)).isSome = true) := by
  rcases writeUndoIO_cases s.node pindex vtxundo same with ⟨_, never⟩ | ⟨written, _⟩
  · exact absurd undone never
  unfold IndexedNode.connectWrites at failed ⊢
  simp only [written] at failed ⊢
  generalize s.node.writeUndo pindex vtxundo = wrote at failed ⊢
  obtain ⟨node, changed⟩ := wrote
  have reuse : ∀ state, node.recordPointer call.block changed = .error state →
      isV5Stake call.block changed = true ∧ (node.mapUsedStakePointers
        (stakePointerHash call.block.stakePointer.outpoint)).isSome = true :=
    fun state error => recordPointer_error error
  unfold IndexedNode.indexBlock at failed ⊢
  cases index : s.fTxIndex with
  | false =>
    simp only [index, Bool.false_and, Bool.false_eq_true, if_false, false_and] at failed ⊢
    cases recorded : node.recordPointer call.block changed with
    | ok after =>
      rw [recorded] at failed
      contradiction
    | error state => exact ⟨rfl, rfl, fun none => by contradiction⟩
  | true =>
    cases writes : call.io.fWriteTxIndex with
    | false =>
      simp only [Bool.not_false, Bool.and_self, if_true, Bool.false_eq_true, and_false,
        if_false]
      exact ⟨trivial, trivial, fun _ none => by contradiction⟩
    | true =>
      simp only [index, writes, Bool.not_true, Bool.and_false, Bool.false_eq_true, if_false,
        if_true, and_self] at failed ⊢
      cases recorded : node.recordPointer call.block changed with
      | ok after =>
        rw [recorded] at failed
        contradiction
      | error state => exact ⟨rfl, rfl, fun _ _ => reuse state recorded⟩

theorem connectWrites_index {totals : ConnectTotals} (undone : call.Undone) {stored : IndexedNode}
    (store : stored = { s with node := s.node.storeIndex (s.node.withSupply call.pindex totals) })
    (failed : (stored.connectWrites call (s.node.withSupply call.pindex totals) view
      vtxundo).verdict = .error refusal) :
    (stored.connectWrites call (s.node.withSupply call.pindex totals) view
        vtxundo).state.txindex =
        (if s.fTxIndex = true ∧ call.io.fWriteTxIndex = true then
          s.txindex.writeTxIndex (vPos call.block call.pindex) else s.txindex) ∧
      (s.fTxIndex = true → call.io.fWriteTxIndex = true →
        isV5Stake call.block call.pindex = true ∧
          (s.node.mapUsedStakePointers
            (stakePointerHash call.block.stakePointer.outpoint)).isSome = true) := by
  have used : stored.node.mapUsedStakePointers = s.node.mapUsedStakePointers := by
    rw [store]
    exact storeIndex_used _ _
  have index : stored.txindex = s.txindex ∧ stored.fTxIndex = s.fTxIndex := by
    rw [store]
    exact ⟨rfl, rfl⟩
  obtain ⟨nStatus, changed, _⟩ :=
    writeUndo_status stored.node (s.node.withSupply call.pindex totals) vtxundo
  have usedAfter := writeUndo_used stored.node (s.node.withSupply call.pindex totals) vtxundo
  have positions : vPos call.block (stored.node.writeUndo
      (s.node.withSupply call.pindex totals) vtxundo).2 = vPos call.block call.pindex := by
    rw [changed]
    exact vPos_congr call.block rfl
  have staked : isV5Stake call.block (stored.node.writeUndo
      (s.node.withSupply call.pindex totals) vtxundo).2 = isV5Stake call.block call.pindex := by
    rw [changed]
    exact isV5Stake_congr call.block rfl
  obtain ⟨_, txindex, pointer⟩ := connectWrites_refused undone failed rfl
  rw [index.1, index.2, positions] at txindex
  rw [index.2, staked, usedAfter, used] at pointer
  exact ⟨txindex, pointer⟩

theorem connectWrites_failed (named : call.pindex.phashBlock = some hash) (totals : ConnectTotals)
    (undone : call.Undone) {stored : IndexedNode}
    (store : stored = { s with node := s.node.storeIndex (s.node.withSupply call.pindex totals) })
    (failed : (stored.connectWrites call (s.node.withSupply call.pindex totals) view
      vtxundo).verdict = .error refusal) :
    WroteAll s call hash totals (stored.connectWrites call (s.node.withSupply call.pindex totals)
      view vtxundo).state := by
  have named' : (s.node.withSupply call.pindex totals).phashBlock = some hash := named
  have map : stored.node.mapBlockIndex = update s.node.mapBlockIndex hash
      (some (s.node.withSupply call.pindex totals)) := by
    rw [store]
    exact storeIndex_map named'
  have used : stored.node.mapUsedStakePointers = s.node.mapUsedStakePointers := by
    rw [store]
    exact storeIndex_used _ _
  have found : stored.node.mapBlockIndex hash = some (s.node.withSupply call.pindex totals) := by
    rw [map, update_self]
  have entry := writeUndo_map named' found vtxundo
  obtain ⟨nStatus, changed, same⟩ :=
    writeUndo_status stored.node (s.node.withSupply call.pindex totals) vtxundo
  rw [map, update_idem, changed] at entry
  have usedAfter := writeUndo_used stored.node (s.node.withSupply call.pindex totals) vtxundo
  obtain ⟨node, _⟩ := connectWrites_refused undone failed rfl
  obtain ⟨txindex, pointer⟩ := connectWrites_index undone store failed
  refine ⟨⟨nStatus, same, ?_⟩, ?_, txindex, pointer⟩
  · rw [node]
    exact entry
  · rw [node]
    exact usedAfter.trans used

theorem connect_failed (named : call.pindex.phashBlock = some hash)
    (failed : (s.connect call).verdict = .error refusal) :
    ((∀ view vtxundo totals, ¬ call.Applied s view vtxundo totals) ∧
        (s.connect call).state = s) ∨
      ∃ view vtxundo totals, call.Applied s view vtxundo totals ∧
        ((¬ (call.Rewarded s totals ∧ call.Undone) ∧ (s.connect call).state =
            { s with node := s.node.storeIndex (s.node.withSupply call.pindex totals) }) ∨
          (call.Rewarded s totals ∧ call.Undone ∧
            WroteAll s call hash totals (s.connect call).state)) := by
  unfold IndexedNode.connect at failed ⊢
  by_cases genesis : call.block.getHash = ChainParams.hashGenesisBlock
  · rw [if_pos genesis]
    exact .inl ⟨fun _ _ _ applied => applied.1 genesis, rfl⟩
  · simp only [if_neg genesis] at failed ⊢
    cases connected : connectCoins call.data s.node call.fScriptChecks call.block call.pindex
        call.view call.fJustCheck with
    | error state =>
      refine .inl ⟨fun view vtxundo totals applied => ?_, rfl⟩
      rw [ConnectCall.Applied, connected] at applied
      exact absurd applied.2 (by simp)
    | ok loop =>
      obtain ⟨view, vtxundo, totals⟩ := loop
      refine .inr ⟨view, vtxundo, totals, ⟨genesis, connected⟩, ?_⟩
      simp only [connected] at failed ⊢
      unfold IndexedNode.connectFinish at failed ⊢
      simp only at failed ⊢
      cases wrote : call.io.fWriteBlockIndex with
      | false =>
        refine .inl ⟨fun passed => ?_, rfl⟩
        rw [ConnectCall.Rewarded, wrote] at passed
        exact absurd passed.1.1 Bool.false_ne_true
      | true =>
        simp only [wrote, Bool.not_true, Bool.false_eq_true, if_false] at failed ⊢
        cases rewarded : connectReward call.data
            (s.node.storeIndex (s.node.withSupply call.pindex totals)) call.block
            (s.node.withSupply call.pindex totals) totals with
        | error state =>
          refine .inl ⟨fun passed => ?_, rfl⟩
          rw [ConnectCall.Rewarded, rewarded] at passed
          exact absurd passed.1.2.1 (by simp)
        | ok _ =>
          simp only [rewarded] at failed ⊢
          cases live : call.fJustCheck with
          | true =>
            rw [live, if_pos rfl] at failed
            contradiction
          | false =>
            simp only [live, Bool.false_eq_true, if_false] at failed ⊢
            by_cases undone : call.Undone
            · exact .inr ⟨⟨wrote, rewarded, live⟩, undone,
                connectWrites_failed named totals undone rfl failed⟩
            · refine .inl ⟨fun passed => undone passed.2, ?_⟩
              rcases writeUndoIO_cases
                (s.node.storeIndex (s.node.withSupply call.pindex totals))
                (s.node.withSupply call.pindex totals) vtxundo.tail rfl
                with ⟨⟨state, error⟩, _⟩ | ⟨_, written⟩
              · unfold IndexedNode.connectWrites
                simp only [error]
              · exact absurd written undone

theorem ConnectCall.Applied.unique {view' : CCoinsViewCache} {vtxundo' : List (List CTxInUndo)}
    {totals totals' : ConnectTotals} (first : call.Applied s view vtxundo totals)
    (second : call.Applied s view' vtxundo' totals') :
    totals = totals' := by
  have same := first.2.symm.trans second.2
  simp only [Except.ok.injEq, Prod.mk.injEq] at same
  exact same.2.2

theorem unchanged_iff (named : call.pindex.phashBlock = some hash)
    (found : s.node.mapBlockIndex hash = some call.pindex)
    (failed : (s.connect call).verdict = .error refusal) :
    Unchanged s (s.connect call).state ↔ call.Harmless s := by
  rcases connect_failed named failed with
    ⟨early, same⟩ | ⟨view, vtxundo, totals, applied, ⟨short, same⟩ | ⟨rewarded, undone, wrote⟩⟩
  · rw [same]
    exact iff_of_true ⟨rfl, rfl, rfl⟩ fun view vtxundo totals applied =>
      absurd applied (early view vtxundo totals)
  · -- the money supply is set, and nothing else
    rw [same]
    have map : (s.node.storeIndex (s.node.withSupply call.pindex totals)).mapBlockIndex =
        update s.node.mapBlockIndex hash (some (s.node.withSupply call.pindex totals)) :=
      storeIndex_map named
    constructor
    · intro unchanged view' vtxundo' totals' applied'
      obtain rfl := applied.unique applied'
      refine ⟨?_, fun passed written => absurd ⟨passed, written⟩ short⟩
      exact (update_entry_iff found).mp (map.symm.trans unchanged.mapBlockIndex)
    · intro harmless
      obtain ⟨kept, _⟩ := harmless view vtxundo totals applied
      exact ⟨map.trans ((update_entry_iff found).mpr kept), storeIndex_used _ _, rfl⟩
  · obtain ⟨nStatus, status, map⟩ := wrote.entry
    constructor
    · intro unchanged view' vtxundo' totals' applied'
      obtain rfl := applied.unique applied'
      have entry := (update_entry_iff found).mp (map.symm.trans unchanged.mapBlockIndex)
      have held : nStatus = call.pindex.nStatus := congrArg CBlockIndex.nStatus entry
      refine ⟨?_, fun _ _ => ⟨status.mp held, fun index writes => ?_⟩⟩
      · rw [← entry, held]
        rfl
      · have after := wrote.txindex.symm.trans unchanged.txindex
        rwa [if_pos ⟨index, writes⟩] at after
    · intro harmless
      obtain ⟨kept, later⟩ := harmless view vtxundo totals applied
      obtain ⟨marked, positions⟩ := later rewarded undone
      refine ⟨?_, wrote.used, ?_⟩
      · rw [map, kept, status.mpr marked]
        exact (update_entry_iff found).mpr rfl
      · rw [wrote.txindex]
        split
        · rename_i both
          exact positions both.1 both.2
        · rfl

end

/-! ## The transaction index over runs -/

/-- A run of a node whose transaction index starts empty, with the blocks it has connected: calls
of `ConnectBlock`, of which those that fail do not meet a used stake pointer once the index is
written, and changes of the node in between. -/
inductive IndexRun : IndexedNode → List CBlock → Prop
  | start (node : Node) (fTxIndex : Bool) : IndexRun ⟨node, fTxIndex, fun _ => none⟩ []
  | change {s : IndexedNode} {accepted : List CBlock} (run : IndexRun s accepted) (node : Node) :
      IndexRun { s with node := node } accepted
  | accept {s : IndexedNode} {accepted : List CBlock} (run : IndexRun s accepted)
      (call : ConnectCall) {value : CCoinsViewCache × Option (List (List CTxInUndo))}
      (connected : (s.connect call).verdict = .ok value) :
      IndexRun (s.connect call).state (call.block :: accepted)
  | refuse {s : IndexedNode} {accepted : List CBlock} (run : IndexRun s accepted)
      (call : ConnectCall) {refusal : CValidationState}
      (failed : (s.connect call).verdict = .error refusal) (free : call.PointerFree s) :
      IndexRun (s.connect call).state accepted

theorem connectWrites_txindex (s : IndexedNode) (call : ConnectCall) (pindex : CBlockIndex)
    (view : CCoinsViewCache) (vtxundo : List (List CTxInUndo)) :
    (s.connectWrites call pindex view vtxundo).state.txindex = s.txindex ∨
      (s.connectWrites call pindex view vtxundo).state.txindex =
        s.txindex.writeTxIndex (vPos call.block pindex) := by
  unfold IndexedNode.connectWrites
  cases written : s.node.writeUndoIO call.io pindex vtxundo with
  | error state => exact .inl rfl
  | ok wrote =>
    obtain ⟨node, changed⟩ := wrote
    have same : changed.phashBlock = pindex.phashBlock := by
      simp only [Node.writeUndoIO, bind_eq_ok] at written
      obtain ⟨_, _, written⟩ := written
      obtain rfl : _ = changed := congrArg Prod.snd (Except.ok.inj written)
      exact Node.writeUndo_phashBlock _ _ _
    simp only
    split
    · exact .inl rfl
    · unfold IndexedNode.indexBlock
      simp only [vPos_congr call.block same]
      cases s.fTxIndex with
      | false =>
        left
        simp only [Bool.false_eq_true, if_false]
        split
        · rfl
        · rfl
      | true =>
        right
        simp only [if_true]
        split
        · rfl
        · rfl

theorem connect_txindex (s : IndexedNode) (call : ConnectCall) :
    (s.connect call).state.txindex = s.txindex ∨
      (s.connect call).state.txindex = s.txindex.writeTxIndex (vPos call.block call.pindex) ∧
        ∀ refusal, (s.connect call).verdict = .error refusal → call.PointerFree s →
          (s.connect call).state.txindex = s.txindex := by
  unfold IndexedNode.connect
  by_cases genesis : call.block.getHash = ChainParams.hashGenesisBlock
  · rw [if_pos genesis]
    exact .inl rfl
  · simp only [if_neg genesis]
    cases connected : connectCoins call.data s.node call.fScriptChecks call.block call.pindex
        call.view call.fJustCheck with
    | error state => exact .inl rfl
    | ok loop =>
      obtain ⟨view, vtxundo, totals⟩ := loop
      simp only
      unfold IndexedNode.connectFinish
      simp only
      cases wrote : call.io.fWriteBlockIndex with
      | false => exact .inl rfl
      | true =>
        simp only [Bool.not_true, Bool.false_eq_true, if_false]
        cases rewarded : connectReward call.data
            (s.node.storeIndex (s.node.withSupply call.pindex totals)) call.block
            (s.node.withSupply call.pindex totals) totals with
        | error state => exact .inl rfl
        | ok _ =>
          cases live : call.fJustCheck with
          | true => exact .inl rfl
          | false =>
            simp only [Bool.false_eq_true, if_false]
            rcases connectWrites_txindex
              { s with node := s.node.storeIndex (s.node.withSupply call.pindex totals) }
              call (s.node.withSupply call.pindex totals) view vtxundo.tail with
              same | written
            · exact .inl same
            · refine .inr ⟨written.trans ?_, fun refusal failed free => ?_⟩
              · rw [vPos_congr call.block (show (s.node.withSupply call.pindex
                  totals).phashBlock = call.pindex.phashBlock from rfl)]
              · by_cases undone : call.Undone
                · obtain ⟨txindex, pointer⟩ := connectWrites_index undone rfl failed
                  rw [txindex]
                  split
                  · rename_i both
                    obtain ⟨staked, used⟩ := pointer both.1 both.2
                    have unused := free view vtxundo totals ⟨genesis, connected⟩
                      ⟨wrote, rewarded, live⟩ undone both.1 both.2 staked
                    rw [unused] at used
                    contradiction
                  · rfl
                · rcases writeUndoIO_cases
                    (s.node.storeIndex (s.node.withSupply call.pindex totals))
                    (s.node.withSupply call.pindex totals) vtxundo.tail rfl
                    with ⟨⟨state, error⟩, _⟩ | ⟨_, done⟩
                  · unfold IndexedNode.connectWrites
                    simp only [error]
                  · exact absurd done undone

omit [ChainParams] in
theorem mem_vPos {block : CBlock} {pindex : CBlockIndex} {hash : Uint256} {pos : CDiskTxPos}
    (member : (hash, pos) ∈ vPos block pindex) : ∃ tx ∈ block.vtx, tx.getHash = hash := by
  obtain ⟨⟨tx, nTx⟩, inside, same⟩ := mem_map.mp member
  exact ⟨tx, (mem_zipIdx' inside).2 ▸ getElem_mem _, congrArg Prod.fst same⟩

theorem IndexRun.indexed {s : IndexedNode} {accepted : List CBlock} (run : IndexRun s accepted) :
    ∀ hash pos, s.txindex hash = some pos →
      ∃ block ∈ accepted, ∃ tx ∈ block.vtx, tx.getHash = hash := by
  induction run with
  | start node fTxIndex => exact fun hash pos found => by contradiction
  | change _ node ih => exact ih
  | @accept s accepted run call value connected ih =>
    intro hash pos found
    have earlier : s.txindex hash = some pos →
        ∃ block ∈ call.block :: accepted, ∃ tx ∈ block.vtx, tx.getHash = hash := by
      intro before
      obtain ⟨block, member, tx⟩ := ih hash pos before
      exact ⟨block, mem_cons_of_mem _ member, tx⟩
    rcases connect_txindex s call with same | ⟨written, _⟩
    · rw [same] at found
      exact earlier found
    · rw [written] at found
      rcases TxIndex.writeTxIndex_some found with before | new
      · exact earlier before
      · exact ⟨call.block, mem_cons_self, mem_vPos new⟩
  | @refuse s accepted run call refusal failed free ih =>
    intro hash pos found
    rcases connect_txindex s call with same | ⟨_, kept⟩
    · rw [same] at found
      exact ih hash pos found
    · rw [kept refusal failed free] at found
      exact ih hash pos found

/-- **What a failed `ConnectBlock` has changed.** For every node, block and entry of the index, a
call that fails leaves the block index, the used stake pointers and the transaction index as they
were if and only if it is harmless; and in a run in which no call meets a used stake pointer once
it has written the transaction index, every transaction that is found through the index is one of
a connected block. -/
theorem failedConnect_atomic :
    (∀ (s : IndexedNode) (call : ConnectCall) (hash : Uint256) (refusal : CValidationState),
        call.pindex.phashBlock = some hash → s.node.mapBlockIndex hash = some call.pindex →
        (s.connect call).verdict = .error refusal →
        (Unchanged s (s.connect call).state ↔ call.Harmless s)) ∧
      ∀ (s : IndexedNode) (accepted : List CBlock), IndexRun s accepted →
        ∀ hash found, s.lookupTxIndex hash = some found →
          ∃ block ∈ accepted, ∃ tx ∈ block.vtx, tx.getHash = hash := by
  refine ⟨fun s call hash refusal named found failed => unchanged_iff named found failed, ?_⟩
  intro s accepted run hash found lookup
  simp only [IndexedNode.lookupTxIndex, bind_eq_bind, bind_eq_some_iff] at lookup
  obtain ⟨pos, entry, _⟩ := lookup
  exact run.indexed hash pos entry

end

namespace SecondUse

/-! The long branch and its next block, whose pointer names the second copy of a coinstake: the
outpoint was used at height 111. -/

open LongBranch

def entry : CBlockIndex :=
  { index 162 with nStatus := { valid := BLOCK_VALID_TRANSACTIONS, haveData := true } }

def node : Node :=
  { LongBranch.node with
    mapBlockIndex := update LongBranch.node.mapBlockIndex 162 (some entry),
    diskBlocks := update LongBranch.node.diskBlocks 162 (some (block 162)),
    mapUsedStakePointers := update (fun _ => none)
      (@stakePointerHash crypto (pointer 162).outpoint) (some 111) }

/-- The node keeps a transaction index. -/
def indexed : IndexedNode := ⟨node, true, fun _ => none⟩

def call : ConnectCall where
  io := .sound
  data := { StakedTip.data with adjustedTime := 1400000000 + 600 * 162 }
  fScriptChecks := true
  block := block 162
  pindex := entry
  view := ⟨fun _ => {}, 161⟩
  fJustCheck := false

end SecondUse

attribute [local instance] LongBranch.params LongBranch.instCrypto

open SecondUse

/-- The block is refused, and its entry and the transaction index have changed. -/
theorem secondUse_indexed :
    (indexed.connect call).refusal =
        some (doS 100 REJECT_INVALID "stake-pointer-reuse") ∧
      indexed.lookupTxIndex (LongBranch.coinstake 162).getHash = none ∧
      (indexed.connect call).state.lookupTxIndex
          (LongBranch.coinstake 162).getHash = some (LongBranch.coinstake 162, 162) ∧
      ((indexed.connect call).state.node.mapBlockIndex 162).map
          CBlockIndex.nMint = some 2 ∧
      entry.nMint = 0 := by
  decide +kernel

theorem failedConnect_atomic_secondUse :
    ¬ Unchanged indexed (indexed.connect call).state ∧
      ¬ call.Harmless indexed := by
  have named : call.pindex.phashBlock = some 162 := rfl
  have found : indexed.node.mapBlockIndex 162 = some call.pindex := by
    decide +kernel
  have failed : (indexed.connect call).refusal =
      some (doS 100 REJECT_INVALID "stake-pointer-reuse") := by
    decide +kernel
  have exact := failedConnect_atomic.1 indexed call 162 _ named found
    (IndexedResult.refusal_eq_some.mp failed)
  have changed : ¬ Unchanged indexed (indexed.connect call).state := by
    intro unchanged
    have entry := congrFun unchanged.mapBlockIndex 162
    exact absurd (congrArg (Option.map CBlockIndex.nMint) entry) (by decide +kernel)
  exact ⟨changed, fun harmless => changed (exact.mpr harmless)⟩

end Agouti
