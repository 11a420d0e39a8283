import Agouti.Validation.Connect

/-! # The transaction index

`ConnectBlock` of a node that keeps a transaction index (`-txindex`), with the writes to disk
that it makes on its way and that may fail, and `GetTransaction`, which reads the index. Where
all writes succeed this is the `connectBlock` of the other modules
(`connectIndexed_connectBlock`).
-/

namespace Agouti

open Verdict List Function

/-- `CDiskTxPos`: the block at a position on disk, and the place of a transaction in it. -/
structure CDiskTxPos where
  hashBlock : Uint256
  nTx : Nat
  deriving DecidableEq, Repr

/-- The transaction index of `pblocktree`. -/
abbrev TxIndex := Uint256 → Option CDiskTxPos

/-- Which writes of `ConnectBlock` succeed. -/
structure ConnectIO where
  fWriteBlockIndex : Bool
  fFindUndoPos : Bool
  fWriteUndo : Bool
  fWriteTxIndex : Bool

/-- A disk on which every write succeeds. -/
def ConnectIO.sound : ConnectIO := ⟨true, true, true, true⟩

/-- A node and its transaction index. -/
structure IndexedNode where
  node : Node
  fTxIndex : Bool
  txindex : TxIndex

/-- `CBlockTreeDB::WriteTxIndex`. -/
def TxIndex.writeTxIndex (txindex : TxIndex) (vPos : List (Uint256 × CDiskTxPos)) : TxIndex :=
  vPos.foldl (fun txindex pos => Function.update txindex pos.1 (some pos.2)) txindex

theorem TxIndex.writeTxIndex_some {txindex : TxIndex} {vPos : List (Uint256 × CDiskTxPos)}
    {hash : Uint256} {pos : CDiskTxPos}
    (found : txindex.writeTxIndex vPos hash = some pos) :
    txindex hash = some pos ∨ (hash, pos) ∈ vPos := by
  induction vPos generalizing txindex with
  | nil => exact .inl found
  | cons first rest ih =>
    rw [writeTxIndex, foldl_cons] at found
    rcases ih found with before | written
    · by_cases here : hash = first.1
      · rw [here, update_self, Option.some.injEq] at before
        refine .inr (mem_cons.mpr (.inl ?_))
        rw [here, ← before]
      · rw [update_of_ne here] at before
        exact .inl before
    · exact .inr (mem_cons_of_mem first written)

/-- The undo data step of `ConnectBlock` on a disk. -/
def Node.writeUndoIO (io : ConnectIO) (node : Node) (pindex : CBlockIndex)
    (vtxundo : List (List CTxInUndo)) : Verdict (Node × CBlockIndex) := do
  whenever (!pindex.nStatus.haveUndo) do
    reject (!io.fFindUndoPos) (failure.error "out of disk space")
    reject (!io.fWriteUndo) (failure.error "Failed to write undo data")
  .ok (node.writeUndo pindex vtxundo)

variable [ChainParams] [Crypto]

/-- `vPos` of `ConnectBlock`: the transactions of the block and where they are on disk. -/
def vPos (block : CBlock) (pindex : CBlockIndex) : List (Uint256 × CDiskTxPos) :=
  block.vtx.zipIdx.map fun (tx, nTx) => (tx.getHash, ⟨pindex.getBlockHash, nTx⟩)

/-- A call of `ConnectBlock`. -/
structure ConnectCall where
  io : ConnectIO
  data : LocalData
  fScriptChecks : Bool
  block : CBlock
  pindex : CBlockIndex
  view : CCoinsViewCache
  fJustCheck : Bool

/-- What a call of `ConnectBlock` leaves. -/
structure IndexedResult where
  state : IndexedNode
  verdict : Verdict (CCoinsViewCache × Option (List (List CTxInUndo)))

/-- The state in which a call has returned `false`. -/
def IndexedResult.refusal (result : IndexedResult) : Option CValidationState :=
  match result.verdict with
  | .error state => some state
  | .ok _ => none

omit [ChainParams] [Crypto] in
theorem IndexedResult.refusal_eq_some {result : IndexedResult} {state : CValidationState} :
    result.refusal = some state ↔ result.verdict = .error state := by
  unfold refusal
  cases result.verdict with
  | error refused => simp only [Option.some.injEq, Except.error.injEq]
  | ok value => simp only [reduceCtorEq]

namespace IndexedNode

/-- `WriteTxIndex` of `ConnectBlock`, when there is an index. -/
def indexBlock (s : IndexedNode) (block : CBlock) (pindex : CBlockIndex) : IndexedNode :=
  if s.fTxIndex then { s with txindex := s.txindex.writeTxIndex (vPos block pindex) } else s

/-- `ConnectBlock` behind the check of the reward. -/
def connectWrites (s : IndexedNode) (call : ConnectCall) (pindex : CBlockIndex)
    (view : CCoinsViewCache) (vtxundo : List (List CTxInUndo)) : IndexedResult :=
  match s.node.writeUndoIO call.io pindex vtxundo with
  | .error state => ⟨s, .error state⟩
  | .ok (node, pindex) =>
    let s := { s with node := node }
    if s.fTxIndex && !call.io.fWriteTxIndex then
      ⟨s, .error (failure.error "Failed to write transaction index")⟩
    else
      let s := s.indexBlock call.block pindex
      match s.node.recordPointer call.block pindex with
      | .error state => ⟨s, .error state⟩
      | .ok node =>
        ⟨{ s with node := node }, .ok (view.setBestBlock pindex.getBlockHash, some vtxundo)⟩

/-- `ConnectBlock` behind the loop over the transactions. -/
def connectFinish (s : IndexedNode) (call : ConnectCall) (view : CCoinsViewCache)
    (vtxundo : List (List CTxInUndo)) (totals : ConnectTotals) : IndexedResult :=
  let pindex := s.node.withSupply call.pindex totals
  let s := { s with node := s.node.storeIndex pindex }
  if !call.io.fWriteBlockIndex then ⟨s, .error failure⟩
  else
    match connectReward call.data s.node call.block pindex totals with
    | .error state => ⟨s, .error state⟩
    | .ok () =>
      if call.fJustCheck then ⟨s, .ok (view, some vtxundo)⟩
      else s.connectWrites call pindex view vtxundo

/-- `ConnectBlock`, with the transaction index. -/
def connect (s : IndexedNode) (call : ConnectCall) : IndexedResult :=
  if call.block.getHash = ChainParams.hashGenesisBlock then
    ⟨s, do
      checkBlock call.data s.node call.block (!call.fJustCheck) (!call.fJustCheck)
      reject (call.pindex.pprev.getD 0 != call.view.hashBlock) (failure.error "")
      .ok (call.view.setBestBlock call.pindex.getBlockHash, none)⟩
  else
    match connectCoins call.data s.node call.fScriptChecks call.block call.pindex call.view
        call.fJustCheck with
    | .error state => ⟨s, .error state⟩
    | .ok (view, vtxundo, totals) => s.connectFinish call view vtxundo.tail totals

/-- The middle of `GetTransaction`: the transaction that the index names, and its block. -/
def lookupTxIndex (s : IndexedNode) (hash : Uint256) : Option (CTransaction × Uint256) := do
  let postx ← s.txindex hash
  let block ← s.node.diskBlocks postx.hashBlock
  let txOut ← block.vtx[postx.nTx]?
  guard (txOut.getHash = hash)
  pure (txOut, block.getHash)

/-- `GetTransaction`, with the transactions of the memory pool. The block of a transaction in the
memory pool stays unset. -/
def getTransaction (s : IndexedNode) (mempool : Uint256 → Option CTransaction) (hash : Uint256)
    (fAllowSlow : Bool) : Option (CTransaction × Option Uint256) :=
  match mempool hash with
  | some tx => some (tx, none)
  | none =>
    if s.fTxIndex && (s.txindex hash).isSome then
      (s.lookupTxIndex hash).map fun (tx, hashBlock) => (tx, some hashBlock)
    else if fAllowSlow then do
      let nHeight := (s.node.pcoinsTip.coins hash).nHeight
      guard (0 < nHeight)
      let hashSlow ← s.node.active nHeight
      let pindexSlow ← s.node.mapBlockIndex hashSlow
      let block ← s.node.readBlockFromDisk pindexSlow
      let tx ← block.vtx.find? fun tx => tx.getHash == hash
      pure (tx, some pindexSlow.getBlockHash)
    else none

end IndexedNode

omit [ChainParams] [Crypto] in
theorem Node.writeUndoIO_sound (node : Node) (pindex : CBlockIndex)
    (vtxundo : List (List CTxInUndo)) :
    node.writeUndoIO .sound pindex vtxundo = .ok (node.writeUndo pindex vtxundo) := by
  unfold Node.writeUndoIO
  cases pindex.nStatus.haveUndo with
  | true => rfl
  | false => rfl

theorem connectWrites_node (s : IndexedNode) (call : ConnectCall) (io : call.io = .sound)
    (pindex : CBlockIndex) (view : CCoinsViewCache) (vtxundo : List (List CTxInUndo)) :
    let wrote := s.node.writeUndo pindex vtxundo
    let result : ConnectResult :=
      match wrote.1.recordPointer call.block wrote.2 with
      | .error state => ⟨wrote.1, .error state⟩
      | .ok node => ⟨node, .ok (view.setBestBlock wrote.2.getBlockHash, some vtxundo)⟩
    (s.connectWrites call pindex view vtxundo).state.node = result.node ∧
      (s.connectWrites call pindex view vtxundo).verdict = result.verdict := by
  have kept : ∀ node : Node, ({ s with node := node }.indexBlock call.block
      (s.node.writeUndo pindex vtxundo).2).node = node := by
    intro node
    unfold IndexedNode.indexBlock
    split
    · rfl
    · rfl
  have undone : s.node.writeUndoIO call.io pindex vtxundo =
      .ok (s.node.writeUndo pindex vtxundo) := by
    rw [io, Node.writeUndoIO_sound]
  have indexed : call.io.fWriteTxIndex = true := by
    rw [io]
    rfl
  unfold IndexedNode.connectWrites
  simp only [undone, indexed, Bool.not_true, Bool.and_false, Bool.false_eq_true, if_false, kept]
  cases (s.node.writeUndo pindex vtxundo).1.recordPointer call.block
      (s.node.writeUndo pindex vtxundo).2 with
  | error state => exact ⟨kept (s.node.writeUndo pindex vtxundo).1, rfl⟩
  | ok node => exact ⟨rfl, rfl⟩

theorem connectIndexed_connectBlock (s : IndexedNode) (call : ConnectCall)
    (io : call.io = .sound) :
    let result := connectBlock call.data s.node call.fScriptChecks call.block call.pindex call.view
      call.fJustCheck
    (s.connect call).state.node = result.node ∧ (s.connect call).verdict = result.verdict := by
  simp only
  unfold IndexedNode.connect connectBlock
  by_cases genesis : call.block.getHash = ChainParams.hashGenesisBlock
  · simp only [if_pos genesis, and_self]
  · simp only [if_neg genesis]
    cases connectCoins call.data s.node call.fScriptChecks call.block call.pindex call.view
        call.fJustCheck with
    | error state => exact ⟨rfl, rfl⟩
    | ok loop =>
      obtain ⟨view, vtxundo, totals⟩ := loop
      simp only [IndexedNode.connectFinish, connectFinish, io, ConnectIO.sound, Bool.not_true,
        Bool.false_eq_true, if_false]
      cases connectReward call.data (s.node.storeIndex (s.node.withSupply call.pindex totals))
          call.block (s.node.withSupply call.pindex totals) totals with
      | error state => exact ⟨rfl, rfl⟩
      | ok _ =>
        cases call.fJustCheck with
        | true => exact ⟨rfl, rfl⟩
        | false =>
          exact connectWrites_node
            { s with node := s.node.storeIndex (s.node.withSupply call.pindex totals) } call
            io _ view vtxundo.tail

end Agouti
