import Agouti.Mempool.MemPool
import Agouti.Validation.ChainState

/-! # The memory pool next to the chain

`AcceptToMemoryPool` of `main.cpp`, and what `ConnectTip` and `DisconnectTip` do to the pool: a
connected block takes its transactions and everybody that conflicts with them out, and those of a
disconnected block are offered to the pool again, or leave it with everybody that spends their
outputs.
-/

namespace Agouti

namespace Mempool

open Verdict

/-- `CCoinsViewMemPool` over a view. -/
def CTxMemPool.view (pool : CTxMemPool) (base : CCoinsViewCache) : CCoinsViewCache :=
  { base with
    coins := fun txid =>
      match pool.lookup txid with
      | some tx => .fromTx tx MEMPOOL_HEIGHT
      | none => base.coins txid }

/-- The checks of `AcceptToMemoryPool` that are about standard forms, fees, priorities and
scripts. -/
structure RelayPolicy where
  /-- the reason of `IsStandardTx`, where standard transactions are required -/
  nonstandard : CTransaction → Option String
  areInputsStandard : CCoinsViewCache → CTransaction → Bool
  checkFee : CCoinsViewCache → CTransaction → Verdict Unit
  /-- the scripts under the standard and under the mandatory flags -/
  checkScripts : CCoinsViewCache → CTransaction → Verdict Unit

variable [ChainParams] [Crypto]

def acceptToMemoryPool (data : LocalData) (node : Node) (policy : RelayPolicy) (pool : CTxMemPool)
    (tx : CTransaction) : Verdict CTxMemPool := do
  (checkTransaction tx).mapError fun state => state.doS 100 REJECT_INVALID "bad-tx" false
  reject tx.containsZerocoins (doS 100 REJECT_INVALID "bad-tx-zerocoin")
  reject tx.isCoinBase (doS 100 REJECT_INVALID "coinbase")
  reject tx.isCoinStake (doS 100 REJECT_INVALID "coinstake")
  reject (policy.nonstandard tx).isSome
    (doS 0 REJECT_NONSTANDARD ((policy.nonstandard tx).getD ""))
  reject (pool.contains tx.getHash) failure
  reject (tx.vin.any fun txin =>
    ((data.mapLockedInputs txin.prevout).map fun hash => hash != tx.getHash).getD false)
    (doS 0 REJECT_INVALID "tx-lock-conflict")
  reject (tx.vin.any fun txin => (pool.mapNextTx txin.prevout).isSome) failure
  let view := pool.view node.pcoinsTip
  reject (!(view.coins tx.getHash).isPruned) failure
  reject (tx.vin.any fun txin => (view.coins txin.prevout.hash).isPruned) failure
  reject (!view.haveInputs tx) (invalid REJECT_DUPLICATE "bad-txns-inputs-spent")
  reject (!policy.areInputsStandard view tx) failure
  reject (decide (MAX_TX_SIGOPS_CURRENT < tx.getLegacySigOpCount + view.getP2SHSigOpCount tx))
    (doS 0 REJECT_NONSTANDARD "bad-txns-too-many-sigops")
  policy.checkFee view tx
  checkInputs node.mapBlockIndex view tx
  policy.checkScripts view tx
  .ok (pool.addUnchecked tx.getHash (.ofTx tx))

/-- A node and its memory pool. -/
structure PoolNode where
  node : Node
  mempool : CTxMemPool

namespace PoolNode

/-- The block that `ConnectTip` connects. -/
def tipBlock (state : PoolNode) (pindexNew : CBlockIndex) (pblock : Option CBlock) :
    Option CBlock :=
  pblock <|> state.node.readBlockFromDisk pindexNew

def connectTip (data : LocalData) (state : PoolNode) (fScriptChecks : Bool)
    (pindexNew : CBlockIndex) (pblock : Option CBlock) (flushed : Bool) :
    PoolNode × Verdict Unit :=
  let (node, verdict) :=
    Agouti.connectTip data state.node fScriptChecks pindexNew pblock flushed
  match verdict with
  | .error refusal => ({ state with node := node }, .error refusal)
  | .ok () =>
    let vtx := ((state.tipBlock pindexNew pblock).map CBlock.vtx).getD []
    ({ node := node, mempool := (state.mempool.removeForBlock vtx).1 }, .ok ())

/-- What `DisconnectTip` does for one transaction of the block. -/
def resurrect (data : LocalData) (node : Node) (policy : RelayPolicy) (pool : CTxMemPool)
    (tx : CTransaction) : CTxMemPool :=
  let accepted :=
    if tx.isCoinBase || tx.isCoinStake then none
    else (acceptToMemoryPool data node policy pool tx).toOption
  match accepted with
  | some pool => pool
  | none => (pool.remove tx true).1

/-- `DisconnectTip`. What it asks of the chain while it changes the pool does not depend on the
tip. -/
def disconnectTip (data : LocalData) (policy : RelayPolicy) (state : PoolNode) (flushed : Bool) :
    PoolNode × Bool :=
  let (node, done) := Agouti.disconnectTip state.node flushed
  let found := state.node.tip.bind fun pindexDelete =>
    (state.node.readBlockFromDisk pindexDelete).map fun block => (pindexDelete, block)
  match done, found with
  | true, some (pindexDelete, block) =>
    let pool := block.vtx.foldl (resurrect data node policy) state.mempool
    ({ node := node,
       mempool := pool.removeCoinbaseSpends node.pcoinsTip pindexDelete.nHeight }, true)
  | _, _ => ({ state with node := node }, false)

end PoolNode

end Mempool

end Agouti
