import Agouti.Coins.Available
import Agouti.Library.Worklist
import Mathlib.Data.BitVec
import Mathlib.Data.List.AList

/-! # The memory pool

`CTxMemPool` of `txmempool.cpp`: the transactions that wait for a block (`mapTx`), the spender of
every output that they take (`mapNextTx`) and the sum of their sizes. A pointer to a transaction of
the pool is the transaction.
-/

namespace Agouti

/-- The height that the pool gives its own coins. -/
def MEMPOOL_HEIGHT : Int := 0x7FFFFFFF

namespace Mempool

/-- A transaction of the pool. -/
structure CTxMemPoolEntry where
  tx : CTransaction
  nTxSize : BitVec 64
  deriving DecidableEq, Repr

/-- The constructor of `CTxMemPoolEntry`. -/
def CTxMemPoolEntry.ofTx (tx : CTransaction) : CTxMemPoolEntry :=
  ⟨tx, BitVec.ofNat 64 (Serialize.transaction tx).length⟩

/-- `CInPoint`: a transaction of the pool and an index into its inputs. -/
structure CInPoint where
  ptx : CTransaction
  n : Nat
  deriving DecidableEq, Repr

/-- The memory pool. -/
structure CTxMemPool where
  mapTx : AList fun _ : Uint256 => CTxMemPoolEntry
  mapNextTx : COutPoint → Option CInPoint
  totalTxSize : BitVec 64

namespace CTxMemPool

def empty : CTxMemPool := ⟨∅, fun _ => none, 0⟩

def lookup (pool : CTxMemPool) (hash : Uint256) : Option CTransaction :=
  (pool.mapTx.lookup hash).map CTxMemPoolEntry.tx

/-- `CTxMemPool::exists`. -/
def contains (pool : CTxMemPool) (hash : Uint256) : Bool := (pool.mapTx.lookup hash).isSome

def entrySizes (pool : CTxMemPool) : BitVec 64 :=
  (pool.mapTx.entries.map fun entry => entry.2.nTxSize).sum

def outputCount (pool : CTxMemPool) : Nat :=
  (pool.mapTx.entries.map fun entry => entry.2.tx.vout.length).sum

/-- Note the inputs of a transaction in `mapNextTx`. -/
def noteInputs (tx : CTransaction) (next : COutPoint → Option CInPoint) :
    COutPoint → Option CInPoint :=
  tx.vin.zipIdx.foldl (fun next input =>
    Function.update next input.1.prevout (some ⟨tx, input.2⟩)) next

/-- Erase the inputs of a transaction from `mapNextTx`. -/
def eraseInputs (tx : CTransaction) (next : COutPoint → Option CInPoint) :
    COutPoint → Option CInPoint :=
  tx.vin.foldl (fun next (txin : CTxIn) => Function.update next txin.prevout none) next

def addUnchecked (pool : CTxMemPool) (hash : Uint256) (entry : CTxMemPoolEntry) : CTxMemPool where
  mapTx := pool.mapTx.insert hash entry
  mapNextTx :=
    if entry.tx.isZerocoinSpend then pool.mapNextTx else noteInputs entry.tx pool.mapNextTx
  totalTxSize := pool.totalTxSize + entry.nTxSize

/-- The hashes of the transactions that spend the first `size` outputs of a hash. -/
def spenders [Crypto] (pool : CTxMemPool) (hash : Uint256) (size : Nat) : List Uint256 :=
  (List.range size).filterMap fun i =>
    (pool.mapNextTx ⟨hash, i⟩).map fun point => point.ptx.getHash

def eraseEntry (pool : CTxMemPool) (hash : Uint256) (entry : CTxMemPoolEntry) : CTxMemPool where
  mapTx := pool.mapTx.erase hash
  mapNextTx := eraseInputs entry.tx pool.mapNextTx
  totalTxSize := pool.totalTxSize - entry.nTxSize

/-- The state of the loop of `CTxMemPool::remove`: the pool and what was removed. -/
abbrev Removal := CTxMemPool × List CTransaction

variable [Crypto]

/-- The body of the loop of `CTxMemPool::remove` for one hash. -/
def removeHash (fRecursive : Bool) (hash : Uint256) (state : Removal) :
    Option (Removal × List Uint256) :=
  (state.1.mapTx.lookup hash).map fun entry =>
    ((state.1.eraseEntry hash entry, state.2 ++ [entry.tx]),
      if fRecursive then state.1.spenders hash entry.tx.vout.length else [])

/-- `txToRemove` at the start of the loop of `CTxMemPool::remove`. -/
def txToRemove (pool : CTxMemPool) (origTx : CTransaction) (fRecursive : Bool) : List Uint256 :=
  origTx.getHash ::
    if fRecursive && !pool.contains origTx.getHash then
      pool.spenders origTx.getHash origTx.vout.length
    else []

/-- `CTxMemPool::remove`: the pool and the transactions appended to `removed`. Every hash in the
loop but the first ones was found at an output of the pool, which bounds the number of rounds. -/
def remove (pool : CTxMemPool) (origTx : CTransaction) (fRecursive : Bool) : Removal :=
  Worklist.run (removeHash fRecursive)
    ((pool.txToRemove origTx fRecursive).length + pool.outputCount)
    (pool.txToRemove origTx fRecursive) (pool, [])

/-- One input in the loop of `CTxMemPool::removeConflicts`. -/
def removeConflict (tx : CTransaction) (state : Removal) (txin : CTxIn) : Removal :=
  match state.1.mapNextTx txin.prevout with
  | none => state
  | some point =>
    if point.ptx.getHash = tx.getHash then state
    else
      let (pool, removed) := state.1.remove point.ptx true
      (pool, state.2 ++ removed)

def removeConflicts (pool : CTxMemPool) (tx : CTransaction) : Removal :=
  tx.vin.foldl (removeConflict tx) (pool, [])

/-- An input that makes `CTxMemPool::removeCoinbaseSpends` remove its transaction. A missing entry
and a fully spent one are one in the view. -/
def spendsImmature [ChainParams] (pool : CTxMemPool) (pcoins : CCoinsViewCache)
    (nMemPoolHeight : Int) (txin : CTxIn) : Bool :=
  !pool.contains txin.prevout.hash &&
    let coins := pcoins.coins txin.prevout.hash
    coins.isPruned || ((coins.fCoinBase || coins.fCoinStake) &&
      decide ((nMemPoolHeight - coins.nHeight) % 2 ^ 32 < nMaturity))

def removeCoinbaseSpends [ChainParams] (pool : CTxMemPool) (pcoins : CCoinsViewCache)
    (nMemPoolHeight : Int) : CTxMemPool :=
  let entries := pool.mapTx.entries.insertionSort fun a b => a.1 ≤ b.1
  let transactionsToRemove := (entries.map fun entry => entry.2.tx).filter fun tx =>
    tx.vin.any (pool.spendsImmature pcoins nMemPoolHeight)
  transactionsToRemove.foldl (fun pool tx => (pool.remove tx true).1) pool

/-- One transaction in the loop of `CTxMemPool::removeForBlock`. -/
def removeBlockTx (state : Removal) (tx : CTransaction) : Removal :=
  let (pool, conflicts) := (state.1.remove tx false).1.removeConflicts tx
  (pool, state.2 ++ conflicts)

/-- `CTxMemPool::removeForBlock`: the pool and `conflicts`. -/
def removeForBlock (pool : CTxMemPool) (vtx : List CTransaction) : Removal :=
  vtx.foldl removeBlockTx (pool, [])

end CTxMemPool

end Mempool

end Agouti
