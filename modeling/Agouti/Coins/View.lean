import Agouti.Primitives.Serialize
import Agouti.Coins.Coins
import Agouti.Library.UndoLog

/-! # Coin views and the coins of a block

A view is a total map of entries with the hash of its best block: a missing entry
and a fully spent one answer every question of validation alike. `updateCoins` is
what connecting a transaction does to a view and `disconnectTransactions` what
disconnecting the transactions of a block does, with the undo records of
`updateCoins`. Both are runs of one undo log (`coinLog`), whose keys are
transaction hashes.
-/

namespace Agouti

/-- Coins and their best block. -/
structure CCoinsViewCache where
  coins : Uint256 → CCoins
  hashBlock : Uint256

namespace CCoinsViewCache

/-- The effect of a `CCoinsModifier` that leaves `entry` under `txid`. -/
def modifyCoins (view : CCoinsViewCache) (txid : Uint256) (entry : CCoins) : CCoinsViewCache :=
  { view with coins := Function.update view.coins txid entry.cleanup }

def setBestBlock (view : CCoinsViewCache) (hashBlockIn : Uint256) : CCoinsViewCache :=
  { view with hashBlock := hashBlockIn }

def haveInputs (view : CCoinsViewCache) (tx : CTransaction) : Bool :=
  tx.isCoinBase ||
    tx.vin.all fun txin => (view.coins txin.prevout.hash).isAvailable txin.prevout.n

/-- `CCoinsViewCache::GetOutputFor`, for an input whose output is available. -/
def getOutputFor (view : CCoinsViewCache) (input : CTxIn) : CTxOut :=
  ((view.coins input.prevout.hash).vout[input.prevout.n]?).getD .null

def getValueIn (view : CCoinsViewCache) (tx : CTransaction) : CAmount :=
  if tx.isCoinBase then 0 else (tx.vin.map fun txin => (view.getOutputFor txin).nValue).sum

def getP2SHSigOpCount (view : CCoinsViewCache) (tx : CTransaction) : Nat :=
  if tx.isCoinBase then 0
  else (tx.vin.map fun txin =>
    let prevout := view.getOutputFor txin
    if prevout.scriptPubKey.isPayToScriptHash then
      CScript.getP2SHSigOps prevout.scriptPubKey txin.scriptSig
    else 0).sum

/-- Two views describe the same coins on top of the same block. -/
structure Same (a b : CCoinsViewCache) : Prop where
  coins : ∀ txid, (a.coins txid).Same (b.coins txid)
  hashBlock : a.hashBlock = b.hashBlock

end CCoinsViewCache

/-- The loop of `UpdateCoins` over the inputs, collecting `txundo.vprevout`. -/
def spendInputs : List CTxIn → CCoinsViewCache → Option (CCoinsViewCache × List CTxInUndo)
  | [], view => some (view, [])
  | txin :: rest, view => do
      let (coins, undo) ← (view.coins txin.prevout.hash).spend txin.prevout.n
      let (view, vprevout) ← spendInputs rest (view.modifyCoins txin.prevout.hash coins)
      pure (view, undo :: vprevout)

/-- The loop of `DisconnectBlock` over the inputs, from the last to the first. -/
def restoreInputs : List (CTxIn × CTxInUndo) → CCoinsViewCache × Bool → CCoinsViewCache × Bool
  | [], result => result
  | (txin, undo) :: rest, result =>
    let (view, fClean) := restoreInputs rest result
    let coins := view.coins txin.prevout.hash
    (view.modifyCoins txin.prevout.hash (coins.restore txin.prevout.n undo),
      fClean && coins.restoresCleanly txin.prevout.n undo)

variable [Crypto]

/-- `UpdateCoins`: the changed view and `txundo`. -/
def updateCoins (tx : CTransaction) (inputs : CCoinsViewCache) (nHeight : Int) :
    Option (CCoinsViewCache × List CTxInUndo) :=
  let spent := if tx.hasInputs then spendInputs tx.vin inputs else some (inputs, [])
  spent.map fun (inputs, txundo) =>
    (inputs.modifyCoins tx.getHash (.fromTx tx nHeight), txundo)

/-- The body of the loop of `DisconnectBlock` over the transactions. -/
def disconnectTransaction (nHeight : Int) (tx : CTransaction) (txundo : List CTxInUndo)
    (result : CCoinsViewCache × Bool) : Option (CCoinsViewCache × Bool) :=
  let (view, fClean) := result
  let outs := (view.coins tx.getHash).clearUnspendable
  let outsBlock := CCoins.fromTx tx nHeight
  let outs := if outsBlock.nVersion < 0 then { outs with nVersion := outsBlock.nVersion } else outs
  let result := (view.modifyCoins tx.getHash outs.clear, fClean && outs.equal outsBlock)
  if tx.hasInputs then
    if txundo.length ≠ tx.vin.length then none
    else some (restoreInputs (tx.vin.zip txundo) result)
  else some result

/-- The loop of `DisconnectBlock` over the transactions, from the last to the
first, each with its undo records. -/
def disconnectTransactions (nHeight : Int) : List (CTransaction × List CTxInUndo) →
    CCoinsViewCache × Bool → Option (CCoinsViewCache × Bool)
  | [], result => some result
  | (tx, txundo) :: rest, result => do
      let result ← disconnectTransactions nHeight rest result
      disconnectTransaction nHeight tx txundo result

end Agouti
