import Agouti.Script.Script

/-! # Transactions

The fields of `primitives/transaction.h` that validation reads. `nRounds` is kept
because `CTxOut`'s equality compares it; `prevPubKey` is memory-only data of the
mixing code and is left out.
-/

namespace Agouti

abbrev CAmount := Int

def COIN : CAmount := 100000000

/-- `COutPoint`: a transaction hash and an index into its outputs. -/
structure COutPoint where
  hash : Uint256
  n : Nat
  deriving DecidableEq, Repr

/-- `(uint32_t) -1`. -/
def nullIndex : Nat := 0xffffffff

/-- `COutPoint::SetNull`. -/
def COutPoint.null : COutPoint := ⟨0, nullIndex⟩

def COutPoint.isNull (outpoint : COutPoint) : Bool :=
  outpoint.hash == 0 && outpoint.n == nullIndex

/-- An input. -/
structure CTxIn where
  prevout : COutPoint
  scriptSig : CScript
  nSequence : Nat := 0xffffffff
  deriving DecidableEq, Repr

def CTxIn.isFinal (txin : CTxIn) : Bool := txin.nSequence == 0xffffffff

/-- An output. -/
structure CTxOut where
  nValue : CAmount
  scriptPubKey : CScript
  nRounds : Int := -10
  deriving DecidableEq, Repr

/-- `CTxOut::SetNull`. -/
def CTxOut.null : CTxOut := { nValue := -1, scriptPubKey := [] }

def CTxOut.isNull (txout : CTxOut) : Bool := txout.nValue == -1

def CTxOut.isEmpty (txout : CTxOut) : Bool := txout.nValue == 0 && txout.scriptPubKey == []

/-- `CTxOut::SetEmpty`. -/
def CTxOut.empty : CTxOut := { nValue := 0, scriptPubKey := [] }

@[simp] theorem CTxOut.isNull_null : CTxOut.null.isNull = true := rfl

/-- `CTransaction`; `CMutableTransaction` has the same fields. -/
structure CTransaction where
  nVersion : Int
  vin : List CTxIn
  vout : List CTxOut
  nLockTime : Nat
  deriving DecidableEq, Repr

namespace CTransaction

/-- The first input has a null previous outpoint and a script that `mark`
accepts. -/
def firstInputMarked (tx : CTransaction) (mark : CScript → Bool) : Bool :=
  match tx.vin with
  | [] => false
  | txin :: _ => txin.prevout.isNull && mark txin.scriptSig

def isZerocoinSpend (tx : CTransaction) : Bool := tx.firstInputMarked CScript.isZerocoinSpend

def isZerocoinMint (tx : CTransaction) : Bool :=
  tx.vout.any fun txout => txout.scriptPubKey.isZerocoinMint

def containsZerocoins (tx : CTransaction) : Bool := tx.isZerocoinSpend || tx.isZerocoinMint

def isCoinBase (tx : CTransaction) : Bool :=
  tx.vin.length == 1 && tx.firstInputMarked (fun script => !script.isProofOfStakeMarker) &&
    !tx.containsZerocoins

/-- At least two outputs, the first of them empty. -/
def stakeOutputs (tx : CTransaction) : Bool :=
  decide (2 ≤ tx.vout.length) && (tx.vout.head?.map CTxOut.isEmpty).getD false

/-- `CTransaction::IsV5CoinStake`: the format with a null previous outpoint and
the marker opcode. -/
def isV5CoinStake (tx : CTransaction) : Bool :=
  tx.vin.length == 1 && tx.firstInputMarked CScript.isProofOfStakeMarker && tx.stakeOutputs

/-- `CTransaction::IsCoinStake`: the legacy format or the version 5 format. -/
def isCoinStake (tx : CTransaction) : Bool :=
  ((tx.vin.head?.map fun txin => !txin.prevout.isNull).getD false && tx.stakeOutputs) ||
    tx.isV5CoinStake

/-- The transaction spends outputs: it is neither a coinbase nor a version 5
coinstake. -/
def hasInputs (tx : CTransaction) : Bool := !tx.isCoinBase && !tx.isV5CoinStake

/-- `CTransaction::GetValueOut`, without the exception for values that wrap. -/
def getValueOut (tx : CTransaction) : CAmount := (tx.vout.map CTxOut.nValue).sum

def getLegacySigOpCount (tx : CTransaction) : Nat :=
  (tx.vin.map fun txin => txin.scriptSig.getSigOpCount false).sum +
    (tx.vout.map fun txout => txout.scriptPubKey.getSigOpCount false).sum

end CTransaction

def COutPoint.isMasternodeReward (outpoint : COutPoint) (tx : CTransaction) : Bool :=
  tx.isCoinStake && outpoint.n == tx.vout.length - 1 &&
    (tx.vout[1]?.map CTxOut.scriptPubKey) != (tx.vout[outpoint.n]?.map CTxOut.scriptPubKey)

end Agouti
