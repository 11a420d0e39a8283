import Agouti.Primitives.Params

/-! # Serialization

The byte strings that are hashed and measured: little-endian integers, compact
sizes and the serializations of outpoints, inputs, outputs and transactions of
`serialize.h` and `primitives/transaction.h`.
-/

namespace Agouti

namespace Serialize

/-- `count` bytes of a natural number, least significant first. -/
def le (count n : Nat) : List UInt8 := (List.range count).map fun i => UInt8.ofNat (n >>> (8 * i))

/-- A signed integer of `count` bytes in two's complement. -/
def leInt (count : Nat) (n : Int) : List UInt8 := le count (n % 2 ^ (8 * count)).toNat

/-- A `uint256`. -/
def uint256 (value : Uint256) : List UInt8 := le 32 value.toNat

/-- `WriteCompactSize`. -/
def compactSize (n : Nat) : List UInt8 :=
  if n < 253 then [UInt8.ofNat n]
  else if n ≤ 0xffff then 253 :: le 2 n
  else if n ≤ 0xffffffff then 254 :: le 4 n
  else 255 :: le 8 n

def vector {α : Type} (element : α → List UInt8) (values : List α) : List UInt8 :=
  compactSize values.length ++ values.flatMap element

def bytes (data : List UInt8) : List UInt8 := compactSize data.length ++ data

def ascii (text : String) : List UInt8 := text.toList.map fun c => UInt8.ofNat c.toNat

/-- `COutPoint`. -/
def outpoint (value : COutPoint) : List UInt8 := uint256 value.hash ++ le 4 value.n

/-- `CTxIn`. -/
def txin (value : CTxIn) : List UInt8 :=
  outpoint value.prevout ++ bytes value.scriptSig ++ le 4 value.nSequence

/-- `CTxOut`. -/
def txout (value : CTxOut) : List UInt8 := leInt 8 value.nValue ++ bytes value.scriptPubKey

/-- `CTransaction`. -/
def transaction (tx : CTransaction) : List UInt8 :=
  leInt 4 tx.nVersion ++ vector txin tx.vin ++ vector txout tx.vout ++ le 4 tx.nLockTime

end Serialize

variable [Crypto]

def CTransaction.getHash (tx : CTransaction) : Uint256 := Hash (Serialize.transaction tx)

end Agouti
