import Agouti.Primitives.Serialize

/-! # Keys, stake pointers and blocks

`primitives/block.h` and `stakepointer.h`. The hash of a block is the hash of its
header; the block signature and the stake pointer are serialized behind the
transactions and are no part of it.
-/

namespace Agouti

/-- `CPubKey`: the serialized key; the first byte determines its length. -/
structure CPubKey where
  vch : List UInt8
  deriving DecidableEq, Repr

namespace CPubKey

def getLen (chHeader : UInt8) : Nat :=
  if chHeader = 2 ∨ chHeader = 3 then 33
  else if chHeader = 4 ∨ chHeader = 6 ∨ chHeader = 7 then 65
  else 0

/-- The default constructor: a key that is not valid. -/
def invalid : CPubKey := ⟨[0xff]⟩

/-- The first byte; a key without bytes is invalid. -/
def header (key : CPubKey) : UInt8 := key.vch.headD 0xff

def size (key : CPubKey) : Nat := getLen key.header

/-- The bytes `[begin(), end())`. -/
def raw (key : CPubKey) : List UInt8 := key.vch.take key.size

/-- `operator==` of `CPubKey`. -/
def same (a b : CPubKey) : Bool := a.header == b.header && a.raw == b.raw

def isValid (key : CPubKey) : Bool := decide (0 < key.size)

def isCompressed (key : CPubKey) : Bool := key.size == 33

variable [Crypto]

def getID (key : CPubKey) : Uint160 := Hash160 key.raw

def verify (key : CPubKey) (hash : Uint256) (vchSig : List UInt8) : Bool :=
  key.isValid && Crypto.ecdsaVerify key.raw hash vchSig

end CPubKey

/-- The output that a stake points to. -/
structure StakePointer where
  hashBlock : Uint256
  txid : Uint256
  nPos : Nat
  pubKeyCollateral : CPubKey
  pubKeyProofOfStake : CPubKey
  vchSigCollateralSignOver : List UInt8
  deriving DecidableEq, Repr

namespace StakePointer

/-- `StakePointer::SetNull`. -/
def null : StakePointer := ⟨0, 0, 0, .invalid, .invalid, []⟩

def isNull (pointer : StakePointer) : Bool := pointer.hashBlock == 0

/-- The outpoint `COutPoint(txid, nPos)` the pointer names. -/
def outpoint (pointer : StakePointer) : COutPoint := ⟨pointer.txid, pointer.nPos⟩

/-- The hexadecimal digits of `uint160::ToString`. -/
def hexDigits (value : Uint160) : List UInt8 :=
  (List.range 40).map fun i =>
    let digit := (value.toNat >>> (4 * (39 - i))) % 16
    UInt8.ofNat (if digit < 10 then 48 + digit else 87 + digit)

variable [Crypto]

def collateralSignOverHash (pubKeyPoS : CPubKey) : Uint256 :=
  Hash (Serialize.bytes (Serialize.ascii "DarkNet Signed Message:\n") ++
    Serialize.bytes (Serialize.ascii "StakePointer sign-over:" ++ hexDigits pubKeyPoS.getID))

def verifyCollateralSignOver (pointer : StakePointer) : Bool :=
  pointer.pubKeyCollateral.verify (collateralSignOverHash pointer.pubKeyProofOfStake)
    pointer.vchSigCollateralSignOver

end StakePointer

/-- A header. -/
structure CBlockHeader where
  nVersion : Int
  hashPrevBlock : Uint256
  hashMerkleRoot : Uint256
  nTime : Nat
  nBits : Nat
  nNonce : Nat
  nAccumulatorCheckpoint : Uint256 := 0
  deriving DecidableEq, Repr

/-- A block. -/
structure CBlock extends CBlockHeader where
  vtx : List CTransaction
  vchBlockSig : List UInt8 := []
  stakePointer : StakePointer := .null
  deriving DecidableEq, Repr

namespace Serialize

/-- The header fields from `nVersion` to `nNonce`. -/
def headerPrefix (header : CBlockHeader) : List UInt8 :=
  leInt 4 header.nVersion ++ uint256 header.hashPrevBlock ++ uint256 header.hashMerkleRoot ++
    le 4 header.nTime ++ le 4 header.nBits ++ le 4 header.nNonce

/-- `CPubKey`. -/
def pubKey (key : CPubKey) : List UInt8 := bytes key.raw

def stakePointer (pointer : StakePointer) : List UInt8 :=
  uint256 pointer.hashBlock ++ uint256 pointer.txid ++ le 4 pointer.nPos ++
    pubKey pointer.pubKeyCollateral ++ pubKey pointer.pubKeyProofOfStake ++
    bytes pointer.vchSigCollateralSignOver

/-- `CBlockHeader`, with the accumulator from version 4 on. -/
def header (value : CBlockHeader) : List UInt8 :=
  headerPrefix value ++ if 3 < value.nVersion then uint256 value.nAccumulatorCheckpoint else []

end Serialize

def CBlockHeader.getHash [Crypto] (header : CBlockHeader) : Uint256 :=
  if header.nVersion < 4 then XEVAN (Serialize.headerPrefix header)
  else Hash (Serialize.headerPrefix header ++ Serialize.uint256 header.nAccumulatorCheckpoint)

namespace CBlock

def isProofOfStake (block : CBlock) : Bool := (block.vtx[1]?.map CTransaction.isCoinStake).getD false

def isProofOfWork (block : CBlock) : Bool := !block.isProofOfStake

/-- The second transaction has the version 5 coinstake form. -/
def hasV5CoinStake (block : CBlock) : Bool :=
  (block.vtx[1]?.map CTransaction.isV5CoinStake).getD false

def getBlockTime (block : CBlock) : Int := block.nTime

def getProofOfStake (block : CBlock) : COutPoint × Nat :=
  match block.vtx[1]? with
  | none => (.null, 0)
  | some coinstake =>
    if !coinstake.isCoinStake then (.null, 0)
    else if coinstake.isV5CoinStake then (block.stakePointer.outpoint, block.nTime)
    else ((coinstake.vin.head?.map CTxIn.prevout).getD .null, block.nTime)

/-- The serialization of a block; signature and stake pointer only behind a
coinstake, the pointer only from version 5 on. -/
def serialize (block : CBlock) : List UInt8 :=
  Serialize.header block.toCBlockHeader ++ Serialize.vector Serialize.transaction block.vtx ++
    if block.isProofOfStake then
      Serialize.bytes block.vchBlockSig ++
        if 5 ≤ block.nVersion then Serialize.stakePointer block.stakePointer else []
    else []

variable [Crypto]

def getHash (block : CBlock) : Uint256 := block.toCBlockHeader.getHash

/-- `CBlock::CheckBlockSignature(const CPubKey&)`. -/
def checkBlockSignature (block : CBlock) (pubkey : CPubKey) : Bool :=
  pubkey.isValid && block.vchBlockSig != [] && pubkey.verify block.getHash block.vchBlockSig

/-- One level of the merkle tree: neighbours are hashed together, an odd last
hash with itself. -/
def merkleLevel : List Uint256 → List Uint256
  | [] => []
  | [last] => [Hash (Serialize.uint256 last ++ Serialize.uint256 last)]
  | left :: right :: rest =>
    Hash (Serialize.uint256 left ++ Serialize.uint256 right) :: merkleLevel rest

/-- The last two hashes of a level of even length are equal. -/
def merkleLevelMutated (level : List Uint256) : Bool :=
  level.length % 2 == 0 && (level.reverse[0]? == level.reverse[1]?) && level != []

/-- The levels of the merkle tree from the given one to the root, with the flag
that one of them is mutated; `fuel` bounds the number of levels. -/
def merkleClimb : Nat → List Uint256 → Uint256 × Bool
  | 0, level => (level.headD 0, false)
  | fuel + 1, level =>
    if level.length ≤ 1 then (level.headD 0, false)
    else
      let above := merkleClimb fuel (merkleLevel level)
      (above.1, merkleLevelMutated level || above.2)

/-- `CBlock::BuildMerkleTree`: the root and the flag `*fMutated`. -/
def buildMerkleTree (block : CBlock) : Uint256 × Bool :=
  merkleClimb block.vtx.length (block.vtx.map CTransaction.getHash)

end CBlock

end Agouti
