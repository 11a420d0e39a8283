import Agouti.Primitives.Transaction

/-! # Chain parameters and primitives

`Params()` of the source is one global record; here it is a class, so that every
result holds for every network. The hash functions of `hash.h`, signature
verification (`secp256k1/`) and the script interpreter enter through a second
class: no result depends on how they compute.
-/

namespace Agouti

/-- The fields of `CChainParams` that validation reads. -/
class ChainParams where
  /-- `LAST_POW_BLOCK()` -/
  nLastPOWBlock : Int
  /-- `COINBASE_MATURITY()` -/
  nMaturity : Int
  /-- `MaxMoneyOut()` -/
  nMaxMoneyOut : CAmount
  nMaxReorganizationDepth : Int
  nKernelModifierOffset : Int
  /-- `ValidStakePointerDuration()` -/
  nStakePointerValidityPeriod : Int
  nStakePointerForkHeight : Int
  nVetoForkHeight : Int
  bnProofOfWorkLimit : Uint256
  fSkipProofOfWorkCheck : Bool
  hashGenesisBlock : Uint256
  /-- `*Checkpoints().mapCheckpoints`, in increasing order of height -/
  mapCheckpoints : List (Int × Uint256)
  /-- `GetBudgetPaymentCycleBlocks()` -/
  nBudgetPaymentCycleBlocks : Int

export ChainParams (nLastPOWBlock nMaturity nMaxMoneyOut nMaxReorganizationDepth
  nKernelModifierOffset nStakePointerValidityPeriod nStakePointerForkHeight)

/-- `CMainParams`. -/
@[reducible] def mainParams : ChainParams where
  nLastPOWBlock := 500
  nMaturity := 15
  nMaxMoneyOut := 3000000 * COIN
  nMaxReorganizationDepth := 100
  nKernelModifierOffset := 100
  nStakePointerValidityPeriod := 4320
  nStakePointerForkHeight := 2675000
  nVetoForkHeight := 2675000
  bnProofOfWorkLimit := ~~~(0 : Uint256) >>> 20
  fSkipProofOfWorkCheck := false
  hashGenesisBlock := 0x00000b2809bc550fcad87e2a4278952524d2cca9f08fa54ae69bfd25b5834619
  mapCheckpoints :=
    [(0, 0x00000b2809bc550fcad87e2a4278952524d2cca9f08fa54ae69bfd25b5834619),
     (500000, 0x486606fbc1efec7b49c32af87b685e51f1386635200021425d01ec766bee66ae),
     (1000000, 0x271be6ed44038b5cc070915cc92adfbfa65d8003223fec9c4fcfcff0fa8f4cc1),
     (1500000, 0x8035f549cb24b32e31c58ddbda95ed10cbb491ec24dcca8260f812163d213216),
     (2000000, 0x8eb48813b48b3982fba8b285b67a2e0171b247206b43a56f1681c884c0ee1acb),
     (2500000, 0xb86129b9f03d5a029bbf6b9dafefccd8fa63b4f08ee87a8df2915b542bcd963e),
     (2565000, 0x856433953db9b9def49558e73f83940d1b811a39f53b97e16ada3e87d18aa954),
     (2664510, 0x7b8150ec1293e979af0097c548d6c94ad4fecb4eb118574b05964a3e92d9661f),
     (2674999, 0x3836f49048c3cb19d6e96fa7cf98495bf8d7c225e714e36b16a9b151fcce6e4b),
     (2675000, 0x37202b970c99193cb57ea5d200edabe0c4b82577257c304387f87a4e67f340b4),
     (2675020, 0xaa80101aaa3c55ee0add2e52baa83892716b7fabee78c9e8cec16b9489a4fef9)]
  nBudgetPaymentCycleBlocks := 4383

/-- `CRegTestParams`; the genesis hash is computed there, here it is given. -/
@[reducible] def regTestParams (hashGenesisBlock : Uint256) : ChainParams where
  nLastPOWBlock := 100
  nMaturity := 15
  nMaxMoneyOut := 43199500 * COIN
  nMaxReorganizationDepth := 10
  nKernelModifierOffset := 5
  nStakePointerValidityPeriod := 50
  nStakePointerForkHeight := 101
  nVetoForkHeight := 0
  bnProofOfWorkLimit := ~~~(0 : Uint256) >>> 1
  fSkipProofOfWorkCheck := false
  hashGenesisBlock := hashGenesisBlock
  mapCheckpoints := [(0, 0x001)]
  nBudgetPaymentCycleBlocks := 720

def moneyRange [ChainParams] (nValue : CAmount) : Bool :=
  decide (0 ≤ nValue) && decide (nValue ≤ nMaxMoneyOut)

/-- The cryptography. -/
class Crypto where
  /-- `Hash`: double SHA-256 of a byte string -/
  Hash : List UInt8 → Uint256
  /-- `XEVAN`, the hash of headers below version 4 -/
  XEVAN : List UInt8 → Uint256
  /-- `Hash160` of a serialized public key -/
  Hash160 : List UInt8 → Uint160
  /-- the verification of `CPubKey::Verify` for a key with these bytes -/
  ecdsaVerify : List UInt8 → Uint256 → List UInt8 → Bool
  /-- `VerifyScript` of an input of a transaction under verification flags -/
  verifyScript : CScript → CScript → Nat → CTransaction → Nat → Bool

export Crypto (Hash XEVAN Hash160)

/-- An instance on which the model evaluates: the hashes are remainders of the
byte string as a number, every signature and script is accepted. -/
@[reducible] def checksumCrypto : Crypto where
  Hash bytes := BitVec.ofNat 256 (CScript.littleEndian bytes % (2 ^ 256 - 189))
  XEVAN bytes := BitVec.ofNat 256 (CScript.littleEndian bytes % (2 ^ 256 - 357))
  Hash160 bytes := BitVec.ofNat 160 (CScript.littleEndian bytes % (2 ^ 160 - 47))
  ecdsaVerify _ _ _ := true
  verifyScript _ _ _ _ _ := true

end Agouti
