import Agouti.Primitives.Deserialize

/-! # Reading blocks back

The readers of keys, stake pointers, headers and blocks. What a block is after it was written and
read (`CBlock.reread`): the accumulator of a header is carried from version 4 on, the signature
behind a coinstake, the stake pointer behind a coinstake from version 5 on (`CBlock.gated`), and the
other fields always, but for the rounds of an output and the bytes of a key that is not valid. A
block whose vectors have at most `MAX_SIZE` entries is read back as that (`CBlock.Fits.reads`), and
is written and hashed as before.
-/

namespace Agouti

open Reader List

namespace Deserialize

/-- `CPubKey::Unserialize` into an invalid key. Bytes that a short key leaves out are not
modelled. -/
def pubKey : Reader UInt8 CPubKey := do
  let len ← compactSize
  let vch ← exactly len
  return if len = 0 ∨ 65 < len then .invalid else ⟨vch⟩

def stakePointer : Reader UInt8 StakePointer := do
  let hashBlock ← uint256
  let txid ← uint256
  let nPos ← le 4
  let pubKeyCollateral ← pubKey
  let pubKeyProofOfStake ← pubKey
  let vchSigCollateralSignOver ← bytes
  return ⟨hashBlock, txid, nPos, pubKeyCollateral, pubKeyProofOfStake, vchSigCollateralSignOver⟩

/-- `CBlockHeader`. -/
def header : Reader UInt8 CBlockHeader := do
  let nVersion ← leInt 4
  let hashPrevBlock ← uint256
  let hashMerkleRoot ← uint256
  let nTime ← le 4
  let nBits ← le 4
  let nNonce ← le 4
  let nAccumulatorCheckpoint ← gated (3 < nVersion) uint256 0
  return ⟨nVersion, hashPrevBlock, hashMerkleRoot, nTime, nBits, nNonce, nAccumulatorCheckpoint⟩

/-- The signature and the stake pointer of a block, which follow its transactions. -/
def stakeFields (block : CBlock) : Reader UInt8 (List UInt8 × StakePointer) := do
  let vchBlockSig ← bytes
  let stakePointer ← gated (5 ≤ block.nVersion) stakePointer .null
  return (vchBlockSig, stakePointer)

/-- `CBlock`. -/
def block : Reader UInt8 CBlock := do
  let header ← header
  let vtx ← vector transaction
  let block : CBlock := { toCBlockHeader := header, vtx := vtx }
  let fields ← gated (block.isProofOfStake = true) (stakeFields block) ([], .null)
  return { block with vchBlockSig := fields.1, stakePointer := fields.2 }

end Deserialize

/-! ## What is read back -/

def CTxOut.reread (txout : CTxOut) : CTxOut :=
  { CTxOut.null with nValue := txout.nValue, scriptPubKey := txout.scriptPubKey }

def CTransaction.reread (tx : CTransaction) : CTransaction :=
  { tx with vout := tx.vout.map CTxOut.reread }

def CPubKey.reread (key : CPubKey) : CPubKey := if key.isValid then ⟨key.raw⟩ else .invalid

def StakePointer.reread (pointer : StakePointer) : StakePointer :=
  { pointer with
    pubKeyCollateral := pointer.pubKeyCollateral.reread,
    pubKeyProofOfStake := pointer.pubKeyProofOfStake.reread }

/-- A header without what its version does not carry. -/
def CBlockHeader.gated (header : CBlockHeader) : CBlockHeader :=
  { header with
    nAccumulatorCheckpoint := if 3 < header.nVersion then header.nAccumulatorCheckpoint else 0 }

/-- A block without what its version and its kind do not carry. -/
def CBlock.gated (block : CBlock) : CBlock where
  toCBlockHeader := block.toCBlockHeader.gated
  vtx := block.vtx
  vchBlockSig := if block.isProofOfStake then block.vchBlockSig else []
  stakePointer :=
    if block.isProofOfStake ∧ 5 ≤ block.nVersion then block.stakePointer else .null

def CBlock.reread (block : CBlock) : CBlock :=
  { block.gated with
    vtx := block.vtx.map CTransaction.reread, stakePointer := block.gated.stakePointer.reread }

/-- The integers of an input are in the range of their types, and its script can be read. -/
@[mk_iff] structure CTxIn.Fits (txin : CTxIn) : Prop where
  prevout : txin.prevout.n < 2 ^ 32
  script : txin.scriptSig.length ≤ maxSize
  nSequence : txin.nSequence < 2 ^ 32

/-- The value of an output is in the range of its type, and its script can be read. -/
@[mk_iff] structure CTxOut.Fits (txout : CTxOut) : Prop where
  low : -2 ^ 63 ≤ txout.nValue
  high : txout.nValue < 2 ^ 63
  script : txout.scriptPubKey.length ≤ maxSize

/-- The integers of a transaction are in the range of their types, and its vectors can be read. -/
@[mk_iff] structure CTransaction.Fits (tx : CTransaction) : Prop where
  low : -2 ^ 31 ≤ tx.nVersion
  high : tx.nVersion < 2 ^ 31
  inputs : tx.vin.length ≤ maxSize
  vin : ∀ txin ∈ tx.vin, txin.Fits
  outputs : tx.vout.length ≤ maxSize
  vout : ∀ txout ∈ tx.vout, txout.Fits
  nLockTime : tx.nLockTime < 2 ^ 32

/-- The array of a key holds all of its bytes. -/
def CPubKey.Fits (key : CPubKey) : Prop := key.size ≤ key.vch.length

/-- The integer of a stake pointer is in the range of its type, and its signature can be read. -/
@[mk_iff] structure StakePointer.Fits (pointer : StakePointer) : Prop where
  nPos : pointer.nPos < 2 ^ 32
  collateral : pointer.pubKeyCollateral.Fits
  proofOfStake : pointer.pubKeyProofOfStake.Fits
  signature : pointer.vchSigCollateralSignOver.length ≤ maxSize

/-- The integers of a header are in the range of their types. -/
@[mk_iff] structure CBlockHeader.Fits (header : CBlockHeader) : Prop where
  low : -2 ^ 31 ≤ header.nVersion
  high : header.nVersion < 2 ^ 31
  nTime : header.nTime < 2 ^ 32
  nBits : header.nBits < 2 ^ 32
  nNonce : header.nNonce < 2 ^ 32

/-- The integers of a block are in the range of their types, and what is written of it can be
read. -/
@[mk_iff] structure CBlock.Fits (block : CBlock) : Prop where
  header : block.toCBlockHeader.Fits
  transactions : block.vtx.length ≤ maxSize
  vtx : ∀ tx ∈ block.vtx, tx.Fits
  signature : block.isProofOfStake = true → block.vchBlockSig.length ≤ maxSize
  pointer : block.isProofOfStake = true → 5 ≤ block.nVersion → block.stakePointer.Fits

instance : DecidablePred CTxIn.Fits := fun txin => decidable_of_iff' _ (CTxIn.fits_iff txin)

instance : DecidablePred CTxOut.Fits := fun txout => decidable_of_iff' _ (CTxOut.fits_iff txout)

instance : DecidablePred CTransaction.Fits := fun tx => decidable_of_iff' _ (CTransaction.fits_iff tx)

instance : DecidablePred CPubKey.Fits := fun key =>
  inferInstanceAs (Decidable (key.size ≤ key.vch.length))

instance : DecidablePred StakePointer.Fits := fun pointer =>
  decidable_of_iff' _ (StakePointer.fits_iff pointer)

instance : DecidablePred CBlockHeader.Fits := fun header =>
  decidable_of_iff' _ (CBlockHeader.fits_iff header)

instance : DecidablePred CBlock.Fits := fun block => decidable_of_iff' _ (CBlock.fits_iff block)

/-! ## Vectors -/

theorem reads_size {n : Nat} (fits : n < 2 ^ 64) :
    Reads (next >>= Deserialize.sizeBehind) (Serialize.compactSize n) n := by
  unfold Serialize.compactSize
  split
  · rename_i short
    show Reads _ ([UInt8.ofNat n] ++ []) n
    refine (reads_next _).bind ?_
    have value : (UInt8.ofNat n).toNat = n := by
      rw [UInt8.toNat_ofNat', Nat.mod_eq_of_lt (by omega)]
    have first : UInt8.ofNat n < 253 := by
      rw [UInt8.lt_iff_toNat_lt, value]
      exact short
    rw [Deserialize.sizeBehind, if_pos first, value]
    exact reads_pure n
  · rename_i long
    split
    · rename_i two
      rw [← singleton_append]
      have small : n < 2 ^ (8 * 2) := by omega
      exact (reads_next 253).bind ((reads_le small).unless long)
    · rename_i four
      split
      · rename_i eight
        rw [← singleton_append]
        have small : n < 2 ^ (8 * 4) := by omega
        exact (reads_next 254).bind ((reads_le small).unless (by omega))
      · rename_i sixteen
        rw [← singleton_append]
        have small : n < 2 ^ (8 * 8) := by omega
        exact (reads_next 255).bind ((reads_le small).unless (by omega))

theorem reads_compactSize {n : Nat} (fits : n ≤ maxSize) :
    Reads Deserialize.compactSize (Serialize.compactSize n) n := by
  have large : n < 2 ^ 64 := lt_of_le_of_lt fits (by decide)
  unfold Deserialize.compactSize
  rw [← bind_assoc]
  exact (reads_size large).unless (not_lt.mpr fits)

theorem reads_vector {α : Type} {reader : Reader UInt8 α} {element : α → List UInt8}
    {result : α → α} (values : List α) (fits : values.length ≤ maxSize)
    (each : ∀ value ∈ values, Reads reader (element value) (result value)) :
    Reads (Deserialize.vector reader) (Serialize.vector element values) (values.map result) :=
  (reads_compactSize fits).bind (Reads.times values each)

theorem reads_bytes {data : List UInt8} (fits : data.length ≤ maxSize) :
    Reads Deserialize.bytes (Serialize.bytes data) data :=
  (reads_compactSize fits).bind (reads_exactly data)

theorem reads_uint32 {n : Nat} (fits : n < 2 ^ 32) :
    Reads (Deserialize.le 4) (Serialize.le 4 n) n :=
  reads_le fits

theorem reads_int32 {n : Int} (low : -2 ^ 31 ≤ n) (high : n < 2 ^ 31) :
    Reads (Deserialize.leInt 4) (Serialize.leInt 4 n) n :=
  reads_leInt (by omega) (by omega)

theorem reads_int64 {n : Int} (low : -2 ^ 63 ≤ n) (high : n < 2 ^ 63) :
    Reads (Deserialize.leInt 8) (Serialize.leInt 8 n) n :=
  reads_leInt (by omega) (by omega)

/-! ## Transactions -/

theorem COutPoint.reads {outpoint : COutPoint} (fits : outpoint.n < 2 ^ 32) :
    Reads Deserialize.outpoint (Serialize.outpoint outpoint) outpoint :=
  (reads_uint256 outpoint.hash).bind (reads_uint32 fits).into

theorem CTxIn.Fits.reads {txin : CTxIn} (fits : txin.Fits) :
    Reads Deserialize.txin (Serialize.txin txin) txin := by
  unfold Serialize.txin
  rw [append_assoc]
  exact (COutPoint.reads fits.prevout).bind
    ((reads_bytes fits.script).bind (reads_uint32 fits.nSequence).into)

theorem CTxOut.Fits.reads {txout : CTxOut} (fits : txout.Fits) :
    Reads Deserialize.txout (Serialize.txout txout) txout.reread :=
  (reads_int64 fits.low fits.high).bind (reads_bytes fits.script).into

theorem CTransaction.Fits.reads {tx : CTransaction} (fits : tx.Fits) :
    Reads Deserialize.transaction (Serialize.transaction tx) tx.reread := by
  have inputs : Reads (Deserialize.vector Deserialize.txin) (Serialize.vector Serialize.txin tx.vin)
      (tx.vin.map id) :=
    reads_vector tx.vin fits.inputs fun txin member => (fits.vin txin member).reads
  have outputs : Reads (Deserialize.vector Deserialize.txout)
      (Serialize.vector Serialize.txout tx.vout) (tx.vout.map CTxOut.reread) :=
    reads_vector tx.vout fits.outputs fun txout member => (fits.vout txout member).reads
  rw [map_id] at inputs
  unfold Serialize.transaction
  rw [append_assoc, append_assoc]
  exact (reads_int32 fits.low fits.high).bind
    (inputs.bind (outputs.bind (reads_uint32 fits.nLockTime).into))

/-! ## Keys and stake pointers -/

namespace CPubKey

theorem getLen_le (chHeader : UInt8) : getLen chHeader ≤ 65 := by
  unfold getLen
  split
  · omega
  · split
    · omega
    · exact Nat.zero_le 65

theorem length_raw {key : CPubKey} (fits : key.Fits) : key.raw.length = key.size :=
  length_take_of_le fits

theorem header_raw {key : CPubKey} (valid : key.isValid = true) (fits : key.Fits) :
    CPubKey.header ⟨key.raw⟩ = key.header := by
  have positive : 0 < key.size := by simpa [isValid] using valid
  unfold Fits at fits
  obtain ⟨vch⟩ := key
  cases vch with
  | nil =>
    rw [length_nil] at fits
    omega
  | cons first rest =>
    obtain ⟨size, more⟩ := Nat.exists_eq_succ_of_ne_zero positive.ne'
    simp only [header, raw, more, take_succ_cons, headD_cons]

theorem reads {key : CPubKey} (fits : key.Fits) :
    Reads Deserialize.pubKey (Serialize.pubKey key) key.reread := by
  have bound : key.size ≤ 65 := getLen_le key.header
  have length := length_raw fits
  refine (reads_compactSize (by rw [length]; unfold maxSize; omega)).bind ?_
  have read : Reads (exactly key.raw.length) key.raw key.raw := reads_exactly key.raw
  have value : (if key.raw.length = 0 ∨ 65 < key.raw.length then .invalid else ⟨key.raw⟩) =
      key.reread := by
    unfold reread isValid
    rw [length]
    by_cases empty : key.size = 0
    · simp [empty]
    · have positive : 0 < key.size := Nat.pos_of_ne_zero empty
      simp [empty, positive, not_lt.mpr bound]
  rw [← value]
  exact read.into

end CPubKey

variable {pointer : StakePointer}

theorem StakePointer.Fits.reads (fits : pointer.Fits) :
    Reads Deserialize.stakePointer (Serialize.stakePointer pointer) pointer.reread := by
  unfold Serialize.stakePointer
  simp only [append_assoc]
  exact (reads_uint256 pointer.hashBlock).bind ((reads_uint256 pointer.txid).bind
    ((reads_uint32 fits.nPos).bind ((CPubKey.reads fits.collateral).bind
      ((CPubKey.reads fits.proofOfStake).bind (reads_bytes fits.signature).into))))

theorem StakePointer.reread_null : StakePointer.null.reread = .null := rfl

/-! ## Blocks -/

theorem CBlockHeader.Fits.reads {header : CBlockHeader} (fits : header.Fits) :
    Reads Deserialize.header (Serialize.header header) header.gated := by
  have accumulator : Reads (Reader.gated (3 < header.nVersion) Deserialize.uint256 0)
      (if 3 < header.nVersion then Serialize.uint256 header.nAccumulatorCheckpoint else [])
      (if 3 < header.nVersion then header.nAccumulatorCheckpoint else 0) :=
    .gated fun _ => reads_uint256 _
  unfold Serialize.header Serialize.headerPrefix
  simp only [append_assoc]
  exact (reads_int32 fits.low fits.high).bind ((reads_uint256 header.hashPrevBlock).bind
    ((reads_uint256 header.hashMerkleRoot).bind ((reads_uint32 fits.nTime).bind
      ((reads_uint32 fits.nBits).bind ((reads_uint32 fits.nNonce).bind accumulator.into)))))

theorem CTransaction.isCoinStake_reread (tx : CTransaction) :
    tx.reread.isCoinStake = tx.isCoinStake := by
  have outputs : tx.reread.stakeOutputs = tx.stakeOutputs := by
    unfold stakeOutputs reread
    rw [length_map]
    cases tx.vout with
    | nil => rfl
    | cons txout rest => rfl
  unfold isCoinStake isV5CoinStake
  rw [outputs]
  rfl

theorem CBlock.isProofOfStake_reread (block : CBlock) :
    block.reread.isProofOfStake = block.isProofOfStake := by
  unfold isProofOfStake reread
  rw [List.getElem?_map]
  cases block.vtx[1]? with
  | none => rfl
  | some coinstake => exact coinstake.isCoinStake_reread

theorem CBlock.Fits.reads {block : CBlock} (fits : block.Fits) :
    Reads Deserialize.block block.serialize block.reread := by
  have vtx : Reads (Deserialize.vector Deserialize.transaction)
      (Serialize.vector Serialize.transaction block.vtx) (block.vtx.map CTransaction.reread) :=
    reads_vector block.vtx fits.transactions fun tx member => (fits.vtx tx member).reads
  let body := CBlock.mk block.toCBlockHeader.gated (block.vtx.map CTransaction.reread) [] .null
  have staked : body.isProofOfStake = block.isProofOfStake := block.isProofOfStake_reread
  have fields : Reads
      (Reader.gated (body.isProofOfStake = true) (Deserialize.stakeFields body) ([], .null))
      (if block.isProofOfStake = true then Serialize.bytes block.vchBlockSig ++
          if 5 ≤ block.nVersion then Serialize.stakePointer block.stakePointer else []
        else [])
      (if block.isProofOfStake = true then
          (block.vchBlockSig, if 5 ≤ block.nVersion then block.stakePointer.reread else .null)
        else ([], .null)) := by
    rw [staked]
    exact .gated fun stake => (reads_bytes (fits.signature stake)).bind
      (Reads.gated fun five => (fits.pointer stake five).reads).into
  have whole := fields.into (f := fun fields : List UInt8 × StakePointer =>
    { body with vchBlockSig := fields.1, stakePointer := fields.2 })
  have value : { body with
      vchBlockSig := (if block.isProofOfStake = true then
          (block.vchBlockSig, if 5 ≤ block.nVersion then block.stakePointer.reread else .null)
        else ([], .null)).1,
      stakePointer := (if block.isProofOfStake = true then
          (block.vchBlockSig, if 5 ≤ block.nVersion then block.stakePointer.reread else .null)
        else ([], .null)).2 } = block.reread := by
    unfold CBlock.reread CBlock.gated
    cases block.isProofOfStake with
    | false => rfl
    | true =>
      by_cases five : 5 ≤ block.nVersion
      · simp [body, five]
      · simp [body, five, StakePointer.reread_null]
  unfold CBlock.serialize
  rw [append_assoc, ← value]
  exact fits.header.reads.bind (vtx.bind whole)

/-! ## What is read back is written as before -/

theorem Serialize.transaction_reread (tx : CTransaction) :
    Serialize.transaction tx.reread = Serialize.transaction tx := by
  have outputs : Serialize.vector Serialize.txout (tx.vout.map CTxOut.reread) =
      Serialize.vector Serialize.txout tx.vout := by
    unfold Serialize.vector
    rw [length_map, flatMap_map]
    rfl
  unfold Serialize.transaction CTransaction.reread
  rw [outputs]

namespace CPubKey

theorem isValid_reread {key : CPubKey} (fits : key.Fits) : key.reread.isValid = key.isValid := by
  unfold reread
  split
  · rename_i valid
    rw [isValid, size, header_raw valid fits, ← size, ← isValid]
  · rename_i invalid
    rw [Bool.not_eq_true] at invalid
    rw [invalid]
    rfl

theorem raw_reread {key : CPubKey} (fits : key.Fits) : key.reread.raw = key.raw := by
  unfold reread
  split
  · rename_i valid
    show List.take (CPubKey.size ⟨key.raw⟩) key.raw = key.raw
    rw [size, header_raw valid fits, ← size, ← length_raw fits, take_length]
  · rename_i invalid
    have empty : key.size = 0 := by simpa [isValid] using invalid
    rw [raw, raw, empty]
    rfl

end CPubKey

theorem Serialize.stakePointer_reread (fits : pointer.Fits) :
    Serialize.stakePointer pointer.reread = Serialize.stakePointer pointer := by
  unfold Serialize.stakePointer Serialize.pubKey StakePointer.reread
  simp only [CPubKey.raw_reread fits.collateral, CPubKey.raw_reread fits.proofOfStake]

theorem Serialize.header_gated (header : CBlockHeader) :
    Serialize.header header.gated = Serialize.header header := by
  unfold Serialize.header CBlockHeader.gated
  by_cases carried : 3 < header.nVersion
  · simp only [if_pos carried]
  · simp only [if_neg carried]
    rfl

theorem CBlockHeader.getHash_gated [Crypto] (header : CBlockHeader) :
    header.gated.getHash = header.getHash := by
  unfold getHash gated
  by_cases carried : 3 < header.nVersion
  · simp only [if_pos carried]
  · have early : header.nVersion < 4 := by omega
    simp only [if_pos early]
    rfl

namespace CBlock

variable (block : CBlock)

theorem isProofOfStake_gated : block.gated.isProofOfStake = block.isProofOfStake := rfl

theorem getHash_gated [Crypto] : block.gated.getHash = block.getHash :=
  block.toCBlockHeader.getHash_gated

theorem getHash_reread [Crypto] : block.reread.getHash = block.getHash :=
  block.toCBlockHeader.getHash_gated

theorem serialize_gated : block.gated.serialize = block.serialize := by
  unfold serialize
  rw [isProofOfStake_gated]
  show Serialize.header block.toCBlockHeader.gated ++ _ ++ _ = _
  rw [Serialize.header_gated]
  congr 1
  split
  · rename_i stake
    have version : block.gated.nVersion = block.nVersion := rfl
    rw [version]
    by_cases five : 5 ≤ block.nVersion
    · simp only [gated, stake, five, and_self, ↓reduceIte]
    · simp only [gated, stake, five, ↓reduceIte]
  · rfl

theorem stakePointer_reread {block : CBlock} (fits : block.Fits)
    (stake : block.isProofOfStake = true) (five : 5 ≤ block.nVersion) :
    Serialize.stakePointer block.reread.stakePointer =
      Serialize.stakePointer block.gated.stakePointer := by
  have pointer : block.gated.stakePointer = block.stakePointer := if_pos ⟨stake, five⟩
  have reread : block.reread.stakePointer = block.gated.stakePointer.reread := rfl
  rw [reread, pointer, Serialize.stakePointer_reread (fits.pointer stake five)]

theorem vtx_reread : Serialize.vector Serialize.transaction block.reread.vtx =
    Serialize.vector Serialize.transaction block.vtx := by
  have vtx : block.reread.vtx = block.vtx.map CTransaction.reread := rfl
  unfold Serialize.vector
  rw [vtx, length_map, flatMap_map]
  simp only [Serialize.transaction_reread]

theorem serialize_reread {block : CBlock} (fits : block.Fits) :
    block.reread.serialize = block.serialize := by
  have header : block.reread.toCBlockHeader = block.gated.toCBlockHeader := rfl
  have version : block.gated.nVersion = block.nVersion := rfl
  have signature : block.reread.vchBlockSig = block.gated.vchBlockSig := rfl
  have vtx : block.gated.vtx = block.vtx := rfl
  rw [← block.serialize_gated]
  unfold serialize
  rw [isProofOfStake_reread, isProofOfStake_gated, vtx_reread, header, signature, vtx, version]
  cases stake : block.isProofOfStake with
  | false => simp only [Bool.false_eq_true, ↓reduceIte]
  | true =>
    by_cases five : 5 ≤ block.nVersion
    · simp only [five, ↓reduceIte, stakePointer_reread fits stake five]
    · simp only [five, ↓reduceIte]

end CBlock

/-! ## The fields that are kept -/

/-- The same transaction, but for the rounds of its outputs. -/
structure CTransaction.SameData (tx later : CTransaction) : Prop where
  nVersion : later.nVersion = tx.nVersion
  vin : later.vin = tx.vin
  vout : later.vout.map (fun txout => (txout.nValue, txout.scriptPubKey)) =
    tx.vout.map fun txout => (txout.nValue, txout.scriptPubKey)
  nLockTime : later.nLockTime = tx.nLockTime

/-- The pointers agree in what is written of them. -/
structure StakePointer.SameData (pointer later : StakePointer) : Prop where
  hashBlock : later.hashBlock = pointer.hashBlock
  outpoint : later.outpoint = pointer.outpoint
  collateral : later.pubKeyCollateral.isValid = pointer.pubKeyCollateral.isValid ∧
    later.pubKeyCollateral.raw = pointer.pubKeyCollateral.raw
  proofOfStake : later.pubKeyProofOfStake.isValid = pointer.pubKeyProofOfStake.isValid ∧
    later.pubKeyProofOfStake.raw = pointer.pubKeyProofOfStake.raw
  signature : later.vchSigCollateralSignOver = pointer.vchSigCollateralSignOver

/-- The fields that the version and the kind of a block carry are the same. -/
structure CBlock.Keeps (block later : CBlock) : Prop where
  nVersion : later.nVersion = block.nVersion
  hashPrevBlock : later.hashPrevBlock = block.hashPrevBlock
  hashMerkleRoot : later.hashMerkleRoot = block.hashMerkleRoot
  nTime : later.nTime = block.nTime
  nBits : later.nBits = block.nBits
  nNonce : later.nNonce = block.nNonce
  nAccumulatorCheckpoint : 3 < block.nVersion →
    later.nAccumulatorCheckpoint = block.nAccumulatorCheckpoint
  vtx : List.Forall₂ CTransaction.SameData block.vtx later.vtx
  vchBlockSig : block.isProofOfStake = true → later.vchBlockSig = block.vchBlockSig
  stakePointer : block.isProofOfStake = true → 5 ≤ block.nVersion →
    block.stakePointer.SameData later.stakePointer

theorem CTransaction.sameData_reread (tx : CTransaction) : tx.SameData tx.reread where
  nVersion := rfl
  vin := rfl
  vout := by
    unfold reread
    rw [map_map]
    rfl
  nLockTime := rfl

theorem StakePointer.sameData_reread (fits : pointer.Fits) :
    pointer.SameData pointer.reread where
  hashBlock := rfl
  outpoint := rfl
  collateral := ⟨CPubKey.isValid_reread fits.collateral, CPubKey.raw_reread fits.collateral⟩
  proofOfStake := ⟨CPubKey.isValid_reread fits.proofOfStake, CPubKey.raw_reread fits.proofOfStake⟩
  signature := rfl

theorem CBlock.Fits.keeps {block : CBlock} (fits : block.Fits) : block.Keeps block.reread where
  nVersion := rfl
  hashPrevBlock := rfl
  hashMerkleRoot := rfl
  nTime := rfl
  nBits := rfl
  nNonce := rfl
  nAccumulatorCheckpoint four := if_pos four
  vtx := by
    show List.Forall₂ CTransaction.SameData block.vtx (block.vtx.map CTransaction.reread)
    rw [List.forall₂_map_right_iff]
    exact List.forall₂_same.mpr fun tx _ => tx.sameData_reread
  vchBlockSig stake := if_pos stake
  stakePointer stake five := by
    have pointer : block.gated.stakePointer = block.stakePointer := if_pos ⟨stake, five⟩
    have reread : block.reread.stakePointer = block.gated.stakePointer.reread := rfl
    rw [reread, pointer]
    exact StakePointer.sameData_reread (fits.pointer stake five)

end Agouti
