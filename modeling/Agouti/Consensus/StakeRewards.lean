import Agouti.Consensus.PointerRuns

/-! # Which outputs can stake

A stake pointer is meant to name the payment of a masternode. `CheckStake` asks for
an unused output, in a block of the validity window, that pays the address of a
compressed key, and for signatures; neither the transaction nor the position nor the
value of the output is compared with the payment. The outputs that some accepted
block can name are those (`stakeable_of_accepted`), and so only masternode
payments stake exactly when there is no other such output
(`onlyRewardsStake_iff`).
-/

namespace Agouti

open Option StakedTip

section

variable [Crypto]

/-- The output is the payment of the masternode: where `FillBlockPayee` puts it, the
last output of the coinstake or the second one of the coinbase, with a value. -/
def CBlock.paysMasternode (block : CBlock) (outpoint : COutPoint) : Bool :=
  ((if block.isProofOfStake then block.vtx[1]? else block.vtx[0]?).map fun tx =>
    tx.getHash == outpoint.hash &&
      ((tx.vout[outpoint.n]?.map fun txout => decide (0 < txout.nValue)).getD false) &&
      if block.isProofOfStake then outpoint.isMasternodeReward tx else outpoint.n == 1).getD false

/-- The output of the block `hashBlock` is the payment of the masternode. -/
def Node.paysMasternode (node : Node) (hashBlock : Uint256) (outpoint : COutPoint) : Bool :=
  (((node.mapBlockIndex hashBlock).bind node.readBlockFromDisk).map fun blockFrom =>
    blockFrom.paysMasternode outpoint).getD false

/-- A key that has a signature on one message has one on every message: it is a point
of the curve. -/
def SignaturesExist : Prop :=
  ∀ (key : CPubKey) hash vchSig, key.verify hash vchSig = true →
    ∀ other, ∃ vchSigOther, vchSigOther ≠ [] ∧ key.verify other vchSigOther = true

variable [ChainParams]

/-- The block of the index in which a pointer may lie, on top of a parent: on the
active chain, not expired and outside the reorganisation window. -/
structure InPointerWindow (node : Node) (pindexPrev : CBlockIndex) (hashBlock : Uint256)
    (pindexFrom : CBlockIndex) : Prop where
  found : node.mapBlockIndex hashBlock = some pindexFrom
  active : node.contains pindexFrom = true
  recent : pindexPrev.nHeight + 1 - nStakePointerValidityPeriod ≤ pindexFrom.nHeight
  settled : pindexFrom.nHeight ≤ pindexPrev.nHeight + 1 - nMaxReorganizationDepth

/-- The pointer to the output may be staked with. -/
structure Stakeable (node : Node) (pindexPrev : CBlockIndex) (hashBlock : Uint256)
    (outpoint : COutPoint) : Prop where
  named : hashBlock ≠ 0
  unused : isStakePointerUsed node pindexPrev outpoint = false
  output : ∃ pindexFrom blockFrom tx txout, InPointerWindow node pindexPrev hashBlock pindexFrom ∧
    node.readBlockFromDisk pindexFrom = some blockFrom ∧
    blockFrom.findTransaction outpoint.hash = some tx ∧ tx.vout[outpoint.n]? = some txout ∧
    ∃ key : CPubKey, key.isCompressed = true ∧
      extractKeyID txout.scriptPubKey = some key.getID ∧ ∃ hash vchSig, key.verify hash vchSig = true

/-- A version 5 block is possible at this time on top of the parent: there is a
modifier block, and a time between the median and the clock. -/
structure StakeTime (data : LocalData) (node : Node) (pindexPrev : CBlockIndex) : Prop where
  modifier : (node.mapBlockIndex.getAncestor pindexPrev
    (pindexPrev.nHeight - nKernelModifierOffset)).isSome = true
  clock : ∃ nTime : Nat, node.mapBlockIndex.getMedianTimePast pindexPrev < (nTime : Int) ∧
    (nTime : Int) ≤ data.adjustedTime + 60

variable {node : Node} {pindexPrev : CBlockIndex} {data : LocalData} {hashProofOfStake : Uint256}

theorem checkBlockProofPointer_eq_some {block : CBlock} {result : CPubKey × COutPoint} :
    checkBlockProofPointer node pindexPrev (pindexPrev.nHeight + 1) block = some result ↔
      (∃ pindexFrom blockFrom tx,
        InPointerWindow node pindexPrev block.stakePointer.hashBlock pindexFrom ∧
        isStakePointerUsed node pindexPrev block.stakePointer.outpoint = false ∧
        node.readBlockFromDisk pindexFrom = some blockFrom ∧
        blockFrom.findTransaction block.stakePointer.txid = some tx ∧
        ownsPointerOutput block.stakePointer tx = true) ∧
      (block.stakePointer.pubKeyProofOfStake.same block.stakePointer.pubKeyCollateral = true ∨
        block.stakePointer.verifyCollateralSignOver = true) ∧
      result = (block.stakePointer.pubKeyProofOfStake, block.stakePointer.outpoint) := by
  simp only [checkBlockProofPointer, bind_eq_bind, bind_eq_some_iff,
    guard_eq_some', Option.pure_def, some.injEq, Bool.not_eq_true',
    Bool.or_eq_true, exists_const]
  constructor
  · rintro ⟨pindexFrom, found, active, recent, settled, unused, blockFrom, read, tx, named, owns,
      key, rfl⟩
    exact ⟨⟨pindexFrom, blockFrom, tx, ⟨found, active, recent, settled⟩, unused, read, named, owns⟩,
      key, rfl⟩
  · rintro ⟨⟨pindexFrom, blockFrom, tx, window, unused, read, named, owns⟩, key, rfl⟩
    exact ⟨pindexFrom, window.found, window.active, window.recent, window.settled, unused, blockFrom,
      read, tx, named, owns, key, rfl⟩

theorem checkStakePointerKernelHash_eq_some {mapBlockIndex : BlockMap} {nBits nTimeStake : Nat}
    {outpoint : COutPoint} {pindexFrom : CBlockIndex} :
    checkStakePointerKernelHash data mapBlockIndex nBits outpoint pindexFrom pindexPrev nTimeStake =
        some hashProofOfStake ↔
      ∃ pindexModifier,
        mapBlockIndex.getAncestor pindexPrev (pindexPrev.nHeight - nKernelModifierOffset) =
          some pindexModifier ∧
        mapBlockIndex.getMedianTimePast pindexPrev < (nTimeStake : Int) ∧
        (nTimeStake : Int) ≤ data.adjustedTime + 60 ∧
        stakeTargetMet nBits hashProofOfStake = true ∧
        hashProofOfStake =
          Hash (kernelBytes outpoint pindexModifier.getBlockHash pindexFrom nTimeStake) := by
  simp only [checkStakePointerKernelHash, bind_eq_bind, bind_eq_some_iff,
    guard_eq_some', Option.pure_def, some.injEq, exists_const]
  constructor
  · rintro ⟨pindexModifier, found, after, before, met, rfl⟩
    exact ⟨pindexModifier, found, after, before, met, rfl⟩
  · rintro ⟨pindexModifier, found, after, before, met, rfl⟩
    exact ⟨pindexModifier, found, after, before, met, rfl⟩

theorem checkStake_eq_some {block : CBlock} :
    checkStake data node pindexPrev block = some hashProofOfStake ↔
      (block.isProofOfStake = true ∧ 5 ≤ block.nVersion ∧ block.hasV5CoinStake = true ∧
        block.stakePointer.isNull = false ∧ block.coinbaseEmpty = true) ∧
      (∃ result, checkBlockProofPointer node pindexPrev (pindexPrev.nHeight + 1) block =
        some result) ∧
      block.checkBlockSignature block.stakePointer.pubKeyProofOfStake = true ∧
      ∃ pindexFrom, node.mapBlockIndex block.stakePointer.hashBlock = some pindexFrom ∧
        checkStakePointerKernelHash data node.mapBlockIndex block.nBits block.stakePointer.outpoint
          pindexFrom pindexPrev block.nTime = some hashProofOfStake := by
  simp only [checkStake, bind_eq_bind, bind_eq_some_iff, guard_eq_some',
    Bool.not_eq_true', exists_const]
  constructor
  · rintro ⟨stake, version, form, named, empty, result, pointer, signed, pindexFrom, found, kernel⟩
    obtain ⟨_, _, rfl⟩ := checkBlockProofPointer_eq_some.mp pointer
    exact ⟨⟨stake, version, form, named, empty⟩, ⟨_, pointer⟩, signed, pindexFrom, found, kernel⟩
  · rintro ⟨⟨stake, version, form, named, empty⟩, ⟨result, pointer⟩, signed, pindexFrom, found,
      kernel⟩
    obtain ⟨_, _, rfl⟩ := checkBlockProofPointer_eq_some.mp pointer
    exact ⟨stake, version, form, named, empty, _, pointer, signed, pindexFrom, found, kernel⟩

omit [Crypto] [ChainParams] in
theorem stakeTargetMet_easy (hashProofOfStake : Uint256) :
    stakeTargetMet 0x207fffff hashProofOfStake = true := by
  have target : (Uint256.setCompact 0x207fffff).toNat = 0x7fffff * 2 ^ 232 := by decide +kernel
  have weight : (BitVec.ofInt 256 (MASTERNODE_COLLATERAL / 100)).toNat = 3000000000 := by
    decide +kernel
  have bound := hashProofOfStake.isLt
  rw [stakeTargetMet, decide_eq_true_eq, BitVec.lt_def, BitVec.toNat_udiv, target, weight]
  omega

def stakingBlock (hashPrevBlock hashBlock : Uint256) (outpoint : COutPoint) (key : CPubKey)
    (nTime : Nat) (vchBlockSig : List UInt8) : CBlock where
  nVersion := 5
  hashPrevBlock := hashPrevBlock
  hashMerkleRoot := 0
  nTime := nTime
  nBits := 0x207fffff
  nNonce := 0
  vtx :=
    [{ nVersion := 1, vin := [{ prevout := .null, scriptSig := [0x51, 0x51] }], vout := [.empty],
       nLockTime := 0 },
     { nVersion := 1, vin := [{ prevout := .null, scriptSig := [CScript.OP_PROOFOFSTAKE] }],
       vout := [.empty, { nValue := 1, scriptPubKey := [0x51] }], nLockTime := 0 }]
  vchBlockSig := vchBlockSig
  stakePointer := ⟨hashBlock, outpoint.hash, outpoint.n, key, key, []⟩

omit [Crypto] [ChainParams] in
theorem CPubKey.isValid_of_compressed {key : CPubKey} (compressed : key.isCompressed = true) :
    key.isValid = true := by
  simp only [CPubKey.isCompressed, beq_iff_eq] at compressed
  simp [CPubKey.isValid, compressed]

theorem Stakeable.accepted (signs : SignaturesExist) (time : StakeTime data node pindexPrev)
    {hashBlock : Uint256} {outpoint : COutPoint}
    (stakeable : Stakeable node pindexPrev hashBlock outpoint) :
    ∃ block hashProofOfStake, checkStake data node pindexPrev block = some hashProofOfStake ∧
      block.stakePointer.hashBlock = hashBlock ∧ block.stakePointer.outpoint = outpoint := by
  obtain ⟨pindexFrom, blockFrom, tx, txout, window, read, found, place, key, compressed, pays, hash,
    vchSig, signed⟩ := stakeable.output
  obtain ⟨pindexModifier, modifier⟩ := isSome_iff_exists.mp time.modifier
  obtain ⟨nTime, after, before⟩ := time.clock
  -- the signature is no part of the hash that it signs
  obtain ⟨vchBlockSig, filled, signedBlock⟩ := signs key hash vchSig signed
    (stakingBlock pindexPrev.getBlockHash hashBlock outpoint key nTime []).getHash
  refine ⟨stakingBlock pindexPrev.getBlockHash hashBlock outpoint key nTime vchBlockSig, _,
    checkStake_eq_some.mpr ⟨⟨rfl, Int.le_refl 5, rfl, ?_, rfl⟩, ⟨_, checkBlockProofPointer_eq_some.mpr
      ⟨⟨pindexFrom, blockFrom, tx, window, stakeable.unused, read, found, ?_⟩, .inl ?_, rfl⟩⟩, ?_,
      pindexFrom, window.found, checkStakePointerKernelHash_eq_some.mpr
        ⟨pindexModifier, modifier, after, before, stakeTargetMet_easy _, rfl⟩⟩, rfl, rfl⟩
  · simpa [stakingBlock, StakePointer.isNull] using stakeable.named
  · simp only [ownsPointerOutput, stakingBlock, place, compressed, pays, beq_self_eq_true,
      Bool.and_self]
  · simp [CPubKey.same, stakingBlock]
  · have same : (stakingBlock pindexPrev.getBlockHash hashBlock outpoint key nTime
        vchBlockSig).getHash =
          (stakingBlock pindexPrev.getBlockHash hashBlock outpoint key nTime []).getHash := rfl
    simp only [CBlock.checkBlockSignature, same]
    simp only [stakingBlock, CPubKey.isValid_of_compressed compressed, Bool.true_and,
      Bool.and_eq_true, bne_iff_ne, ne_eq]
    exact ⟨filled, signedBlock⟩

omit [ChainParams] in
theorem CPubKey.verify_of_same {a b : CPubKey} (same : a.same b = true) (hash : Uint256)
    (vchSig : List UInt8) : a.verify hash vchSig = b.verify hash vchSig := by
  simp only [CPubKey.same, Bool.and_eq_true, beq_iff_eq] at same
  obtain ⟨header, raw⟩ := same
  have size : a.size = b.size := by rw [CPubKey.size, CPubKey.size, header]
  rw [CPubKey.verify, CPubKey.verify, CPubKey.isValid, CPubKey.isValid, size, raw]

theorem stakeable_of_accepted {block : CBlock}
    (accepted : checkStake data node pindexPrev block = some hashProofOfStake) :
    StakeTime data node pindexPrev ∧
      Stakeable node pindexPrev block.stakePointer.hashBlock block.stakePointer.outpoint := by
  obtain ⟨⟨_, _, _, named, _⟩, ⟨_, pointer⟩, signed, pindexFrom, found, kernel⟩ :=
    checkStake_eq_some.mp accepted
  obtain ⟨pindexModifier, modifier, after, before, _, _⟩ :=
    checkStakePointerKernelHash_eq_some.mp kernel
  obtain ⟨⟨pindexFrom, blockFrom, tx, window, unused, read, named_, owns⟩, key, _⟩ :=
    checkBlockProofPointer_eq_some.mp pointer
  refine ⟨⟨by rw [modifier]; rfl, block.nTime, after, before⟩,
    ⟨by simpa [StakePointer.isNull] using named, unused, ?_⟩⟩
  unfold ownsPointerOutput at owns
  split at owns
  · contradiction
  · rename_i txout place
    simp only [Bool.and_eq_true, beq_iff_eq] at owns
    refine ⟨pindexFrom, blockFrom, tx, txout, window, read, named_, place,
      block.stakePointer.pubKeyCollateral, owns.1, owns.2, ?_⟩
    rcases key with same | signedOver
    · simp only [CBlock.checkBlockSignature, Bool.and_eq_true] at signed
      refine ⟨block.getHash, block.vchBlockSig, ?_⟩
      rw [← CPubKey.verify_of_same same]
      exact signed.2
    · exact ⟨_, _, signedOver⟩

/-- **When only masternode payments stake.** On top of a parent, every accepted block
names the masternode payment of the block its pointer lies in exactly when, at a time
that admits blocks, every output that can stake is such a payment. -/
theorem onlyRewardsStake_iff (signs : SignaturesExist) (data : LocalData) (node : Node)
    (pindexPrev : CBlockIndex) :
    (∀ block hashProofOfStake, checkStake data node pindexPrev block = some hashProofOfStake →
        node.paysMasternode block.stakePointer.hashBlock block.stakePointer.outpoint = true) ↔
      (StakeTime data node pindexPrev → ∀ hashBlock outpoint,
        Stakeable node pindexPrev hashBlock outpoint →
          node.paysMasternode hashBlock outpoint = true) := by
  constructor
  · intro only time hashBlock outpoint stakeable
    obtain ⟨block, hashProofOfStake, accepted, rfl, rfl⟩ := stakeable.accepted signs time
    exact only block hashProofOfStake accepted
  · intro only block hashProofOfStake accepted
    obtain ⟨time, stakeable⟩ := stakeable_of_accepted accepted
    exact only time _ _ stakeable

end

namespace StakedTip

/-- The first output of the coinbase of block 90, the share of its miner. -/
def minerOutput : COutPoint :=
  ⟨((powBlock 90).vtx.head?.map (@CTransaction.getHash crypto)).getD 0, 0⟩

/-- A block on top of the tip that names the miner's output. -/
def minerBlock : CBlock := stakingBlock tipHash 90 minerOutput minerKey 1400060700 [1]

end StakedTip

section

local instance StakedTip.stakeParams : ChainParams := regTestParams 0
local instance StakedTip.stakeCrypto : Crypto := crypto

/-- The owner of a coinbase output that is no masternode payment stakes with it. -/
theorem minerOutput_stakes :
    (checkStake data node tipIndex minerBlock).isSome =
        true ∧
      node.paysMasternode minerBlock.stakePointer.hashBlock
        minerBlock.stakePointer.outpoint = false := by
  constructor <;> decide +kernel

theorem onlyRewardsStake_iff_stakedTip :
    (∀ block hashProofOfStake,
        checkStake data node tipIndex block = some hashProofOfStake →
          node.paysMasternode block.stakePointer.hashBlock block.stakePointer.outpoint =
            true) ↔
      (StakeTime data node tipIndex → ∀ hashBlock outpoint,
        Stakeable node tipIndex hashBlock outpoint →
          node.paysMasternode hashBlock outpoint = true) :=
  onlyRewardsStake_iff (fun _ _ _ signed _ => ⟨[1], by decide, signed⟩) _ _ _

end

end Agouti
