import Agouti.Consensus.ConnectFailures
import Agouti.Consensus.ReorgDepth

/-! # The dry run of a block

`TestBlockValidity` runs `ConnectBlock` with `fJustCheck` on a view of its own, for an
entry that is in no block index. What the dry run accepts is connected in earnest on the same
view and parent exactly when it also passes the two checks that `TestBlockValidity` makes only
when it is asked to, and when its stake pointer is not recorded, which the dry run does
not look at (`connectBlock_iff_of_testBlockValidity`).
-/

namespace Agouti

open Verdict Function Option

section

variable [ChainParams] [Crypto]

/-- The entry that `TestBlockValidity` hands to `ConnectBlock`. -/
def indexDummy (block : CBlock) (pindexPrev : CBlockIndex) : CBlockIndex :=
  { CBlockIndex.ofBlock block with
    pprev := pindexPrev.phashBlock, nHeight := pindexPrev.nHeight + 1 }

/-- The block is connected on `after` on the view and the parent of a dry run on `node`: the
chain, the coins and the used stake pointers are the same, and the block index has got the
entry of the block, on top of the tip. -/
structure SameParent (node after : Node) (pindexPrev : CBlockIndex) (block : CBlock)
    (pindex : CBlockIndex) : Prop where
  tip : node.tip = some pindexPrev
  named : node.vChain.getLast? = pindexPrev.phashBlock
  vChain : after.vChain = node.vChain
  parent : after.mapBlockIndex pindexPrev.getBlockHash = some pindexPrev
  coins : after.pcoinsTip = node.pcoinsTip
  used : after.mapUsedStakePointers = node.mapUsedStakePointers
  entry : after.mapBlockIndex block.getHash = some pindex
  place : pindex.SamePlace { indexDummy block pindexPrev with phashBlock := some block.getHash }
  hashPrevBlock : block.hashPrevBlock = pindexPrev.getBlockHash

namespace SameParent

variable {node after : Node} {pindexPrev pindex : CBlockIndex} {block : CBlock}

section

variable (same : SameParent node after pindexPrev block pindex)

include same

omit [ChainParams] in
theorem tipHash :
    node.vChain.getLast? = some pindexPrev.getBlockHash ∧
      pindexPrev.phashBlock = some pindexPrev.getBlockHash ∧
      node.mapBlockIndex pindexPrev.getBlockHash = some pindexPrev := by
  obtain ⟨hash, last, found⟩ := Node.tip_entry same.tip
  have named : pindexPrev.phashBlock = some hash := same.named.symm.trans last
  have here : pindexPrev.getBlockHash = hash := by rw [CBlockIndex.getBlockHash, named]; rfl
  rw [here]
  exact ⟨last, named, found⟩

omit [ChainParams] in
theorem apart :
    pindexPrev.getBlockHash ≠ block.getHash := by
  intro equal
  have parent := same.parent
  rw [equal, same.entry] at parent
  have height : pindex.nHeight = pindexPrev.nHeight + 1 := same.place.nHeight
  rw [some.inj parent] at height
  omega

omit [ChainParams] in
theorem holds : after.Holds pindex := by
  intro hash named
  obtain rfl := some.inj (named.symm.trans same.place.phashBlock)
  rw [same.entry]
  rfl

omit [ChainParams] in
theorem tip_store (changed : CBlockIndex)
    (named : changed.phashBlock = pindex.phashBlock) :
    (after.storeIndex changed).tip = some pindexPrev ∧
      (after.storeIndex changed).mapBlockIndex pindexPrev.getBlockHash = some pindexPrev := by
  obtain ⟨last, _, _⟩ := same.tipHash
  have found : (after.storeIndex changed).mapBlockIndex pindexPrev.getBlockHash =
      some pindexPrev := by
    unfold Node.storeIndex
    rw [named, same.place.phashBlock]
    simp only [Node.setIndex]
    rw [update_of_ne same.apart, same.parent]
  have chain : (after.storeIndex changed).vChain = node.vChain := by
    unfold Node.storeIndex
    split
    · exact same.vChain
    · exact same.vChain
  refine ⟨?_, found⟩
  rw [Node.tip, chain, last]
  exact found

omit [ChainParams] in
theorem tip_after :
    after.tip = some pindexPrev := by
  obtain ⟨last, _, _⟩ := same.tipHash
  rw [Node.tip, same.vChain, last]
  exact same.parent

theorem checkBlock_eq (data : LocalData)
    (fCheckPOW fCheckMerkleRoot : Bool) :
    checkBlock data after block fCheckPOW fCheckMerkleRoot =
      checkBlock data node block fCheckPOW fCheckMerkleRoot := by
  have payee : checkPayee data after block = checkPayee data node block := by
    unfold checkPayee Node.heightOnTopOf Node.tipMoneySupply
    rw [same.tip, same.tip_after]
    simp only [same.hashPrevBlock, ↓reduceIte]
  unfold checkBlock
  rw [payee]

omit [ChainParams] in
theorem prev_dummy :
    node.mapBlockIndex.prev (indexDummy block pindexPrev) = some pindexPrev := by
  obtain ⟨_, named, found⟩ := same.tipHash
  rw [BlockMap.prev, indexDummy, named]
  exact found

omit [ChainParams] in
theorem prev_after :
    after.mapBlockIndex.prev pindex = some pindexPrev := by
  obtain ⟨_, named, _⟩ := same.tipHash
  have pprev : pindex.pprev = some pindexPrev.getBlockHash := same.place.pprev.trans named
  rw [BlockMap.prev, pprev]
  exact same.parent

theorem valueValid_eq (data : LocalData)
    {other : Node} (tip : other.tip = some pindexPrev) {totals totalsOther : ConnectTotals}
    (fees : totals.nFees = totalsOther.nFees) (nMint : CAmount) :
    data.isBlockValueValid other block (nExpectedMint other block pindex pindexPrev totalsOther)
        nMint =
      data.isBlockValueValid node block
        (nExpectedMint node block (indexDummy block pindexPrev) pindexPrev totals) nMint := by
  have height : pindex.nHeight = (indexDummy block pindexPrev).nHeight := same.place.nHeight
  unfold LocalData.isBlockValueValid nExpectedMint Node.heightOnTopOf Node.tipMoneySupply
  rw [same.tip, tip, height, fees]
  simp only [same.hashPrevBlock, ↓reduceIte]

theorem rewardValid_eq (data : LocalData)
    {totals other : ConnectTotals} {fScriptChecks : Bool}
    (agrees : totals.Agrees fScriptChecks other) :
    rewardValid data after block pindex other =
      rewardValid data node block (indexDummy block pindexPrev) totals := by
  obtain ⟨tip, parent⟩ := same.tip_store (after.withSupply pindex other) rfl
  have prev : (after.storeIndex (after.withSupply pindex other)).mapBlockIndex.prev
      (after.withSupply pindex other) = some pindexPrev := by
    obtain ⟨_, named, _⟩ := same.tipHash
    have pprev : pindex.pprev = some pindexPrev.getBlockHash := same.place.pprev.trans named
    rw [BlockMap.prev, Node.withSupply_pprev, pprev]
    exact parent
  have stored : node.storeIndex (node.withSupply (indexDummy block pindexPrev) totals) = node := rfl
  have mint : (after.withSupply pindex other).nMint =
      (node.withSupply (indexDummy block pindexPrev) totals).nMint := by
    simp only [Node.withSupply, same.prev_after, same.prev_dummy, agrees.nFees, agrees.nValueIn,
      agrees.nValueOut]
  have prevDummy : node.mapBlockIndex.prev (node.withSupply (indexDummy block pindexPrev) totals) =
      some pindexPrev := same.prev_dummy
  unfold rewardValid
  simp only [stored, prev, prevDummy, map_some, getD_some, mint]
  exact same.valueValid_eq data tip agrees.nFees _

end

end SameParent

theorem testBlockValidity_ok {data : LocalData} {node : Node} {fScriptChecks : Bool}
    {block : CBlock} {pindexPrev : CBlockIndex} {fCheckPOW fCheckMerkleRoot : Bool}
    (accepted : (testBlockValidity data node fScriptChecks block pindexPrev fCheckPOW
      fCheckMerkleRoot).2 = .ok ()) :
    Checked data node block fCheckPOW fCheckMerkleRoot ∧ ∃ value,
      (connectBlock data node fScriptChecks block (indexDummy block pindexPrev) node.pcoinsTip
        true).verdict = .ok value := by
  unfold testBlockValidity at accepted
  simp only at accepted
  split at accepted
  · contradiction
  · rename_i checks
    simp only [bind_eq_ok] at checks
    obtain ⟨_, _, _, checked, _⟩ := checks
    refine ⟨checkBlock_ok.mp checked, ?_⟩
    change (connectBlock data node fScriptChecks block (indexDummy block pindexPrev) node.pcoinsTip
      true).verdict.map _ = _ at accepted
    cases verdict : (connectBlock data node fScriptChecks block (indexDummy block pindexPrev)
        node.pcoinsTip true).verdict with
    | error state =>
      rw [verdict] at accepted
      contradiction
    | ok value => exact ⟨value, rfl⟩

theorem applyTransactions_named {node : Node} {fScriptChecks : Bool} {block : CBlock}
    {pindex : CBlockIndex} {view : CCoinsViewCache}
    {value : CCoinsViewCache × List (List CTxInUndo) × ConnectTotals}
    (unnamed : pindex.phashBlock = none)
    (applied : applyTransactions node fScriptChecks block pindex view = .ok value)
    (hash : Uint256) :
    applyTransactions node fScriptChecks block { pindex with phashBlock := some hash } view =
      .ok value := by
  simp only [applyTransactions, bind_eq_ok, reject_eq_ok] at applied ⊢
  obtain ⟨_, parent, _, early, _, ended, _, unique, connected⟩ := applied
  refine ⟨(), parent, (), early, (), ended, (), ?_, connected⟩
  have enforced : enforceBIP30 pindex = true := by
    rw [enforceBIP30, unnamed]
    rfl
  rw [enforced, Bool.true_and] at unique
  rw [unique, Bool.and_false]

theorem connectReward_of_dryRun {data : LocalData} {node : Node} {block : CBlock}
    {pindex : CBlockIndex} {view : CCoinsViewCache} {vtxundo : List (List CTxInUndo)}
    {totals : ConnectTotals} {value : CCoinsViewCache × Option (List (List CTxInUndo))}
    (dry : (connectFinish data node block pindex true view vtxundo totals).verdict = .ok value) :
    rewardValid data node block pindex totals = true ∧ totals.fScripts = true := by
  rw [← connectReward_ok]
  unfold connectFinish at dry
  simp only at dry
  split at dry
  · contradiction
  · assumption

/-- **What the dry run promises.** A block that `TestBlockValidity` accepts on the tip, and
whose stake pointer is not recorded as used, is accepted by `ConnectBlock` on the same view
and parent exactly when it has the proof of work and the merkle root that `TestBlockValidity`
checks only when it is asked to. -/
theorem connectBlock_iff_of_testBlockValidity {data : LocalData} {node after : Node}
    {fScriptChecks fCheckPOW fCheckMerkleRoot : Bool} {block : CBlock}
    {pindexPrev pindex : CBlockIndex} (same : SameParent node after pindexPrev block pindex)
    (accepted : (testBlockValidity data node true block pindexPrev fCheckPOW
      fCheckMerkleRoot).2 = .ok ())
    (unused : isV5Stake block pindex = true →
      node.mapUsedStakePointers (stakePointerHash block.stakePointer.outpoint) = none) :
    (∃ value, (connectBlock data after fScriptChecks block pindex after.pcoinsTip false).verdict =
        .ok value) ↔
      (fCheckPOW = false → checkBlockHeader block.nBits true = .ok ()) ∧
        (fCheckMerkleRoot = false → checkMerkleRoot block = .ok ()) := by
  obtain ⟨checked, value, dry⟩ := testBlockValidity_ok accepted
  have full : checkBlock data after block true true = .ok () ↔
      (fCheckPOW = false → checkBlockHeader block.nBits true = .ok ()) ∧
        (fCheckMerkleRoot = false → checkMerkleRoot block = .ok ()) := by
    rw [same.checkBlock_eq, checkBlock_ok]
    constructor
    · intro all
      exact ⟨fun _ => all.header, fun _ => all.merkleRoot rfl⟩
    · rintro ⟨header, root⟩
      refine { checked with header := ?_, merkleRoot := fun _ => ?_ }
      · cases fCheckPOW with
        | false => exact header rfl
        | true => exact checked.header
      · cases fCheckMerkleRoot with
        | false => exact root rfl
        | true => exact checked.merkleRoot rfl
  rw [← full]
  by_cases genesis : block.getHash = ChainParams.hashGenesisBlock
  · rw [connectBlock, if_pos genesis] at dry ⊢
    simp only [bind_eq_ok, reject_eq_ok] at dry ⊢
    obtain ⟨_, _, _, parent, _⟩ := dry
    have pprev : pindex.pprev = (indexDummy block pindexPrev).pprev := same.place.pprev
    constructor
    · rintro ⟨_, _, passed, _⟩
      exact passed
    · intro passed
      refine ⟨_, (), passed, (), ?_, rfl⟩
      rw [pprev, same.coins]
      exact parent
  · rw [connectBlock, if_neg genesis] at dry ⊢
    split at dry
    · contradiction
    · rename_i coins vtxundo totals connected
      simp only [connectCoins, bind_eq_ok] at connected
      obtain ⟨_, _, applied⟩ := connected
      have topHash : node.pcoinsTip.hashBlock = pindexPrev.getBlockHash := by
        have passed := applied
        simp only [applyTransactions, bind_eq_ok, reject_eq_ok, bne_eq_false_iff_eq] at passed
        obtain ⟨_, parent, _⟩ := passed
        rw [← parent]
        change (pindexPrev.phashBlock).getD 0 = _
        rfl
      have top : SameTop node.mapBlockIndex node.pcoinsTip after.mapBlockIndex after.pcoinsTip := by
        rw [SameTop, same.coins, topHash, same.tipHash.2.2, same.parent]
      have named := applyTransactions_named rfl applied block.getHash
      obtain ⟨final, records, other, appliedAfter, _, agrees⟩ :=
        applyTransactions_same (same.coins ▸ .refl _) top
          ⟨same.place.phashBlock.symm, same.place.pprev.symm, same.place.nHeight.symm,
            same.place.nTime.symm⟩ true fScriptChecks named
      obtain ⟨reward, scripts⟩ := connectReward_of_dryRun dry
      constructor
      · rintro ⟨_, passed⟩
        split at passed
        · contradiction
        · rename_i connected
          simp only [connectCoins, bind_eq_ok] at connected
          obtain ⟨_, checked, _⟩ := connected
          exact checked
      · intro passed
        have connected : connectCoins data after fScriptChecks block pindex after.pcoinsTip false =
            .ok (final, records, other) := by
          rw [connectCoins, Bool.not_false, passed]
          exact appliedAfter
        rw [connected]
        refine (connectFinish_isOk same.holds).mpr ⟨⟨?_, agrees.scripts rfl scripts⟩, fun v5 => ?_⟩
        · rw [same.rewardValid_eq data agrees]
          exact reward
        · rw [same.used, unused v5]
          rfl

end

namespace DryBlock

/-! The first block of `LateBranch`, and the same with a merkle root that is not its own. -/

open LateBranch

def genesis : CBlockIndex := { StakedTip.powIndex 0 with nChainTx := 1, nChainWork := 2 }

def block : CBlock := StakedTip.powBlock 1

def unrooted : CBlock := { block with hashMerkleRoot := 5 }

def entry [Crypto] (block : CBlock) : CBlockIndex :=
  { indexDummy block genesis with phashBlock := some block.getHash }

def node [Crypto] (block : CBlock) : Node := start.setIndex block.getHash (entry block)

/-- The node of `SecondUse` with the coins of its call. -/
def usedNode : Node := { SecondUse.node with pcoinsTip := SecondUse.call.view }

end DryBlock

section

local instance DryBlock.params : ChainParams := regTestParams 0
local instance DryBlock.crypto : Crypto := StakedTip.crypto

theorem DryBlock.sameParent (block : CBlock) (apart : block.getHash ≠ 0)
    (parent : block.hashPrevBlock = 0) :
    SameParent LateBranch.start (DryBlock.node block) DryBlock.genesis block
      (DryBlock.entry block) where
  tip := rfl
  named := rfl
  vChain := rfl
  parent := update_of_ne (Ne.symm apart) _ _
  coins := rfl
  used := rfl
  entry := update_self ..
  place := ⟨rfl, rfl, rfl, rfl⟩
  hashPrevBlock := parent

theorem DryBlock.unrooted_refused :
    SameParent LateBranch.start (DryBlock.node DryBlock.unrooted) DryBlock.genesis
        DryBlock.unrooted (DryBlock.entry DryBlock.unrooted) ∧
      (testBlockValidity LateBranch.data LateBranch.start true DryBlock.unrooted DryBlock.genesis
        false false).2 = .ok () ∧
      (connectBlock LateBranch.data (DryBlock.node DryBlock.unrooted) true DryBlock.unrooted
        (DryBlock.entry DryBlock.unrooted) (DryBlock.node DryBlock.unrooted).pcoinsTip
        false).verdict.isOk = false :=
  ⟨DryBlock.sameParent DryBlock.unrooted (by decide +kernel) rfl, by decide +kernel,
    by decide +kernel⟩

/-- With every check of `TestBlockValidity` a block passes the dry run and is connected. -/
theorem connectBlock_iff_of_testBlockValidity_first : ∃ value,
    (connectBlock LateBranch.data (DryBlock.node DryBlock.block) true DryBlock.block
      (DryBlock.entry DryBlock.block) (DryBlock.node DryBlock.block).pcoinsTip false).verdict =
        .ok value := by
  have accepted : (testBlockValidity LateBranch.data LateBranch.start true DryBlock.block
      DryBlock.genesis true true).2 = .ok () := by
    decide +kernel
  have same := DryBlock.sameParent DryBlock.block (by decide +kernel) rfl
  have plain : isV5Stake DryBlock.block (DryBlock.entry DryBlock.block) = false := rfl
  exact (connectBlock_iff_of_testBlockValidity same accepted fun v5 =>
    absurd (plain.symm.trans v5) Bool.false_ne_true).mpr ⟨nofun, nofun⟩

end

section

attribute [local instance] LongBranch.params LongBranch.instCrypto

theorem DryBlock.used_refused :
    SameParent DryBlock.usedNode DryBlock.usedNode (LongBranch.index 161) SecondUse.call.block
        SecondUse.entry ∧
      (testBlockValidity SecondUse.call.data DryBlock.usedNode true SecondUse.call.block
        (LongBranch.index 161) true true).2 = .ok () ∧
      (connectBlock SecondUse.call.data DryBlock.usedNode true SecondUse.call.block
        SecondUse.entry DryBlock.usedNode.pcoinsTip false).verdict.isOk = false := by
  refine ⟨⟨by decide +kernel, by decide +kernel, rfl, by decide +kernel, rfl, rfl,
    by decide +kernel, ⟨by decide +kernel, by decide +kernel, by decide +kernel,
    by decide +kernel⟩, by decide +kernel⟩, by decide +kernel, by decide +kernel⟩

end

/-- Neither without the two checks nor with them does the dry run promise that the block is
connected. -/
theorem testBlockValidity_promises_less :
    (¬ ∀ [ChainParams] [Crypto] (data : LocalData) (node after : Node) (block : CBlock)
        (pindexPrev pindex : CBlockIndex), SameParent node after pindexPrev block pindex →
      (testBlockValidity data node true block pindexPrev false false).2 = .ok () →
      (connectBlock data after true block pindex after.pcoinsTip false).verdict.isOk = true) ∧
    ¬ ∀ [ChainParams] [Crypto] (data : LocalData) (node after : Node) (block : CBlock)
        (pindexPrev pindex : CBlockIndex), SameParent node after pindexPrev block pindex →
      (testBlockValidity data node true block pindexPrev true true).2 = .ok () →
      (connectBlock data after true block pindex after.pcoinsTip false).verdict.isOk = true := by
  constructor
  · intro promise
    obtain ⟨same, accepted, refused⟩ := DryBlock.unrooted_refused
    have connected := @promise DryBlock.params DryBlock.crypto _ _ _ _ _ _ same accepted
    exact absurd (refused.symm.trans connected) Bool.false_ne_true
  · intro promise
    obtain ⟨same, accepted, refused⟩ := DryBlock.used_refused
    have connected := @promise LongBranch.params LongBranch.instCrypto _ _ _ _ _ _ same accepted
    exact absurd (refused.symm.trans connected) Bool.false_ne_true

end Agouti
