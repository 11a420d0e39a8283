import Agouti.Consensus.LegacyKernel

/-! # Accepting blocks with the stake fields

`AcceptBlockHeader` and `AcceptBlock` of a node with the stake fields of its block index, in which
`CheckWork` applies the coin-age kernel to the blocks below the stake pointer fork. On the rest of
the node they are the functions of the other modules (`StakedNode.acceptBlock_node`).
-/

namespace Agouti

open Verdict Node Option

variable [ChainParams] [Crypto]

/-- The kernel hash that `CheckWork` computes for a proof-of-stake block. -/
def kernelHash [Legacy] (data : LocalData) (node : Node) (pindexPrev : CBlockIndex)
    (block : CBlock) : Option Uint256 :=
  if nStakePointerForkHeight ≤ pindexPrev.nHeight + 1 then checkStake data node pindexPrev block
  else Legacy.checkProofOfStake node block (pindexPrev.nHeight + 1)

theorem acceptWork_recorded [Legacy] {data : LocalData} {node worked : Node} {block : CBlock}
    {pindexPrev : Option CBlockIndex} (work : acceptWork data node block pindexPrev = some worked) :
    (worked = node ∧ ∀ prev, pindexPrev = some prev → block.isProofOfStake = true →
        (node.mapProofOfStake.lookup block.getHash).isSome = true) ∨
      ∃ prev kernel, pindexPrev = some prev ∧ block.isProofOfStake = true ∧
        kernelHash data node prev block = some kernel ∧
        worked = node.recordProofOfStake data.nRand block.getHash kernel := by
  cases pindexPrev with
  | none => exact .inl ⟨(some.inj work).symm, fun prev none => by contradiction⟩
  | some pindexPrev =>
    unfold kernelHash
    simp only [acceptWork, checkWork] at work
    split at work
    · rename_i early
      rw [Bool.and_eq_true, CBlock.isProofOfWork, Bool.not_eq_true'] at early
      split at work
      · refine .inl ⟨(some.inj work).symm, fun _ _ staked => ?_⟩
        rw [early.1] at staked
        contradiction
      · contradiction
    · split at work
      · contradiction
      · split at work
        · rename_i unstaked
          refine .inl ⟨(some.inj work).symm, fun _ _ staked => ?_⟩
          rw [staked] at unstaked
          contradiction
        · rename_i staked
          rw [Bool.not_eq_true', Bool.not_eq_false] at staked
          split at work
          · rename_i forked
            obtain ⟨kernel, computed, rfl⟩ := map_eq_some_iff.mp work
            exact .inr ⟨pindexPrev, kernel, rfl, staked, (if_pos forked).trans computed, rfl⟩
          · rename_i legacy
            split at work
            · rename_i recorded
              exact .inl ⟨(some.inj work).symm, fun _ _ _ => recorded⟩
            · obtain ⟨kernel, computed, rfl⟩ := map_eq_some_iff.mp work
              exact .inr ⟨pindexPrev, kernel, rfl, staked, (if_neg legacy).trans computed, rfl⟩

variable [StakeParams]

namespace StakedNode

/-- The rules of the blocks before the stake pointer fork, in a node with these stake fields and
this memory pool; `bitsWithinHalf` compares difficulties as floating point numbers. -/
@[reducible] def legacy (s : StakedNode) (bitsWithinHalf : Nat → Nat → Bool)
    (mempool : Uint256 → Option CTransaction) : Legacy where
  checkProofOfStake node block nHeight :=
    ({ s with node := node } : StakedNode).checkProofOfStake mempool block nHeight
  bitsWithinHalf := bitsWithinHalf

omit [StakeParams] in
def acceptBlockHeader (data : LocalData) (s : StakedNode) (block : CBlock) :
    StakedNode × Verdict CBlockIndex :=
  match s.node.mapBlockIndex block.getHash with
  | some pindex =>
    (s, if pindex.nStatus.failed then .error (invalid 0 "duplicate") else .ok pindex)
  | none =>
    match checkNewHeader data s.node block with
    | .error state => (s, .error state)
    | .ok () => (s.addToBlockIndex block, .ok (s.node.newIndex block))

/-- The part of `AcceptBlock` behind the header. -/
def acceptBody (data : LocalData) (s : StakedNode) (block : CBlock) (pindex : CBlockIndex)
    (written : Bool) : StakedNode × Verdict Unit :=
  if pindex.nStatus.haveData then (s, .ok ())
  else
    match checkBody data s.node block pindex with
    | .error state =>
      ({ s with node :=
          if state.isInvalid && !state.corruptionPossible then
            s.node.markFailed pindex.getBlockHash
          else s.node }, .error state)
    | .ok () =>
      if written then (s.storeBlock block pindex, .ok ())
      else (s, .error (failure.error "Failed to write block"))

def acceptBlock (bitsWithinHalf : Nat → Nat → Bool) (mempool : Uint256 → Option CTransaction)
    (data : LocalData) (s : StakedNode) (block : CBlock) (written : Bool) :
    StakedNode × Verdict Unit :=
  match checkParent s.node block with
  | .error state => (s, .error state)
  | .ok pindexPrev =>
    match @acceptWork _ _ (s.legacy bitsWithinHalf mempool) data s.node block pindexPrev with
    | none => (s, .error failure)
    | some worked =>
      match acceptBlockHeader data { s with node := worked } block with
      | (s, .error state) => (s, .error state)
      | (s, .ok pindex) => s.acceptBody data block pindex written

omit [StakeParams] in
theorem acceptBlockHeader_node (data : LocalData) (s : StakedNode) (block : CBlock) :
    ((s.acceptBlockHeader data block).1.node, (s.acceptBlockHeader data block).2) =
      Agouti.acceptBlockHeader data s.node block := by
  unfold acceptBlockHeader Agouti.acceptBlockHeader
  cases s.node.mapBlockIndex block.getHash with
  | some pindex => rfl
  | none =>
    simp only
    cases checkNewHeader data s.node block with
    | error state => rfl
    | ok _ => exact Prod.ext (addToBlockIndex_node s block) rfl

theorem acceptBody_node (data : LocalData) (s : StakedNode) (block : CBlock) (pindex : CBlockIndex)
    (written : Bool) :
    ((s.acceptBody data block pindex written).1.node, (s.acceptBody data block pindex written).2) =
      Agouti.acceptBody data s.node block pindex written := by
  unfold acceptBody Agouti.acceptBody
  cases pindex.nStatus.haveData with
  | true => rfl
  | false =>
    simp only [Bool.false_eq_true, if_false]
    cases checkBody data s.node block pindex with
    | error state => rfl
    | ok _ =>
      cases written with
      | true => exact Prod.ext (storeBlock_node s block pindex) rfl
      | false => rfl

theorem acceptBlock_node (bitsWithinHalf : Nat → Nat → Bool)
    (mempool : Uint256 → Option CTransaction) (data : LocalData) (s : StakedNode) (block : CBlock)
    (written : Bool) :
    ((s.acceptBlock bitsWithinHalf mempool data block written).1.node,
        (s.acceptBlock bitsWithinHalf mempool data block written).2) =
      @Agouti.acceptBlock _ _ (s.legacy bitsWithinHalf mempool) data s.node block written := by
  unfold acceptBlock Agouti.acceptBlock
  cases checkParent s.node block with
  | error state => rfl
  | ok pindexPrev =>
    simp only
    cases @acceptWork _ _ (s.legacy bitsWithinHalf mempool) data s.node block pindexPrev with
    | none => rfl
    | some worked =>
      have header := acceptBlockHeader_node data { s with node := worked } block
      simp only
      rw [← header]
      cases acceptBlockHeader data { s with node := worked } block with
      | mk after verdict =>
        cases verdict with
        | error state => rfl
        | ok pindex => exact acceptBody_node data after block pindex written

end StakedNode

end Agouti
