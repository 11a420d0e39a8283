import Agouti.Validation.Candidates

/-! # Activating the best chain keeps the block index

`FindMostWorkChain` drops the blocks of an unusable branch; every one of them is failed then, since
a candidate and its ancestors have their transactions. `ActivateBestChainStep` moves the tip down
to the fork and up its branch, and afterwards the candidates are complete from the best tip on.
-/

namespace Agouti

open List Option

namespace Node

variable {node after middle : Node} {best : WithBot Rank} [Crypto]

theorem LinksHeld.branch (kept : node.LinksHeld []) {fuel : Nat} {entry : Option CBlockIndex}
    (start : ∀ pindex, entry = some pindex → ∃ hash, node.mapBlockIndex hash = some pindex ∧
      pindex.nChainTx ≠ 0) :
    ∀ pindex ∈ node.branch fuel entry, pindex.nChainTx ≠ 0 ∧ pindex.nStatus.haveData = true := by
  induction fuel generalizing entry with
  | zero => exact fun pindex member => absurd member not_mem_nil
  | succ fuel ih =>
    cases entry with
    | none => exact fun pindex member => absurd member not_mem_nil
    | some first =>
      intro pindex member
      obtain ⟨hash, found, linked⟩ := start first rfl
      obtain ⟨stored, parent⟩ := kept.stored hash first found linked
      unfold Node.branch at member
      split at member
      · exact absurd member not_mem_nil
      · rcases mem_cons.mp member with rfl | member
        · exact ⟨linked, stored⟩
        · apply ih _ pindex member
          intro prev below
          obtain ⟨hashPrev, pprev, present⟩ := bind_eq_some_iff.mp below
          obtain ⟨other, there, linkedPrev⟩ := parent hashPrev pprev
          rw [present] at there
          obtain rfl := some.inj there
          exact ⟨hashPrev, present, linkedPrev⟩

omit [Crypto] in
theorem dropDescendants_drops {above : List CBlockIndex}
    (found : ∀ pindex ∈ above, (node.mapBlockIndex pindex.getBlockHash).map CBlockIndex.unspoiled =
      some pindex.unspoiled) : Drops node (above.foldl (dropDescendant true) node) := by
  induction above generalizing node with
  | nil => exact .refl node
  | cons pindex rest ih =>
    have here := found pindex mem_cons_self
    obtain ⟨entry, present, same⟩ := map_eq_some_iff.mp here
    have link : entry.SameLink
        { pindex with nStatus := { pindex.nStatus with failedChild := true } } := by
      have linkage : entry.unspoiled.linkage = pindex.unspoiled.linkage := by rw [same]
      have valid : entry.unspoiled.nStatus.valid = pindex.unspoiled.nStatus.valid := by rw [same]
      exact ⟨linkage.symm, valid.le⟩
    have mark : entry.nStatus.failedValid = pindex.nStatus.failedValid :=
      congrArg (fun pindex => pindex.nStatus.failedValid) same
    have drops := setIndex_drops present link mark.le fun _ => rfl
    have dropped : Drops node (dropDescendant true node pindex) :=
      drops.erase (by rw [setIndex_spoiled, if_pos rfl, Bool.or_true])
    have others := (dropDescendant_same true here).1
    refine dropped.trans (ih fun other member => ?_)
    rw [others.entries]
    exact found other (mem_cons_of_mem _ member)

theorem LinksHeld.dropBranch_drops (links : node.LinksHeld [])
    (candidates : ∀ hash ∈ node.setBlockIndexCandidates, node.linked hash)
    {pindexNew pindexTest : CBlockIndex} {rest : List CBlockIndex}
    (chosen : node.bestCandidate = some pindexNew)
    (unusable : (node.branchOf pindexNew).dropWhile (fun pindex => !pindex.unusable) =
      pindexTest :: rest) : Drops node (node.dropBranch pindexNew pindexTest) := by
  obtain ⟨whole, known⟩ := dropBranch_parts links.sound chosen unusable
  have inside : pindexTest ∈ node.branchOf pindexNew := by
    rw [whole]
    exact mem_append_right _ mem_cons_self
  -- the branch of a candidate is linked, so its unusable block is a failed one
  have linked : ∀ pindex ∈ node.branchOf pindexNew,
      pindex.nChainTx ≠ 0 ∧ pindex.nStatus.haveData = true := by
    apply links.branch
    intro pindex same
    obtain rfl := some.inj same
    obtain ⟨hash, member, found⟩ := mem_filterMap.mp (bestCandidate_mem chosen)
    obtain ⟨entry, present, linked⟩ := candidates hash member
    rw [found] at present
    exact ⟨hash, found, some.inj present ▸ linked⟩
  have failed : pindexTest.nStatus.failed = true := by
    have first : pindexTest.unusable = true := by
      have head := List.head?_dropWhile_not (fun pindex : CBlockIndex => !pindex.unusable)
        (node.branchOf pindexNew)
      rw [unusable] at head
      simpa using head
    simpa [CBlockIndex.unusable, (linked pindexTest inside).2] using first
  have unspoiled : ∀ pindex ∈
      (node.branchOf pindexNew).takeWhile (fun pindex => !pindex.unusable),
      (node.mapBlockIndex pindex.getBlockHash).map CBlockIndex.unspoiled =
        some pindex.unspoiled := by
    intro pindex member
    rw [known pindex (takeWhile_subset _ member), map_some]
  have drops := dropDescendants_drops unspoiled
  have test := known pindexTest inside
  unfold dropBranch
  simp only [failed]
  apply drops.erase
  rw [failed_of_entry test, Bool.or_eq_true] at failed
  rw [Bool.or_eq_true]
  exact failed.imp (drops.marked _) (drops.spoiled _)

theorem LinksHeld.findMostWork_drops (links : node.LinksHeld [])
    (candidates : ∀ hash ∈ node.setBlockIndexCandidates, node.linked hash) (fuel : Nat) :
    Drops node (Node.findMostWork fuel node).1 := by
  induction fuel generalizing node with
  | zero => exact .refl node
  | succ fuel ih =>
    unfold Node.findMostWork
    split
    · exact .refl node
    · rename_i pindexNew chosen
      split
      · exact .refl node
      · rename_i pindexTest rest unusable
        have drops := links.dropBranch_drops candidates chosen unusable
        apply drops.trans
        apply ih (drops.toSameLinks.held links)
        intro hash member
        exact (drops.linked_iff hash).mpr (candidates hash (drops.fewer hash member))

/-- The loop that drops unusable candidates. -/
theorem IndexKept.findMostWork (kept : node.IndexKept best) (fuel : Nat) :
    (Node.findMostWork fuel node).1.IndexKept best := by
  obtain ⟨same, below⟩ := findMostWork_same kept.links.sound kept.spoiled fuel
  exact kept.drops (kept.links.findMostWork_drops kept.candidates.linked fuel) same.vChain below

end Node

open Node

variable [ChainParams] [Crypto] {node after : Node} {best : WithBot Rank} {env : ActivateEnv}
  {done : Bool}

theorem disconnectToFork_kept (kept : node.IndexKept best) {fork : Option Uint256} {fuel : Nat}
    (dropped : disconnectToFork env fork fuel node = (after, done)) : after.IndexKept best := by
  induction fuel generalizing node with
  | zero => exact (Prod.mk.inj dropped).1 ▸ kept
  | succ fuel ih =>
    unfold disconnectToFork at dropped
    split at dropped
    · exact (Prod.mk.inj dropped).1 ▸ kept
    · split at dropped
      · exact (Prod.mk.inj dropped).1 ▸ kept
      · split at dropped
        · rename_i stopped
          exact (Prod.mk.inj dropped).1 ▸ disconnectTip_indexKept kept stopped
        · rename_i next continued
          exact ih (disconnectTip_indexKept kept continued) dropped

theorem connectBranch_kept {pindexMostWork : CBlockIndex} {pblock : Option CBlock}
    {pindexOldTip : Option CBlockIndex} {rest : List CBlockIndex} (kept : node.IndexKept best)
    (chain : node.store.Path (node.vChain ++ rest.map CBlockIndex.getBlockHash))
    (connected : connectBranch env pindexMostWork pblock pindexOldTip rest node = (after, done)) :
    node.tipRank ≤ after.tipRank ∧ after.IndexKept (best ⊔ after.tipRank) := by
  induction rest generalizing node best with
  | nil =>
    obtain ⟨rfl, rfl⟩ := Prod.mk.inj connected
    exact ⟨le_rfl, kept.raise le_sup_left⟩
  | cons pindexConnect rest ih =>
    have here : (node.vChain ++ (pindexConnect :: rest).map CBlockIndex.getBlockHash)[
        node.vChain.length]? = some pindexConnect.getBlockHash := by
      rw [List.getElem?_append_right le_rfl, Nat.sub_self]
      rfl
    obtain ⟨core, found, _, data, next⟩ := chain.entry _ _ here
    rw [take_left] at next
    obtain ⟨pindex, entry, rfl⟩ := entry_of_core found
    unfold connectBranch at connected
    simp only [entry, getD_some] at connected
    split at connected
    · rename_i middle state refused
      obtain ⟨rfl, rfl⟩ := Prod.mk.inj connected
      obtain ⟨keptMiddle, rank⟩ := connectTip_indexKept kept entry _ _ _ _ refused
      exact ⟨rank.ge, keptMiddle.raise le_sup_left⟩
    · rename_i middle appended
      have same : SameIndex node middle := connectTip_indexKept kept entry _ _ _ _ appended
      obtain ⟨store, path, vChain⟩ :=
        connectTip_blocks kept.links.sound kept.path entry data next _ _ _ appended
      have chainMiddle : middle.vChain = node.vChain ++ [pindexConnect.getBlockHash] := vChain
      obtain ⟨rises, keptPruned⟩ := kept.pushTip same path (by
        rw [chainMiddle, dropLast_concat])
      split at connected
      · obtain ⟨rfl, rfl⟩ := Prod.mk.inj connected
        exact ⟨rises, keptPruned⟩
      · obtain ⟨_, pruned, chainPruned, _⟩ := prune_same middle
        have chainRest : middle.pruneBlockIndexCandidates.store.Path
            (middle.pruneBlockIndexCandidates.vChain ++
              rest.map CBlockIndex.getBlockHash) := by
          rw [pruned.store, store, chainPruned, chainMiddle, append_assoc]
          exact chain
        obtain ⟨further, keptAfter⟩ := ih keptPruned chainRest connected
        refine ⟨rises.trans further, ?_⟩
        rw [sup_assoc, sup_eq_right.mpr further] at keptAfter
        exact keptAfter

theorem activateBestChainStep_kept (kept : node.IndexKept best) {pindexMostWork : CBlockIndex}
    (found : node.mapBlockIndex pindexMostWork.getBlockHash = some pindexMostWork)
    (linked : pindexMostWork.nChainTx ≠ 0) (env : ActivateEnv) (pblock : Option CBlock) :
    (activateBestChainStep env node pindexMostWork pblock).1.IndexKept
      (best ⊔ (activateBestChainStep env node pindexMostWork pblock).1.tipRank) := by
  have stored : ∀ entry ∈ node.branchOf pindexMostWork, entry.nStatus.haveData = true := by
    intro entry member
    refine (kept.links.branch ?_ entry member).2
    intro pindex same
    obtain rfl := some.inj same
    exact ⟨_, found, linked⟩
  obtain ⟨left, forks, fork⟩ := branch_forks kept.links.sound kept.links.grounded kept.path found
    (Nat.lt_succ_self pindexMostWork.nHeight.toNat) stored
  unfold activateBestChainStep
  simp only
  split
  · rename_i middle stopped
    exact (disconnectToFork_kept kept stopped).raise le_sup_left
  · rename_i middle arrived
    have keptMiddle := disconnectToFork_kept kept arrived
    obtain ⟨store, reached, _, _, chain, exact_⟩ :=
      disconnectToFork_drops kept.path forks.bound fork le_rfl arrived
    have whole : middle.store.Path (middle.vChain ++
        (node.branchOf pindexMostWork).reverse.map CBlockIndex.getBlockHash) := by
      rw [store, chain, exact_ rfl]
      exact forks.chain
    have connected : connectBranch env pindexMostWork pblock node.tip
        (node.branchOf pindexMostWork).reverse middle =
          ((connectBranch env pindexMostWork pblock node.tip
              (node.branchOf pindexMostWork).reverse middle).1,
            (connectBranch env pindexMostWork pblock node.tip
              (node.branchOf pindexMostWork).reverse middle).2) := rfl
    exact (connectBranch_kept keptMiddle whole connected).2

end Agouti
