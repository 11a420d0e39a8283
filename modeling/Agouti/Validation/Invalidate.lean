import Agouti.Validation.Linking

/-! # Invalidating and reconsidering blocks

`InvalidateBlock` and `ReconsiderBlock` of `main.cpp`. The keys of `mapBlockIndex` in the order of
the map are an argument of the loops over all entries, as are the outcomes of the flushes; the
pointer `pindexBestInvalid` is read by warnings only and left out.
-/

namespace Agouti

open List

namespace Node

/-- Set `BLOCK_FAILED_CHILD` and take the block out of the candidates. -/
def markChild (node : Node) (hash : Uint256) : Node :=
  match node.mapBlockIndex hash with
  | none => node
  | some pindex =>
    { node.setIndex hash
        { pindex with nStatus := { pindex.nStatus with failedChild := true } } with
      setBlockIndexCandidates := node.setBlockIndexCandidates.erase hash }

/-- An entry is offered to the candidates again. -/
def offerCandidate (node : Node) (hash : Uint256) : Node :=
  match node.mapBlockIndex hash with
  | none => node
  | some pindex =>
    if pindex.isValid BLOCK_VALID_TRANSACTIONS && pindex.nChainTx != 0 then
      node.insertCandidate pindex
    else node

/-- `nStatus &= ~BLOCK_FAILED_MASK`. -/
def clearFailed (node : Node) (hash : Uint256) (pindex : CBlockIndex) : Node :=
  node.setIndex hash
    { pindex with nStatus := { pindex.nStatus with failedValid := false, failedChild := false } }

/-- Insert an entry into `setBlockIndexCandidates` if it is better than the tip. -/
def insertBetter (node : Node) (pindex : CBlockIndex) : Node :=
  if (node.tip.map fun tip => tip.worse pindex).getD true then
    { node with
      setBlockIndexCandidates := node.setBlockIndexCandidates.insert pindex.getBlockHash }
  else node

/-- The body of the first loop of `ReconsiderBlock`. -/
def reconsiderEntry (pindex : CBlockIndex) (node : Node) (hash : Uint256) : Node :=
  match node.mapBlockIndex hash with
  | none => node
  | some entry =>
    if !entry.isValid BLOCK_VALID_TRANSACTIONS &&
        (node.mapBlockIndex.getAncestor entry pindex.nHeight).map CBlockIndex.getBlockHash ==
          some pindex.getBlockHash then
      let node := node.clearFailed hash entry
      let cleared := { entry with
        nStatus := { entry.nStatus with failedValid := false, failedChild := false } }
      if cleared.isValid BLOCK_VALID_TRANSACTIONS && cleared.nChainTx != 0 then
        node.insertBetter cleared
      else node
    else node

/-- The second loop of `ReconsiderBlock`, from an entry down. -/
def reconsiderAncestors : Nat → Option Uint256 → Node → Node
  | 0, _, node => node
  | _, none, node => node
  | fuel + 1, some hash, node =>
    match node.mapBlockIndex hash with
    | none => node
    | some pindex =>
      reconsiderAncestors fuel pindex.pprev
        (if pindex.nStatus.failed then node.clearFailed hash pindex else node)

def reconsiderBlock (known : List Uint256) (node : Node) (hash : Uint256) : Node :=
  match node.mapBlockIndex hash with
  | none => node
  | some pindex =>
    reconsiderAncestors (pindex.nHeight.toNat + 1) (some hash)
      (known.foldl (reconsiderEntry pindex) node)

variable [ChainParams] [Crypto]

/-- The loop of `InvalidateBlock`: disconnect blocks while the block is on the active chain. The
chain gets shorter in every round. -/
def invalidateTips (flushed : Uint256 → Bool) (pindex : CBlockIndex) : Nat → Node → Node × Bool
  | 0, node => (node, true)
  | fuel + 1, node =>
    if node.contains pindex then
      match node.vChain.getLast? with
      | none => (node, true)
      | some hash =>
        match disconnectTip (node.markChild hash) (flushed hash) with
        | (node, false) => (node, false)
        | (node, true) => invalidateTips flushed pindex fuel node
    else (node, true)

def invalidateBlock (flushed : Uint256 → Bool) (known : List Uint256) (node : Node)
    (hash : Uint256) : Node × Bool :=
  match node.mapBlockIndex hash with
  | none => (node, false)
  | some pindex =>
    let marked := { node.markFailed hash with
      setBlockIndexCandidates := node.setBlockIndexCandidates.erase hash }
    match invalidateTips flushed pindex node.vChain.length marked with
    | (node, false) => (node, false)
    | (node, true) => (known.foldl offerCandidate node, true)

end Node

/-! ### Invalidating -/

namespace Node

variable {node after : Node} {best : WithBot Rank} {hash : Uint256}

theorem markChild_drops (node : Node) (hash : Uint256) : Drops node (node.markChild hash) := by
  unfold markChild
  cases found : node.mapBlockIndex hash with
  | none => exact .refl node
  | some pindex =>
    have drops := setIndex_drops found (.of_flags pindex pindex.nStatus.failedValid true) id
      fun _ => rfl
    exact drops.erase (by rw [setIndex_spoiled, if_pos rfl, Bool.or_true])

theorem markChild_spoiled (node : Node) (hash : Uint256) :
    (node.markChild hash).vChain = node.vChain ∧
      ∀ other, (node.markChild hash).spoiled other = true →
        node.spoiled other = true ∨ other = hash := by
  unfold markChild
  split
  · exact ⟨rfl, fun _ => .inl⟩
  · refine ⟨rfl, fun other spoiled => ?_⟩
    have changed : (node.setIndex hash _).spoiled other = true := spoiled
    rw [setIndex_spoiled] at changed
    split at changed
    · rename_i here
      exact .inr here
    · exact .inl changed

theorem offerCandidate_spec (node : Node) (hash : Uint256) :
    (node.offerCandidate hash).mapBlockIndex = node.mapBlockIndex ∧
      SameLinks node (node.offerCandidate hash) ∧
      (node.offerCandidate hash).vChain = node.vChain ∧
      ∀ other, other ∈ (node.offerCandidate hash).setBlockIndexCandidates ↔
        other ∈ node.setBlockIndexCandidates ∨ ∃ pindex, node.mapBlockIndex hash = some pindex ∧
          pindex.isValid BLOCK_VALID_TRANSACTIONS = true ∧ pindex.nChainTx ≠ 0 ∧
          other = pindex.getBlockHash ∧ node.tipRank ≤ (pindex.rank : WithBot Rank) := by
  have inserted : ∀ pindex : CBlockIndex,
      (node.insertCandidate pindex).mapBlockIndex = node.mapBlockIndex ∧
        SameLinks node (node.insertCandidate pindex) ∧
        (node.insertCandidate pindex).vChain = node.vChain := by
    intro pindex
    have same := insertCandidate_same node pindex
    obtain ⟨index, unlinked⟩ := insertCandidate_index node pindex
    exact ⟨index, .of_index index same.diskBlocks unlinked, same.vChain⟩
  unfold offerCandidate
  cases found : node.mapBlockIndex hash with
  | none => exact ⟨rfl, .refl node, rfl, by simp⟩
  | some pindex =>
    simp only
    split
    · rename_i fits
      rw [Bool.and_eq_true, bne_iff_ne] at fits
      obtain ⟨index, links, vChain⟩ := inserted pindex
      refine ⟨index, links, vChain, fun other => ?_⟩
      rw [mem_insertCandidate]
      simp [fits.1, fits.2]
    · rename_i unfit
      refine ⟨rfl, .refl node, rfl, fun other => (or_iff_left ?_).symm⟩
      intro ⟨entry, same, valid, linked, _⟩
      obtain rfl := Option.some.inj same
      exact unfit (by rw [valid, Bool.true_and, bne_iff_ne]; exact linked)

theorem offerCandidates_spec (known : List Uint256) (node : Node) :
    (known.foldl offerCandidate node).mapBlockIndex = node.mapBlockIndex ∧
      SameLinks node (known.foldl offerCandidate node) ∧
      (known.foldl offerCandidate node).vChain = node.vChain ∧
      ∀ other, other ∈ (known.foldl offerCandidate node).setBlockIndexCandidates ↔
        other ∈ node.setBlockIndexCandidates ∨ ∃ hash ∈ known, ∃ pindex,
          node.mapBlockIndex hash = some pindex ∧
          pindex.isValid BLOCK_VALID_TRANSACTIONS = true ∧ pindex.nChainTx ≠ 0 ∧
          other = pindex.getBlockHash ∧ node.tipRank ≤ (pindex.rank : WithBot Rank) := by
  induction known generalizing node with
  | nil => exact ⟨rfl, .refl node, rfl, by simp⟩
  | cons hash rest ih =>
    obtain ⟨index, links, vChain, first⟩ := offerCandidate_spec node hash
    obtain ⟨indexRest, linksRest, vChainRest, others⟩ := ih (node.offerCandidate hash)
    have rank : (node.offerCandidate hash).tipRank = node.tipRank := by
      rw [tipRank, tipRank, vChain, links.chainRank]
    refine ⟨indexRest.trans index, links.trans linksRest, vChainRest.trans vChain, fun other => ?_⟩
    rw [foldl_cons, others, first, index, rank, or_assoc]
    simp only [mem_cons, exists_eq_or_imp]

theorem contains_descends (path : node.store.Path node.vChain) {pindex : CBlockIndex}
    (inside : node.contains pindex = true) {top : Uint256} (tip : node.vChain.getLast? = some top) :
    node.store.Descends top pindex.getBlockHash := by
  rw [path.descends_iff tip]
  unfold contains active at inside
  split at inside
  · contradiction
  · exact mem_of_getElem? (beq_iff_eq.mp inside)

section

variable [ChainParams] [Crypto]

theorem invalidateTips_kept (kept : node.IndexKept best) {pindex : CBlockIndex}
    (marked : node.marked pindex.getBlockHash = true) {flushed : Uint256 → Bool} {fuel : Nat}
    {done : Bool} (dropped : invalidateTips flushed pindex fuel node = (after, done)) :
    SameLinks node after ∧ after.IndexKept best := by
  induction fuel generalizing node with
  | zero => exact (Prod.mk.inj dropped).1 ▸ ⟨.refl node, kept⟩
  | succ fuel ih =>
    unfold invalidateTips at dropped
    split at dropped
    · rename_i inside
      split at dropped
      · exact (Prod.mk.inj dropped).1 ▸ ⟨.refl node, kept⟩
      · rename_i top tip
        have drops := markChild_drops node top
        obtain ⟨vChain, spoiled⟩ := markChild_spoiled node top
        have keptChild : (node.markChild top).IndexKept best := by
          refine kept.drops drops vChain fun other spoil => ?_
          rw [drops.store]
          rcases spoiled other spoil with before | rfl
          · obtain ⟨ancestor, descends, mark⟩ := kept.spoiled other before
            exact ⟨ancestor, descends, drops.marked ancestor mark⟩
          · exact ⟨_, contains_descends kept.path inside tip, drops.marked _ marked⟩
        split at dropped
        · rename_i stopped
          rw [← (Prod.mk.inj dropped).1]
          exact ⟨drops.toSameLinks.trans (disconnectTip_sameIndex stopped).toSameLinks,
            disconnectTip_indexKept keptChild stopped⟩
        · rename_i next continued
          have same := disconnectTip_sameIndex continued
          obtain ⟨links, keptAfter⟩ := ih (disconnectTip_indexKept keptChild continued)
            ((same.marked _).trans (drops.marked _ marked)) dropped
          exact ⟨drops.toSameLinks.trans (same.toSameLinks.trans links), keptAfter⟩
    · exact (Prod.mk.inj dropped).1 ▸ ⟨.refl node, kept⟩

omit [ChainParams] in
theorem IndexKept.offer (kept : node.IndexKept best) {known : List Uint256}
    (lists : ∀ hash, (node.mapBlockIndex hash).isSome = true → hash ∈ known) :
    (known.foldl offerCandidate node).IndexKept (known.foldl offerCandidate node).tipRank := by
  obtain ⟨index, links, vChain, member⟩ := offerCandidates_spec known node
  have rank : (known.foldl offerCandidate node).tipRank = node.tipRank := by
    rw [tipRank, tipRank, vChain, links.chainRank]
  have named : ∀ hash pindex, node.mapBlockIndex hash = some pindex →
      pindex.getBlockHash = hash := fun hash pindex found =>
    (holds_of_sound kept.links.sound found).2.2
  refine ⟨links.kept kept.links, ?path, ?spoiled, ?bounded, ?linked, ?noWorse, ?complete⟩
  case path =>
      rw [links.store, vChain]
      exact kept.path
  case spoiled =>
      exact kept.spoiled.same (.of_index index links.diskBlocks)
  case bounded => exact le_rfl
  case linked =>
      intro hash inside
      rw [links.linked_iff]
      rcases (member hash).mp inside with old | ⟨other, _, pindex, found, _, linked, rfl, _⟩
      · exact kept.candidates.linked hash old
      · rw [named other pindex found]
        exact ⟨pindex, found, linked⟩
  case noWorse =>
      intro hash inside entry present
      rw [index] at present
      rw [rank]
      rcases (member hash).mp inside with old | ⟨other, _, pindex, found, _, _, rfl, fits⟩
      · exact kept.candidates.noWorse hash old entry present
      · rw [named other pindex found, found] at present
        exact Option.some.inj present ▸ fits
  case complete =>
      intro hash pindex found linked intact fits
      rw [index] at found
      rw [rank] at fits
      have stored := (kept.links.stored hash pindex found linked).1
      have valid : pindex.isValid BLOCK_VALID_TRANSACTIONS = true := by
        rw [CBlockIndex.isValid, intact]
        simpa using (kept.links.filled hash pindex found stored).1
      exact (member hash).mpr (.inr ⟨hash, lists hash (found ▸ rfl), pindex, found, valid, linked,
        (named hash pindex found).symm, fits⟩)

theorem invalidateBlock_kept (kept : node.IndexKept best) (flushed : Uint256 → Bool)
    {known : List Uint256} (lists : ∀ hash, (node.mapBlockIndex hash).isSome = true → hash ∈ known)
    (hash : Uint256) {done : Bool}
    (invalidated : node.invalidateBlock flushed known hash = (after, done)) :
    after.IndexKept (if done then after.tipRank else best) := by
  unfold invalidateBlock at invalidated
  cases found : node.mapBlockIndex hash with
  | none =>
    rw [found] at invalidated
    obtain ⟨rfl, rfl⟩ := Prod.mk.inj invalidated
    exact kept
  | some pindex =>
    rw [found] at invalidated
    obtain ⟨_, _, here⟩ := holds_of_sound kept.links.sound found
    let marked : Node := { node.markFailed hash with
      setBlockIndexCandidates := node.setBlockIndexCandidates.erase hash }
    have same : marked = node.invalidBlockFound hash {} := by
      simp [marked, markFailed, invalidBlockFound, found]
    have keptMarked : marked.IndexKept best := same ▸ kept.invalidBlockFound hash {}
    have mark : marked.marked pindex.getBlockHash = true := by
      show (node.markFailed hash).marked pindex.getBlockHash = true
      rw [markFailed_marked found, here, decide_eq_true rfl, Bool.true_or]
    have links : SameLinks node marked := same ▸ (invalidBlockFound_drops node hash {}).toSameLinks
    simp only at invalidated
    split at invalidated
    · rename_i middle stopped
      obtain ⟨rfl, rfl⟩ := Prod.mk.inj invalidated
      exact (invalidateTips_kept keptMarked mark stopped).2
    · rename_i middle finished
      obtain ⟨rfl, rfl⟩ := Prod.mk.inj invalidated
      obtain ⟨linksMiddle, keptMiddle⟩ := invalidateTips_kept keptMarked mark finished
      have listsMiddle : ∀ hash, (middle.mapBlockIndex hash).isSome = true → hash ∈ known := by
        intro other present
        obtain ⟨later, there⟩ := Option.isSome_iff_exists.mp present
        obtain ⟨entry, before, _⟩ := (links.trans linksMiddle).origin there
        exact lists other (before ▸ rfl)
      exact keptMiddle.offer listsMiddle

end

/-! ### Reconsidering -/

section

variable [Crypto]

variable {entry pindex : CBlockIndex}

omit [Crypto] in
theorem back_descends {count : Nat} {ancestor : CBlockIndex}
    (found : node.mapBlockIndex hash = some entry)
    (walk : node.mapBlockIndex.back count entry = some ancestor) :
    ∃ target, node.mapBlockIndex target = some ancestor ∧ node.store.Descends hash target := by
  induction count generalizing hash entry with
  | zero => exact ⟨hash, Option.some.inj walk ▸ found, .refl⟩
  | succ count ih =>
    unfold BlockMap.back at walk
    obtain ⟨prev, below, rest⟩ := Option.bind_eq_some_iff.mp walk
    obtain ⟨hashPrev, pprev, present⟩ := Option.bind_eq_some_iff.mp below
    obtain ⟨target, there, descends⟩ := ih present rest
    exact ⟨target, there, .head ⟨entry.core, store_cores found, pprev⟩ descends⟩

theorem back_of_descends (sound : node.store.Sound) {target : Uint256}
    (descends : node.store.Descends hash target) {ancestor : CBlockIndex}
    (found : node.mapBlockIndex hash = some entry)
    (there : node.mapBlockIndex target = some ancestor) :
    ∃ count : Nat, node.mapBlockIndex.back count entry = some ancestor ∧
      entry.nHeight = ancestor.nHeight + count := by
  induction descends using Relation.ReflTransGen.head_induction_on generalizing entry with
  | refl =>
    rw [found] at there
    exact ⟨0, there, by rw [Option.some.inj there]; simp⟩
  | head step rest ih =>
    rename_i here hashPrev
    obtain ⟨core, present, pprev⟩ := step
    rw [store_cores found] at present
    obtain rfl := Option.some.inj present
    obtain ⟨corePrev, presentPrev, height⟩ :=
      sound.parent here _ (store_cores found) hashPrev pprev
    obtain ⟨prev, foundPrev, rfl⟩ := entry_of_core presentPrev
    obtain ⟨count, walk, above⟩ := ih foundPrev
    have below : node.mapBlockIndex.prev entry = some prev :=
      Option.bind_eq_some_iff.mpr ⟨hashPrev, pprev, foundPrev⟩
    refine ⟨count + 1, ?_, ?_⟩
    · rw [BlockMap.back, below, Option.bind_some, walk]
    · have heights : entry.nHeight = prev.nHeight + 1 := height
      omega

theorem getAncestor_iff (sound : node.store.Sound) (grounded : node.store.Grounded) {root : Uint256}
    (found : node.mapBlockIndex hash = some entry) (there : node.mapBlockIndex root = some pindex) :
    (node.mapBlockIndex.getAncestor entry pindex.nHeight).map CBlockIndex.getBlockHash = some root ↔
      node.store.Descends hash root := by
  have nonneg : 0 ≤ pindex.nHeight := grounded root _ (store_cores there)
  constructor
  · intro reached
    obtain ⟨ancestor, walk, named⟩ := Option.map_eq_some_iff.mp reached
    unfold BlockMap.getAncestor at walk
    split at walk
    · contradiction
    · obtain ⟨target, present, descends⟩ := back_descends found walk
      rw [(holds_of_sound sound present).2.2] at named
      exact named ▸ descends
  · intro descends
    obtain ⟨count, walk, height⟩ := back_of_descends sound descends found there
    have steps : (entry.nHeight - pindex.nHeight).toNat = count := by omega
    rw [BlockMap.getAncestor, if_neg (by omega), steps, walk, Option.map_some,
      (holds_of_sound sound there).2.2]

omit [Crypto] in
theorem mem_insertBetter {other : Uint256} :
    other ∈ (node.insertBetter pindex).setBlockIndexCandidates ↔
      other ∈ node.setBlockIndexCandidates ∨
        other = pindex.getBlockHash ∧ node.tipRank < (pindex.rank : WithBot Rank) := by
  unfold insertBetter
  have better : (node.tip.map fun tip => tip.worse pindex).getD true = true ↔
      node.tipRank < (pindex.rank : WithBot Rank) := by
    unfold tipRank chainRank tip
    cases node.vChain.getLast?.bind node.mapBlockIndex with
    | none => simp
    | some tip => simp [CBlockIndex.worse_iff]
  split
  · rename_i fits
    rw [better] at fits
    simp only [mem_insert_iff, fits, and_true]
    exact or_comm
  · rename_i worse
    rw [better] at worse
    simp only [worse, and_false, or_false]

omit [Crypto] in
theorem insertBetter_same (node : Node) (pindex : CBlockIndex) :
    (node.insertBetter pindex).mapBlockIndex = node.mapBlockIndex ∧
      (node.insertBetter pindex).diskBlocks = node.diskBlocks ∧
      (node.insertBetter pindex).mapBlocksUnlinked = node.mapBlocksUnlinked ∧
      (node.insertBetter pindex).vChain = node.vChain := by
  unfold insertBetter
  split
  · exact ⟨rfl, rfl, rfl, rfl⟩
  · exact ⟨rfl, rfl, rfl, rfl⟩

/-- Marks of descendants of the root are cleared, and candidates come. -/
structure Clears (root : Uint256) (before after : Node) : Prop extends SameLinks before after where
  vChain : after.vChain = before.vChain
  more : ∀ hash ∈ before.setBlockIndexCandidates, hash ∈ after.setBlockIndexCandidates
  fits : ∀ hash ∈ after.setBlockIndexCandidates, hash ∈ before.setBlockIndexCandidates ∨
    ∃ pindex, before.mapBlockIndex hash = some pindex ∧ pindex.nChainTx ≠ 0 ∧
      before.tipRank ≤ (pindex.rank : WithBot Rank)
  flags : ∀ hash, after.marked hash = before.marked hash ∧
      after.spoiled hash = before.spoiled hash ∨
    before.store.Descends hash root ∧ after.marked hash = false ∧ after.spoiled hash = false ∧
      ∀ pindex, before.mapBlockIndex hash = some pindex → pindex.nChainTx ≠ 0 →
        BLOCK_VALID_TRANSACTIONS ≤ pindex.nStatus.valid →
          before.tipRank < (pindex.rank : WithBot Rank) → hash ∈ after.setBlockIndexCandidates

namespace Clears

variable {root : Uint256} {middle : Node}

omit [Crypto] in
theorem refl (root : Uint256) (node : Node) : Clears root node node :=
  ⟨.refl node, rfl, fun _ => id, fun _ => .inl, fun _ => .inl ⟨rfl, rfl⟩⟩

omit [Crypto] in
theorem trans (first : Clears root node middle) (second : Clears root middle after) :
    Clears root node after := by
  have rank : middle.tipRank = node.tipRank := by
    rw [tipRank, tipRank, first.vChain, first.chainRank]
  refine ⟨first.toSameLinks.trans second.toSameLinks, second.vChain.trans first.vChain,
    fun hash member => second.more hash (first.more hash member), fun hash member => ?_,
    fun hash => ?_⟩
  · rcases second.fits hash member with old | ⟨later, present, linked, fits⟩
    · exact first.fits hash old
    · obtain ⟨pindex, found, link⟩ := first.origin present
      exact .inr ⟨pindex, found, link.nChainTx ▸ linked, rank ▸ link.rank ▸ fits⟩
  · rcases second.flags hash with ⟨marked, spoiled⟩ | ⟨descends, marked, spoiled, offered⟩
    · rcases first.flags hash with ⟨markedFirst, spoiledFirst⟩ |
        ⟨descends, markedFirst, spoiledFirst, offered⟩
      · exact .inl ⟨marked.trans markedFirst, spoiled.trans spoiledFirst⟩
      · exact .inr ⟨descends, marked.trans markedFirst, spoiled.trans spoiledFirst,
          fun pindex found linked valid fits =>
            second.more hash (offered pindex found linked valid fits)⟩
    · refine .inr ⟨first.store ▸ descends, marked, spoiled, ?_⟩
      intro pindex found linked valid fits
      obtain ⟨later, present, link⟩ := first.entries hash pindex found
      exact offered later present (link.nChainTx.symm ▸ linked) (valid.trans link.valid)
        (rank.symm ▸ link.rank.symm ▸ fits)

omit [Crypto] in
theorem intact (clears : Clears root node after) {hash : Uint256}
    (marked : node.marked hash = false) (spoiled : node.spoiled hash = false) :
    after.marked hash = false ∧ after.spoiled hash = false := by
  rcases clears.flags hash with ⟨same, sameChild⟩ | ⟨_, none, noneChild, _⟩
  · exact ⟨same.trans marked, sameChild.trans spoiled⟩
  · exact ⟨none, noneChild⟩

end Clears

omit [Crypto] in
theorem clearFailed_clears {root : Uint256} (found : node.mapBlockIndex hash = some entry)
    (descends : node.store.Descends hash root)
    (index : after.mapBlockIndex = (node.clearFailed hash entry).mapBlockIndex)
    (disk : after.diskBlocks = node.diskBlocks)
    (unlinked : after.mapBlocksUnlinked = node.mapBlocksUnlinked)
    (vChain : after.vChain = node.vChain) (member : ∀ other, other ∈ after.setBlockIndexCandidates ↔
      other ∈ node.setBlockIndexCandidates ∨ other = hash ∧ entry.nChainTx ≠ 0 ∧
        BLOCK_VALID_TRANSACTIONS ≤ entry.nStatus.valid ∧
        node.tipRank < (entry.rank : WithBot Rank)) :
    Clears root node after ∧ after.marked hash = false ∧ after.spoiled hash = false := by
  have cleared : SameLinks node (node.clearFailed hash entry) :=
    setIndex_links found (.of_flags entry false false)
  have marked : ∀ other, after.marked other = if other = hash then false else node.marked other := by
    intro other
    rw [Node.marked, index]
    exact setIndex_marked node hash other _
  have spoiled : ∀ other,
      after.spoiled other = if other = hash then false else node.spoiled other := by
    intro other
    rw [Node.spoiled, index]
    exact setIndex_spoiled node hash other _
  refine ⟨⟨cleared.trans (.of_index index disk unlinked), vChain,
    fun other inside => (member other).mpr (.inl inside), fun other inside => ?fits,
    fun other => ?flags⟩, (marked hash).trans (if_pos rfl), (spoiled hash).trans (if_pos rfl)⟩
  case fits =>
      rcases (member other).mp inside with old | ⟨rfl, linked, _, fits⟩
      · exact .inl old
      · exact .inr ⟨entry, found, linked, fits.le⟩
  case flags =>
      by_cases here : other = hash
      · subst here
        refine .inr ⟨descends, (marked other).trans (if_pos rfl),
          (spoiled other).trans (if_pos rfl), ?_⟩
        intro pindex present linked valid fits
        rw [found] at present
        obtain rfl := Option.some.inj present
        exact (member other).mpr (.inr ⟨rfl, linked, valid, fits⟩)
      · exact .inl ⟨(marked other).trans (if_neg here), (spoiled other).trans (if_neg here)⟩

theorem reconsiderEntry_clears (sound : node.store.Sound) (grounded : node.store.Grounded)
    {root : Uint256} (there : node.mapBlockIndex root = some entry)
    (height : pindex.nHeight = entry.nHeight) (named : pindex.getBlockHash = root)
    (hash : Uint256) : Clears root node (reconsiderEntry pindex node hash) ∧
      (node.store.Descends hash root → (reconsiderEntry pindex node hash).marked hash = false ∧
        (reconsiderEntry pindex node hash).spoiled hash = false) := by
  unfold reconsiderEntry
  cases found : node.mapBlockIndex hash with
  | none => exact ⟨.refl root node, fun _ => by simp [marked, spoiled, found]⟩
  | some here =>
    have above := getAncestor_iff sound grounded found there
    rw [← height] at above
    simp only [named]
    split
    · rename_i failed
      rw [Bool.and_eq_true, beq_iff_eq, above] at failed
      have name : here.getBlockHash = hash := (holds_of_sound sound found).2.2
      have rank : (node.clearFailed hash here).tipRank = node.tipRank :=
        (setIndex_links found (.of_flags here false false)).chainRank node.vChain
      split
      · rename_i fits
        rw [Bool.and_eq_true, bne_iff_ne] at fits
        obtain ⟨valid, linked⟩ := fits
        have level : BLOCK_VALID_TRANSACTIONS ≤ here.nStatus.valid := by
          simpa [CBlockIndex.isValid, BlockStatus.failed] using valid
        obtain ⟨index, disk, unlinked, vChain⟩ := insertBetter_same
          (node.clearFailed hash here) { here with
            nStatus := { here.nStatus with failedValid := false, failedChild := false } }
        obtain ⟨clears, flags⟩ := clearFailed_clears found failed.2 index disk unlinked vChain
          fun other => by
            rw [mem_insertBetter, rank]
            have same : ({ here with nStatus := { here.nStatus with
                failedValid := false, failedChild := false } } : CBlockIndex).getBlockHash =
                  hash := name
            rw [same]
            exact or_congr Iff.rfl (and_congr Iff.rfl
              ⟨fun better => ⟨linked, level, better⟩, fun all => all.2.2⟩)
        exact ⟨clears, fun _ => flags⟩
      · rename_i unfit
        obtain ⟨clears, flags⟩ := clearFailed_clears found failed.2 rfl rfl rfl rfl fun other => by
          refine (or_iff_left ?_).symm
          rintro ⟨_, linked, level, _⟩
          refine unfit ?_
          rw [Bool.and_eq_true, bne_iff_ne]
          exact ⟨by simpa [CBlockIndex.isValid, BlockStatus.failed] using level, linked⟩
        exact ⟨clears, fun _ => flags⟩
    · rename_i intact
      refine ⟨.refl root node, fun descends => ?_⟩
      have valid : here.isValid BLOCK_VALID_TRANSACTIONS = true := by
        by_contra invalid
        rw [Bool.not_eq_true] at invalid
        exact intact (by rw [invalid, above.mpr descends]; simp)
      rw [CBlockIndex.isValid, Bool.and_eq_true, Bool.not_eq_true', failed_of_entry found,
        Bool.or_eq_false_iff] at valid
      exact valid.1

theorem reconsiderEntries_clears (sound : node.store.Sound) (grounded : node.store.Grounded)
    {root : Uint256} (there : node.mapBlockIndex root = some entry)
    (height : pindex.nHeight = entry.nHeight) (named : pindex.getBlockHash = root)
    (known : List Uint256) : Clears root node (known.foldl (reconsiderEntry pindex) node) ∧
      ∀ hash ∈ known, node.store.Descends hash root →
        (known.foldl (reconsiderEntry pindex) node).marked hash = false ∧
          (known.foldl (reconsiderEntry pindex) node).spoiled hash = false := by
  induction known generalizing node entry with
  | nil => exact ⟨.refl root node, fun hash member => absurd member not_mem_nil⟩
  | cons first rest ih =>
    obtain ⟨clears, visited⟩ := reconsiderEntry_clears sound grounded there height named first
    obtain ⟨later, present, link⟩ := clears.entries root entry there
    have core := congrArg IndexCore.nHeight link.core
    obtain ⟨clearsRest, others⟩ := ih (clears.store ▸ sound) (clears.store ▸ grounded) present
      (height.trans core.symm)
    refine ⟨clears.trans clearsRest, fun hash member descends => ?_⟩
    rw [foldl_cons]
    rcases mem_cons.mp member with rfl | member
    · exact clearsRest.intact (visited descends).1 (visited descends).2
    · exact others hash member (clears.store ▸ descends)

omit [Crypto] in
theorem reconsiderAncestors_intact {start : Uint256}
    (intact : ∀ ancestor, node.store.Descends start ancestor →
      node.marked ancestor = false ∧ node.spoiled ancestor = false) (fuel : Nat) :
    reconsiderAncestors fuel (some start) node = node := by
  induction fuel generalizing start with
  | zero => rfl
  | succ fuel ih =>
    unfold reconsiderAncestors
    cases found : node.mapBlockIndex start with
    | none => rfl
    | some pindex =>
      obtain ⟨marked, spoiled⟩ := intact start .refl
      have unfailed : pindex.nStatus.failed = false := by
        rw [failed_of_entry found, marked, spoiled, Bool.or_false]
      simp only [unfailed, Bool.false_eq_true, ↓reduceIte]
      cases pprev : pindex.pprev with
      | none => cases fuel <;> rfl
      | some hashPrev =>
        apply ih
        intro ancestor descends
        exact intact ancestor (.head ⟨pindex.core, store_cores found, pprev⟩ descends)

theorem IndexKept.clears (kept : node.IndexKept best) {root : Uint256}
    (clears : Clears root node after)
    (cleared : ∀ hash, node.store.Descends hash root →
      after.marked hash = false ∧ after.spoiled hash = false)
    (intactTip : ∀ tip, node.tip = some tip → tip.nStatus.failed = false) :
    after.IndexKept best := by
  have rank : after.tipRank = node.tipRank := by
    rw [tipRank, tipRank, clears.vChain, clears.chainRank]
  refine ⟨clears.kept kept.links, ?path, ?spoiled, ?bounded, ?linked, ?noWorse, ?complete⟩
  case path =>
      rw [clears.store, clears.vChain]
      exact kept.path
  case spoiled =>
      intro hash spoiled
      rw [clears.store]
      -- a failed child that is left is not above the block, so its marked ancestor is left as well
      have before : node.spoiled hash = true := by
        rcases clears.flags hash with ⟨_, same⟩ | ⟨_, _, none, _⟩
        · exact same.symm.trans spoiled
        · rw [none] at spoiled
          contradiction
      obtain ⟨ancestor, descends, marked⟩ := kept.spoiled hash before
      refine ⟨ancestor, descends, ?_⟩
      rcases clears.flags ancestor with ⟨same, _⟩ | ⟨above, _⟩
      · exact same.trans marked
      · have none := (cleared hash (descends.trans above)).2
        rw [none] at spoiled
        contradiction
  case bounded => exact rank.symm ▸ kept.candidates.bounded
  case linked =>
      intro hash inside
      rw [clears.linked_iff]
      rcases clears.fits hash inside with old | ⟨pindex, found, linked, _⟩
      · exact kept.candidates.linked hash old
      · exact ⟨pindex, found, linked⟩
  case noWorse =>
      intro hash inside later present
      obtain ⟨pindex, found, link⟩ := clears.origin present
      rw [rank, link.rank]
      rcases clears.fits hash inside with old | ⟨entry, there, _, fits⟩
      · exact kept.candidates.noWorse hash old pindex found
      · rw [found] at there
        exact Option.some.inj there ▸ fits
  case complete =>
      intro hash later present linked intact fits
      obtain ⟨pindex, found, link⟩ := clears.origin present
      rw [link.nChainTx] at linked
      rw [link.rank] at fits
      by_cases failed : pindex.nStatus.failed = true
      · have stored := (kept.links.stored hash pindex found linked).1
        have level := (kept.links.filled hash pindex found stored).1
        rcases clears.flags hash with ⟨marked, spoiled⟩ | ⟨_, _, _, offered⟩
        · rw [failed_of_entry present, marked, spoiled, ← failed_of_entry found] at intact
          rw [intact] at failed
          contradiction
        · refine offered pindex found linked level ?_
          apply lt_of_le_of_ne (kept.candidates.bounded.trans fits)
          intro same
          cases tip : node.tip with
          | none =>
            have empty : node.tipRank = ⊥ := by
              unfold tipRank chainRank
              unfold Node.tip at tip
              rw [tip]
            rw [empty] at same
            exact WithBot.bot_ne_coe same
          | some entry =>
            rw [tipRank_of_tip tip, WithBot.coe_inj] at same
            -- the tip is the block itself, and the tip is not failed
            obtain ⟨top, _, there⟩ := tip_entry tip
            have equal := CBlockIndex.hash_of_rank same
            rw [(holds_of_sound kept.links.sound there).2.2,
              (holds_of_sound kept.links.sound found).2.2] at equal
            subst equal
            rw [there] at found
            obtain rfl := Option.some.inj found
            rw [intactTip entry tip] at failed
            contradiction
      · rw [Bool.not_eq_true] at failed
        exact clears.more hash (kept.candidates.complete hash pindex found linked failed fits)

theorem reconsiderBlock_kept (kept : node.IndexKept best) {known : List Uint256}
    (lists : ∀ hash, (node.mapBlockIndex hash).isSome = true → hash ∈ known)
    (ancestors : ∀ ancestor, node.store.Descends hash ancestor → ancestor ≠ hash →
      node.marked ancestor = false ∧ node.spoiled ancestor = false)
    (intactTip : ∀ tip, node.tip = some tip → tip.nStatus.failed = false) :
    (node.reconsiderBlock known hash).IndexKept best := by
  unfold reconsiderBlock
  cases found : node.mapBlockIndex hash with
  | none => exact kept
  | some pindex =>
    simp only
    have sound := kept.links.sound
    obtain ⟨clears, cleared⟩ := reconsiderEntries_clears sound kept.links.grounded found rfl
      (holds_of_sound sound found).2.2 known
    have present : ∀ other, node.store.Descends other hash → other ∈ known := by
      intro other descends
      apply lists
      rcases Relation.ReflTransGen.cases_head descends with rfl | ⟨_, ⟨core, there, _⟩, _⟩
      · rw [found]
        rfl
      · obtain ⟨entry, here, _⟩ := entry_of_core there
        rw [here]
        rfl
    have unchanged : reconsiderAncestors (pindex.nHeight.toNat + 1) (some hash)
        (known.foldl (reconsiderEntry pindex) node) =
          known.foldl (reconsiderEntry pindex) node := by
      apply reconsiderAncestors_intact
      intro ancestor descends
      rw [clears.store] at descends
      by_cases same : ancestor = hash
      · subst same
        exact cleared ancestor (present ancestor .refl) .refl
      · obtain ⟨marked, spoiled⟩ := ancestors ancestor descends same
        exact clears.intact marked spoiled
    rw [unchanged]
    exact kept.clears clears
      (fun other descends => cleared other (present other descends) descends) intactTip

end

end Node

end Agouti
