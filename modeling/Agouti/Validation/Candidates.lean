import Agouti.Validation.Links

/-! # The candidates for the tip

`setBlockIndexCandidates` holds linked blocks that are as good as the tip, or better. Blocks below
the best tip that the chain has had were removed from it, so after a step that leaves the chain
with a worse tip the set is complete from that best tip on only: `Node.IndexKept` follows its
rank. Marking a block and dropping it, moving the tip and pruning keep the set complete.
-/

namespace Agouti

open List Option

namespace Node

/-- The candidates, relative to the best tip so far. -/
structure CandidatesKept (best : WithBot Rank) (node : Node) : Prop where
  bounded : node.tipRank ≤ best
  linked : ∀ hash ∈ node.setBlockIndexCandidates, node.linked hash
  noWorse : ∀ hash ∈ node.setBlockIndexCandidates, ∀ pindex,
    node.mapBlockIndex hash = some pindex → node.tipRank ≤ (pindex.rank : WithBot Rank)
  complete : ∀ hash pindex, node.mapBlockIndex hash = some pindex → pindex.nChainTx ≠ 0 →
    pindex.nStatus.failed = false → best ≤ (pindex.rank : WithBot Rank) →
      hash ∈ node.setBlockIndexCandidates

/-- Every usable block from the rank on is a candidate. -/
structure CandidatesHeld (best : WithBot Rank) (node : Node) : Prop where
  linked : ∀ hash ∈ node.setBlockIndexCandidates, node.linked hash
  complete : ∀ hash pindex, node.mapBlockIndex hash = some pindex → pindex.nChainTx ≠ 0 →
    pindex.nStatus.failed = false → best ≤ (pindex.rank : WithBot Rank) →
      hash ∈ node.setBlockIndexCandidates

/-- What the operations on the block index keep. -/
structure IndexKept [Crypto] (best : WithBot Rank) (node : Node) : Prop where
  links : node.LinksKept []
  path : node.store.Path node.vChain
  spoiled : node.SpoiledBelowMarked
  candidates : node.CandidatesKept best

variable {node after middle : Node} {best : WithBot Rank}

theorem SameLinks.chainRank (same : SameLinks node after) (chain : List Uint256) :
    after.chainRank chain = node.chainRank chain := by
  unfold Node.chainRank
  cases chain.getLast? with
  | none => rfl
  | some hash =>
    simp only [bind_some]
    cases found : node.mapBlockIndex hash with
    | none => rw [same.absent hash found]
    | some pindex =>
      obtain ⟨later, present, link⟩ := same.entries hash pindex found
      rw [present]
      simp only [link.rank]

theorem CandidatesKept.held (kept : node.CandidatesKept best) : node.CandidatesHeld best :=
  ⟨kept.linked, kept.complete⟩

theorem CandidatesKept.raise (kept : node.CandidatesKept best) {better : WithBot Rank}
    (above : best ≤ better) : node.CandidatesKept better :=
  ⟨kept.bounded.trans above, kept.linked, kept.noWorse, fun hash pindex found linked intact fits =>
    kept.complete hash pindex found linked intact (above.trans fits)⟩

theorem SpoiledBelowMarked.grow (below : node.SpoiledBelowMarked)
    (store : after.store = node.store)
    (marked : ∀ hash, node.marked hash = true → after.marked hash = true)
    (spoiled : ∀ hash, after.spoiled hash = true → node.spoiled hash = true) :
    after.SpoiledBelowMarked := by
  intro hash mark
  obtain ⟨ancestor, descends, failed⟩ := below hash (spoiled hash mark)
  exact ⟨ancestor, store ▸ descends, marked ancestor failed⟩

/-- Only marked or spoiled candidates are dropped. -/
structure Drops (before after : Node) : Prop extends SameLinks before after where
  marked : ∀ hash, before.marked hash = true → after.marked hash = true
  spoiled : ∀ hash, before.spoiled hash = true → after.spoiled hash = true
  fewer : ∀ hash ∈ after.setBlockIndexCandidates, hash ∈ before.setBlockIndexCandidates
  dropped : ∀ hash ∈ before.setBlockIndexCandidates, hash ∈ after.setBlockIndexCandidates ∨
    (after.marked hash || after.spoiled hash) = true

theorem Drops.refl (node : Node) : Drops node node :=
  ⟨.refl node, fun _ => id, fun _ => id, fun _ => id, fun _ member => .inl member⟩

theorem Drops.trans (first : Drops node middle) (second : Drops middle after) :
    Drops node after := by
  refine ⟨first.toSameLinks.trans second.toSameLinks,
    fun hash mark => second.marked hash (first.marked hash mark),
    fun hash mark => second.spoiled hash (first.spoiled hash mark),
    fun hash member => first.fewer hash (second.fewer hash member), fun hash member => ?_⟩
  rcases first.dropped hash member with stays | failed
  · exact second.dropped hash stays
  · right
    rw [Bool.or_eq_true] at failed ⊢
    exact failed.imp (second.marked hash) (second.spoiled hash)

theorem SameIndex.drops (same : SameIndex node after) : Drops node after :=
  ⟨same.toSameLinks, fun hash mark => (same.marked hash).trans mark,
    fun hash mark => (same.spoiled hash).trans mark, fun _ member => same.candidates ▸ member,
    fun _ member => .inl (same.candidates.symm ▸ member)⟩

theorem SameIndex.below (same : SameIndex node after) (below : node.SpoiledBelowMarked) :
    after.SpoiledBelowMarked :=
  below.grow same.store (fun hash mark => (same.marked hash).trans mark)
    fun hash mark => (same.spoiled hash).symm.trans mark

theorem Drops.erase (drops : Drops node after) {hash : Uint256}
    (failed : (after.marked hash || after.spoiled hash) = true) : Drops node
      { after with setBlockIndexCandidates := after.setBlockIndexCandidates.erase hash } := by
  refine drops.trans ⟨.of_index rfl rfl rfl, fun _ => id, fun _ => id,
    fun _ => mem_of_mem_erase, fun other member => ?_⟩
  by_cases here : other = hash
  · exact .inr (here ▸ failed)
  · exact .inl ((mem_erase_of_ne here).mpr member)

theorem CandidatesHeld.drops (held : node.CandidatesHeld best) (drops : Drops node after) :
    after.CandidatesHeld best where
  linked hash member := (drops.linked_iff hash).mpr (held.linked hash (drops.fewer hash member))
  complete hash later present linked intact fits := by
    obtain ⟨pindex, found, link⟩ := drops.origin present
    rw [failed_of_entry present] at intact
    have unmarked : pindex.nStatus.failed = false := by
      rw [failed_of_entry found, Bool.or_eq_false_iff]
      rw [Bool.or_eq_false_iff] at intact
      constructor
      · cases mark : node.marked hash with
        | false => rfl
        | true => exact (drops.marked hash mark).symm.trans intact.1
      · cases mark : node.spoiled hash with
        | false => rfl
        | true => exact (drops.spoiled hash mark).symm.trans intact.2
    have member := held.complete hash pindex found (link.nChainTx ▸ linked) unmarked
      (link.rank ▸ fits)
    rcases drops.dropped hash member with stays | failed
    · exact stays
    · rw [intact] at failed
      contradiction

/-- The set stays complete when failed blocks leave it and the tip gets no better. -/
theorem CandidatesKept.drops (kept : node.CandidatesKept best) (drops : Drops node after)
    (lower : after.tipRank ≤ node.tipRank) : after.CandidatesKept best where
  bounded := lower.trans kept.bounded
  linked := (kept.held.drops drops).linked
  noWorse hash member later present := by
    obtain ⟨pindex, found, link⟩ := drops.origin present
    rw [link.rank]
    exact lower.trans (kept.noWorse hash (drops.fewer hash member) pindex found)
  complete := (kept.held.drops drops).complete

theorem setIndex_drops {hash : Uint256} {pindex later : CBlockIndex}
    (found : node.mapBlockIndex hash = some pindex) (link : pindex.SameLink later)
    (valid : pindex.nStatus.failedValid = true → later.nStatus.failedValid = true)
    (child : pindex.nStatus.failedChild = true → later.nStatus.failedChild = true) :
    Drops node (node.setIndex hash later) := by
  refine ⟨setIndex_links found link, fun other marked => ?_, fun other spoiled => ?_,
    fun _ => id, fun _ member => .inl member⟩
  · rw [setIndex_marked]
    split
    · rename_i here
      exact valid (marked_entry found ▸ here ▸ marked)
    · exact marked
  · rw [setIndex_spoiled]
    split
    · rename_i here
      exact child (spoiled_entry found ▸ here ▸ spoiled)
    · exact spoiled

theorem invalidBlockFound_drops (node : Node) (hash : Uint256) (state : CValidationState) :
    Drops node (node.invalidBlockFound hash state) := by
  unfold invalidBlockFound
  split
  · exact .refl node
  · cases found : node.mapBlockIndex hash with
    | none => exact .refl node
    | some pindex =>
      have drops := setIndex_drops found (.of_flags pindex true pindex.nStatus.failedChild)
        (fun _ => rfl) id
      exact drops.erase (by rw [setIndex_marked, if_pos rfl, Bool.true_or])

theorem mem_prune {hash : Uint256} {pindex : CBlockIndex}
    (found : node.mapBlockIndex hash = some pindex) :
    hash ∈ node.pruneBlockIndexCandidates.setBlockIndexCandidates ↔
      hash ∈ node.setBlockIndexCandidates ∧ node.tipRank ≤ (pindex.rank : WithBot Rank) := by
  unfold pruneBlockIndexCandidates
  cases tip : node.tip with
  | none =>
    have fits : node.tipRank ≤ (pindex.rank : WithBot Rank) := by
      rw [tipRank_le_iff]
      intro entry here
      rw [tip] at here
      contradiction
    simp only [fits, and_true]
  | some entry =>
    rw [tipRank_of_tip tip, WithBot.coe_le_coe, ← CBlockIndex.not_worse_iff]
    simp only [mem_filter, found, map_some, getD_some, Bool.not_eq_true']

theorem prune_same (node : Node) :
    node.pruneBlockIndexCandidates.mapBlockIndex = node.mapBlockIndex ∧
      SameLinks node node.pruneBlockIndexCandidates ∧
      node.pruneBlockIndexCandidates.vChain = node.vChain ∧
      ∀ hash ∈ node.pruneBlockIndexCandidates.setBlockIndexCandidates,
        hash ∈ node.setBlockIndexCandidates := by
  unfold pruneBlockIndexCandidates
  split
  · exact ⟨rfl, .refl node, rfl, fun _ => id⟩
  · exact ⟨rfl, .of_index rfl rfl rfl, rfl, fun _ member => (mem_filter.mp member).1⟩

theorem CandidatesHeld.prune (held : node.CandidatesHeld best) (same : SameIndex node middle) :
    middle.pruneBlockIndexCandidates.CandidatesHeld (best ⊔ middle.tipRank) := by
  obtain ⟨index, pruned, _, fewer⟩ := prune_same middle
  refine ⟨fun hash member => ?_, fun hash later present linked intact fits => ?_⟩
  · rw [pruned.linked_iff, same.linked_iff]
    exact held.linked hash (same.candidates ▸ fewer hash member)
  · rw [index] at present
    obtain ⟨pindex, found, link⟩ := same.origin present
    have marks := failed_of_entry present
    rw [same.marked, same.spoiled, ← failed_of_entry found] at marks
    have old := held.complete hash pindex found (link.nChainTx ▸ linked)
      (marks ▸ intact) (link.rank ▸ le_sup_left.trans fits)
    rw [mem_prune present]
    exact ⟨same.candidates.symm ▸ old, le_sup_right.trans fits⟩

section

variable [Crypto]

theorem LinksHeld.active (kept : node.LinksHeld []) {chain : List Uint256}
    (path : node.store.Path chain) : ∀ hash ∈ chain, node.linked hash := by
  induction chain using List.reverseRecOn with
  | nil => exact fun hash member => absurd member not_mem_nil
  | append_singleton rest top ih =>
    have pathRest : node.store.Path rest := by simpa using path.pop
    intro hash member
    rcases mem_append.mp member with inside | here
    · exact ih pathRest hash inside
    · obtain rfl := mem_singleton.mp here
      obtain ⟨core, found, _, stored, below⟩ := path.last List.getLast?_concat
      obtain ⟨pindex, present, rfl⟩ := entry_of_core found
      rw [dropLast_concat] at below
      have parent : node.ParentLinked pindex := by
        intro hashPrev pprev
        exact ih pathRest hashPrev (List.mem_of_getLast? (below.symm.trans pprev))
      have linked := (kept.joined hash pindex present stored parent).resolve_right
        not_mem_nil
      exact ⟨pindex, present, linked⟩

theorem LinksKept.chainRank_dropLast (kept : node.LinksKept []) {chain : List Uint256}
    (path : node.store.Path chain) : node.chainRank chain.dropLast ≤ node.chainRank chain := by
  cases top : chain.getLast? with
  | none => rw [List.getLast?_eq_none_iff.mp top, dropLast_nil]
  | some hash =>
    obtain ⟨core, found, _, _, below⟩ := path.last top
    obtain ⟨pindex, present, rfl⟩ := entry_of_core found
    have rank : node.chainRank chain = (pindex.rank : WithBot Rank) := by
      unfold chainRank
      rw [top, bind_some, present]
    cases parent : chain.dropLast.getLast? with
    | none =>
      have bottom : node.chainRank chain.dropLast = ⊥ := by
        unfold chainRank
        rw [parent, bind_none]
      rw [bottom]
      exact bot_le
    | some hashPrev =>
      obtain ⟨corePrev, foundPrev, _⟩ := path.pop.last parent
      obtain ⟨prev, presentPrev, rfl⟩ := entry_of_core foundPrev
      have rankPrev : node.chainRank chain.dropLast = (prev.rank : WithBot Rank) := by
        unfold chainRank
        rw [parent, bind_some, presentPrev]
      have pprev : pindex.pprev = some hashPrev := below.trans parent
      have work := kept.work hash pindex present prev
        (bind_eq_some_iff.mpr ⟨hashPrev, pprev, presentPrev⟩)
      rw [rank, rankPrev, WithBot.coe_le_coe]
      exact (CBlockIndex.rank_lt_of_work work).le

theorem IndexKept.raise (kept : node.IndexKept best) {better : WithBot Rank}
    (above : best ≤ better) : node.IndexKept better :=
  ⟨kept.links, kept.path, kept.spoiled, kept.candidates.raise above⟩

theorem IndexKept.drops (kept : node.IndexKept best) (drops : Drops node after)
    (vChain : after.vChain = node.vChain) (below : after.SpoiledBelowMarked) :
    after.IndexKept best := by
  have rank : after.tipRank = node.tipRank := by
    rw [tipRank, tipRank, vChain, drops.chainRank]
  refine ⟨drops.toSameLinks.kept kept.links, ?_, below, kept.candidates.drops drops rank.le⟩
  rw [drops.store, vChain]
  exact kept.path

theorem IndexKept.same (kept : node.IndexKept best) (same : SameIndex node after)
    (vChain : after.vChain = node.vChain) : after.IndexKept best :=
  kept.drops same.drops vChain (same.below kept.spoiled)

theorem IndexKept.dropTip (kept : node.IndexKept best) (same : SameIndex node after)
    (vChain : after.vChain = node.vChain.dropLast) : after.IndexKept best := by
  have lower : after.tipRank ≤ node.tipRank := by
    rw [tipRank, tipRank, vChain, same.chainRank]
    exact kept.links.chainRank_dropLast kept.path
  refine ⟨same.toSameLinks.kept kept.links, ?_, same.below kept.spoiled,
    kept.candidates.drops same.drops lower⟩
  rw [same.store, vChain]
  exact kept.path.pop

theorem IndexKept.invalidBlockFound (kept : node.IndexKept best) (hash : Uint256)
    (state : CValidationState) : (node.invalidBlockFound hash state).IndexKept best := by
  have drops := invalidBlockFound_drops node hash state
  refine kept.drops drops ?_ ?_
  · exact (invalidBlockFound_same node hash state).vChain
  · apply kept.spoiled.grow drops.store drops.marked
    intro other
    by_cases intact : state.corruptionPossible = false
    · rw [(invalidBlockFound_marks node hash intact).spoiled]
      cases found : node.mapBlockIndex hash with
      | none => simp [markFailed, found]
      | some pindex => rw [markFailed_spoiled found]; exact id
    · rw [Bool.not_eq_false] at intact
      rw [Node.invalidBlockFound, if_pos intact]
      exact id

theorem IndexKept.pushTip (kept : node.IndexKept best) (same : SameIndex node middle)
    (path : middle.store.Path middle.vChain) (vChain : node.vChain = middle.vChain.dropLast) :
    node.tipRank ≤ middle.pruneBlockIndexCandidates.tipRank ∧
      middle.pruneBlockIndexCandidates.IndexKept
        (best ⊔ middle.pruneBlockIndexCandidates.tipRank) := by
  obtain ⟨index, pruned, chain, fewer⟩ := prune_same middle
  have links := same.toSameLinks.kept kept.links
  have rank : middle.pruneBlockIndexCandidates.tipRank = middle.tipRank := by
    rw [tipRank, tipRank, chain, pruned.chainRank]
  have rises : node.tipRank ≤ middle.tipRank := by
    rw [tipRank, vChain, ← same.chainRank]
    exact links.chainRank_dropLast path
  have complete := kept.candidates.held.prune same
  rw [rank]
  refine ⟨rises, pruned.kept links, ?path, ?spoiled, ?bounded, complete.linked, ?noWorse,
    complete.complete⟩
  case path =>
      rw [pruned.store, chain]
      exact path
  case spoiled =>
      apply (same.below kept.spoiled).grow pruned.store
      · intro hash mark
        rw [Node.marked, index]
        exact mark
      · intro hash mark
        rw [Node.spoiled, index] at mark
        exact mark
  case bounded => exact rank ▸ le_sup_right
  case noWorse =>
      intro hash member pindex found
      rw [index] at found
      rw [rank]
      exact ((mem_prune found).mp member).2

variable [ChainParams]

theorem disconnectTip_sameIndex {flushed done : Bool}
    (disconnected : disconnectTip node flushed = (after, done)) : SameIndex node after := by
  unfold disconnectTip at disconnected
  split at disconnected
  · exact (Prod.mk.inj disconnected).1 ▸ .refl node
  · split at disconnected
    · exact (Prod.mk.inj disconnected).1 ▸ .refl node
    · split at disconnected
      · exact (Prod.mk.inj disconnected).1 ▸ .refl node
      · rename_i pindexDelete _ _ block _ _ changed view fClean erased
        obtain rfl := disconnectBlock_node erased
        have same := erasePointer_sameIndex node block pindexDelete
        split at disconnected
        · exact (Prod.mk.inj disconnected).1 ▸ same
        · split at disconnected
          · exact (Prod.mk.inj disconnected).1 ▸ same.trans (.of_index rfl rfl rfl rfl)
          · exact (Prod.mk.inj disconnected).1 ▸ same.trans (.of_index rfl rfl rfl rfl)

theorem disconnectTip_indexKept (kept : node.IndexKept best) {flushed done : Bool}
    (disconnected : disconnectTip node flushed = (after, done)) : after.IndexKept best := by
  obtain ⟨_, _, chain⟩ := disconnectTip_blocks kept.path disconnected
  have same := disconnectTip_sameIndex disconnected
  cases done with
  | false => exact kept.same same chain
  | true => exact kept.dropTip same chain

/-- What `ConnectTip` does to links, marks and candidates: it leaves them alone, or it has found its
block invalid. -/
inductive ConnectIndex (node : Node) (hash : Uint256) (after : Node) : Verdict Unit → Prop
  | connected (same : SameIndex node after) : ConnectIndex node hash after (.ok ())
  | stopped {state : CValidationState} (same : SameIndex node after)
      (chain : after.vChain = node.vChain) (system : state.isInvalid = false) :
      ConnectIndex node hash after (.error state)
  | refused {state : CValidationState} (middle : Node) (same : SameIndex node middle)
      (chain : middle.vChain = node.vChain) (invalid : state.isInvalid = true)
      (marked : after = middle.invalidBlockFound hash state) :
      ConnectIndex node hash after (.error state)

theorem connectTip_index (sound : node.store.Sound) {hash : Uint256} {pindex : CBlockIndex}
    (found : node.mapBlockIndex hash = some pindex) (data : LocalData) (fScriptChecks : Bool)
    (pblock : Option CBlock) (flushed : Bool) {verdict : Verdict Unit}
    (connected : connectTip data node fScriptChecks pindex pblock flushed = (after, verdict)) :
    ConnectIndex node hash after verdict := by
  obtain ⟨holds, named, here⟩ := holds_of_sound sound found
  unfold connectTip at connected
  split at connected
  · obtain ⟨rfl, rfl⟩ := Prod.mk.inj connected
    exact .stopped (.refl node) rfl rfl
  · rename_i block read
    have same := connectBlock_sameIndex found named data fScriptChecks block node.pcoinsTip false
    have chain := (connectBlock_frame holds data fScriptChecks block node.pcoinsTip
      false).blocks.vChain
    simp only at connected
    split at connected
    · rename_i state refused
      split at connected
      · rename_i invalid
        obtain ⟨rfl, rfl⟩ := Prod.mk.inj connected
        exact .refused _ same chain invalid (by rw [here])
      · rename_i system
        obtain ⟨rfl, rfl⟩ := Prod.mk.inj connected
        exact .stopped same chain (Bool.eq_false_iff.mpr system)
    · split at connected
      · obtain ⟨rfl, rfl⟩ := Prod.mk.inj connected
        exact .connected (same.trans (.of_index rfl rfl rfl rfl))
      · obtain ⟨rfl, rfl⟩ := Prod.mk.inj connected
        exact .stopped (same.trans (.of_index rfl rfl rfl rfl)) chain rfl

theorem connectTip_indexKept (kept : node.IndexKept best) {hash : Uint256} {pindex : CBlockIndex}
    (found : node.mapBlockIndex hash = some pindex) (data : LocalData) (fScriptChecks : Bool)
    (pblock : Option CBlock) (flushed : Bool) {verdict : Verdict Unit}
    (connected : connectTip data node fScriptChecks pindex pblock flushed = (after, verdict)) :
    match verdict with
    | .ok _ => SameIndex node after
    | .error _ => after.IndexKept best ∧ after.tipRank = node.tipRank := by
  have unmoved : ∀ other, SameIndex node other → other.vChain = node.vChain →
      other.IndexKept best ∧ other.tipRank = node.tipRank := by
    intro other same chain
    refine ⟨kept.same same chain, ?_⟩
    rw [tipRank, tipRank, chain, same.chainRank]
  cases connectTip_index kept.links.sound found data fScriptChecks pblock flushed connected with
  | connected same => exact same
  | stopped same chain _ => exact unmoved after same chain
  | @refused state middle same chain _ marked =>
    obtain ⟨keptMiddle, rank⟩ := unmoved middle same chain
    subst marked
    refine ⟨keptMiddle.invalidBlockFound hash state, ?_⟩
    rw [← rank, tipRank, tipRank, (invalidBlockFound_same middle hash state).vChain,
      (invalidBlockFound_drops middle hash state).chainRank]

end

end Node

end Agouti
