import Agouti.Library.Worklist
import Agouti.Validation.Candidates

/-! # Linking blocks

`AddToBlockIndex` adds an entry without a body, and `ReceivedBlockTransactions` gives an entry its
body: then the block waits for its parent in `mapBlocksUnlinked`, or it is linked and with it, one
after the other, the blocks that wait for it. While the loop runs, the blocks of its queue are the
only ones that could be linked and are not.
-/

namespace Agouti

open List Function

namespace Node

variable {node after : Node} {best : WithBot Rank} {hash : Uint256} {later : CBlockIndex}

theorem index_update (index : after.mapBlockIndex =
      update node.mapBlockIndex hash (some later)) {other : Uint256} (apart : other ≠ hash) :
    after.mapBlockIndex other = node.mapBlockIndex other := by
  rw [index, update_of_ne apart]

theorem origin_update (index : after.mapBlockIndex =
      update node.mapBlockIndex hash (some later)) (other : Uint256) (pindex : CBlockIndex)
    (found : after.mapBlockIndex other = some pindex) :
    other = hash ∧ pindex = later ∨ other ≠ hash ∧ node.mapBlockIndex other = some pindex := by
  by_cases same : other = hash
  · subst same
    rw [index, update_self] at found
    exact .inl ⟨rfl, (Option.some.inj found).symm⟩
  · exact .inr ⟨same, index_update index same ▸ found⟩

theorem tipRank_update (active : ∀ hash ∈ node.vChain, node.linked hash)
    (unlinked : ¬ node.linked hash)
    (index : after.mapBlockIndex = update node.mapBlockIndex hash (some later))
    (vChain : after.vChain = node.vChain) : after.tipRank = node.tipRank := by
  unfold tipRank chainRank
  rw [vChain]
  cases last : node.vChain.getLast? with
  | none => rfl
  | some top =>
    have apart : top ≠ hash := by
      intro same
      exact unlinked (same ▸ active top (List.mem_of_getLast? last))
    rw [Option.bind_some, Option.bind_some, index_update index apart]

theorem linked_update (unlinked : ¬ node.linked hash) (fresh : later.nChainTx = 0)
    (index : after.mapBlockIndex = update node.mapBlockIndex hash (some later))
    (other : Uint256) : after.linked other ↔ node.linked other := by
  by_cases same : other = hash
  · subst same
    refine iff_of_false ?_ unlinked
    intro ⟨pindex, found, linked⟩
    rw [index, update_self] at found
    exact linked (Option.some.inj found ▸ fresh)
  · unfold Node.linked
    rw [index_update index same]

theorem entry_update (unlinked : ¬ node.linked hash) (fresh : later.nChainTx = 0)
    (index : after.mapBlockIndex = update node.mapBlockIndex hash (some later))
    {other : Uint256} {pindex : CBlockIndex} (found : after.mapBlockIndex other = some pindex)
    (counted : after.linked other) : node.mapBlockIndex other = some pindex := by
  have apart : other ≠ hash := by
    intro same
    exact unlinked (same ▸ (linked_update unlinked fresh index other).mp counted)
  exact index_update index apart ▸ found

theorem CandidatesHeld.place (held : node.CandidatesHeld best) (unlinked : ¬ node.linked hash)
    (fresh : later.nChainTx = 0)
    (index : after.mapBlockIndex = update node.mapBlockIndex hash (some later))
    (candidates : after.setBlockIndexCandidates = node.setBlockIndexCandidates) :
    after.CandidatesHeld best := by
  refine ⟨fun other member => ?_, fun other pindex found counted intact fits => ?_⟩
  · exact (linked_update unlinked fresh index other).mpr (held.linked other (candidates ▸ member))
  · rw [candidates]
    exact held.complete other pindex
      (entry_update unlinked fresh index found ⟨pindex, found, counted⟩) counted intact fits

/-- An entry without transactions changes no candidate. -/
theorem CandidatesKept.place (kept : node.CandidatesKept best)
    (active : ∀ hash ∈ node.vChain, node.linked hash) (unlinked : ¬ node.linked hash)
    (fresh : later.nChainTx = 0)
    (index : after.mapBlockIndex = update node.mapBlockIndex hash (some later))
    (vChain : after.vChain = node.vChain)
    (candidates : after.setBlockIndexCandidates = node.setBlockIndexCandidates) :
    after.CandidatesKept best := by
  have rank := tipRank_update active unlinked index vChain
  have held := kept.held.place unlinked fresh index candidates
  refine ⟨rank.symm ▸ kept.bounded, held.linked, ?noWorse, held.complete⟩
  case noWorse =>
      intro other member pindex found
      have counted := held.linked other member
      rw [candidates] at member
      rw [rank]
      exact kept.noWorse other member pindex (entry_update unlinked fresh index found counted)

theorem SpoiledBelowMarked.same (below : node.SpoiledBelowMarked) (same : SameMarks node after) :
    after.SpoiledBelowMarked := by
  intro other spoiled
  obtain ⟨ancestor, descends, marked⟩ := below other ((same.spoiled other).symm.trans spoiled)
  exact ⟨ancestor, same.toGrows.descends descends, (same.marked ancestor).trans marked⟩

variable [Crypto]

theorem LinksHeld.not_linked (kept : node.LinksHeld [])
    (bare : ∀ pindex, node.mapBlockIndex hash = some pindex → pindex.nStatus.haveData = false) :
    ¬ node.linked hash := by
  intro ⟨pindex, found, linked⟩
  have stored := (kept.stored hash pindex found linked).1
  rw [bare pindex found] at stored
  contradiction

theorem LinksHeld.place (kept : node.LinksHeld [])
    (index : after.mapBlockIndex = update node.mapBlockIndex hash (some later))
    (bare : ∀ pindex, node.mapBlockIndex hash = some pindex → pindex.nStatus.haveData = false)
    (fresh : later.nChainTx = 0) (sound : after.store.Sound) (grounded : after.store.Grounded)
    (treed : BLOCK_VALID_TREE ≤ later.nStatus.valid)
    (filled : later.nStatus.haveData = true →
      BLOCK_VALID_TRANSACTIONS ≤ later.nStatus.valid ∧ later.nTx ≠ 0)
    {waiting : List Uint256} (nodup : waiting.Nodup)
    (waits : ∀ other, other ∈ waiting ↔
      other = hash ∧ later.nStatus.haveData = true ∧ node.ParentLinked later)
    (unlinked : ∀ hashPrev other, (hashPrev, other) ∈ after.mapBlocksUnlinked ↔
      (hashPrev, other) ∈ node.mapBlocksUnlinked ∨ other = hash ∧
        later.nStatus.haveData = true ∧ later.pprev = some hashPrev ∧ ¬ node.linked hashPrev)
    (once : after.mapBlocksUnlinked.Nodup) : after.LinksHeld waiting := by
  have here : after.mapBlockIndex hash = some later := by
    rw [index, update_self]
  have linked := linked_update (kept.not_linked bare) fresh index
  have parent : ∀ pindex, after.ParentLinked pindex ↔ node.ParentLinked pindex := by
    intro pindex
    unfold ParentLinked
    simp only [linked]
  have origin := origin_update index
  refine ⟨sound, grounded, ?treed, ?filled, ?stored, ?joined, ?ready, nodup, ?unlinked,
    once⟩
  case treed =>
      intro other pindex found
      rcases origin other pindex found with ⟨_, rfl⟩ | ⟨_, found⟩
      · exact treed
      · exact kept.treed other pindex found
  case filled =>
      intro other pindex found stored
      rcases origin other pindex found with ⟨_, rfl⟩ | ⟨_, found⟩
      · exact filled stored
      · exact kept.filled other pindex found stored
  case stored =>
      intro other pindex found counted
      rcases origin other pindex found with ⟨_, rfl⟩ | ⟨_, found⟩
      · exact absurd fresh counted
      · rw [parent]
        exact kept.stored other pindex found counted
  case joined =>
      intro other pindex found stored above
      rw [parent] at above
      rcases origin other pindex found with ⟨same, rfl⟩ | ⟨_, found⟩
      · exact .inr ((waits other).mpr ⟨same, stored, above⟩)
      · exact .inl ((kept.joined other pindex found stored above).resolve_right not_mem_nil)
  case ready =>
      intro other member
      obtain ⟨rfl, stored, above⟩ := (waits other).mp member
      exact ⟨later, here, stored, fresh, (parent later).mpr above⟩
  case unlinked =>
      intro hashPrev other
      rw [unlinked, kept.unlinked]
      simp only [linked]
      constructor
      · rintro (⟨pindex, found, stored, pprev, missing⟩ | ⟨rfl, stored, pprev, missing⟩)
        · have apart : other ≠ hash := by
            rintro rfl
            rw [bare pindex found] at stored
            contradiction
          exact ⟨pindex, (index_update index apart).trans found, stored, pprev, missing⟩
        · exact ⟨later, here, stored, pprev, missing⟩
      · intro ⟨pindex, found, stored, pprev, missing⟩
        rcases origin other pindex found with ⟨same, rfl⟩ | ⟨_, found⟩
        · exact .inr ⟨same, stored, pprev, missing⟩
        · exact .inl ⟨pindex, found, stored, pprev, missing⟩

theorem LinksKept.place_work (kept : node.LinksKept []) (sound : after.store.Sound)
    (index : after.mapBlockIndex = update node.mapBlockIndex hash (some later))
    (bare : ∀ pindex, node.mapBlockIndex hash = some pindex →
      later.nChainWork = pindex.nChainWork)
    (work : ∀ prev, node.mapBlockIndex.prev later = some prev →
      prev.nChainWork < later.nChainWork) (other : Uint256) (pindex : CBlockIndex)
    (found : after.mapBlockIndex other = some pindex) (prev : CBlockIndex)
    (below : after.mapBlockIndex.prev pindex = some prev) :
    prev.nChainWork < pindex.nChainWork := by
  have here : after.mapBlockIndex hash = some later := by
    rw [index, update_self]
  have origin := origin_update index
  obtain ⟨hashPrev, pprev, present⟩ := Option.bind_eq_some_iff.mp below
  have old : ∀ prev, node.mapBlockIndex hashPrev = some prev →
      node.mapBlockIndex.prev pindex = some prev := fun prev there =>
    Option.bind_eq_some_iff.mpr ⟨hashPrev, pprev, there⟩
  rcases origin other pindex found with ⟨rfl, rfl⟩ | ⟨apart, found⟩
  · rcases origin hashPrev prev present with ⟨rfl, rfl⟩ | ⟨_, there⟩
    · obtain ⟨core, same, height⟩ :=
        sound.parent _ _ (store_cores here) hashPrev pprev
      rw [store_cores here] at same
      obtain rfl := Option.some.inj same
      omega
    · exact work prev (old prev there)
  · rcases origin hashPrev prev present with ⟨rfl, rfl⟩ | ⟨_, there⟩
    · obtain ⟨core, same, _⟩ :=
        kept.sound.parent _ _ (store_cores found) hashPrev pprev
      obtain ⟨before, there, rfl⟩ := entry_of_core same
      rw [bare before there]
      exact kept.work other pindex found before (old before there)
    · exact kept.work other pindex found prev (old prev there)

theorem newIndex_status (node : Node) (block : CBlock) :
    (node.newIndex block).nChainTx = 0 ∧ BLOCK_VALID_TREE ≤ (node.newIndex block).nStatus.valid := by
  unfold newIndex
  simp only
  refine ⟨(CBlockIndex.raiseValidity_mark _ BLOCK_VALID_TREE).nChainTx, ?_⟩
  exact CBlockIndex.raiseValidity_valid BLOCK_VALID_TREE rfl

theorem LinksHeld.addToBlockIndex (kept : node.LinksHeld []) (block : CBlock) :
    (node.addToBlockIndex block).LinksHeld [] := by
  cases known : node.mapBlockIndex block.getHash with
  | some pindex =>
    have same : node.addToBlockIndex block = node := by simp [Node.addToBlockIndex, known]
    exact same.symm ▸ kept
  | none =>
    obtain ⟨arrival, _⟩ := addToBlockIndex_arrival known
    obtain ⟨fresh, treed⟩ := newIndex_status node block
    have data : (node.newIndex block).nStatus.haveData = false :=
      congrArg IndexCore.haveData (newIndex_core node block)
    have index : (node.addToBlockIndex block).mapBlockIndex =
        update node.mapBlockIndex block.getHash (some (node.newIndex block)) := by
      simp [Node.addToBlockIndex, known, setIndex]
    have unlinked : (node.addToBlockIndex block).mapBlocksUnlinked = node.mapBlocksUnlinked := by
      simp [Node.addToBlockIndex, known, setIndex]
    refine kept.place index ?_ fresh (arrival.sound kept.sound) (arrival.grounded kept.grounded)
      treed ?_ nodup_nil ?_ ?_ (unlinked ▸ kept.once)
    · intro pindex found
      rw [known] at found
      contradiction
    · intro stored
      rw [data] at stored
      contradiction
    · simp [data]
    · simp [data, unlinked]

theorem IndexKept.addToBlockIndex (kept : node.IndexKept best) {block : CBlock}
    (work : ∀ prev, node.mapBlockIndex block.hashPrevBlock = some prev →
      prev.nChainWork < (node.newIndex block).nChainWork) :
    (node.addToBlockIndex block).IndexKept best := by
  cases known : node.mapBlockIndex block.getHash with
  | some pindex =>
    have same : node.addToBlockIndex block = node := by simp [Node.addToBlockIndex, known]
    exact same.symm ▸ kept
  | none =>
    obtain ⟨arrival, vChain, _, _⟩ := addToBlockIndex_arrival known
    obtain ⟨fresh, treed⟩ := newIndex_status node block
    have core := newIndex_core node block
    have data : (node.newIndex block).nStatus.haveData = false := congrArg IndexCore.haveData core
    have pprev : (node.newIndex block).pprev =
        (node.mapBlockIndex block.hashPrevBlock).map fun _ => block.hashPrevBlock :=
      congrArg IndexCore.pprev core
    have index : (node.addToBlockIndex block).mapBlockIndex =
        update node.mapBlockIndex block.getHash (some (node.newIndex block)) := by
      simp [Node.addToBlockIndex, known, setIndex]
    have others : (node.addToBlockIndex block).mapBlocksUnlinked = node.mapBlocksUnlinked ∧
        (node.addToBlockIndex block).setBlockIndexCandidates = node.setBlockIndexCandidates := by
      simp [Node.addToBlockIndex, known, setIndex]
    have bottom : ¬ node.linked block.getHash := by
      rintro ⟨pindex, found, _⟩
      rw [known] at found
      contradiction
    refine ⟨?links, ?path, kept.spoiled.same (addToBlockIndex_marks known), ?candidates⟩
    case links =>
        refine ⟨kept.links.toLinksHeld.addToBlockIndex block, ?_⟩
        apply kept.links.place_work (arrival.sound kept.links.sound) index
        · intro pindex found
          rw [known] at found
          contradiction
        · intro prev below
          obtain ⟨hashPrev, here, present⟩ := Option.bind_eq_some_iff.mp below
          rw [pprev, Option.map_eq_some_iff] at here
          obtain ⟨_, _, rfl⟩ := here
          exact work prev present
    case path =>
        rw [vChain]
        exact kept.path.arrival arrival
    case candidates =>
        exact kept.candidates.place (kept.links.active kept.path) bottom fresh index vChain
          others.2

/-! ### The loop -/

/-- One round of the loop: the block is linked, and the blocks that wait for it are next. -/
def linkVisit (hash : Uint256) (node : Node) : Option (Node × List Uint256) :=
  (node.mapBlockIndex hash).map fun pindex =>
    let linked := node.linkBlock hash pindex
    let parts := linked.mapBlocksUnlinked.partition fun link => link.1 == hash
    ({ linked with mapBlocksUnlinked := parts.2 }, parts.1.map Prod.snd)

omit [Crypto] in
theorem linkBlocks_eq_run (fuel : Nat) (queue : List Uint256) (node : Node) :
    linkBlocks fuel queue node = Worklist.run linkVisit fuel queue node := by
  induction fuel generalizing queue node with
  | zero => rfl
  | succ fuel ih =>
    cases queue with
    | nil => rfl
    | cons hash queue =>
      unfold linkBlocks Worklist.run linkVisit
      cases node.mapBlockIndex hash with
      | none => exact ih queue node
      | some pindex => exact ih _ _

def linkedIndex (node : Node) (pindex : CBlockIndex) : CBlockIndex :=
  { pindex with
    nChainTx := ((node.mapBlockIndex.prev pindex).map CBlockIndex.nChainTx).getD 0 + pindex.nTx
    nSequenceId := node.nBlockSequenceId }

/-- What a round of the loop changes. -/
structure LinkStep (hash : Uint256) (pindex : CBlockIndex) (found : List Uint256)
    (node next : Node) : Prop where
  entry : node.mapBlockIndex hash = some pindex
  index : next.mapBlockIndex =
    update node.mapBlockIndex hash (some (node.linkedIndex pindex))
  records : SameRecords node next
  unlinked : next.mapBlocksUnlinked = node.mapBlocksUnlinked.filter fun link => link.1 != hash
  found : found = (node.mapBlocksUnlinked.filter fun link => link.1 == hash).map Prod.snd
  candidates : ∃ stage : Node,
    stage.mapBlockIndex = update node.mapBlockIndex hash (some (node.linkedIndex pindex)) ∧
      stage.vChain = node.vChain ∧
      stage.setBlockIndexCandidates = node.setBlockIndexCandidates ∧
      next.setBlockIndexCandidates =
        (stage.insertCandidate (node.linkedIndex pindex)).setBlockIndexCandidates

omit [Crypto] in
theorem insertCandidate_index (node : Node) (pindex : CBlockIndex) :
    (node.insertCandidate pindex).mapBlockIndex = node.mapBlockIndex ∧
      (node.insertCandidate pindex).mapBlocksUnlinked = node.mapBlocksUnlinked := by
  unfold insertCandidate
  split
  · exact ⟨rfl, rfl⟩
  · exact ⟨rfl, rfl⟩

omit [Crypto] in
theorem linkVisit_step {next : Node} {found : List Uint256}
    (visited : linkVisit hash node = some (next, found)) :
    ∃ pindex, LinkStep hash pindex found node next := by
  unfold linkVisit at visited
  obtain ⟨pindex, entry, visited⟩ := Option.map_eq_some_iff.mp visited
  obtain ⟨rfl, rfl⟩ := Prod.mk.inj visited
  let stage : Node := { node.setIndex hash (node.linkedIndex pindex) with
    nBlockSequenceId := node.nBlockSequenceId + 1 }
  have fields := insertCandidate_index stage (node.linkedIndex pindex)
  have unlinked : (node.linkBlock hash pindex).mapBlocksUnlinked = node.mapBlocksUnlinked :=
    fields.2
  have same := linkBlock_same entry
  refine ⟨pindex, entry, fields.1, ⟨⟨same.entries, same.diskBlocks, same.vChain⟩, same.used⟩, ?_,
    ?_, stage, rfl, rfl, rfl, rfl⟩
  · rw [unlinked, partition_eq_filter_filter]
    rfl
  · rw [unlinked, partition_eq_filter_filter]

namespace LinkStep

variable {next : Node} {pindex : CBlockIndex} {queue found : List Uint256}

section

variable (step : LinkStep hash pindex found node next)

include step

omit [Crypto] in
theorem origin {other : Uint256} {entry : CBlockIndex}
    (present : next.mapBlockIndex other = some entry) :
    other = hash ∧ entry = node.linkedIndex pindex ∨
      other ≠ hash ∧ node.mapBlockIndex other = some entry := by
  by_cases same : other = hash
  · subst same
    rw [step.index, update_self] at present
    exact .inl ⟨rfl, (Option.some.inj present).symm⟩
  · exact .inr ⟨same, index_update step.index same ▸ present⟩

omit [Crypto] in
theorem linked_iff (some : pindex.nTx ≠ 0)
    (other : Uint256) : next.linked other ↔ other = hash ∨ node.linked other := by
  by_cases same : other = hash
  · subst same
    refine iff_of_true ⟨node.linkedIndex pindex, ?_, ?_⟩ (.inl rfl)
    · rw [step.index, update_self]
    · show ((node.mapBlockIndex.prev pindex).map CBlockIndex.nChainTx).getD 0 + pindex.nTx ≠ 0
      omega
  · unfold Node.linked
    rw [index_update step.index same, or_iff_right same]

omit [Crypto] in
theorem before (other : Uint256)
    (entry : CBlockIndex) (present : next.mapBlockIndex other = some entry) :
    ∃ old, node.mapBlockIndex other = some old ∧ old.pprev = entry.pprev ∧
      old.nChainWork = entry.nChainWork ∧ old.nStatus = entry.nStatus ∧ old.nTx = entry.nTx := by
  rcases step.origin present with ⟨rfl, rfl⟩ | ⟨_, there⟩
  · exact ⟨pindex, step.entry, rfl, rfl, rfl, rfl⟩
  · exact ⟨entry, there, rfl, rfl, rfl, rfl⟩

theorem held
    (kept : node.LinksHeld (hash :: queue)) : next.LinksHeld (queue ++ found) := by
  have store := step.records.blocks.store
  obtain ⟨entry, present, stored, unlinked, above⟩ := kept.ready hash mem_cons_self
  rw [step.entry] at present
  obtain rfl := Option.some.inj present
  obtain ⟨valid, filled⟩ := kept.filled hash pindex step.entry stored
  have linked := step.linked_iff filled
  have bottom : ¬ node.linked hash := by
    intro ⟨entry, here, counted⟩
    rw [step.entry] at here
    exact counted (Option.some.inj here ▸ unlinked)
  have parent : ∀ entry, node.ParentLinked entry → next.ParentLinked entry :=
    fun entry above hashPrev pprev => (linked hashPrev).mpr (.inr (above hashPrev pprev))
  obtain ⟨fresh, nodup⟩ := nodup_cons.mp kept.nodup
  have before := step.before
  have waits : ∀ other, other ∈ found ↔ (hash, other) ∈ node.mapBlocksUnlinked := by
    intro other
    rw [step.found]
    simp only [mem_map, mem_filter, beq_iff_eq, Prod.exists, exists_eq_right]
  refine ⟨store.symm ▸ kept.sound, store.symm ▸ kept.grounded, ?treed, ?filled, ?stored,
    ?joined, ?ready, ?nodup, ?unlinked, ?once⟩
  case treed =>
      intro other entry present
      obtain ⟨old, here, _, _, status, _⟩ := before other entry present
      exact status ▸ kept.treed other old here
  case filled =>
      intro other entry present data
      obtain ⟨old, here, _, _, status, count⟩ := before other entry present
      rw [← status, ← count]
      exact kept.filled other old here (status ▸ data)
  case stored =>
      intro other entry present counted
      rcases step.origin present with ⟨_, rfl⟩ | ⟨_, there⟩
      · exact ⟨stored, parent _ above⟩
      · obtain ⟨data, above⟩ := kept.stored other entry there counted
        exact ⟨data, parent entry above⟩
  case joined =>
      intro other entry present data aboveNext
      rcases step.origin present with ⟨_, rfl⟩ | ⟨apart, there⟩
      · left
        show ((node.mapBlockIndex.prev pindex).map CBlockIndex.nChainTx).getD 0 + pindex.nTx ≠ 0
        omega
      · by_cases aboveOld : node.ParentLinked entry
        · rcases kept.joined other entry there data aboveOld with counted | member
          · exact .inl counted
          · have inside := (mem_cons.mp member).resolve_left apart
            exact .inr (mem_append_left found inside)
        · -- the parent is the block of this round
          simp only [ParentLinked, not_forall] at aboveOld
          obtain ⟨hashPrev, pprev, missing⟩ := aboveOld
          have here : hashPrev = hash :=
            ((linked hashPrev).mp (aboveNext hashPrev pprev)).resolve_right missing
          subst here
          right
          apply mem_append_right
          rw [waits, kept.unlinked]
          exact ⟨entry, there, data, pprev, missing⟩
  case ready =>
      intro other member
      rcases mem_append.mp member with inside | behind
      · obtain ⟨entry, there, data, uncounted, above⟩ :=
          kept.ready other (mem_cons_of_mem hash inside)
        have apart : other ≠ hash := fun same => fresh (same ▸ inside)
        exact ⟨entry, (index_update step.index apart).trans there, data, uncounted,
          parent entry above⟩
      · obtain ⟨entry, there, data, pprev, missing⟩ :=
          (kept.unlinked hash other).mp ((waits other).mp behind)
        have apart : other ≠ hash := by
          rintro rfl
          obtain ⟨core, same, height⟩ := kept.sound.parent _ _ (store_cores there) other pprev
          rw [store_cores there] at same
          obtain rfl := Option.some.inj same
          omega
        have uncounted : entry.nChainTx = 0 := by
          by_contra counted
          exact missing ((kept.stored other entry there counted).2 hash pprev)
        refine ⟨entry, (index_update step.index apart).trans there, data, uncounted, ?_⟩
        intro hashPrev named
        rw [pprev] at named
        exact (linked hashPrev).mpr (.inl (Option.some.inj named).symm)
  case nodup =>
      refine nodup_append.mpr ⟨nodup, ?_, ?_⟩
      · rw [step.found]
        refine List.Nodup.map_on ?_ (kept.once.filter _)
        intro first memberFirst second memberSecond same
        have keyFirst := (mem_filter.mp memberFirst).2
        have keySecond := (mem_filter.mp memberSecond).2
        rw [beq_iff_eq] at keyFirst keySecond
        exact Prod.ext (keyFirst.trans keySecond.symm) same
      · intro other inside _ behind same
        subst same
        obtain ⟨entry, there, _, _, above⟩ :=
          kept.ready other (mem_cons_of_mem hash inside)
        obtain ⟨again, present, _, pprev, missing⟩ :=
          (kept.unlinked hash other).mp ((waits other).mp behind)
        rw [there] at present
        obtain rfl := Option.some.inj present
        exact missing (above hash pprev)
  case unlinked =>
      intro hashPrev other
      rw [step.unlinked, mem_filter, kept.unlinked]
      simp only [linked, bne_iff_ne, not_or]
      constructor
      · intro ⟨⟨entry, there, data, pprev, missing⟩, apart⟩
        by_cases same : other = hash
        · subst same
          rw [step.entry] at there
          obtain rfl := Option.some.inj there
          refine ⟨node.linkedIndex pindex, ?_, data, pprev, apart, missing⟩
          rw [step.index, update_self]
        · exact ⟨entry, (index_update step.index same).trans there, data, pprev, apart, missing⟩
      · intro ⟨entry, there, data, pprev, apart, missing⟩
        obtain ⟨old, here, same, _, status, _⟩ := before other entry there
        exact ⟨⟨old, here, status ▸ data, same.trans pprev, missing⟩, apart⟩
  case once =>
      rw [step.unlinked]
      exact kept.once.filter _

theorem links
    (kept : node.LinksKept (hash :: queue)) : next.LinksKept (queue ++ found) := by
  refine ⟨step.held kept.toLinksHeld, ?_⟩
  intro other entry present prev below
  obtain ⟨hashPrev, pprev, there⟩ := Option.bind_eq_some_iff.mp below
  obtain ⟨old, here, same, work, _, _⟩ := step.before other entry present
  obtain ⟨oldPrev, herePrev, _, workPrev, _, _⟩ := step.before hashPrev prev there
  rw [← work, ← workPrev]
  apply kept.work other old here oldPrev
  exact Option.bind_eq_some_iff.mpr ⟨hashPrev, same.trans pprev, herePrev⟩

theorem not_linked
    (links : node.LinksHeld (hash :: queue)) : ¬ node.linked hash ∧ pindex.nTx ≠ 0 := by
  obtain ⟨entry, present, stored, uncounted, _⟩ := links.ready hash mem_cons_self
  rw [step.entry] at present
  obtain rfl := Option.some.inj present
  refine ⟨fun ⟨entry, here, counted⟩ => ?_, (links.filled hash pindex step.entry stored).2⟩
  rw [step.entry] at here
  exact counted (Option.some.inj here ▸ uncounted)

theorem mem_candidates
    (links : node.LinksHeld (hash :: queue)) (active : ∀ hash ∈ node.vChain, node.linked hash)
    (other : Uint256) : other ∈ next.setBlockIndexCandidates ↔
      other ∈ node.setBlockIndexCandidates ∨ other = hash ∧
        node.tipRank ≤ ((node.linkedIndex pindex).rank : WithBot Rank) := by
  obtain ⟨stage, index, vChain, same, inserted⟩ := step.candidates
  have rankStage := tipRank_update active (step.not_linked links).1 index vChain
  have here : (node.linkedIndex pindex).getBlockHash = hash := by
    have named : pindex.phashBlock = some hash := links.sound.hash hash _ (store_cores step.entry)
    show pindex.phashBlock.getD 0 = hash
    rw [named, Option.getD_some]
  rw [inserted, mem_insertCandidate, same, rankStage, here]

theorem candidatesHeld
    (links : node.LinksHeld (hash :: queue)) (active : ∀ hash ∈ node.vChain, node.linked hash)
    (bounded : node.tipRank ≤ best) (held : node.CandidatesHeld best) :
    next.CandidatesHeld best := by
  have linked := step.linked_iff (step.not_linked links).2
  have member := step.mem_candidates links active
  refine ⟨fun other inside => ?_, fun other entry there counted intact fits => ?_⟩
  · rw [linked]
    rcases (member other).mp inside with old | ⟨rfl, _⟩
    · exact .inr (held.linked other old)
    · exact .inl rfl
  · rw [member]
    rcases step.origin there with ⟨rfl, rfl⟩ | ⟨_, there⟩
    · exact .inr ⟨rfl, bounded.trans fits⟩
    · exact .inl (held.complete other entry there counted intact fits)

theorem candidatesKept
    (links : node.LinksKept (hash :: queue)) (active : ∀ hash ∈ node.vChain, node.linked hash)
    (kept : node.CandidatesKept best) : next.CandidatesKept best := by
  have bottom := (step.not_linked links.toLinksHeld).1
  have rank := tipRank_update active bottom step.index step.records.vChain
  have member := step.mem_candidates links.toLinksHeld active
  have held := step.candidatesHeld links.toLinksHeld active kept.bounded kept.held
  refine ⟨rank.symm ▸ kept.bounded, held.linked, ?noWorse, held.complete⟩
  case noWorse =>
      intro other inside entry there
      rw [rank]
      rcases step.origin there with ⟨rfl, rfl⟩ | ⟨apart, there⟩
      · rcases (member other).mp inside with old | ⟨_, fits⟩
        · exact absurd (kept.linked other old) bottom
        · exact fits
      · have old := ((member other).mp inside).resolve_right fun new => apart new.1
        exact kept.noWorse other old entry there

end

end LinkStep

omit [Crypto] in
theorem linkVisit_supplied :
    Worklist.Supplied linkVisit fun node => node.mapBlocksUnlinked.length := by
  intro hash node next found visited
  obtain ⟨pindex, step⟩ := linkVisit_step visited
  have whole : node.mapBlocksUnlinked.length =
      (node.mapBlocksUnlinked.filter fun link => link.1 == hash).length +
        (node.mapBlocksUnlinked.filter fun link => link.1 != hash).length :=
    length_eq_length_filter_add fun link : Uint256 × Uint256 => link.1 == hash
  simp only [step.unlinked, step.found, length_map]
  omega

theorem linkBlocks_held {queue : List Uint256} (links : node.LinksHeld queue) {fuel : Nat}
    (enough : queue.length + node.mapBlocksUnlinked.length ≤ fuel) :
    (linkBlocks fuel queue node).LinksHeld [] := by
  rw [linkBlocks_eq_run]
  refine Worklist.run_rule linkVisit_supplied (fun queue node => node.LinksHeld queue) ?pass ?take
    enough links
  case pass =>
      intro hash queue node links none
      obtain ⟨pindex, found, _⟩ := links.ready hash mem_cons_self
      simp [linkVisit, found] at none
  case take =>
      intro hash queue node next found links visited
      obtain ⟨pindex, step⟩ := linkVisit_step visited
      exact step.held links

theorem linkBlocks_kept {queue : List Uint256} (links : node.LinksKept queue)
    (active : ∀ hash ∈ node.vChain, node.linked hash) (candidates : node.CandidatesKept best)
    {fuel : Nat} (enough : queue.length + node.mapBlocksUnlinked.length ≤ fuel) :
    (linkBlocks fuel queue node).LinksKept [] ∧ (linkBlocks fuel queue node).CandidatesKept best := by
  rw [linkBlocks_eq_run]
  have kept := Worklist.run_rule linkVisit_supplied
    (fun queue node => node.LinksKept queue ∧ (∀ hash ∈ node.vChain, node.linked hash) ∧
      node.CandidatesKept best) ?pass ?take enough ⟨links, active, candidates⟩
  · exact ⟨kept.1, kept.2.2⟩
  case pass =>
      intro hash queue node ⟨links, _⟩ none
      obtain ⟨pindex, found, _⟩ := links.ready hash mem_cons_self
      simp [linkVisit, found] at none
  case take =>
      intro hash queue node next found ⟨links, active, candidates⟩ visited
      obtain ⟨pindex, step⟩ := linkVisit_step visited
      obtain ⟨entry, present, stored, _⟩ := links.ready hash mem_cons_self
      rw [step.entry] at present
      obtain rfl := Option.some.inj present
      have linked := step.linked_iff (links.filled hash pindex step.entry stored).2
      refine ⟨step.links links, ?_, step.candidatesKept links active candidates⟩
      intro other member
      rw [step.records.vChain] at member
      exact (linked other).mpr (.inr (active other member))

/-! ### Bodies -/

/-- What `ReceivedBlockTransactions` writes into the entry of a block. -/
structure HasBody (block : CBlock) (pindex later : CBlockIndex) : Prop where
  phashBlock : later.phashBlock = pindex.phashBlock
  pprev : later.pprev = pindex.pprev
  nChainWork : later.nChainWork = pindex.nChainWork
  nTx : later.nTx = block.vtx.length
  nChainTx : later.nChainTx = 0
  haveData : later.nStatus.haveData = true
  valid : BLOCK_VALID_TRANSACTIONS ≤ later.nStatus.valid

theorem receivedIndex_hasBody (node : Node) (block : CBlock) {pindex : CBlockIndex}
    (intact : pindex.nStatus.failed = false) :
    HasBody block pindex (node.receivedIndex block pindex) := by
  obtain ⟨place, stored, _⟩ := receivedIndex_status node block pindex
  -- the entry before its validity is raised
  have raised : ∃ base : CBlockIndex, base.SameMark (node.receivedIndex block pindex) ∧
      base.nChainTx = 0 ∧ base.nTx = block.vtx.length ∧ base.nChainWork = pindex.nChainWork ∧
      BLOCK_VALID_TRANSACTIONS ≤ (node.receivedIndex block pindex).nStatus.valid := by
    unfold receivedIndex
    cases block.isProofOfStake with
    | false =>
      simp only [Bool.false_eq_true, ↓reduceIte]
      exact ⟨_, CBlockIndex.raiseValidity_mark _ _, rfl, rfl, rfl,
        CBlockIndex.raiseValidity_valid _ intact⟩
    | true =>
      simp only [↓reduceIte]
      exact ⟨_, CBlockIndex.raiseValidity_mark _ _, rfl, rfl, rfl,
        CBlockIndex.raiseValidity_valid _ intact⟩
  obtain ⟨base, same, fresh, count, work, level⟩ := raised
  exact ⟨place.phashBlock, place.pprev, same.nChainWork.trans work, same.nTx.trans count,
    same.nChainTx.trans fresh, stored, level⟩

/-- The entry of a block has its body, and nothing else has changed but what waits. -/
structure BodyPlaced (block : CBlock) (later : CBlockIndex) (node mid : Node) : Prop where
  index : mid.mapBlockIndex = update node.mapBlockIndex block.getHash (some later)
  sound : mid.store.Sound
  grounded : mid.store.Grounded
  vChain : mid.vChain = node.vChain
  candidates : mid.setBlockIndexCandidates = node.setBlockIndexCandidates

section

variable {block : CBlock} {pindex : CBlockIndex} {mid : Node}

theorem BodyPlaced.held (placed : BodyPlaced block later node mid) (kept : node.LinksHeld [])
    (found : node.mapBlockIndex block.getHash = some pindex)
    (header : pindex.nStatus.haveData = false) (filled : block.vtx ≠ [])
    (body : HasBody block pindex later) {waiting : List Uint256} (nodup : waiting.Nodup)
    (waits : ∀ other, other ∈ waiting ↔ other = block.getHash ∧ node.ParentLinked pindex)
    (unlinked : ∀ hashPrev other, (hashPrev, other) ∈ mid.mapBlocksUnlinked ↔
      (hashPrev, other) ∈ node.mapBlocksUnlinked ∨ other = block.getHash ∧
        pindex.pprev = some hashPrev ∧ ¬ node.linked hashPrev)
    (once : mid.mapBlocksUnlinked.Nodup) : mid.LinksHeld waiting := by
  refine kept.place placed.index ?bare body.nChainTx placed.sound placed.grounded ?treed ?filled
    nodup ?waits ?unlinked once
  case bare =>
      intro entry present
      rw [found] at present
      exact Option.some.inj present ▸ header
  case treed => exact le_trans (by decide) body.valid
  case filled =>
      intro _
      refine ⟨body.valid, ?_⟩
      rw [body.nTx]
      exact fun empty => filled (length_eq_zero_iff.mp empty)
  case waits =>
      intro other
      unfold ParentLinked
      rw [waits, body.pprev]
      simp only [body.haveData, true_and, ParentLinked]
  case unlinked =>
      intro hashPrev other
      rw [unlinked, body.pprev]
      simp only [body.haveData, true_and]

theorem BodyPlaced.link (placed : BodyPlaced block later node mid) (kept : node.LinksHeld [])
    (found : node.mapBlockIndex block.getHash = some pindex)
    (header : pindex.nStatus.haveData = false) (filled : block.vtx ≠ [])
    (body : HasBody block pindex later) (above : node.ParentLinked pindex)
    (unlinked : mid.mapBlocksUnlinked = node.mapBlocksUnlinked) :
    mid.LinksHeld [block.getHash] := by
  apply placed.held kept found header filled body (nodup_singleton block.getHash)
  · simp [above]
  · intro hashPrev other
    rw [unlinked]
    refine (or_iff_left ?_).symm
    intro ⟨_, pprev, missing⟩
    exact missing (above hashPrev pprev)
  · exact unlinked ▸ kept.once

theorem BodyPlaced.wait (placed : BodyPlaced block later node mid) (kept : node.LinksHeld [])
    (found : node.mapBlockIndex block.getHash = some pindex)
    (header : pindex.nStatus.haveData = false) (filled : block.vtx ≠ [])
    (body : HasBody block pindex later) {hashPrev : Uint256} (pprev : pindex.pprev = some hashPrev)
    (missing : ¬ node.linked hashPrev)
    (unlinked : mid.mapBlocksUnlinked = node.mapBlocksUnlinked ++ [(hashPrev, block.getHash)]) :
    mid.LinksHeld [] := by
  have apart : ¬ node.ParentLinked pindex := fun above => missing (above hashPrev pprev)
  have outside : (hashPrev, block.getHash) ∉ node.mapBlocksUnlinked := by
    intro member
    obtain ⟨entry, present, stored, _⟩ := (kept.unlinked _ _).mp member
    rw [found] at present
    obtain rfl := Option.some.inj present
    rw [header] at stored
    contradiction
  apply placed.held kept found header filled body nodup_nil
  · simp [apart]
  · intro other hash
    rw [unlinked, mem_append, mem_singleton, Prod.mk.injEq, pprev, Option.some.injEq]
    constructor
    · rintro (old | ⟨rfl, rfl⟩)
      · exact .inl old
      · exact .inr ⟨rfl, rfl, missing⟩
    · rintro (old | ⟨rfl, rfl, _⟩)
      · exact .inl old
      · exact .inr ⟨rfl, rfl⟩
  · rw [unlinked]
    exact concat_eq_append ▸ List.Nodup.concat outside kept.once

theorem BodyPlaced.kept (placed : BodyPlaced block later node mid) (kept : node.IndexKept best)
    (found : node.mapBlockIndex block.getHash = some pindex)
    (header : pindex.nStatus.haveData = false) (body : HasBody block pindex later)
    {waiting : List Uint256} (held : mid.LinksHeld waiting) :
    mid.LinksKept waiting ∧ (∀ hash ∈ mid.vChain, mid.linked hash) ∧ mid.CandidatesKept best := by
  have active := kept.links.active kept.path
  have bare : ∀ entry, node.mapBlockIndex block.getHash = some entry → entry = pindex := by
    intro entry present
    rw [found] at present
    exact (Option.some.inj present).symm
  have bottom := kept.links.not_linked fun entry present => bare entry present ▸ header
  refine ⟨⟨held, ?work⟩, ?active,
    kept.candidates.place active bottom body.nChainTx placed.index placed.vChain
      placed.candidates⟩
  case work =>
      apply kept.links.place_work placed.sound placed.index
      · intro entry present
        rw [bare entry present]
        exact body.nChainWork
      · intro prev below
        unfold BlockMap.prev at below
        rw [body.pprev] at below
        rw [body.nChainWork]
        exact kept.links.work _ pindex found prev below
  case active =>
      intro hash member
      rw [linked_update bottom body.nChainTx placed.index]
      exact active hash (placed.vChain ▸ member)

end

/-- What `ReceivedBlockTransactions` does ahead of its loop, and whether it enters the loop. -/
def placeBody (node : Node) (block : CBlock) (pindexNew : CBlockIndex) : Node × Bool :=
  let pindexNew := node.receivedIndex block pindexNew
  let hash := pindexNew.getBlockHash
  let node :=
    { node.setIndex hash pindexNew with
      setStakeSeen :=
        if block.isProofOfStake then
          node.setStakeSeen.insert (pindexNew.prevoutStake, pindexNew.nStakeTime)
        else node.setStakeSeen }
  match pindexNew.pprev with
  | none => (node, true)
  | some hashPrev =>
    match node.mapBlockIndex hashPrev with
    | none => (node, false)
    | some prev =>
      if prev.nChainTx ≠ 0 then (node, true)
      else if prev.isValid BLOCK_VALID_TREE then
        ({ node with mapBlocksUnlinked := node.mapBlocksUnlinked ++ [(hashPrev, hash)] }, false)
      else (node, false)

theorem receivedBlockTransactions_eq (node : Node) (block : CBlock) (pindex : CBlockIndex) :
    node.receivedBlockTransactions block pindex =
      if (node.placeBody block pindex).2 then
        linkBlocks ((node.placeBody block pindex).1.mapBlocksUnlinked.length + 1)
          [(node.receivedIndex block pindex).getBlockHash] (node.placeBody block pindex).1
      else (node.placeBody block pindex).1 := by
  unfold receivedBlockTransactions placeBody
  simp only
  cases (node.receivedIndex block pindex).pprev with
  | none => rfl
  | some hashPrev =>
    simp only
    cases (node.setIndex (node.receivedIndex block pindex).getBlockHash
        (node.receivedIndex block pindex)).mapBlockIndex hashPrev with
    | none => rfl
    | some prev =>
      simp only
      by_cases linked : prev.nChainTx ≠ 0
      · rw [if_pos linked, if_pos linked]
        rfl
      · rw [if_neg linked, if_neg linked]
        by_cases valid : prev.isValid BLOCK_VALID_TREE = true
        · rw [if_pos valid, if_pos valid]
          rfl
        · rw [if_neg valid, if_neg valid]
          rfl

theorem placeBody_cases (held : node.LinksHeld []) {block : CBlock} {pindex : CBlockIndex}
    (found : node.mapBlockIndex block.getHash = some pindex)
    (header : pindex.nStatus.haveData = false) (intact : pindex.nStatus.failed = false)
    (parent : ∀ prev, node.mapBlockIndex.prev pindex = some prev → prev.nStatus.failed = false)
    (filled : block.vtx ≠ []) :
    let disk : Node := { node with
      diskBlocks := update node.diskBlocks pindex.getBlockHash (some block) }
    let mid := (disk.placeBody block pindex).1
    BodyPlaced block (disk.receivedIndex block pindex) node mid ∧
      HasBody block pindex (disk.receivedIndex block pindex) ∧
      (disk.receivedIndex block pindex).getBlockHash = block.getHash ∧
      if (disk.placeBody block pindex).2 then mid.LinksHeld [block.getHash]
      else mid.LinksHeld [] := by
  obtain ⟨_, named, here⟩ := holds_of_sound held.sound found
  obtain ⟨arrival, _⟩ := storeBlock_arrival (store_cores found) named header
  intro disk mid
  have body := disk.receivedIndex_hasBody block intact
  have name : (disk.receivedIndex block pindex).getBlockHash = block.getHash := by
    rw [CBlockIndex.getBlockHash, body.phashBlock, named, Option.getD_some]
  have store := (receivedBlockTransactions_entries disk block pindex).1.blocks.store
  have place : ∀ mid : Node,
      mid.store = (disk.setIndex block.getHash (disk.receivedIndex block pindex)).store →
      mid.mapBlockIndex =
        update node.mapBlockIndex block.getHash (some (disk.receivedIndex block pindex)) →
      mid.vChain = node.vChain → mid.setBlockIndexCandidates = node.setBlockIndexCandidates →
      BodyPlaced block (disk.receivedIndex block pindex) node mid := by
    intro mid same index vChain candidates
    rw [here] at store
    exact ⟨index, same ▸ store ▸ arrival.sound held.sound,
      same ▸ store ▸ arrival.grounded held.grounded, vChain, candidates⟩
  suffices both : ∀ result, disk.placeBody block pindex = result →
      BodyPlaced block (disk.receivedIndex block pindex) node result.1 ∧
        if result.2 then result.1.LinksHeld [block.getHash] else result.1.LinksHeld [] by
    obtain ⟨placed, links⟩ := both _ rfl
    exact ⟨placed, body, name, links⟩
  intro result received
  unfold placeBody at received
  simp only [name, body.pprev] at received
  split at received
  · rename_i root
    have above : node.ParentLinked pindex := by
      intro hashPrev pprev
      rw [root] at pprev
      contradiction
    have placed := place result.1 (received ▸ rfl) (received ▸ rfl) (received ▸ rfl) (received ▸ rfl)
    refine ⟨placed, ?_⟩
    rw [← received]
    exact (received ▸ placed).link held found header filled body above rfl
  · rename_i hashPrev pprev
    obtain ⟨core, there, height⟩ := held.sound.parent _ _ (store_cores found) hashPrev pprev
    obtain ⟨prev, present, rfl⟩ := entry_of_core there
    have apart : hashPrev ≠ block.getHash := by
      intro equal
      rw [equal, found] at present
      obtain rfl := Option.some.inj present
      omega
    have intactPrev := parent prev (Option.bind_eq_some_iff.mpr ⟨hashPrev, pprev, present⟩)
    have old : (update node.mapBlockIndex block.getHash
        (some (disk.receivedIndex block pindex))) hashPrev = some prev := by
      rw [update_of_ne apart, present]
    split at received
    · rename_i missing
      have equal := old.symm.trans missing
      contradiction
    · rename_i entry entryPrev
      obtain rfl : prev = entry := Option.some.inj (old.symm.trans entryPrev)
      split at received
      · rename_i counted
        have above : node.ParentLinked pindex := by
          intro other equal
          rw [pprev] at equal
          exact ⟨prev, Option.some.inj equal ▸ present, counted⟩
        have placed :=
          place result.1 (received ▸ rfl) (received ▸ rfl) (received ▸ rfl) (received ▸ rfl)
        refine ⟨placed, ?_⟩
        rw [← received]
        exact (received ▸ placed).link held found header filled body above rfl
      · rename_i uncounted
        have waits : ¬ node.linked hashPrev := by
          rintro ⟨entry, again, counted⟩
          rw [present] at again
          exact uncounted (Option.some.inj again ▸ counted)
        have usable : prev.isValid BLOCK_VALID_TREE = true := by
          rw [CBlockIndex.isValid, intactPrev]
          simpa using held.treed hashPrev prev present
        rw [if_pos usable] at received
        have placed :=
          place result.1 (received ▸ rfl) (received ▸ rfl) (received ▸ rfl) (received ▸ rfl)
        refine ⟨placed, ?_⟩
        rw [← received]
        exact (received ▸ placed).wait held found header filled body pprev waits rfl

theorem LinksHeld.storeBlock (held : node.LinksHeld []) {block : CBlock} {pindex : CBlockIndex}
    (found : node.mapBlockIndex block.getHash = some pindex)
    (header : pindex.nStatus.haveData = false) (intact : pindex.nStatus.failed = false)
    (parent : ∀ prev, node.mapBlockIndex.prev pindex = some prev → prev.nStatus.failed = false)
    (filled : block.vtx ≠ []) : (node.storeBlock block pindex).LinksHeld [] := by
  obtain ⟨_, _, name, links⟩ := placeBody_cases held found header intact parent filled
  unfold Node.storeBlock
  rw [receivedBlockTransactions_eq, name]
  split
  · rename_i enters
    rw [if_pos enters] at links
    apply linkBlocks_held links
    rw [length_singleton]
    omega
  · rename_i stays
    rwa [if_neg stays] at links

/-- The body of a known header. -/
theorem IndexKept.storeBlock (kept : node.IndexKept best) {block : CBlock} {pindex : CBlockIndex}
    (found : node.mapBlockIndex block.getHash = some pindex)
    (header : pindex.nStatus.haveData = false) (intact : pindex.nStatus.failed = false)
    (parent : ∀ prev, node.mapBlockIndex.prev pindex = some prev → prev.nStatus.failed = false)
    (filled : block.vtx ≠ []) : (node.storeBlock block pindex).IndexKept best := by
  obtain ⟨_, named, here⟩ := holds_of_sound kept.links.sound found
  obtain ⟨arrival, vChain, _⟩ := storeBlock_arrival (store_cores found) named header
  have marks : SameMarks node (node.storeBlock block pindex) := storeBlock_marks found here header
  obtain ⟨placed, body, name, links⟩ :=
    placeBody_cases kept.links.toLinksHeld found header intact parent filled
  have both : (node.storeBlock block pindex).LinksKept [] ∧
      (node.storeBlock block pindex).CandidatesKept best := by
    unfold Node.storeBlock
    rw [receivedBlockTransactions_eq, name]
    split
    · rename_i enters
      rw [if_pos enters] at links
      obtain ⟨links, active, candidates⟩ := placed.kept kept found header body links
      apply linkBlocks_kept links active candidates
      rw [length_singleton]
      omega
    · rename_i stays
      rw [if_neg stays] at links
      obtain ⟨links, _, candidates⟩ := placed.kept kept found header body links
      exact ⟨links, candidates⟩
  refine ⟨both.1, ?_, kept.spoiled.same marks, both.2⟩
  rw [vChain]
  exact kept.path.arrival arrival

end Node

end Agouti
