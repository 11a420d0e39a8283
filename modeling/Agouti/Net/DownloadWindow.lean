import Agouti.Net.BlockDownload
import Agouti.Validation.Locator

/-! # The download window

What `FindNextBlocksToDownload` returns for every block tree, every state of the peer and every map
of blocks in flight: blocks of the download window that can be asked for. When it returns none
although a block of the window is missing, the first missing block is in flight. The peer that it is
in flight from is reported if the window is exhausted and that peer is another one
(`findNextBlocksToDownload_window`).
-/

namespace Agouti

open List

/-- A block of the branch, above the common one by at most the window. -/
structure SkipNode.InWindow (s : SkipNode) (common best hash : Uint256) : Prop where
  ofBest : SkipList.Ancestor s.parent hash best
  above : s.node.mapBlockIndex.level common < s.node.mapBlockIndex.level hash
  below : s.node.mapBlockIndex.level hash ≤
    s.node.mapBlockIndex.level common + BLOCK_DOWNLOAD_WINDOW

/-- The block beyond the window could be asked for if the window were one larger. -/
def SkipNode.Exhausted (s : SkipNode) (mapBlocksInFlight : SortedMap Uint256 (NodeId × Nat))
    (common best : Uint256) : Prop :=
  ∃ beyond, SkipList.Ancestor s.parent beyond best ∧
    s.node.mapBlockIndex.level beyond =
      s.node.mapBlockIndex.level common + BLOCK_DOWNLOAD_WINDOW + 1 ∧
    s.Missing beyond ∧ mapBlocksInFlight.lookup beyond = none

/-- The blocks above the last common block are valid as far as the search may go. -/
def SkipNode.ValidBranch (s : SkipNode) (common best : Uint256) : Prop :=
  ∀ hash, SkipList.Ancestor s.parent hash best →
    s.node.mapBlockIndex.level common < s.node.mapBlockIndex.level hash →
    s.node.mapBlockIndex.level hash ≤
      s.node.mapBlockIndex.level common + BLOCK_DOWNLOAD_WINDOW + 1 → s.ValidTree hash

/-- The pointers of the state of a peer lead to entries. -/
structure PeerBlocks.Known (state : PeerBlocks) (mapBlockIndex : BlockMap) : Prop where
  best : ∀ hash ∈ state.pindexBestKnownBlock, (mapBlockIndex hash).isSome
  common : ∀ hash ∈ state.pindexLastCommonBlock, (mapBlockIndex hash).isSome

def SkipNode.window (s : SkipNode) (common best : Uint256) : List Uint256 :=
  SkipList.stretch s.parent s.node.mapBlockIndex.level best (s.node.mapBlockIndex.level common)
    (min (s.node.mapBlockIndex.level best)
      (s.node.mapBlockIndex.level common + BLOCK_DOWNLOAD_WINDOW + 1))

theorem PeerBlocks.Known.processBlockAvailability {state : PeerBlocks} {mapBlockIndex : BlockMap}
    (known : state.Known mapBlockIndex) :
    (state.processBlockAvailability mapBlockIndex).Known mapBlockIndex ∧
      (state.processBlockAvailability mapBlockIndex).pindexLastCommonBlock =
        state.pindexLastCommonBlock := by
  unfold PeerBlocks.processBlockAvailability
  split
  · split
    · exact ⟨known, rfl⟩
    · rename_i itOld present
      split
      · refine ⟨⟨fun hash member => ?_, known.common⟩, rfl⟩
        dsimp only at member
        split at member
        · rw [← Option.mem_some.mp member, present]
          rfl
        · exact known.best hash member
      · exact ⟨known, rfl⟩
  · exact ⟨known, rfl⟩

namespace SkipNode.Sound

variable {s : SkipNode} (sound : s.Sound) {common best : Uint256}
  (known : (s.node.mapBlockIndex best).isSome)
include sound known

theorem mem_window (common hash : Uint256) : hash ∈ s.window common best ↔
    SkipList.Ancestor s.parent hash best ∧
      s.node.mapBlockIndex.level common < s.node.mapBlockIndex.level hash ∧
      s.node.mapBlockIndex.level hash ≤
        s.node.mapBlockIndex.level common + BLOCK_DOWNLOAD_WINDOW + 1 := by
  refine (sound.tree.forest.mem_stretch known).trans ?_
  constructor
  · exact fun ⟨ancestor, above, below⟩ => ⟨ancestor, above, by omega⟩
  · intro ⟨ancestor, above, below⟩
    have inside := sound.tree.forest.height_le known ancestor
    exact ⟨ancestor, above, by omega⟩

theorem window_split (common : Uint256) : ∃ front back, s.window common best = front ++ back ∧
    (∀ hash, hash ∈ front ↔ s.InWindow common best hash) ∧
    (back = [] ∨ ∃ beyond, back = [beyond] ∧ s.node.mapBlockIndex.level beyond =
      s.node.mapBlockIndex.level common + BLOCK_DOWNLOAD_WINDOW + 1) := by
  have member := sound.mem_window known common
  have upwards : (s.window common best).Pairwise fun lower higher =>
      s.node.mapBlockIndex.level lower < s.node.mapBlockIndex.level higher :=
    sound.tree.forest.pairwise_stretch known _ _
  rcases eq_nil_or_concat (s.window common best) with empty | ⟨front, last, split⟩
  · refine ⟨[], [], empty, fun hash => ?_, .inl rfl⟩
    constructor
    · exact fun none => absurd none not_mem_nil
    · intro inside
      have there := (member hash).mpr ⟨inside.ofBest, inside.above, inside.below.trans (by omega)⟩
      rw [empty] at there
      exact absurd there not_mem_nil
  · rw [concat_eq_append] at split
    have top := (member last).mp (by rw [split]; exact mem_append_right _ mem_cons_self)
    rw [split, pairwise_append] at upwards
    by_cases beyond : s.node.mapBlockIndex.level last ≤
        s.node.mapBlockIndex.level common + BLOCK_DOWNLOAD_WINDOW
    · refine ⟨front ++ [last], [], by rw [split, append_nil], fun hash => ?_, .inl rfl⟩
      rw [← split, member hash]
      constructor
      · intro ⟨ancestor, above, _⟩
        refine ⟨ancestor, above, le_trans ?_ beyond⟩
        have there : hash ∈ front ++ [last] := by
          rw [← split]
          exact (member hash).mpr ⟨ancestor, above, ‹_›⟩
        rcases mem_append.mp there with before | here
        · exact (upwards.2.2 hash before last mem_cons_self).le
        · rw [mem_singleton.mp here]
      · exact fun inside => ⟨inside.ofBest, inside.above, inside.below.trans (by omega)⟩
    · refine ⟨front, [last], split, fun hash => ?_, .inr ⟨last, rfl, by omega⟩⟩
      constructor
      · intro before
        have there := (member hash).mp (by rw [split]; exact mem_append_left _ before)
        have lower := upwards.2.2 hash before last mem_cons_self
        exact ⟨there.1, there.2.1, by omega⟩
      · intro inside
        have there := (member hash).mpr ⟨inside.ofBest, inside.above, inside.below.trans (by omega)⟩
        rw [split] at there
        refine (mem_append.mp there).resolve_right fun here => beyond ?_
        rw [← mem_singleton.mp here]
        exact inside.below

end SkipNode.Sound

namespace BlockDownload

variable {call : BlockDownload} (sound : call.s.Sound) {common best : Uint256}
  (known : (call.s.node.mapBlockIndex best).isSome)
  (ofBest : SkipList.Ancestor call.s.parent common best)
include sound known ofBest

theorem searchFrom_eq (search : DownloadSearch) : call.searchFrom common best search =
    some (found (call.scan (call.s.node.mapBlockIndex.level common + BLOCK_DOWNLOAD_WINDOW)
      (call.s.window common best) search)) := by
  obtain ⟨pindexBest, foundBest⟩ := Option.isSome_iff_exists.mp known
  obtain ⟨pindexCommon, foundCommon⟩ :=
    Option.isSome_iff_exists.mp (sound.tree.forest.known_of_ancestor known ofBest)
  have top := sound.tree.height_eq foundBest
  have bottom := sound.tree.height_eq foundCommon
  have inside := sound.tree.forest.height_le known ofBest
  have high : min pindexBest.nHeight
      ((call.s.node.mapBlockIndex.level common : Int) + BLOCK_DOWNLOAD_WINDOW + 1) =
      ((min (call.s.node.mapBlockIndex.level best)
        (call.s.node.mapBlockIndex.level common + BLOCK_DOWNLOAD_WINDOW + 1) : Nat) : Int) := by
    omega
  rw [searchFrom, foundCommon, Option.bind_some, foundBest, Option.bind_some]
  simp only [← bottom, high]
  rw [run_round sound known (min_le_left _ _) ofBest (by omega) search (by omega)]
  rfl

omit ofBest in
theorem scan_staller (valid : call.s.ValidBranch common best)
    (peers : ∀ hash it, call.mapBlocksInFlight.lookup hash ≠ some (-1, it)) {search : DownloadSearch}
    (fresh : search.vBlocks = []) (start : search.waitingfor = -1)
    (nothing : (found (call.scan (call.s.node.mapBlockIndex.level common + BLOCK_DOWNLOAD_WINDOW)
      (call.s.window common best) search)).vBlocks = []) {first : Uint256}
    (inWindow : call.s.InWindow common best first) (missing : call.s.Missing first)
    (least : ∀ lower, call.s.InWindow common best lower →
      call.s.node.mapBlockIndex.level lower < call.s.node.mapBlockIndex.level first →
        ¬ call.s.Missing lower) :
    ∃ peer it, call.mapBlocksInFlight.lookup first = some (peer, it) ∧
      (call.s.Exhausted call.mapBlocksInFlight common best → peer ≠ call.nodeid →
        (found (call.scan (call.s.node.mapBlockIndex.level common + BLOCK_DOWNLOAD_WINDOW)
          (call.s.window common best) search)).nodeStaller = peer) ∧
      (¬ call.s.Exhausted call.mapBlocksInFlight common best ∨ peer = call.nodeid →
        (found (call.scan (call.s.node.mapBlockIndex.level common + BLOCK_DOWNLOAD_WINDOW)
          (call.s.window common best) search)).nodeStaller = search.nodeStaller) := by
  have tree := sound.tree
  obtain ⟨front, back, split, members, last⟩ := sound.window_split known common
  obtain ⟨before, after, order⟩ := append_of_mem ((members first).mpr inWindow)
  have upwards : (call.s.window common best).Pairwise fun lower higher =>
      call.s.node.mapBlockIndex.level lower < call.s.node.mapBlockIndex.level higher :=
    tree.forest.pairwise_stretch known _ _
  have validAll : ∀ hash ∈ call.s.window common best, call.s.ValidTree hash := fun hash member =>
    have ⟨ancestor, above, below⟩ := (sound.mem_window known common _).mp member
    valid hash ancestor above below
  have insideFront : ∀ hash ∈ front, (call.s.node.mapBlockIndex.level hash : Int) ≤
      call.s.node.mapBlockIndex.level common + BLOCK_DOWNLOAD_WINDOW := by
    intro hash member
    have below := ((members hash).mp member).below
    omega
  -- the block beyond the window is the last one, if it is there
  have behind : call.s.Exhausted call.mapBlocksInFlight common best → ∃ beyond ∈ back,
      call.s.Missing beyond ∧ call.mapBlocksInFlight.lookup beyond = none := by
    rintro ⟨beyond, ancestor, level, lacks, absent⟩
    have there := (sound.mem_window known common _).mpr ⟨ancestor, by omega, level.le⟩
    rw [split] at there
    refine ⟨beyond, (mem_append.mp there).resolve_left fun inFront => ?_, lacks, absent⟩
    have below := ((members beyond).mp inFront).below
    omega
  have ancestors : ∀ hash ∈ back, SkipList.Ancestor call.s.parent hash best := by
    intro hash member
    refine ((sound.mem_window known common hash).mp ?_).1
    rw [split]
    exact mem_append_right _ member
  rw [split] at upwards validAll nothing ⊢
  rw [forall_mem_append] at validAll
  -- the blocks before the first missing one are stored
  have stored : ∀ hash ∈ before, ¬ call.s.Missing hash := by
    intro hash member
    rw [order, append_assoc, pairwise_append] at upwards
    refine least hash ((members hash).mp ?_) (upwards.2.2 hash member first mem_cons_self)
    rw [order]
    exact mem_append_left _ member
  have quietFront := scan_none tree validAll.1 insideFront search fresh (scan_nothing tree _ _ nothing)
  obtain ⟨peer, it, flight⟩ : ∃ peer it, call.mapBlocksInFlight.lookup first = some (peer, it) := by
    obtain ⟨-, -, -, -, flights, -⟩ := quietFront
    exact flights first ((members first).mpr inWindow) missing
  have other : peer ≠ -1 := fun same => peers first it (same ▸ flight)
  -- after the first missing block the search waits for its peer
  obtain ⟨next, scans, empty, staller, waits⟩ : ∃ next,
      call.scan (call.s.node.mapBlockIndex.level common + BLOCK_DOWNLOAD_WINDOW) front search =
        .inl next ∧ next.vBlocks = [] ∧ next.nodeStaller = search.nodeStaller ∧
        next.waitingfor = peer := by
    rw [order] at validAll insideFront
    rw [forall_mem_append, forall_mem_cons] at validAll insideFront
    have nothingFront := scan_nothing tree _ _ nothing
    rw [order] at nothingFront ⊢
    obtain ⟨here, scansBefore, emptyHere, stallerHere, -, waitsHere⟩ :=
      scan_none tree validAll.1.1 insideFront.1 search fresh (scan_nothing tree _ _ nothingFront)
    have waiting : here.waitingfor = -1 := (waitsHere (.inr stored)).trans start
    have visits : call.visit (call.s.node.mapBlockIndex.level common + BLOCK_DOWNLOAD_WINDOW) here
        first = .inl { here with waitingfor := peer } := by
      rcases visit_cases tree
          (call.s.node.mapBlockIndex.level common + BLOCK_DOWNLOAD_WINDOW) validAll.1.2.1 here with
        ⟨there, _⟩ | ⟨_, sender, node, found, visits⟩ | ⟨_, absent, _⟩ | ⟨wanted, _⟩
      · exact absurd missing there
      · rw [flight, Option.some.injEq, Prod.mk.injEq] at found
        rw [visits, if_pos waiting, found.1]
      · rw [flight] at absent
        contradiction
      · have absent := wanted.notInFlight
        rw [flight] at absent
        contradiction
    rw [scan_append, scansBefore] at nothingFront ⊢
    dsimp only at nothingFront ⊢
    rw [scan_inl visits] at nothingFront ⊢
    obtain ⟨next, scansAfter, emptyNext, stallerNext, -, waitsNext⟩ :=
      scan_none tree validAll.1.2.2 insideFront.2.2 { here with waitingfor := peer } emptyHere
        nothingFront
    exact ⟨next, scansAfter, emptyNext, stallerNext.trans stallerHere, waitsNext (.inl other)⟩
  refine ⟨peer, it, flight, ?_⟩
  rw [scan_append, scans] at nothing ⊢
  dsimp only at nothing ⊢
  rcases last with rfl | ⟨beyond, rfl, level⟩
  · refine ⟨fun exhausted => ?_, fun _ => staller⟩
    obtain ⟨_, member, _⟩ := behind exhausted
    exact absurd member not_mem_nil
  · have unexhausted : (¬ call.s.Missing beyond ∨
        ∃ request, call.mapBlocksInFlight.lookup beyond = some request) →
          ¬ call.s.Exhausted call.mapBlocksInFlight common best := by
      intro passed exhausted
      obtain ⟨other, member, lacks, absent⟩ := behind exhausted
      rw [mem_singleton.mp member] at lacks absent
      rcases passed with stored | ⟨request, flight⟩
      · exact stored lacks
      · rw [absent] at flight
        contradiction
    rcases visit_cases tree (call.s.node.mapBlockIndex.level common + BLOCK_DOWNLOAD_WINDOW)
        (validAll.2 beyond mem_cons_self) next with
      ⟨stored, last, visits⟩ | ⟨_, sender, node, found, visits⟩ | ⟨lacks, absent, _, visits⟩ |
        ⟨wanted, _⟩
    · rw [scan_inl visits]
      exact ⟨fun exhausted => absurd exhausted (unexhausted (.inl stored)), fun _ => staller⟩
    · rw [scan_inl visits, if_neg (by rw [waits]; exact other)]
      exact ⟨fun exhausted => absurd exhausted (unexhausted (.inr ⟨_, found⟩)), fun _ => staller⟩
    · have exhausted : call.s.Exhausted call.mapBlocksInFlight common best :=
        ⟨beyond, ancestors beyond mem_cons_self, level, lacks, absent⟩
      rw [scan_inr visits]
      constructor
      · intro _ apart
        rw [if_pos ⟨by rw [empty]; rfl, by rw [waits]; exact apart⟩]
        exact waits
      · intro excused
        have own := excused.resolve_left (not_not.mpr exhausted)
        rw [if_neg (fun waiting => waiting.2 (waits.trans own))]
        exact staller
    · have inside := wanted.inside
      omega

end BlockDownload

open BlockDownload in
theorem searchFrom_window (s : SkipNode) (mapBlocksInFlight : SortedMap Uint256 (NodeId × Nat))
    (nodeid : NodeId) (count : Nat) (common best : Uint256) (sound : s.Sound)
    (known : (s.node.mapBlockIndex best).isSome)
    (ofBest : SkipList.Ancestor s.parent common best) (asks : 0 < count)
    (pindexLastCommonBlock : Option Uint256) (nodeStaller : NodeId) : ∃ search,
      BlockDownload.searchFrom ⟨s, mapBlocksInFlight, nodeid, count⟩ common best
        { pindexLastCommonBlock, vBlocks := [], nodeStaller } = some search ∧
      search.vBlocks.length ≤ count ∧ search.vBlocks.Nodup ∧
      (∀ hash ∈ search.vBlocks, s.InWindow common best hash ∧ s.Missing hash ∧
        mapBlocksInFlight.lookup hash = none) ∧
      (s.ValidBranch common best → (∀ hash it, mapBlocksInFlight.lookup hash ≠ some (-1, it)) →
        search.vBlocks = [] → (∃ hash, s.InWindow common best hash ∧ s.Missing hash) →
        ∃ first peer it, s.InWindow common best first ∧ s.Missing first ∧
          (∀ lower, s.InWindow common best lower →
            s.node.mapBlockIndex.level lower < s.node.mapBlockIndex.level first →
              ¬ s.Missing lower) ∧
          mapBlocksInFlight.lookup first = some (peer, it) ∧
          (s.Exhausted mapBlocksInFlight common best → peer ≠ nodeid →
            search.nodeStaller = peer) ∧
          (¬ s.Exhausted mapBlocksInFlight common best ∨ peer = nodeid →
            search.nodeStaller = nodeStaller)) := by
  have reads : (BlockDownload.mk s mapBlocksInFlight nodeid count).s.Sound := sound
  obtain ⟨added, vBlocks, sublist, wanted⟩ := scan_vBlocks reads.tree
    (s.node.mapBlockIndex.level common + BLOCK_DOWNLOAD_WINDOW) (s.window common best)
    { pindexLastCommonBlock, vBlocks := [], nodeStaller }
  rw [nil_append] at vBlocks
  refine ⟨_, searchFrom_eq reads known ofBest _, ?_, ?_, ?_, ?_⟩
  · exact scan_length reads.tree _ _ asks
  · have upwards : (s.window common best).Pairwise fun lower higher =>
        s.node.mapBlockIndex.level lower < s.node.mapBlockIndex.level higher :=
      sound.tree.forest.pairwise_stretch known _ _
    rw [vBlocks]
    exact sublist.nodup (upwards.imp fun lower same => lower.ne (congrArg _ same))
  · intro hash member
    rw [vBlocks] at member
    obtain ⟨ancestor, above, -⟩ := (sound.mem_window known common _).mp (sublist.subset member)
    obtain ⟨missing, absent, inside⟩ := wanted hash member
    exact ⟨⟨ancestor, above, by exact_mod_cast inside⟩, missing, absent⟩
  · intro validBranch peers nothing missing
    obtain ⟨first, ⟨inWindow, lacks⟩, least⟩ :=
      (measure s.node.mapBlockIndex.level).wf.has_min
        { hash | s.InWindow common best hash ∧ s.Missing hash } missing
    have before : ∀ lower, s.InWindow common best lower →
        s.node.mapBlockIndex.level lower < s.node.mapBlockIndex.level first →
          ¬ s.Missing lower :=
      fun lower inside less lacks => least lower ⟨inside, lacks⟩ less
    obtain ⟨peer, it, flight, reported⟩ :=
      scan_staller reads known validBranch peers rfl rfl nothing inWindow lacks before
    exact ⟨first, peer, it, inWindow, lacks, before, flight, reported⟩

theorem lastCommonBlock_eq [Crypto] {genesis : Uint256} {s : SkipNode} {chain : CChain}
    (navigated : Navigated genesis s chain) (active : chain.vChain ≠ [])
    {pindexLastCommonBlock : Option Uint256}
    (known : ∀ hash ∈ pindexLastCommonBlock, (s.node.mapBlockIndex hash).isSome) {best : Uint256}
    (knownBest : (s.node.mapBlockIndex best).isSome) : ∃ common,
      lastCommonBlock s chain pindexLastCommonBlock best = some common ∧
        SkipList.Ancestor s.parent common best := by
  obtain ⟨sound, rooted, valid⟩ := navigated.valid
  obtain ⟨tip, onPath⟩ := valid.onPath active
  obtain ⟨pindexBest, found⟩ := Option.isSome_iff_exists.mp knownBest
  obtain ⟨last, guess, knownLast⟩ : ∃ last, pindexLastCommonBlock.or
      (chain.atHeight (min pindexBest.nHeight chain.height)) = some last ∧
        (s.node.mapBlockIndex last).isSome := by
    cases pindexLastCommonBlock with
    | some last => exact ⟨last, rfl, known last rfl⟩
    | none =>
      have height := onPath.height_eq sound.tree
      have level := sound.tree.height_eq found
      have climbs := onPath.atHeight_eq sound.tree
        (min pindexBest.nHeight chain.height) (by omega) (by omega)
      obtain ⟨above, finds⟩ := sound.tree.forest.climb_exists onPath.known (Nat.sub_le
        (s.node.mapBlockIndex.level tip) (min pindexBest.nHeight chain.height).toNat)
      refine ⟨above, ?_, sound.tree.forest.climb_known onPath.known finds⟩
      rw [Option.none_or, climbs, finds]
  obtain ⟨common, meets, highest⟩ := sound.lastCommonAncestor_eq rooted knownLast knownBest
  refine ⟨common, ?_, highest.ofSecond⟩
  rw [lastCommonBlock, found, Option.bind_some, guess, Option.bind_some, meets]
  rfl

theorem interesting_eq [Crypto] {genesis : Uint256} {s : SkipNode} {chain : CChain}
    (navigated : Navigated genesis s chain) (active : chain.vChain ≠ []) {best : Uint256}
    (known : (s.node.mapBlockIndex best).isSome) : ∃ goesOn,
      interesting s chain best = some goesOn := by
  obtain ⟨sound, -, valid⟩ := navigated.valid
  obtain ⟨tip, onPath⟩ := valid.onPath active
  obtain ⟨pindexBest, found⟩ := Option.isSome_iff_exists.mp known
  obtain ⟨pindexTip, there⟩ := Option.isSome_iff_exists.mp onPath.known
  refine ⟨!decide (pindexBest.nChainWork < pindexTip.nChainWork), ?_⟩
  rw [interesting, found, Option.bind_some, onPath.tip_eq sound.tree, Option.bind_some, there]
  rfl

theorem findNextBlocksToDownload_search {s : SkipNode} {chain : CChain}
    {mapBlocksInFlight : SortedMap Uint256 (NodeId × Nat)} {nodeid : NodeId} {count : Nat}
    (state : PeerBlocks) {nodeStaller : NodeId} {common best : Uint256} {search : DownloadSearch}
    (asks : count ≠ 0) (noUnknown : state.hashLastUnknownBlock = 0)
    (known : state.pindexBestKnownBlock = some best)
    (goesOn : interesting s chain best = some true)
    (meets : lastCommonBlock s chain state.pindexLastCommonBlock best = some common)
    (apart : common ≠ best)
    (finds : BlockDownload.searchFrom ⟨s, mapBlocksInFlight, nodeid, count⟩ common best
      { pindexLastCommonBlock := some common, vBlocks := [], nodeStaller } = some search) :
    findNextBlocksToDownload s chain mapBlocksInFlight nodeid count state [] nodeStaller =
      some ({ state with pindexLastCommonBlock := search.pindexLastCommonBlock },
        search.vBlocks, search.nodeStaller) := by
  have same : state.processBlockAvailability s.node.mapBlockIndex = state := by
    rw [PeerBlocks.processBlockAvailability, if_neg (not_not.mpr noUnknown)]
  rw [findNextBlocksToDownload, if_neg asks, same]
  simp only [known, goesOn, Option.bind_some, Bool.not_true, Bool.false_eq_true, ↓reduceIte, meets,
    apart, finds, Option.map_some]

/-- **The blocks to download are in the window.** For every block tree, every state of the peer and
every map of blocks in flight `FindNextBlocksToDownload` comes to an end. It returns at most `count`
different blocks: each is on the branch of the best known block of the peer and in the download
window above the last common block, has no local data, and is in flight from no peer.

If the peer is asked for blocks, its best known block has as much work as the tip and no block of
its branch that the search may read is invalid, then it returns none of the window, while a block of
it is missing, only when the first missing block is in flight. The peer of that block is reported
when the window is exhausted and it is another peer; otherwise nobody is reported. -/
theorem findNextBlocksToDownload_window [Crypto] {genesis : Uint256} {s : SkipNode} {chain : CChain}
    (navigated : Navigated genesis s chain) (active : chain.vChain ≠ [])
    (mapBlocksInFlight : SortedMap Uint256 (NodeId × Nat)) (nodeid : NodeId) (count : Nat)
    {state : PeerBlocks} (known : state.Known s.node.mapBlockIndex) (nodeStaller : NodeId) :
    ∃ after vBlocks staller,
      findNextBlocksToDownload s chain mapBlocksInFlight nodeid count state [] nodeStaller =
        some (after, vBlocks, staller) ∧
      vBlocks.length ≤ count ∧ vBlocks.Nodup ∧
      (∀ hash ∈ vBlocks, ∃ best common, after.pindexBestKnownBlock = some best ∧
        lastCommonBlock s chain state.pindexLastCommonBlock best = some common ∧
        s.InWindow common best hash ∧ s.Missing hash ∧ mapBlocksInFlight.lookup hash = none) ∧
      ∀ best common, count ≠ 0 → after.pindexBestKnownBlock = some best →
        interesting s chain best = some true →
        lastCommonBlock s chain state.pindexLastCommonBlock best = some common →
        s.ValidBranch common best → (∀ hash it, mapBlocksInFlight.lookup hash ≠ some (-1, it)) →
        vBlocks = [] → (∃ hash, s.InWindow common best hash ∧ s.Missing hash) →
        ∃ first peer it, s.InWindow common best first ∧ s.Missing first ∧
          (∀ lower, s.InWindow common best lower →
            s.node.mapBlockIndex.level lower < s.node.mapBlockIndex.level first →
              ¬ s.Missing lower) ∧
          mapBlocksInFlight.lookup first = some (peer, it) ∧
          (s.Exhausted mapBlocksInFlight common best → peer ≠ nodeid → staller = peer) ∧
          (¬ s.Exhausted mapBlocksInFlight common best ∨ peer = nodeid →
            staller = nodeStaller) := by
  obtain ⟨sound, rooted, valid⟩ := navigated.valid
  obtain ⟨⟨knownBest, knownCommon⟩, sameCommon⟩ := known.processBlockAvailability
  unfold findNextBlocksToDownload
  by_cases zero : count = 0
  · rw [if_pos zero]
    refine ⟨state, [], nodeStaller, rfl, Nat.zero_le _, .nil, ?_, ?_⟩
    · exact fun hash member => absurd member not_mem_nil
    · exact fun _ _ asks => absurd zero asks
  rw [if_neg zero]
  dsimp only
  generalize state.processBlockAvailability s.node.mapBlockIndex = later at *
  cases known : later.pindexBestKnownBlock with
  | none =>
    refine ⟨later, [], nodeStaller, rfl, Nat.zero_le _, .nil, ?_, ?_⟩
    · exact fun hash member => absurd member not_mem_nil
    · intro best common _ found
      rw [known] at found
      contradiction
  | some best =>
    have knownHere := knownBest best known
    obtain ⟨goesOn, compares⟩ := interesting_eq navigated active knownHere
    obtain ⟨common, meets, ofBest⟩ := lastCommonBlock_eq navigated active
      (sameCommon ▸ knownCommon) knownHere
    dsimp only
    rw [compares, Option.bind_some, sameCommon, meets, Option.bind_some]
    cases goesOn with
    | false =>
      refine ⟨later, [], nodeStaller, rfl, Nat.zero_le _, .nil, ?_, ?_⟩
      · exact fun hash member => absurd member not_mem_nil
      · intro other _ _ found goes
        rw [known, Option.some.injEq] at found
        rw [← found, compares] at goes
        contradiction
    | true =>
      rw [if_neg (by decide)]
      by_cases same : common = best
      · rw [if_pos same]
        refine ⟨_, [], nodeStaller, rfl, Nat.zero_le _, .nil, ?_, ?_⟩
        · exact fun hash member => absurd member not_mem_nil
        · -- there is nothing above the best known block
          rintro other below _ found - meetsBelow - - - ⟨hash, inWindow, -⟩
          obtain rfl : best = other := Option.some.inj found
          obtain rfl : common = below := Option.some.inj (meets.symm.trans meetsBelow)
          have low := sound.tree.forest.height_le knownHere inWindow.ofBest
          have above := inWindow.above
          rw [same] at above
          omega
      · obtain ⟨search, finds, length, nodup, wanted, staller⟩ :=
          searchFrom_window s mapBlocksInFlight nodeid count common best sound knownHere
            ofBest (Nat.pos_of_ne_zero zero) (some common) nodeStaller
        rw [if_neg same, finds, Option.map_some]
        refine ⟨_, _, _, rfl, length, nodup, fun hash member => ?_, ?_⟩
        · exact ⟨best, common, rfl, meets, wanted hash member⟩
        · rintro other below - found - meetsBelow validBranch peers nothing missing
          obtain rfl : best = other := Option.some.inj found
          obtain rfl : common = below := Option.some.inj (meets.symm.trans meetsBelow)
          exact staller validBranch peers nothing missing

/-! ## Two trees -/

section

attribute [local instance] SkipChain.instForked

open SkipChain

/-- The chain of the side block. -/
def SkipChain.onSide : CChain := ⟨(forked.node.mapBlockIndex.path side.getHash).map some⟩

theorem SkipChain.onSide_navigated : Navigated (blocks 0).getHash forked onSide := by
  have known : (forked.node.mapBlockIndex side.getHash).isSome := by decide +kernel
  refine .setTip forked_navigated (some side.getHash) ?_ ?_
  · intro hash member
    rw [← Option.mem_some.mp member]
    exact known
  · exact CChain.setTip_eq forked_navigated.valid.1.tree CChain.aligned_nil known

/-- On the side block, a peer with the longer branch is asked for the two blocks above the fork. -/
theorem findNextBlocksToDownload_window_forked :
    ∃ after staller, findNextBlocksToDownload forked onSide .empty 1 16
        { pindexBestKnownBlock := some (blocks 4).getHash } [] (-1) =
          some (after, [(blocks 3).getHash, (blocks 4).getHash], staller) ∧
      ∃ best common, after.pindexBestKnownBlock = some best ∧
        lastCommonBlock forked onSide none best = some common ∧
        forked.InWindow common best (blocks 4).getHash ∧ forked.Missing (blocks 4).getHash := by
  have knownBest : (forked.node.mapBlockIndex (blocks 4).getHash).isSome := by decide +kernel
  have known : PeerBlocks.Known { pindexBestKnownBlock := some (blocks 4).getHash }
      forked.node.mapBlockIndex := by
    constructor
    · intro hash member
      rw [← Option.mem_some.mp member]
      exact knownBest
    · intro hash member
      exact absurd member (Option.not_mem_none hash)
  obtain ⟨after, vBlocks, staller, finds, -, -, wanted, -⟩ :=
    findNextBlocksToDownload_window onSide_navigated (by decide +kernel) .empty 1 16 known (-1)
  have asked : (findNextBlocksToDownload forked onSide .empty 1 16
      { pindexBestKnownBlock := some (blocks 4).getHash } [] (-1)).map (·.2.1) =
        some [(blocks 3).getHash, (blocks 4).getHash] := by decide +kernel
  rw [finds, Option.map_some, Option.some.injEq] at asked
  subst asked
  obtain ⟨best, common, held, meets, inside, missing, -⟩ :=
    wanted (blocks 4).getHash (mem_cons_of_mem _ mem_cons_self)
  exact ⟨after, staller, finds, best, common, held, meets, inside, missing⟩

end

namespace StalledWindow

/-! A branch of 1025 blocks over a genesis block. The first of them and the last one are missing,
and the first one is in flight from the peer that is asked. -/

def entry (height : Nat) : CBlockIndex where
  phashBlock := some (BitVec.ofNat 256 height)
  pprev := if height = 0 then none else some (BitVec.ofNat 256 (height - 1))
  nHeight := height
  nStatus := { valid := BLOCK_VALID_TREE, haveData := decide (height ≠ 1 ∧ height ≠ 1025) }

def node : Node where
  mapBlockIndex hash := if hash.toNat ≤ 1025 then some (entry hash.toNat) else none
  vChain := []
  diskBlocks _ := none
  diskUndo _ := none
  pcoinsTip := ⟨fun _ => {}, 0⟩
  mapProofOfStake := []
  setStakeSeen := []
  mapUsedStakePointers _ := none
  setBlockIndexCandidates := []
  mapBlocksUnlinked := []
  nBlockSequenceId := 1

def vSortedByHeight : List Uint256 := (List.range 1026).map (BitVec.ofNat 256)

def tree : SkipNode := SkipNode.loadSkips ⟨node, fun _ => none⟩ vSortedByHeight

def best : Uint256 := BitVec.ofNat 256 1025

/-- The active chain has the genesis block only. -/
def chain : CChain := ⟨[some 0]⟩

/-- The first block is in flight from peer 3. -/
def flight : SortedMap Uint256 (NodeId × Nat) := SortedMap.empty.set 1 (3, 0)

theorem found_iff {hash : Uint256} {pindex : CBlockIndex} :
    node.mapBlockIndex hash = some pindex ↔ hash.toNat ≤ 1025 ∧ pindex = entry hash.toNat := by
  change (if hash.toNat ≤ 1025 then some (entry hash.toNat) else none) = some pindex ↔ _
  split
  · rename_i inside
    rw [Option.some.injEq]
    exact ⟨fun same => ⟨inside, same.symm⟩, fun same => same.2.symm⟩
  · rename_i outside
    exact ⟨fun found => by contradiction, fun found => absurd found.1 outside⟩

theorem toNat_ofNat {height : Nat} (inside : height ≤ 1025) :
    (BitVec.ofNat 256 height).toNat = height := by
  rw [BitVec.toNat_ofNat, Nat.mod_eq_of_lt (by omega)]

theorem node_tree : node.mapBlockIndex.Tree where
  hash hash pindex found := by
    rw [(found_iff.mp found).2, entry, BitVec.ofNat_toNat, BitVec.setWidth_eq]
  parent hash pindex found hashPrev pprev := by
    obtain ⟨inside, rfl⟩ := found_iff.mp found
    have positive : hash.toNat ≠ 0 := by
      intro zero
      rw [entry, zero, if_pos rfl] at pprev
      contradiction
    rw [entry, if_neg positive, Option.some.injEq] at pprev
    subst pprev
    refine ⟨entry (hash.toNat - 1), ?_, ?_⟩
    · rw [found_iff, toNat_ofNat (by omega)]
      exact ⟨by omega, rfl⟩
    · change (hash.toNat : Int) = ((hash.toNat - 1 : Nat) : Int) + 1
      omega
  root hash pindex found pprev := by
    obtain ⟨inside, rfl⟩ := found_iff.mp found
    by_cases zero : hash.toNat = 0
    · rw [entry, zero]
      rfl
    · rw [entry, if_neg zero] at pprev
      contradiction
  nonneg hash pindex found := by
    rw [(found_iff.mp found).2]
    exact Int.natCast_nonneg _

theorem node_rooted : node.mapBlockIndex.Rooted 0 := by
  intro hash pindex found pprev
  obtain ⟨inside, rfl⟩ := found_iff.mp found
  by_cases zero : hash.toNat = 0
  · exact BitVec.eq_of_toNat_eq zero
  · rw [entry, if_neg zero] at pprev
    contradiction

theorem tree_node : tree.node = node := SkipNode.loadSkips_node _ _

theorem tree_navigated [Crypto] : Navigated 0 tree ⟨[]⟩ := by
  refine .loaded node node_tree node_rooted vSortedByHeight ?_ ?_
  · intro hash known
    obtain ⟨pindex, found⟩ := Option.isSome_iff_exists.mp known
    have inside := (found_iff.mp found).1
    refine mem_map.mpr ⟨hash.toNat, List.mem_range.mpr (by omega), ?_⟩
    rw [BitVec.ofNat_toNat, BitVec.setWidth_eq]
  · refine pairwise_map.mpr (pairwise_lt_range.imp_of_mem ?_)
    intro first second memberFirst memberSecond before lower higher foundFirst foundSecond
    have insideFirst := List.mem_range.mp memberFirst
    have insideSecond := List.mem_range.mp memberSecond
    rw [found_iff, toNat_ofNat (by omega)] at foundFirst foundSecond
    rw [foundFirst.2, foundSecond.2]
    change (first : Int) ≤ second
    omega

theorem found_entry (height : Nat) (inside : height ≤ 1025) :
    tree.node.mapBlockIndex (BitVec.ofNat 256 height) = some (entry height) := by
  rw [tree_node, found_iff, toNat_ofNat inside]
  exact ⟨inside, rfl⟩

theorem level_eq (height : Nat) (inside : height ≤ 1025) :
    tree.node.mapBlockIndex.level (BitVec.ofNat 256 height) = height := by
  rw [BlockMap.level_eq (found_entry height inside)]
  rfl

theorem climb_eq (height count : Nat) (inside : height ≤ 1025) (below : count ≤ height) :
    SkipList.climb tree.parent count (BitVec.ofNat 256 height) =
      some (BitVec.ofNat 256 (height - count)) := by
  induction count generalizing height with
  | zero => rfl
  | succ count ih =>
    have parent : tree.parent (BitVec.ofNat 256 height) =
        some (BitVec.ofNat 256 (height - 1)) := by
      rw [SkipNode.parent, BlockMap.parent_eq (found_entry height inside), entry, if_neg (by omega)]
    rw [SkipList.climb, parent, Option.bind_some, ih (height - 1) (by omega) (by omega), Nat.sub_sub,
      Nat.add_comm]

theorem missing_iff (height : Nat) (inside : height ≤ 1025) :
    tree.Missing (BitVec.ofNat 256 height) ↔ height = 1 ∨ height = 1025 := by
  rw [SkipNode.Missing, found_entry height inside]
  constructor
  · rintro ⟨pindex, same, lacks⟩
    rw [← Option.some.inj same] at lacks
    have missing := of_decide_eq_false lacks
    omega
  · intro missing
    exact ⟨entry height, rfl, decide_eq_false (by omega)⟩

theorem sound : tree.Sound := by
  let _ : Crypto := checksumCrypto
  exact tree_navigated.valid.1

theorem known_best : (tree.node.mapBlockIndex best).isSome := by
  rw [best, found_entry 1025 le_rfl]
  rfl

theorem root_ofBest : SkipList.Ancestor tree.parent 0 best :=
  ⟨1025, climb_eq 1025 1025 le_rfl le_rfl⟩

theorem lowest : tree.node.mapBlockIndex.level 0 = 0 := level_eq 0 (Nat.zero_le _)

theorem inWindow : tree.InWindow 0 best 1 where
  ofBest := ⟨1024, climb_eq 1025 1024 le_rfl (by omega)⟩
  above := by
    rw [lowest, show tree.node.mapBlockIndex.level 1 = 1 from level_eq 1 (by omega)]
    exact Nat.one_pos
  below := by
    rw [lowest, show tree.node.mapBlockIndex.level 1 = 1 from level_eq 1 (by omega),
      BLOCK_DOWNLOAD_WINDOW]
    omega

theorem missing : tree.Missing 1 := (missing_iff 1 (by omega)).mpr (.inl rfl)

theorem missing_unique {hash : Uint256} (inside : tree.InWindow 0 best hash)
    (lacks : tree.Missing hash) : hash = 1 := by
  obtain ⟨pindex, found⟩ := Option.isSome_iff_exists.mp
    (sound.tree.forest.known_of_ancestor known_best inside.ofBest)
  rw [tree_node] at found
  obtain ⟨small, -⟩ := found_iff.mp found
  obtain ⟨height, same⟩ : ∃ height, hash.toNat = height := ⟨_, rfl⟩
  have named : hash = BitVec.ofNat 256 height := by
    rw [← same, BitVec.ofNat_toNat, BitVec.setWidth_eq]
  rw [same] at small
  subst named
  have below := inside.below
  rw [level_eq height small, lowest, BLOCK_DOWNLOAD_WINDOW] at below
  rcases (missing_iff height small).mp lacks with rfl | rfl
  · rfl
  · omega

theorem requested : flight.lookup 1 = some (3, 0) :=
  (SortedMap.lookup_set _ _ _ _).trans (if_pos rfl)

theorem exhausted : tree.Exhausted flight 0 best := by
  refine ⟨best, .refl _ best, ?_, (missing_iff 1025 le_rfl).mpr (.inr rfl), ?_⟩
  · rw [lowest, best, level_eq 1025 le_rfl, BLOCK_DOWNLOAD_WINDOW]
  · exact (SortedMap.lookup_set _ _ _ _).trans (if_neg (by decide))

theorem validBranch : tree.ValidBranch 0 best := by
  intro hash ancestor _ _
  obtain ⟨pindex, found⟩ := Option.isSome_iff_exists.mp
    (sound.tree.forest.known_of_ancestor known_best ancestor)
  refine ⟨pindex, found, ?_⟩
  rw [tree_node] at found
  rw [(found_iff.mp found).2]
  rfl

theorem lastCommonBlock_root : lastCommonBlock tree chain (some 0) best = some 0 := by
  have knownRoot := sound.tree.forest.known_of_ancestor known_best root_ofBest
  have rooted : tree.node.mapBlockIndex.Rooted 0 := by
    rw [tree_node]
    exact node_rooted
  obtain ⟨above, meets, highest⟩ := sound.lastCommonAncestor_eq rooted knownRoot known_best
  have same := sound.tree.forest.ancestor_root knownRoot lowest highest.ofFirst
  rw [lastCommonBlock, best, found_entry 1025 le_rfl, Option.bind_some, Option.some_or,
    Option.bind_some, ← best, meets, same]
  rfl

theorem interesting_best : interesting tree chain best = some true := by
  have top : chain.tip = some (BitVec.ofNat 256 0) := rfl
  rw [interesting, best, found_entry 1025 le_rfl, Option.bind_some, top, Option.bind_some,
    found_entry 0 (Nat.zero_le _)]
  rfl

section

attribute [local instance] SkipChain.instForked

theorem chain_navigated : Navigated 0 tree chain := by
  have knownRoot := sound.tree.forest.known_of_ancestor known_best root_ofBest
  refine .setTip tree_navigated (some 0) ?_ ?_
  · intro hash member
    rw [← Option.mem_some.mp member]
    exact knownRoot
  · rw [CChain.setTip_eq sound.tree CChain.aligned_nil knownRoot, BlockMap.path, lowest]
    rfl

/-- The first missing block of the window is in flight from the peer itself and the window is
exhausted. Nothing is found, and nobody is reported. -/
theorem ownBlock_unreported : Navigated 0 tree chain ∧
    (∃ after, findNextBlocksToDownload tree chain flight 3 16
      { pindexBestKnownBlock := some best, pindexLastCommonBlock := some 0 } [] (-1) =
        some (after, [], -1)) ∧
    lastCommonBlock tree chain (some 0) best = some 0 ∧
    tree.InWindow 0 best 1 ∧ tree.Missing 1 ∧
    (∀ hash, tree.InWindow 0 best hash → tree.Missing hash → hash = 1) ∧
    flight.lookup 1 = some (3, 0) ∧ tree.Exhausted flight 0 best := by
  refine ⟨chain_navigated, ?_, lastCommonBlock_root, inWindow, missing, fun _ => missing_unique,
    requested, exhausted⟩
  obtain ⟨search, finds, -, -, wanted, staller⟩ := searchFrom_window tree flight 3 16 0 best sound
    known_best root_ofBest (by omega) (some 0) (-1)
  have nothing : search.vBlocks = [] := by
    refine eq_nil_iff_forall_not_mem.mpr fun hash member => ?_
    obtain ⟨inside, lacks, absent⟩ := wanted hash member
    rw [missing_unique inside lacks, requested] at absent
    exact Option.some_ne_none _ absent
  have peers : ∀ hash it, flight.lookup hash ≠ some (-1, it) := by
    intro hash it found
    rw [flight, SortedMap.lookup_set, SortedMap.lookup_empty] at found
    split at found
    · cases found
    · cases found
  obtain ⟨first, peer, it, inside, lacks, -, found, -, silent⟩ :=
    staller validBranch peers nothing ⟨1, inWindow, missing⟩
  rw [missing_unique inside lacks, requested, Option.some.injEq, Prod.mk.injEq] at found
  have unreported := silent (.inr found.1.symm)
  have asks : 16 ≠ 0 := by omega
  have apart : 0 ≠ best := by decide
  have outcome := findNextBlocksToDownload_search
    { pindexBestKnownBlock := some best, pindexLastCommonBlock := some 0 } asks rfl rfl
    interesting_best lastCommonBlock_root apart finds
  rw [nothing, unreported] at outcome
  exact ⟨_, outcome⟩

end

end StalledWindow

end Agouti
