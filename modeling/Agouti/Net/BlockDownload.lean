import Agouti.Net.BlocksInFlight
import Agouti.Validation.CChain

/-! # Which blocks to download from a peer

`FindNextBlocksToDownload` goes from the last common block up the branch of the best block that a
peer is known to have, and asks for the blocks that are neither stored nor in flight. It reads the
branch in chunks, but what it does is the scan of one stretch of the branch
(`BlockDownload.run_round`), which ends one block beyond the download window.
-/

namespace Agouti

open List Option

def BLOCK_DOWNLOAD_WINDOW : Nat := 1024

/-- The fields of `CNodeState` that tell what blocks a peer has. -/
structure PeerBlocks where
  pindexBestKnownBlock : Option Uint256 := none
  hashLastUnknownBlock : Uint256 := 0
  pindexLastCommonBlock : Option Uint256 := none

def PeerBlocks.processBlockAvailability (state : PeerBlocks) (mapBlockIndex : BlockMap) :
    PeerBlocks :=
  if state.hashLastUnknownBlock ≠ 0 then
    match mapBlockIndex state.hashLastUnknownBlock with
    | none => state
    | some itOld =>
      if 0 < itOld.nChainWork then
        { state with
          pindexBestKnownBlock :=
            if (state.pindexBestKnownBlock.bind mapBlockIndex).all
                fun best => decide (best.nChainWork ≤ itOld.nChainWork)
            then some state.hashLastUnknownBlock else state.pindexBestKnownBlock
          hashLastUnknownBlock := 0 }
      else state
  else state

/-- What a search for blocks has found so far. -/
structure DownloadSearch where
  pindexLastCommonBlock : Option Uint256
  waitingfor : NodeId := -1
  vBlocks : List Uint256
  nodeStaller : NodeId

/-- What a search for blocks reads. -/
structure BlockDownload where
  s : SkipNode
  mapBlocksInFlight : SortedMap Uint256 (NodeId × Nat)
  nodeid : NodeId
  count : Nat

namespace BlockDownload

variable (call : BlockDownload)

/-- The body of the inner loop of `FindNextBlocksToDownload`; on the right it returns. -/
def visit (nWindowEnd : Int) (search : DownloadSearch) (hash : Uint256) :
    DownloadSearch ⊕ DownloadSearch :=
  match call.s.node.mapBlockIndex hash with
  | none => .inr search
  | some pindex =>
    -- the chain that this peer is on is considered invalid
    if !pindex.isValid BLOCK_VALID_TREE then .inr search
    else if pindex.nStatus.haveData then
      .inl (if pindex.nChainTx ≠ 0 then { search with pindexLastCommonBlock := some hash }
        else search)
    else
      match call.mapBlocksInFlight.lookup pindex.getBlockHash with
      | none =>
        if nWindowEnd < pindex.nHeight then
          .inr (if search.vBlocks.length = 0 ∧ search.waitingfor ≠ call.nodeid then
              { search with nodeStaller := search.waitingfor }
            else search)
        else
          let search := { search with vBlocks := search.vBlocks ++ [hash] }
          if search.vBlocks.length = call.count then .inr search else .inl search
      | some (peer, _) =>
        .inl (if search.waitingfor = -1 then { search with waitingfor := peer } else search)

/-- The inner loop of `FindNextBlocksToDownload` over `vToFetch`. -/
def scan (nWindowEnd : Int) : List Uint256 → DownloadSearch → DownloadSearch ⊕ DownloadSearch
  | [], search => .inl search
  | hash :: rest, search =>
    match call.visit nWindowEnd search hash with
    | .inl next => scan nWindowEnd rest next
    | .inr done => .inr done

/-- One round of the outer loop of `FindNextBlocksToDownload`: `vToFetch` is filled from its end
along `pprev`. -/
def round (best : Uint256) (nWindowEnd nMaxHeight : Int) :
    Uint256 × DownloadSearch → Uint256 × DownloadSearch ⊕ Option DownloadSearch
  | (pindexWalk, search) =>
    match call.s.node.mapBlockIndex pindexWalk with
    | none => .inr none
    | some walk =>
      if walk.nHeight < nMaxHeight then
        let nToFetch := min (nMaxHeight - walk.nHeight)
          (max (BitVec.ofInt 32 (call.count - search.vBlocks.length)).toInt 128)
        match call.s.getAncestor best (walk.nHeight + nToFetch) with
        | none => .inr none
        | some pindexWalk =>
          match call.scan nWindowEnd
              (SkipList.lineage call.s.parent (nToFetch.toNat - 1) pindexWalk) search with
          | .inl next => .inl (pindexWalk, next)
          | .inr done => .inr (some done)
      else .inr (some search)

/-- The search of `FindNextBlocksToDownload` from the last common block on. -/
def searchFrom (common best : Uint256) (search : DownloadSearch) : Option DownloadSearch :=
  (call.s.node.mapBlockIndex common).bind fun pindexCommon =>
    (call.s.node.mapBlockIndex best).bind fun pindexBest =>
      let nWindowEnd := pindexCommon.nHeight + BLOCK_DOWNLOAD_WINDOW
      let nMaxHeight := min pindexBest.nHeight (nWindowEnd + 1)
      (Loop.run (call.round best nWindowEnd nMaxHeight)
        ((nMaxHeight - pindexCommon.nHeight).toNat + 1) (common, search)).join

end BlockDownload

/-- The last common block of a peer with its best known block: when there is none yet, it is guessed
on the active chain. -/
def lastCommonBlock (s : SkipNode) (chain : CChain) (pindexLastCommonBlock : Option Uint256)
    (best : Uint256) : Option Uint256 :=
  (s.node.mapBlockIndex best).bind fun pindexBest =>
    (pindexLastCommonBlock.or (chain.atHeight (min pindexBest.nHeight chain.height))).bind
      fun last => (lastCommonAncestor s last best).join

/-- Whether the best known block of a peer has as much work as the tip. -/
def interesting (s : SkipNode) (chain : CChain) (best : Uint256) : Option Bool :=
  (s.node.mapBlockIndex best).bind fun pindexBest =>
    (chain.tip.bind s.node.mapBlockIndex).map fun tip =>
      !decide (pindexBest.nChainWork < tip.nChainWork)

/-- `FindNextBlocksToDownload`, with the state of the peer. -/
def findNextBlocksToDownload (s : SkipNode) (chain : CChain)
    (mapBlocksInFlight : SortedMap Uint256 (NodeId × Nat)) (nodeid : NodeId) (count : Nat)
    (state : PeerBlocks) (vBlocks : List Uint256) (nodeStaller : NodeId) :
    Option (PeerBlocks × List Uint256 × NodeId) :=
  if count = 0 then some (state, vBlocks, nodeStaller)
  else
    let state := state.processBlockAvailability s.node.mapBlockIndex
    match state.pindexBestKnownBlock with
    | none => some (state, vBlocks, nodeStaller)
    | some best =>
      (interesting s chain best).bind fun goesOn =>
        if !goesOn then some (state, vBlocks, nodeStaller)
        else
          (lastCommonBlock s chain state.pindexLastCommonBlock best).bind fun common =>
            let state := { state with pindexLastCommonBlock := some common }
            if common = best then some (state, vBlocks, nodeStaller)
            else
              (BlockDownload.searchFrom ⟨s, mapBlocksInFlight, nodeid, count⟩ common best
                { pindexLastCommonBlock := some common, vBlocks, nodeStaller }).map fun search =>
                  ({ state with pindexLastCommonBlock := search.pindexLastCommonBlock },
                    search.vBlocks, search.nodeStaller)

/-- The header is known, the block is not. -/
def SkipNode.Missing (s : SkipNode) (hash : Uint256) : Prop :=
  ∃ pindex, s.node.mapBlockIndex hash = some pindex ∧ pindex.nStatus.haveData = false

/-- An entry that is valid as far as the tree goes. -/
def SkipNode.ValidTree (s : SkipNode) (hash : Uint256) : Prop :=
  ∃ pindex, s.node.mapBlockIndex hash = some pindex ∧ pindex.isValid BLOCK_VALID_TREE = true

namespace BlockDownload

/-- A block that can be asked for. -/
structure Wanted (call : BlockDownload) (nWindowEnd : Int) (hash : Uint256) : Prop where
  missing : call.s.Missing hash
  notInFlight : call.mapBlocksInFlight.lookup hash = none
  inside : (call.s.node.mapBlockIndex.level hash : Int) ≤ nWindowEnd

variable {call : BlockDownload} {nWindowEnd : Int} {search next : DownloadSearch} {hash : Uint256}

def found (outcome : DownloadSearch ⊕ DownloadSearch) : DownloadSearch := outcome.elim id id

theorem scan_inl {rest : List Uint256} (visits : call.visit nWindowEnd search hash = .inl next) :
    call.scan nWindowEnd (hash :: rest) search = call.scan nWindowEnd rest next := by
  rw [scan, visits]

theorem scan_inr {rest : List Uint256} (visits : call.visit nWindowEnd search hash = .inr next) :
    call.scan nWindowEnd (hash :: rest) search = .inr next := by
  rw [scan, visits]

theorem scan_append (first second : List Uint256) (search : DownloadSearch) :
    call.scan nWindowEnd (first ++ second) search =
      match call.scan nWindowEnd first search with
      | .inl next => call.scan nWindowEnd second next
      | .inr done => .inr done := by
  induction first generalizing search with
  | nil => rfl
  | cons hash rest ih =>
    rw [cons_append, scan, scan]
    cases call.visit nWindowEnd search hash with
    | inl next => exact ih next
    | inr done => rfl

theorem run_round (sound : call.s.Sound) {best : Uint256}
    (known : (call.s.node.mapBlockIndex best).isSome) {high : Nat}
    (highest : high ≤ call.s.node.mapBlockIndex.level best) {pindexWalk : Uint256}
    (ofBest : SkipList.Ancestor call.s.parent pindexWalk best)
    (low : call.s.node.mapBlockIndex.level pindexWalk ≤ high) (search : DownloadSearch) {fuel : Nat}
    (enough : high - call.s.node.mapBlockIndex.level pindexWalk < fuel) :
    Loop.run (call.round best nWindowEnd high) fuel (pindexWalk, search) =
      some (some (found (call.scan nWindowEnd (SkipList.stretch call.s.parent
        call.s.node.mapBlockIndex.level best (call.s.node.mapBlockIndex.level pindexWalk) high)
          search))) := by
  have forest := sound.tree.forest
  induction fuel generalizing pindexWalk search with
  | zero => omega
  | succ fuel ih =>
    obtain ⟨walk, foundWalk⟩ :=
      isSome_iff_exists.mp (forest.known_of_ancestor known ofBest)
    obtain ⟨pindexBest, foundBest⟩ := isSome_iff_exists.mp known
    have height := sound.tree.height_eq foundWalk
    have top := sound.tree.height_eq foundBest
    rw [Loop.run, round, foundWalk]
    by_cases further : walk.nHeight < high
    · simp only [further, ↓reduceIte]
      obtain ⟨nToFetch, size, positive, inside⟩ : ∃ nToFetch : Nat,
          min (high - walk.nHeight)
            (max (BitVec.ofInt 32 (call.count - search.vBlocks.length)).toInt 128) = nToFetch ∧
          1 ≤ nToFetch ∧ call.s.node.mapBlockIndex.level pindexWalk + nToFetch ≤ high := by
        refine ⟨(min (high - walk.nHeight) (max (BitVec.ofInt 32
          (call.count - search.vBlocks.length)).toInt 128)).toNat, ?_, ?_, ?_⟩ <;> omega
      obtain ⟨above, finds, ancestor, level⟩ := sound.getAncestor_eq foundBest
        (walk.nHeight + nToFetch) (by omega) (by omega)
      have split := forest.stretch_split known ancestor
        (call.s.node.mapBlockIndex.level pindexWalk) high (nToFetch - 1) (by omega) (by omega)
      rw [size]
      simp only [finds, Int.toNat_natCast]
      rw [show call.s.parent = call.s.node.mapBlockIndex.parent from rfl, split, scan_append]
      cases call.scan nWindowEnd
          (SkipList.lineage call.s.node.mapBlockIndex.parent (nToFetch - 1) above) search with
      | inr done => rfl
      | inl next => exact ih ancestor (by omega) next (by omega)
    · have same : call.s.node.mapBlockIndex.level pindexWalk = high := by omega
      have none : SkipList.stretch call.s.parent call.s.node.mapBlockIndex.level best high high =
          [] := by
        rw [SkipList.stretch]
        exact drop_eq_nil_of_le (length_take_le _ _)
      simp only [further, ↓reduceIte]
      rw [same, none]
      rfl

/-! ## What one block changes -/

section

variable (tree : call.s.node.mapBlockIndex.Tree)
include tree

theorem visit_vBlocks (nWindowEnd : Int) (search : DownloadSearch) (hash : Uint256) :
    (found (call.visit nWindowEnd search hash)).vBlocks = search.vBlocks ∨
      call.Wanted nWindowEnd hash ∧
        (found (call.visit nWindowEnd search hash)).vBlocks = search.vBlocks ++ [hash] := by
  unfold visit
  cases entry : call.s.node.mapBlockIndex hash with
  | none => exact .inl rfl
  | some pindex =>
    have named : pindex.getBlockHash = hash := by
      rw [CBlockIndex.getBlockHash, tree.hash hash pindex entry]
      rfl
    have level := tree.height_eq entry
    simp only [named]
    split
    · exact .inl rfl
    · split
      · split <;> exact .inl rfl
      · rename_i data
        split
        · rename_i none
          split
          · split <;> exact .inl rfl
          · rename_i low
            refine .inr ⟨⟨⟨pindex, entry, by simpa using data⟩, none, by omega⟩, ?_⟩
            split <;> rfl
        · split <;> exact .inl rfl

omit tree in
theorem visit_goesOn (goesOn : call.visit nWindowEnd search hash = .inl next)
    (fewer : search.vBlocks.length < call.count) : next.vBlocks.length < call.count := by
  unfold visit at goesOn
  split at goesOn
  · contradiction
  · split at goesOn
    · contradiction
    · split at goesOn
      · rw [← Sum.inl.inj goesOn]
        split <;> exact fewer
      · split at goesOn
        · split at goesOn
          · contradiction
          · simp only [length_append, length_singleton] at goesOn
            split at goesOn
            · contradiction
            · rw [← Sum.inl.inj goesOn, length_append, length_singleton]
              omega
        · rw [← Sum.inl.inj goesOn]
          split <;> exact fewer

theorem scan_length (blocks : List Uint256) (search : DownloadSearch)
    (fewer : search.vBlocks.length < call.count) :
    (found (call.scan nWindowEnd blocks search)).vBlocks.length ≤ call.count := by
  induction blocks generalizing search with
  | nil => exact fewer.le
  | cons hash rest ih =>
    have here := visit_vBlocks tree nWindowEnd search hash
    cases visits : call.visit nWindowEnd search hash with
    | inl next =>
      rw [scan_inl visits]
      exact ih next (visit_goesOn visits fewer)
    | inr done =>
      rw [visits] at here
      rw [scan_inr visits]
      rcases here with same | ⟨_, more⟩
      · rw [same]
        exact fewer.le
      · rw [more, length_append, length_singleton]
        exact fewer

theorem scan_vBlocks (nWindowEnd : Int) (blocks : List Uint256) (search : DownloadSearch) : ∃ added,
    (found (call.scan nWindowEnd blocks search)).vBlocks = search.vBlocks ++ added ∧
      added.Sublist blocks ∧ ∀ hash ∈ added, call.Wanted nWindowEnd hash := by
  induction blocks generalizing search with
  | nil =>
    refine ⟨[], (append_nil _).symm, .slnil, fun hash member => ?_⟩
    exact absurd member not_mem_nil
  | cons hash rest ih =>
    -- the block itself, and then what the others add
    obtain ⟨here, vBlocks, sublist, wanted⟩ : ∃ here,
        (found (call.visit nWindowEnd search hash)).vBlocks = search.vBlocks ++ here ∧
          here.Sublist [hash] ∧ ∀ other ∈ here, call.Wanted nWindowEnd other := by
      rcases visit_vBlocks tree nWindowEnd search hash with same | ⟨first, more⟩
      · refine ⟨[], by rw [same, append_nil], nil_sublist _, fun other member => ?_⟩
        exact absurd member not_mem_nil
      · refine ⟨[hash], more, .refl _, fun other member => ?_⟩
        rw [mem_singleton.mp member]
        exact first
    cases visits : call.visit nWindowEnd search hash with
    | inl next =>
      rw [visits] at vBlocks
      rw [scan_inl visits]
      obtain ⟨added, later, sublistRest, wantedRest⟩ := ih next
      refine ⟨here ++ added, ?_, sublist.append sublistRest,
        forall_mem_append.mpr ⟨wanted, wantedRest⟩⟩
      rw [later, show next.vBlocks = _ from vBlocks, append_assoc]
    | inr done =>
      rw [visits] at vBlocks
      rw [scan_inr visits]
      exact ⟨here, vBlocks, sublist.trans ((nil_sublist rest).cons_cons hash), wanted⟩

theorem scan_nothing (first second : List Uint256) {search : DownloadSearch}
    (nothing : (found (call.scan nWindowEnd (first ++ second) search)).vBlocks = []) :
    (found (call.scan nWindowEnd first search)).vBlocks = [] := by
  rw [scan_append] at nothing
  cases scans : call.scan nWindowEnd first search with
  | inr done =>
    rw [scans] at nothing
    exact nothing
  | inl next =>
    rw [scans] at nothing
    obtain ⟨added, vBlocks, -⟩ := scan_vBlocks tree nWindowEnd second next
    exact (append_eq_nil_iff.mp (vBlocks.symm.trans nothing)).1

theorem visit_cases (nWindowEnd : Int) (valid : call.s.ValidTree hash) (search : DownloadSearch) :
    (¬ call.s.Missing hash ∧ ∃ last,
      call.visit nWindowEnd search hash = .inl { search with pindexLastCommonBlock := last }) ∨
    (call.s.Missing hash ∧ ∃ peer it, call.mapBlocksInFlight.lookup hash = some (peer, it) ∧
      call.visit nWindowEnd search hash =
        .inl (if search.waitingfor = -1 then { search with waitingfor := peer } else search)) ∨
    (call.s.Missing hash ∧ call.mapBlocksInFlight.lookup hash = none ∧
      nWindowEnd < call.s.node.mapBlockIndex.level hash ∧
      call.visit nWindowEnd search hash =
        .inr (if search.vBlocks.length = 0 ∧ search.waitingfor ≠ call.nodeid then
          { search with nodeStaller := search.waitingfor } else search)) ∨
    call.Wanted nWindowEnd hash ∧
      (found (call.visit nWindowEnd search hash)).vBlocks = search.vBlocks ++ [hash] := by
  obtain ⟨pindex, entry, isValid⟩ := valid
  have named : pindex.getBlockHash = hash := by
    rw [CBlockIndex.getBlockHash, tree.hash hash pindex entry]
    rfl
  have level := tree.height_eq entry
  unfold visit
  simp only [entry, isValid, Bool.not_true, Bool.false_eq_true, ↓reduceIte, named]
  cases data : pindex.nStatus.haveData with
  | true =>
    refine .inl ⟨?_, ?_⟩
    · rintro ⟨other, same, missing⟩
      rw [entry, some.injEq] at same
      rw [← same, data] at missing
      contradiction
    · by_cases linked : pindex.nChainTx ≠ 0
      · exact ⟨some hash, by rw [if_pos linked, if_pos rfl]⟩
      · exact ⟨search.pindexLastCommonBlock, by rw [if_neg linked, if_pos rfl]⟩
  | false =>
    have missing : call.s.Missing hash := ⟨pindex, entry, data⟩
    cases flight : call.mapBlocksInFlight.lookup hash with
    | some request => exact .inr (.inl ⟨missing, request.1, request.2, rfl, rfl⟩)
    | none =>
      by_cases beyond : nWindowEnd < pindex.nHeight
      · refine .inr (.inr (.inl ⟨missing, rfl, by omega, ?_⟩))
        simp only [beyond, ↓reduceIte, Bool.false_eq_true]
      · refine .inr (.inr (.inr ⟨⟨missing, flight, by omega⟩, ?_⟩))
        simp only [beyond, ↓reduceIte, Bool.false_eq_true]
        split <;> rfl

theorem scan_none {blocks : List Uint256}
    (valid : ∀ hash ∈ blocks, call.s.ValidTree hash)
    (inside : ∀ hash ∈ blocks, (call.s.node.mapBlockIndex.level hash : Int) ≤ nWindowEnd)
    (search : DownloadSearch) (none : search.vBlocks = [])
    (nothing : (found (call.scan nWindowEnd blocks search)).vBlocks = []) : ∃ next,
      call.scan nWindowEnd blocks search = .inl next ∧ next.vBlocks = [] ∧
      next.nodeStaller = search.nodeStaller ∧
      (∀ hash ∈ blocks, call.s.Missing hash →
        ∃ peer it, call.mapBlocksInFlight.lookup hash = some (peer, it)) ∧
      (search.waitingfor ≠ -1 ∨ (∀ hash ∈ blocks, ¬ call.s.Missing hash) →
        next.waitingfor = search.waitingfor) := by
  induction blocks generalizing search with
  | nil =>
    refine ⟨search, rfl, none, rfl, fun hash member => absurd member not_mem_nil,
      fun _ => rfl⟩
  | cons hash rest ih =>
    have validRest := fun other member => valid other (mem_cons_of_mem hash member)
    have insideRest := fun other member => inside other (mem_cons_of_mem hash member)
    rcases visit_cases tree nWindowEnd (valid hash mem_cons_self) search with
      ⟨stored, last, visits⟩ | ⟨missing, peer, it, flight, visits⟩ | ⟨_, _, beyond, _⟩ |
        ⟨_, more⟩
    · rw [scan_inl visits] at nothing ⊢
      obtain ⟨next, scans, empty, staller, flights, waiting⟩ :=
        ih validRest insideRest { search with pindexLastCommonBlock := last } none nothing
      refine ⟨next, scans, empty, staller, ?_, fun kept => waiting (kept.imp_right fun all =>
        fun other member => all other (mem_cons_of_mem hash member))⟩
      intro other member lacks
      rcases mem_cons.mp member with rfl | later
      · exact absurd lacks stored
      · exact flights other later lacks
    · rw [scan_inl visits] at nothing ⊢
      obtain ⟨next, scans, empty, staller, flights, waiting⟩ :=
        ih validRest insideRest _ (by split <;> exact none) nothing
      refine ⟨next, scans, empty, staller.trans (by split <;> rfl), ?_, fun kept => ?_⟩
      · intro other member lacks
        rcases mem_cons.mp member with rfl | later
        · exact ⟨peer, it, flight⟩
        · exact flights other later lacks
      · have waits := kept.resolve_right fun all => all hash mem_cons_self missing
        simp only [waits, ↓reduceIte] at waiting
        exact waiting (.inl waits)
    · exact absurd beyond (not_lt.mpr (inside hash mem_cons_self))
    · -- a block that is found stays found
      have first := scan_nothing tree [hash] rest nothing
      have same : (found (call.scan nWindowEnd [hash] search)).vBlocks =
          (found (call.visit nWindowEnd search hash)).vBlocks := by
        rw [scan]
        cases call.visit nWindowEnd search hash <;> rfl
      rw [same, more] at first
      exact absurd first (append_ne_nil_of_right_ne_nil _ (cons_ne_nil _ _))

end

end BlockDownload

end Agouti
