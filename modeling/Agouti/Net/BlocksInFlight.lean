import Agouti.Chain.BlockIndex
import Agouti.Net.Orphans

/-! # Blocks in flight

The blocks that are requested from peers: every peer has a list of its requests,
`mapBlocksInFlight` leads from a block to its entry, and `nQueuedValidatedHeaders` counts the
entries with validated headers. An iterator is the number its list node got when it was
made. In every run the map is the index of the lists (`Indexed`), and no iterator dangles.
`FinalizeNode` drops the entries of a peer without subtracting them from the counter, so the
counter is exact as long as no peer goes with validated entries in flight
(`blocksInFlight_of_run`).
-/

namespace Agouti

open List Option

/-- A block in flight. -/
structure QueuedBlock where
  hash : Uint256
  pindex : Option CBlockIndex
  nTime : Int
  nValidatedQueuedBefore : Int
  fValidatedHeaders : Bool

/-- The fields of `CNodeState` that the bookkeeping of downloads reads. -/
structure CNodeState where
  fSyncStarted : Bool := false
  nStallingSince : Int := 0
  /-- the nodes of `vBlocksInFlight` in order, each with its number -/
  vBlocksInFlight : List (Nat × QueuedBlock) := []
  nBlocksInFlight : Int := 0
  fPreferredDownload : Bool := false

namespace CNodeState

/-- The changes of `MarkBlockAsReceived` to the state of the peer. -/
def eraseInFlight (state : CNodeState) (it : Nat) : CNodeState :=
  { state with
    vBlocksInFlight := state.vBlocksInFlight.filter fun node => decide (node.1 ≠ it)
    nBlocksInFlight := state.nBlocksInFlight - 1
    nStallingSince := 0 }

/-- The changes of `MarkBlockAsInFlight` to the state of the peer. -/
def insertInFlight (state : CNodeState) (it : Nat) (newentry : QueuedBlock) : CNodeState :=
  { state with
    vBlocksInFlight := state.vBlocksInFlight ++ [(it, newentry)]
    nBlocksInFlight := state.nBlocksInFlight + 1 }

def validated (state : CNodeState) : Nat :=
  state.vBlocksInFlight.countP fun node => node.2.fValidatedHeaders

end CNodeState

/-- The part of the node's state that is kept for the peers. -/
structure PeerStates where
  mapNodeState : SortedMap NodeId CNodeState
  /-- the peer and the list node that an iterator points to -/
  mapBlocksInFlight : SortedMap Uint256 (NodeId × Nat)
  nQueuedValidatedHeaders : Int
  nSyncStarted : Int
  nPreferredDownload : Int
  orphans : OrphanMaps
  /-- the number of the next list node -/
  nextNode : Nat

def flag (value : Bool) : Int := if value then 1 else 0

namespace PeerStates

def empty : PeerStates :=
  { mapNodeState := .empty, mapBlocksInFlight := .empty, nQueuedValidatedHeaders := 0,
    nSyncStarted := 0, nPreferredDownload := 0, orphans := .empty, nextNode := 0 }

/-- `InitializeNode`; the name and address of the peer are left out. -/
def initializeNode (peers : PeerStates) (nodeid : NodeId) : PeerStates :=
  { peers with mapNodeState := peers.mapNodeState.insert nodeid {} }

/-- `MarkBlockAsReceived`; nothing when it would follow a null pointer or a dangling
iterator. -/
def markBlockAsReceived (peers : PeerStates) (hash : Uint256) : Option PeerStates :=
  match peers.mapBlocksInFlight.lookup hash with
  | none => some peers
  | some (nodeid, it) => do
      let state ← peers.mapNodeState.lookup nodeid
      let entry ← state.vBlocksInFlight.lookup it
      return { peers with
        nQueuedValidatedHeaders := peers.nQueuedValidatedHeaders - flag entry.fValidatedHeaders
        mapNodeState := peers.mapNodeState.set nodeid (state.eraseInFlight it)
        mapBlocksInFlight := peers.mapBlocksInFlight.erase hash }

/-- `MarkBlockAsInFlight` at the time `GetTimeMicros()`; the peer is asserted to be known. -/
def markBlockAsInFlight (peers : PeerStates) (nodeid : NodeId) (hash : Uint256)
    (pindex : Option CBlockIndex) (now : Int) : Option PeerStates :=
  match peers.mapNodeState.lookup nodeid with
  | none => none
  | some _ => do
      let peers ← peers.markBlockAsReceived hash
      let state ← peers.mapNodeState.lookup nodeid
      let newentry := QueuedBlock.mk hash pindex now peers.nQueuedValidatedHeaders pindex.isSome
      return { peers with
        nQueuedValidatedHeaders := peers.nQueuedValidatedHeaders + flag newentry.fValidatedHeaders
        mapNodeState :=
          peers.mapNodeState.set nodeid (state.insertInFlight peers.nextNode newentry)
        mapBlocksInFlight := peers.mapBlocksInFlight.set hash (nodeid, peers.nextNode)
        nextNode := peers.nextNode + 1 }

/-- `FinalizeNode`, but for the note to the address manager. -/
def finalizeNode [Crypto] (peers : PeerStates) (nodeid : NodeId) : Option PeerStates := do
  let state ← peers.mapNodeState.lookup nodeid
  let orphans ← OrphanMaps.eraseOrphansFor nodeid peers.orphans
  return { peers with
    nSyncStarted := peers.nSyncStarted - flag state.fSyncStarted
    mapBlocksInFlight := state.vBlocksInFlight.foldl (fun map node => map.erase node.2.hash)
      peers.mapBlocksInFlight
    orphans := orphans
    nPreferredDownload := peers.nPreferredDownload - flag state.fPreferredDownload
    mapNodeState := peers.mapNodeState.erase nodeid }

/-- The peer's list has the block at `it`. -/
def Requested (peers : PeerStates) (nodeid : NodeId) (it : Nat) (entry : QueuedBlock) : Prop :=
  ∃ state, peers.mapNodeState.lookup nodeid = some state ∧ (it, entry) ∈ state.vBlocksInFlight

def queuedValidated (peers : PeerStates) : Nat := peers.mapNodeState.total CNodeState.validated

variable [Crypto]

/-- `mapBlocksInFlight` is the inverse of the lists. -/
structure Indexed (peers : PeerStates) : Prop where
  index : ∀ hash nodeid it, peers.mapBlocksInFlight.lookup hash = some (nodeid, it) ↔
    ∃ entry, peers.Requested nodeid it entry ∧ entry.hash = hash
  count : ∀ nodeid state, peers.mapNodeState.lookup nodeid = some state →
    state.nBlocksInFlight = state.vBlocksInFlight.length
  /-- the nodes of a list are apart, and all were made before the next one -/
  nodes : ∀ nodeid state, peers.mapNodeState.lookup nodeid = some state →
    (state.vBlocksInFlight.map Prod.fst).Nodup ∧
      ∀ node ∈ state.vBlocksInFlight, node.1 < peers.nextNode
  orphans : peers.orphans.Exact

theorem indexed_empty : empty.Indexed := by
  constructor
  · intro hash nodeid it
    constructor
    · intro found
      contradiction
    · intro ⟨entry, ⟨state, known, _⟩, _⟩
      contradiction
  · intro nodeid state known
    contradiction
  · intro nodeid state known
    contradiction
  · exact OrphanMaps.exact_empty

/-! ## Lists of requests -/

variable {nodes : List (Nat × QueuedBlock)} {it : Nat} {entry : QueuedBlock} {state : CNodeState}
  {peers : PeerStates} {nodeid : NodeId}

omit [Crypto] in
theorem lookup_node (nodup : (nodes.map Prod.fst).Nodup) (member : (it, entry) ∈ nodes) :
    nodes.lookup it = some entry := by
  induction nodes with
  | nil => contradiction
  | cons node nodes ih =>
    rw [map_cons, nodup_cons] at nodup
    rcases mem_cons.mp member with same | later
    · rw [← same]
      exact lookup_cons_self
    · have apart : it ≠ node.1 := by
        intro same
        refine nodup.1 ?_
        rw [← same]
        exact mem_map_of_mem later
      rw [lookup_cons, beq_eq_false_iff_ne.mpr apart]
      exact ih nodup.2 later

omit [Crypto] in
theorem node_unique (nodup : (nodes.map Prod.fst).Nodup) {first second : QueuedBlock}
    (one : (it, first) ∈ nodes) (two : (it, second) ∈ nodes) : first = second := by
  have found := lookup_node nodup one
  rw [lookup_node nodup two] at found
  exact (some.inj found).symm

omit [Crypto] in
theorem filter_node (nodup : (nodes.map Prod.fst).Nodup) (member : (it, entry) ∈ nodes) :
    ∃ done rest, nodes = done ++ (it, entry) :: rest ∧
      nodes.filter (fun node => decide (node.1 ≠ it)) = done ++ rest := by
  obtain ⟨done, rest, split⟩ := append_of_mem member
  refine ⟨done, rest, split, ?_⟩
  rw [split, map_append, map_cons, nodup_append, nodup_cons] at nodup
  obtain ⟨-, ⟨behind, -⟩, before⟩ := nodup
  have others : ∀ node ∈ done ++ rest, decide (node.1 ≠ it) = true := by
    intro node near
    rw [decide_eq_true_eq]
    rcases mem_append.mp near with early | late
    · exact before node.1 (mem_map_of_mem early) it mem_cons_self
    · intro same
      exact behind (mem_map.mpr ⟨node, late, same⟩)
  rw [split, filter_append, filter_cons_of_neg (by simp), ← filter_append,
    filter_eq_self.mpr others]

omit [Crypto] in
theorem validated_eraseInFlight (nodup : (state.vBlocksInFlight.map Prod.fst).Nodup)
    (member : (it, entry) ∈ state.vBlocksInFlight) :
    (state.validated : Int) = (state.eraseInFlight it).validated + flag entry.fValidatedHeaders := by
  obtain ⟨done, rest, split, left⟩ := filter_node nodup member
  simp only [CNodeState.validated, CNodeState.eraseInFlight, left]
  rw [split, countP_append, countP_cons, countP_append]
  cases entry.fValidatedHeaders
  · simp [flag]
  · simp only [flag, ↓reduceIte]
    omega

omit [Crypto] in
theorem mem_eraseInFlight {place : Nat} :
    (place, entry) ∈ (state.eraseInFlight it).vBlocksInFlight ↔
      (place, entry) ∈ state.vBlocksInFlight ∧ place ≠ it := by
  rw [CNodeState.eraseInFlight, mem_filter, decide_eq_true_eq]

omit [Crypto] in
theorem requested_set (peers : PeerStates) (nodeid other : NodeId) (state : CNodeState)
    (it : Nat) (entry : QueuedBlock) :
    (∃ held, (peers.mapNodeState.set nodeid state).lookup other = some held ∧
        (it, entry) ∈ held.vBlocksInFlight) ↔
      if other = nodeid then (it, entry) ∈ state.vBlocksInFlight
      else peers.Requested other it entry := by
  rw [SortedMap.lookup_set]
  split
  · simp
  · rfl

omit [Crypto] in
theorem requested_eraseInFlight (known : peers.mapNodeState.lookup nodeid = some state) (it : Nat)
    (who : NodeId) (place : Nat) (request : QueuedBlock) :
    (∃ held, (peers.mapNodeState.set nodeid (state.eraseInFlight it)).lookup who = some held ∧
        (place, request) ∈ held.vBlocksInFlight) ↔
      peers.Requested who place request ∧ ¬(who = nodeid ∧ place = it) := by
  rw [requested_set]
  split
  case isTrue here =>
      rw [here, mem_eraseInFlight, Requested, known]
      simp
  case isFalse elsewhere =>
      exact ⟨fun asked => ⟨asked, fun same => elsewhere same.1⟩, And.left⟩

/-! ## A block is received -/

omit [Crypto] in
theorem markBlockAsReceived_eq {hash : Uint256}
    (found : peers.mapBlocksInFlight.lookup hash = some (nodeid, it))
    (known : peers.mapNodeState.lookup nodeid = some state)
    (node : state.vBlocksInFlight.lookup it = some entry) :
    peers.markBlockAsReceived hash = some { peers with
      nQueuedValidatedHeaders := peers.nQueuedValidatedHeaders - flag entry.fValidatedHeaders
      mapNodeState := peers.mapNodeState.set nodeid (state.eraseInFlight it)
      mapBlocksInFlight := peers.mapBlocksInFlight.erase hash } := by
  rw [markBlockAsReceived, found]
  dsimp only
  rw [known, bind_eq_bind, bind_some, node]
  rfl

/-- By how much the counter exceeds the entries it counts. -/
def excess (peers : PeerStates) : Int := peers.nQueuedValidatedHeaders - peers.queuedValidated

theorem Indexed.markBlockAsReceived (indexed : peers.Indexed) (hash : Uint256) :
    ∃ after, peers.markBlockAsReceived hash = some after ∧ after.Indexed ∧
      after.mapBlocksInFlight.lookup hash = none ∧ after.excess = peers.excess ∧
      ∀ nodeid, (peers.mapNodeState.lookup nodeid).isSome = true →
        (after.mapNodeState.lookup nodeid).isSome = true := by
  cases found : peers.mapBlocksInFlight.lookup hash with
  | none =>
    refine ⟨peers, ?_, indexed, found, rfl, fun _ => id⟩
    rw [PeerStates.markBlockAsReceived, found]
  | some place =>
    obtain ⟨nodeid, it⟩ := place
    obtain ⟨entry, ⟨state, known, member⟩, own⟩ := (indexed.index hash nodeid it).mp found
    obtain ⟨nodup, made⟩ := indexed.nodes nodeid state known
    obtain ⟨done, rest, split, left⟩ := filter_node nodup member
    refine ⟨_, markBlockAsReceived_eq found known (lookup_node nodup member), ?_, ?_, ?_, ?_⟩
    · constructor
      · intro other who place
        simp only [Requested, requested_eraseInFlight known]
        have there := indexed.index other who place
        rw [SortedMap.lookup_erase]
        split
        case isTrue same =>
            refine iff_of_false (by simp) fun ⟨request, ⟨asked, elsewhere⟩, its⟩ => ?_
            have again := there.mpr ⟨request, asked, its⟩
            rw [same, found, some.injEq, Prod.mk.injEq] at again
            exact elsewhere ⟨again.1.symm, again.2.symm⟩
        case isFalse apart =>
            rw [there]
            refine exists_congr fun request => and_congr_left fun its => ?_
            refine ⟨fun asked => ⟨asked, fun same => apart ?_⟩, And.left⟩
            obtain ⟨held, present, asked⟩ := asked
            rw [same.1, known] at present
            rw [← some.inj present, same.2] at asked
            rw [← its, ← own, node_unique nodup asked member]
      · intro other held present
        rw [SortedMap.lookup_set] at present
        split at present
        case isTrue =>
            rw [← some.inj present]
            have counted := indexed.count nodeid state known
            unfold CNodeState.eraseInFlight
            dsimp only
            rw [left, counted, split, length_append, length_append, length_cons]
            omega
        case isFalse => exact indexed.count other held present
      · intro other held present
        rw [SortedMap.lookup_set] at present
        split at present
        case isTrue =>
            rw [← some.inj present]
            refine ⟨nodup.sublist (filter_sublist.map Prod.fst), fun node near => ?_⟩
            exact made node (mem_filter.mp near).1
        case isFalse => exact indexed.nodes other held present
      · exact indexed.orphans
    · rw [SortedMap.lookup_erase, if_pos rfl]
    · have total :=
        SortedMap.total_set CNodeState.validated peers.mapNodeState nodeid (state.eraseInFlight it)
      have before := validated_eraseInFlight nodup member
      rw [known, map_some, getD_some] at total
      simp only [excess, queuedValidated]
      omega
    · intro other present
      rw [SortedMap.lookup_set]
      split
      · rfl
      · exact present

/-! ## A block is requested -/

omit [Crypto] in
theorem not_requested [Crypto] (indexed : peers.Indexed) {hash : Uint256}
    (absent : peers.mapBlocksInFlight.lookup hash = none)
    (asked : peers.Requested nodeid it entry) : entry.hash ≠ hash := by
  intro same
  have present := (indexed.index hash nodeid it).mpr ⟨entry, asked, same⟩
  rw [absent] at present
  contradiction

theorem Indexed.insert {peers : PeerStates} (indexed : peers.Indexed) {nodeid : NodeId}
    {state : CNodeState} (known : peers.mapNodeState.lookup nodeid = some state)
    {newentry : QueuedBlock} (absent : peers.mapBlocksInFlight.lookup newentry.hash = none)
    (count : Int) :
    Indexed { peers with
      nQueuedValidatedHeaders := count
      mapNodeState := peers.mapNodeState.set nodeid (state.insertInFlight peers.nextNode newentry)
      mapBlocksInFlight := peers.mapBlocksInFlight.set newentry.hash (nodeid, peers.nextNode)
      nextNode := peers.nextNode + 1 } := by
  obtain ⟨nodup, made⟩ := indexed.nodes nodeid state known
  constructor
  · intro hash who place
    simp only [Requested, requested_set]
    have there := indexed.index hash who place
    rw [SortedMap.lookup_set]
    split
    case isTrue same =>
        rw [some.injEq, Prod.mk.injEq]
        constructor
        · intro ⟨own, new⟩
          refine ⟨newentry, ?_, same.symm⟩
          rw [if_pos own.symm, ← new]
          exact mem_append_right _ mem_cons_self
        · intro ⟨request, asked, its⟩
          split at asked
          case isTrue own =>
              rcases mem_append.mp asked with old | new
              · exact absurd (its.trans same) (not_requested indexed absent ⟨state, known, old⟩)
              · have last := Prod.mk.inj (mem_singleton.mp new)
                exact ⟨own.symm, last.1.symm⟩
          case isFalse elsewhere =>
              exact absurd (its.trans same) (not_requested indexed absent asked)
    case isFalse apart =>
        rw [there]
        refine exists_congr fun request => and_congr_left fun its => ?_
        split
        case isFalse => rfl
        case isTrue own =>
            rw [own, Requested, known, CNodeState.insertInFlight, mem_append,
              mem_singleton, Prod.mk.injEq]
            constructor
            · rintro ⟨held, present, old⟩
              rw [← some.inj present] at old
              exact .inl old
            · rintro (old | ⟨_, new⟩)
              · exact ⟨state, rfl, old⟩
              · rw [new] at its
                exact absurd its.symm apart
  · intro other held present
    rw [SortedMap.lookup_set] at present
    split at present
    case isTrue =>
        rw [← some.inj present]
        have counted := indexed.count nodeid state known
        simp only [CNodeState.insertInFlight, length_append, length_singleton]
        omega
    case isFalse => exact indexed.count other held present
  · intro other held present
    rw [SortedMap.lookup_set] at present
    split at present
    case isTrue =>
        rw [← some.inj present]
        simp only [CNodeState.insertInFlight, map_append, map_cons, map_nil]
        constructor
        · rw [nodup_append]
          refine ⟨nodup, nodup_singleton _, fun number early last new => ?_⟩
          obtain ⟨node, near, rfl⟩ := mem_map.mp early
          have below := made node near
          rw [mem_singleton.mp new]
          omega
        · intro node near
          rcases mem_append.mp near with old | new
          · exact Nat.lt_succ_of_lt (made node old)
          · rw [mem_singleton.mp new]
            exact Nat.lt_succ_self _
    case isFalse =>
        obtain ⟨apart, early⟩ := indexed.nodes other held present
        exact ⟨apart, fun node near => Nat.lt_succ_of_lt (early node near)⟩
  · exact indexed.orphans

theorem Indexed.markBlockAsInFlight (indexed : peers.Indexed)
    (connected : (peers.mapNodeState.lookup nodeid).isSome = true) (hash : Uint256)
    (pindex : Option CBlockIndex) (now : Int) :
    ∃ after, peers.markBlockAsInFlight nodeid hash pindex now = some after ∧ after.Indexed ∧
      after.excess = peers.excess ∧
      ∃ it entry, after.Requested nodeid it entry ∧ entry.hash = hash ∧
        after.nQueuedValidatedHeaders = entry.nValidatedQueuedBefore + flag pindex.isSome := by
  obtain ⟨state, known⟩ := isSome_iff_exists.mp connected
  obtain ⟨received, done, again, absent, excess, keeps⟩ := indexed.markBlockAsReceived hash
  obtain ⟨held, present⟩ := isSome_iff_exists.mp (keeps nodeid connected)
  rw [PeerStates.markBlockAsInFlight, known, done, bind_eq_bind, bind_some, present]
  refine ⟨_, rfl, again.insert present absent _, ?_, ?_⟩
  · rw [← excess]
    have total := SortedMap.total_set CNodeState.validated received.mapNodeState nodeid
      (held.insertInFlight received.nextNode ⟨hash, pindex, now, received.nQueuedValidatedHeaders,
        pindex.isSome⟩)
    rw [present, map_some, getD_some] at total
    have counted : ((held.insertInFlight received.nextNode ⟨hash, pindex, now,
        received.nQueuedValidatedHeaders, pindex.isSome⟩).validated : Int) =
          held.validated + flag pindex.isSome := by
      rw [CNodeState.validated, CNodeState.insertInFlight, countP_append, CNodeState.validated]
      cases pindex <;> simp [flag]
    simp only [PeerStates.excess, queuedValidated]
    omega
  · refine ⟨received.nextNode,
      ⟨hash, pindex, now, received.nQueuedValidatedHeaders, pindex.isSome⟩,
      ⟨held.insertInFlight received.nextNode _, ?_, mem_append_right _ mem_cons_self⟩,
      rfl, rfl⟩
    rw [SortedMap.lookup_set, if_pos rfl]

/-! ## Peers come and go -/

theorem Indexed.initializeNode (indexed : peers.Indexed) (nodeid : NodeId) :
    (peers.initializeNode nodeid).Indexed ∧
      (peers.initializeNode nodeid).excess = peers.excess := by
  cases found : peers.mapNodeState.lookup nodeid with
  | some state =>
    have same : peers.initializeNode nodeid = peers := by
      rw [PeerStates.initializeNode, SortedMap.insert, found]
      rfl
    rw [same]
    exact ⟨indexed, rfl⟩
  | none =>
    have set : peers.initializeNode nodeid =
        { peers with mapNodeState := peers.mapNodeState.set nodeid {} } := by
      rw [PeerStates.initializeNode, SortedMap.insert, found]
      rfl
    rw [set]
    refine ⟨⟨?_, ?_, ?_, indexed.orphans⟩, ?_⟩
    · intro hash who place
      simp only [Requested, requested_set]
      rw [indexed.index]
      refine exists_congr fun request => and_congr_left fun _ => ?_
      split
      case isFalse => rfl
      case isTrue own =>
          rw [own, Requested, found]
          simp
    · intro other held present
      rw [SortedMap.lookup_set] at present
      split at present
      case isTrue =>
          rw [← some.inj present]
          rfl
      case isFalse => exact indexed.count other held present
    · intro other held present
      rw [SortedMap.lookup_set] at present
      split at present
      case isTrue =>
          rw [← some.inj present]
          exact ⟨nodup_nil, fun node near => absurd near not_mem_nil⟩
      case isFalse => exact indexed.nodes other held present
    · have total := SortedMap.total_set CNodeState.validated peers.mapNodeState nodeid {}
      rw [found, map_none, getD_none] at total
      have none : CNodeState.validated {} = 0 := rfl
      simp only [excess, queuedValidated]
      omega

omit [Crypto] in
theorem lookup_eraseAll (nodes : List (Nat × QueuedBlock))
    (map : SortedMap Uint256 (NodeId × Nat)) (hash : Uint256) :
    (nodes.foldl (fun map node => map.erase node.2.hash) map).lookup hash =
      if ∃ node ∈ nodes, node.2.hash = hash then none else map.lookup hash := by
  induction nodes generalizing map with
  | nil => simp
  | cons node nodes ih =>
    rw [foldl_cons, ih, SortedMap.lookup_erase]
    by_cases later : ∃ node ∈ nodes, node.2.hash = hash
    · rw [if_pos later, if_pos]
      obtain ⟨other, member, its⟩ := later
      exact ⟨other, mem_cons_of_mem _ member, its⟩
    · rw [if_neg later]
      by_cases here : hash = node.2.hash
      · rw [if_pos here, if_pos ⟨node, mem_cons_self, here.symm⟩]
      · rw [if_neg here, if_neg]
        rintro ⟨other, member, its⟩
        rcases mem_cons.mp member with same | behind
        · rw [same] at its
          exact here its.symm
        · exact later ⟨other, behind, its⟩

theorem Indexed.finalizeNode (indexed : peers.Indexed)
    (known : peers.mapNodeState.lookup nodeid = some state) :
    ∃ after, peers.finalizeNode nodeid = some after ∧ after.Indexed ∧
      after.excess = peers.excess + state.validated := by
  obtain ⟨orphans, erased, exactly, -⟩ := indexed.orphans.eraseOrphansFor nodeid
  rw [PeerStates.finalizeNode, known, bind_eq_bind, bind_some, erased]
  refine ⟨_, rfl, ⟨?_, ?_, ?_, exactly⟩, ?_⟩
  · intro hash who place
    simp only [Requested, SortedMap.lookup_erase]
    rw [lookup_eraseAll]
    have there := indexed.index hash who place
    constructor
    · intro found
      split at found
      · contradiction
      · rename_i others
        obtain ⟨request, ⟨held, present, asked⟩, its⟩ := there.mp found
        have apart : who ≠ nodeid := by
          rintro rfl
          rw [known] at present
          rw [← some.inj present] at asked
          exact others ⟨_, asked, its⟩
        exact ⟨request, ⟨held, by rw [if_neg apart, present], asked⟩, its⟩
    · intro ⟨request, ⟨held, present, asked⟩, its⟩
      split at present
      · contradiction
      · rename_i apart
        have found := there.mpr ⟨request, ⟨held, present, asked⟩, its⟩
        rw [if_neg, found]
        rintro ⟨node, member, same⟩
        have own := (indexed.index hash nodeid node.1).mpr ⟨node.2, ⟨state, known, member⟩, same⟩
        rw [found] at own
        exact apart (Prod.mk.inj (some.inj own)).1
  · intro other held present
    rw [SortedMap.lookup_erase] at present
    split at present
    · contradiction
    · exact indexed.count other held present
  · intro other held present
    rw [SortedMap.lookup_erase] at present
    split at present
    · contradiction
    · exact indexed.nodes other held present
  · have total := SortedMap.total_erase CNodeState.validated known
    simp only [excess, queuedValidated]
    omega

end PeerStates

/-- The states that the four operations reach, over any peers and blocks, with the number of
validated entries that were in flight with peers when they were finalized. In between, other
code handles orphans and writes the fields that are not about requests. -/
inductive DownloadRun [Crypto] : PeerStates → Nat → Prop
  | start : DownloadRun .empty 0
  | joined {peers : PeerStates} {lost : Nat} (run : DownloadRun peers lost)
      (nodeid : NodeId) : DownloadRun (peers.initializeNode nodeid) lost
  | gone {peers after : PeerStates} {lost : Nat} (run : DownloadRun peers lost)
      {nodeid : NodeId} {state : CNodeState}
      (known : peers.mapNodeState.lookup nodeid = some state)
      (done : peers.finalizeNode nodeid = some after) : DownloadRun after (lost + state.validated)
  | received {peers after : PeerStates} {lost : Nat} (run : DownloadRun peers lost)
      {hash : Uint256} (done : peers.markBlockAsReceived hash = some after) :
      DownloadRun after lost
  | requested {peers after : PeerStates} {lost : Nat} (run : DownloadRun peers lost)
      {nodeid : NodeId} {hash : Uint256} {pindex : Option CBlockIndex} {now : Int}
      (done : peers.markBlockAsInFlight nodeid hash pindex now = some after) :
      DownloadRun after lost
  | other {peers : PeerStates} {lost : Nat} (run : DownloadRun peers lost) {nodeid : NodeId}
      {state : CNodeState} (known : peers.mapNodeState.lookup nodeid = some state)
      {maps : OrphanMaps} (handled : OrphanRun maps) (nSyncStarted nPreferredDownload : Int)
      (fSyncStarted fPreferredDownload : Bool) (nStallingSince : Int) :
      DownloadRun { peers with
        orphans := maps
        nSyncStarted := nSyncStarted
        nPreferredDownload := nPreferredDownload
        mapNodeState := peers.mapNodeState.set nodeid { state with
          fSyncStarted := fSyncStarted
          fPreferredDownload := fPreferredDownload
          nStallingSince := nStallingSince } } lost

namespace DownloadRun

variable [Crypto]

theorem indexed {peers : PeerStates} {lost : Nat} (run : DownloadRun peers lost) :
    peers.Indexed ∧ peers.excess = lost := by
  induction run with
  | start => exact ⟨PeerStates.indexed_empty, rfl⟩
  | joined run nodeid ih =>
    obtain ⟨indexed, excess⟩ := ih.1.initializeNode nodeid
    exact ⟨indexed, excess.trans ih.2⟩
  | gone run known done ih =>
    obtain ⟨after, result, indexed, excess⟩ := ih.1.finalizeNode known
    rw [done, some.injEq] at result
    rw [result]
    refine ⟨indexed, ?_⟩
    omega
  | received run done ih =>
    obtain ⟨after, result, indexed, -, excess, -⟩ := ih.1.markBlockAsReceived _
    rw [done, some.injEq] at result
    rw [result]
    exact ⟨indexed, excess.trans ih.2⟩
  | @requested peers _ _ run nodeid hash pindex now done ih =>
    have connected : (peers.mapNodeState.lookup nodeid).isSome = true := by
      unfold PeerStates.markBlockAsInFlight at done
      split at done
      · contradiction
      · rename_i known
        rw [known]
        rfl
    obtain ⟨after, result, indexed, excess, -⟩ := ih.1.markBlockAsInFlight connected hash pindex now
    rw [done, some.injEq] at result
    rw [result]
    exact ⟨indexed, excess.trans ih.2⟩
  | @other peers _ run nodeid state known maps handled _ _ fSync fPreferred since ih =>
    obtain ⟨indexed, excess⟩ := ih
    refine ⟨⟨?_, ?_, ?_, handled.exact⟩, ?_⟩
    · intro hash who place
      simp only [PeerStates.Requested, PeerStates.requested_set]
      rw [indexed.index]
      refine exists_congr fun request => and_congr_left fun _ => ?_
      split
      case isFalse => rfl
      case isTrue own =>
          rw [own, PeerStates.Requested, known]
          simp
    · intro who held present
      rw [SortedMap.lookup_set] at present
      split at present
      · rw [← some.inj present]
        exact indexed.count nodeid state known
      · exact indexed.count who held present
    · intro who held present
      rw [SortedMap.lookup_set] at present
      split at present
      · rw [← some.inj present]
        exact indexed.nodes nodeid state known
      · exact indexed.nodes who held present
    · rw [← excess]
      have total := SortedMap.total_set CNodeState.validated peers.mapNodeState nodeid
        { state with
          fSyncStarted := fSync
          fPreferredDownload := fPreferred
          nStallingSince := since }
      rw [known, map_some, getD_some] at total
      have same : CNodeState.validated { state with
          fSyncStarted := fSync
          fPreferredDownload := fPreferred
          nStallingSince := since } = state.validated := rfl
      simp only [PeerStates.excess, PeerStates.queuedValidated]
      omega

end DownloadRun

/-- **The bookkeeping of downloads.** In every run `mapBlocksInFlight` is the index of the
peers' lists, every peer counts its list, and no operation follows a null pointer or a dangling
iterator; while no peer was finalized with validated entries in flight,
`nQueuedValidatedHeaders` is the number of entries with validated headers; and a new entry
records the value of this counter when its block is requested. -/
theorem blocksInFlight_of_run [Crypto] {peers : PeerStates} {lost : Nat}
    (run : DownloadRun peers lost) :
    (∀ hash nodeid it, peers.mapBlocksInFlight.lookup hash = some (nodeid, it) ↔
      ∃ entry, peers.Requested nodeid it entry ∧ entry.hash = hash) ∧
    (∀ nodeid state, peers.mapNodeState.lookup nodeid = some state →
      state.nBlocksInFlight = state.vBlocksInFlight.length ∧
        (peers.finalizeNode nodeid).isSome = true) ∧
    (∀ hash, (peers.markBlockAsReceived hash).isSome = true) ∧
    (lost = 0 → peers.nQueuedValidatedHeaders = peers.queuedValidated) ∧
    ∀ nodeid hash pindex now, (peers.mapNodeState.lookup nodeid).isSome = true →
      ∃ after it entry, peers.markBlockAsInFlight nodeid hash pindex now = some after ∧
        after.Requested nodeid it entry ∧ entry.hash = hash ∧
        after.nQueuedValidatedHeaders = entry.nValidatedQueuedBefore + flag pindex.isSome := by
  obtain ⟨indexed, excess⟩ := run.indexed
  refine ⟨indexed.index, fun nodeid state known => ⟨indexed.count nodeid state known, ?_⟩,
    fun hash => ?_, fun none => ?_, fun nodeid hash pindex now connected => ?_⟩
  · obtain ⟨after, done, -⟩ := indexed.finalizeNode known
    rw [done]
    rfl
  · obtain ⟨after, done, -⟩ := indexed.markBlockAsReceived hash
    rw [done]
    rfl
  · rw [none] at excess
    exact Int.sub_eq_zero.mp excess
  · obtain ⟨after, done, -, -, it, entry, asked, own, recorded⟩ :=
      indexed.markBlockAsInFlight connected hash pindex now
    exact ⟨after, it, entry, done, asked, own, recorded⟩

section

local instance downloadCrypto : Crypto := checksumCrypto

namespace Downloads

def request (peers : PeerStates) (hash : Uint256) : PeerStates :=
  (peers.markBlockAsInFlight 1 hash (some {}) 0).getD peers

def receive (peers : PeerStates) (hash : Uint256) : PeerStates :=
  (peers.markBlockAsReceived hash).getD peers

def one : PeerStates := request (PeerStates.empty.initializeNode 1) 1

def answered : PeerStates := receive (receive (request (request one 2) 3) 1) 2

def gone : PeerStates := (one.finalizeNode 1).getD one

theorem request_run {peers : PeerStates} {lost : Nat} (run : DownloadRun peers lost)
    (connected : (peers.mapNodeState.lookup 1).isSome = true) (hash : Uint256) :
    DownloadRun (request peers hash) lost := by
  obtain ⟨after, done, -⟩ := run.indexed.1.markBlockAsInFlight connected hash (some {}) 0
  rw [request, done]
  exact .requested run done

theorem receive_run {peers : PeerStates} {lost : Nat} (run : DownloadRun peers lost)
    (hash : Uint256) : DownloadRun (receive peers hash) lost := by
  obtain ⟨after, done, -⟩ := run.indexed.1.markBlockAsReceived hash
  rw [receive, done]
  exact .received run done

theorem one_run : DownloadRun one 0 := request_run (.joined .start 1) rfl 1

theorem answered_run : DownloadRun answered 0 :=
  receive_run (receive_run (request_run (request_run one_run rfl 2) rfl 3) 1) 2

theorem gone_run : DownloadRun gone 1 := by
  have known : one.mapNodeState.lookup 1 = some
      { vBlocksInFlight := [(0, ⟨1, some {}, 0, 0, true⟩)], nBlocksInFlight := 1 } := rfl
  obtain ⟨after, done, -⟩ := one_run.indexed.1.finalizeNode known
  rw [gone, done]
  exact .gone one_run known done

end Downloads

/-- The entry of the third block records two queued blocks when the first two are received,
and the counter counts the block of a peer that is gone. -/
theorem blocksInFlight_drift :
    ¬(∀ peers lost, DownloadRun peers lost → ∀ nodeid it entry,
        peers.Requested nodeid it entry →
          entry.nValidatedQueuedBefore ≤ peers.nQueuedValidatedHeaders) ∧
      ¬(∀ peers lost, DownloadRun peers lost →
        peers.nQueuedValidatedHeaders = peers.queuedValidated) := by
  constructor
  · intro all
    have recorded := all _ _ Downloads.answered_run 1 2 ⟨3, some {}, 0, 2, true⟩
      ⟨_, rfl, mem_singleton.mpr rfl⟩
    exact absurd recorded (by decide)
  · intro all
    exact absurd (all _ _ Downloads.gone_run) (by decide)

/-- With two of three requests answered, one is counted. -/
theorem blocksInFlight_answered :
    (Downloads.answered.finalizeNode 1).isSome = true ∧
      Downloads.answered.nQueuedValidatedHeaders = Downloads.answered.queuedValidated := by
  have main := blocksInFlight_of_run Downloads.answered_run
  exact ⟨(main.2.1 1 _ rfl).2, main.2.2.2.1 rfl⟩

end

end Agouti
