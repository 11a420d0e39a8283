import Agouti.Consensus.ReorgDepth
import Agouti.Library.Memo
import Agouti.Masternode.Broadcast
import Agouti.Masternode.SporkOrder

/-! # The cache of block hashes behind masternode ranks

`GetBlockHash` of `masternode.cpp` with `mapCacheBlockHashes`, and its users
`CMasternode::CalculateScore` and `CMasternodeMan::GetMasternodeRank`. A height that was found
once is answered from the cache ever after, and nothing takes entries out of the cache when
blocks are disconnected. An answer is the one that a walk back from the tip gives exactly
when the first walk for that height found the same block (`getBlockHash_of_run`).
-/

namespace Agouti

open List Option

def MN_WINNER_MINIMUM_AGE : Int := 8000

/-- `mapCacheBlockHashes`. -/
abbrev BlockHashCache := Int → Option Uint256

/-- A 64-bit height as the `int` that `GetBlockHash` takes. -/
def toInt32 (nBlockHeight : Int) : Int := nBlockHeight.bmod (2 ^ 32)

namespace Node

/-- The loop of `GetBlockHash`. -/
def readBack (node : Node) : Nat → Option CBlockIndex → Option Uint256
  | _, none => none
  | 0, some BlockReading =>
    if 0 < BlockReading.nHeight then some BlockReading.getBlockHash else none
  | nBlocksAgo + 1, some BlockReading =>
    if 0 < BlockReading.nHeight then
      node.readBack nBlocksAgo (node.mapBlockIndex.prev BlockReading)
    else none

/-- The part of `GetBlockHash` behind the cache: the walk back from the tip. -/
def walked (node : Node) (tip : CBlockIndex) (nBlockHeight : Int) : Option Uint256 :=
  if tip.nHeight = 0 ∨ tip.nHeight + 1 < nBlockHeight then none
  else node.readBack (if 0 < nBlockHeight then tip.nHeight + 1 - nBlockHeight else 0).toNat (some tip)

/-- `GetBlockHash`, with the cache it leaves and the hash when it returns true. -/
def getBlockHash (node : Node) (mapCacheBlockHashes : BlockHashCache) (nBlockHeight : Int) :
    BlockHashCache × Option Uint256 :=
  match node.tip with
  | none => (mapCacheBlockHashes, none)
  | some tip =>
    let nBlockHeight := if nBlockHeight = 0 then tip.nHeight else nBlockHeight
    match mapCacheBlockHashes nBlockHeight with
    | some hash => (mapCacheBlockHashes, some hash)
    | none =>
      match node.walked tip nBlockHeight with
      | some hash =>
        (Function.update mapCacheBlockHashes nBlockHeight (some hash), some hash)
      | none => (mapCacheBlockHashes, none)

/-- What a call asks of the cache: the height of the tip in place of `0`, and what the walk
gives. -/
def hashQuery (node : Node) (nBlockHeight : Int) : Option (Memo.Query Int Uint256) :=
  node.tip.map fun tip =>
    let asked := if nBlockHeight = 0 then tip.nHeight else nBlockHeight
    ⟨asked, node.walked tip asked⟩

def found (node : Node) (nBlockHeight : Int) : Option Uint256 :=
  (node.hashQuery nBlockHeight).bind Memo.Query.value

end Node

section

variable [Crypto]

def scoreOf (prevout : COutPoint) (hash : Uint256) : Uint256 :=
  let aux := prevout.hash + BitVec.ofNat 256 prevout.n
  let hash2 := Hash (Serialize.uint256 hash)
  let hash3 := Hash (Serialize.uint256 hash ++ Serialize.uint256 aux)
  if hash2 < hash3 then hash3 - hash2 else hash2 - hash3

def CMasternode.calculateScore (node : Node) (mapCacheBlockHashes : BlockHashCache)
    (mn : CMasternode) (nBlockHeight : Int) : BlockHashCache × Uint256 :=
  match node.getBlockHash mapCacheBlockHashes (toInt32 nBlockHeight) with
  | (mapCacheBlockHashes, none) => (mapCacheBlockHashes, 0)
  | (mapCacheBlockHashes, some hash) => (mapCacheBlockHashes, scoreOf mn.vin.prevout hash)

variable [ChainParams]

/-- What a call of `GetMasternodeRank` is about. -/
structure RankCall where
  vin : CTxIn
  nBlockHeight : Int
  minProtocol : Int
  fOnlyActive : Bool

/-- The scan of `GetMasternodeRank`: the masternodes, checked where they are, and the
scores of those that count. -/
def RankCall.scan (call : RankCall) (context : MasternodeContext) (fEnforced : Bool) :
    BlockHashCache → List CMasternode →
      BlockHashCache × List CMasternode × List (Int × CTxIn)
  | mapCacheBlockHashes, [] => (mapCacheBlockHashes, [], [])
  | mapCacheBlockHashes, mn :: rest =>
    if mn.protocolVersion < call.minProtocol ∨
        fEnforced = true ∧ (context.adjustedTime - mn.sigTime).bmod (2 ^ 64) < MN_WINNER_MINIMUM_AGE then
      let (after, vMasternodes, scores) := call.scan context fEnforced mapCacheBlockHashes rest
      (after, mn :: vMasternodes, scores)
    else
      let checked := if call.fOnlyActive then mn.check context false else mn
      if call.fOnlyActive && !checked.isEnabled then
        let (after, vMasternodes, scores) := call.scan context fEnforced mapCacheBlockHashes rest
        (after, checked :: vMasternodes, scores)
      else
        let (middle, n) :=
          checked.calculateScore context.node mapCacheBlockHashes call.nBlockHeight
        let (after, vMasternodes, scores) := call.scan context fEnforced middle rest
        (after, checked :: vMasternodes, ((n.getCompact : Int), checked.vin) :: scores)

def rankAmong (prevout : COutPoint) : Int → List (Int × CTxIn) → Int
  | _, [] => -1
  | rank, s :: rest => if s.2.prevout = prevout then rank + 1 else rankAmong prevout (rank + 1) rest

/-- `CMasternodeMan::GetMasternodeRank`. The order in which `sort` leaves equal scores is
its own. -/
def getMasternodeRank (sort : List (Int × CTxIn) → List (Int × CTxIn))
    (mapSporksActive : SporkMap) (context : MasternodeContext)
    (mapCacheBlockHashes : BlockHashCache) (vMasternodes : List CMasternode) (call : RankCall) :
    BlockHashCache × List CMasternode × Int :=
  match context.node.getBlockHash mapCacheBlockHashes (toInt32 call.nBlockHeight) with
  | (mapCacheBlockHashes, none) => (mapCacheBlockHashes, vMasternodes, -1)
  | (mapCacheBlockHashes, some _) =>
    let fEnforced := isSporkActive mapSporksActive 10007 (Int64.ofInt context.time)
    let (after, checked, scores) := call.scan context fEnforced mapCacheBlockHashes vMasternodes
    (after, checked, rankAmong call.vin.prevout 0 (sort scores))

end

/-! ### The walk -/

section

variable [Crypto] {node : Node}

theorem Node.readBack_eq (sound : node.store.Sound) (path : node.store.Path node.vChain)
    {ago i : Nat} {hash : Uint256} {pindex : CBlockIndex} (place : node.vChain[i]? = some hash)
    (known : node.mapBlockIndex hash = some pindex) :
    node.readBack ago (some pindex) = if ago < i then node.vChain[i - ago]? else none := by
  induction ago generalizing i hash pindex with
  | zero =>
    obtain ⟨core, found, height, _⟩ := path.entry i hash place
    obtain ⟨_, _, here⟩ := Node.holds_of_sound sound known
    have level : pindex.nHeight = i := by
      rw [Node.store_cores known] at found
      obtain rfl := some.inj found
      exact height
    unfold readBack
    by_cases above : 0 < i
    · rw [if_pos (by omega), if_pos above, here, Nat.sub_zero, place]
    · rw [if_neg (by omega), if_neg above]
  | succ ago ih =>
    obtain ⟨core, found, height, _, pprev⟩ := path.entry i hash place
    rw [Node.store_cores known] at found
    obtain rfl := some.inj found
    have level : pindex.nHeight = i := height
    unfold readBack
    by_cases above : 0 < i
    · rw [if_pos (by omega)]
      have bound := (List.getElem?_eq_some_iff.mp place).1
      have below : node.vChain[i - 1]? = pindex.pprev := by
        change pindex.pprev = _ at pprev
        rw [pprev, List.getLast?_eq_getElem?, length_take, Nat.min_eq_left (by omega),
          List.getElem?_take_of_lt (by omega)]
      obtain ⟨hashPrev, lower⟩ : ∃ hashPrev, node.vChain[i - 1]? = some hashPrev :=
        ⟨_, List.getElem?_eq_getElem (by omega)⟩
      obtain ⟨_, parent, _⟩ := path.entry (i - 1) hashPrev lower
      obtain ⟨prev, entry, _⟩ := Node.entry_of_core parent
      have step : node.mapBlockIndex.prev pindex = some prev := by
        rw [BlockMap.prev, ← below, lower]
        exact entry
      rw [step, ih lower entry, Nat.sub_sub, Nat.add_comm 1 ago]
      by_cases more : ago + 1 < i
      · rw [if_pos (by omega), if_pos more]
      · rw [if_neg (by omega), if_neg more]
    · rw [if_neg (by omega), if_neg (by omega)]

variable {tip : CBlockIndex} {nBlockHeight : Int}

omit [Crypto] in
theorem Node.tip_height (path : node.store.Path node.vChain) (top : node.tip = some tip) :
    ∃ hash, node.vChain[node.vChain.length - 1]? = some hash ∧
      node.mapBlockIndex hash = some tip ∧ tip.nHeight = node.height := by
  obtain ⟨hash, last, known⟩ := Node.tip_entry top
  obtain ⟨core, found, height, _⟩ := path.last last
  rw [Node.store_cores known] at found
  obtain rfl := some.inj found
  rw [List.getLast?_eq_getElem?] at last
  exact ⟨hash, last, known, height⟩

theorem Node.walked_eq (sound : node.store.Sound) (path : node.store.Path node.vChain)
    (top : node.tip = some tip) (nBlockHeight : Int) :
    node.walked tip nBlockHeight =
      if nBlockHeight ≤ 0 then (if node.height = 0 then none else node.active node.height)
      else if nBlockHeight = 1 then none else node.active (nBlockHeight - 1) := by
  obtain ⟨hash, place, known, level⟩ := Node.tip_height path top
  have bound := (List.getElem?_eq_some_iff.mp place).1
  have height : node.height = node.vChain.length - 1 := rfl
  unfold walked active
  rw [level, Node.readBack_eq sound path place known]
  by_cases low : nBlockHeight ≤ 0
  · rw [if_pos low, if_neg (show ¬ 0 < nBlockHeight by omega)]
    by_cases root : node.height = 0
    · rw [if_pos (.inl root), if_pos root]
    · rw [if_neg (show ¬ (node.height = 0 ∨ node.height + 1 < nBlockHeight) by omega), if_neg root,
        if_pos (by omega), if_neg (show ¬ node.height < 0 by omega)]
      congr 1
      omega
  · rw [if_neg low, if_pos (show 0 < nBlockHeight by omega)]
    by_cases first : nBlockHeight = 1
    · rw [if_pos first]
      split
      · rfl
      · rw [if_neg (by omega)]
    · rw [if_neg first, if_neg (show ¬ nBlockHeight - 1 < 0 by omega)]
      by_cases outside : node.height = 0 ∨ node.height + 1 < nBlockHeight
      · rw [if_pos outside, List.getElem?_eq_none (by omega)]
      · rw [if_neg outside, if_pos (by omega)]
        congr 1
        omega

omit [Crypto] in
theorem Node.found_of_tip (top : node.tip = some tip) (nBlockHeight : Int) :
    node.found nBlockHeight =
      node.walked tip (if nBlockHeight = 0 then tip.nHeight else nBlockHeight) := by
  rw [found, hashQuery, top]
  rfl

omit [Crypto] in
theorem Node.found_of_noTip (noTip : node.tip = none) (nBlockHeight : Int) :
    node.found nBlockHeight = none := by
  rw [found, hashQuery, noTip]
  rfl

theorem Node.found_congr {other : Node} (sound : node.store.Sound)
    (path : node.store.Path node.vChain) (soundOther : other.store.Sound)
    (pathOther : other.store.Path other.vChain) (same : node.vChain = other.vChain)
    (nBlockHeight : Int) : node.found nBlockHeight = other.found nBlockHeight := by
  have height : node.height = other.height := by rw [Node.height, Node.height, same]
  have active : ∀ n, node.active n = other.active n := fun n => by
    rw [Node.active, Node.active, same]
  cases top : node.tip with
  | none =>
    have empty := Node.tip_none path top
    have noTip : other.tip = none := by
      rw [Node.tip, ← same, empty]
      rfl
    rw [Node.found_of_noTip top, Node.found_of_noTip noTip]
  | some tip =>
    obtain ⟨hash, place, known, level⟩ := Node.tip_height path top
    cases topOther : other.tip with
    | none =>
      rw [same, Node.tip_none pathOther topOther] at place
      simp at place
    | some tipOther =>
      obtain ⟨_, _, _, levelOther⟩ := Node.tip_height pathOther topOther
      rw [Node.found_of_tip top, Node.found_of_tip topOther, Node.walked_eq sound path top,
        Node.walked_eq soundOther pathOther topOther, level, levelOther, height]
      simp only [active]

theorem Node.found_eq_active (sound : node.store.Sound) (path : node.store.Path node.vChain)
    (above : 1 < nBlockHeight) :
    node.found nBlockHeight = node.active (nBlockHeight - 1) := by
  cases top : node.tip with
  | none =>
    rw [Node.found_of_noTip top, Node.active, Node.tip_none path top, if_neg (by omega)]
    rfl
  | some tip =>
    rw [Node.found_of_tip top, if_neg (show ¬ nBlockHeight = 0 by omega),
      Node.walked_eq sound path top, if_neg (by omega), if_neg (by omega)]

theorem Node.found_one (sound : node.store.Sound) (path : node.store.Path node.vChain) :
    node.found 1 = none := by
  cases top : node.tip with
  | none => exact Node.found_of_noTip top 1
  | some tip =>
    rw [Node.found_of_tip top, if_neg (by decide), Node.walked_eq sound path top,
      if_neg (by decide), if_pos rfl]

omit [Crypto] in
theorem Node.getBlockHash_none {mapCacheBlockHashes : BlockHashCache}
    (noQuery : node.hashQuery nBlockHeight = none) :
    node.getBlockHash mapCacheBlockHashes nBlockHeight = (mapCacheBlockHashes, none) := by
  unfold getBlockHash
  rw [map_eq_none_iff.mp noQuery]

omit [Crypto] in
theorem Node.getBlockHash_some {mapCacheBlockHashes : BlockHashCache}
    {query : Memo.Query Int Uint256} (asks : node.hashQuery nBlockHeight = some query) :
    node.getBlockHash mapCacheBlockHashes nBlockHeight = Memo.lookup mapCacheBlockHashes query := by
  obtain ⟨tip, top, rfl⟩ := map_eq_some_iff.mp asks
  unfold getBlockHash Memo.lookup
  simp only [top]
  generalize (if nBlockHeight = 0 then tip.nHeight else nBlockHeight) = asked
  cases mapCacheBlockHashes asked with
  | some hash => rfl
  | none =>
    cases node.walked tip asked with
    | some hash => rfl
    | none => rfl

omit [Crypto] in
theorem Node.getBlockHash_again (node : Node) (mapCacheBlockHashes : BlockHashCache)
    (nBlockHeight : Int) :
    node.getBlockHash (node.getBlockHash mapCacheBlockHashes nBlockHeight).1 nBlockHeight =
      node.getBlockHash mapCacheBlockHashes nBlockHeight := by
  cases asks : node.hashQuery nBlockHeight with
  | none => rw [Node.getBlockHash_none asks, Node.getBlockHash_none asks]
  | some query =>
    rw [Node.getBlockHash_some asks, Node.getBlockHash_some asks, Memo.lookup_again]

end

/-! ### Runs -/

/-- A call of `GetBlockHash`: the node at that time, the height, and the answer. -/
structure HashAsk where
  node : Node
  nBlockHeight : Int
  answer : Option Uint256

def hashQueries (asks : List HashAsk) : List (Memo.Query Int Uint256) :=
  asks.filterMap fun ask => ask.node.hashQuery ask.nBlockHeight

/-- When the height was found before, the walk finds for it now the block that was found
first. -/
def Node.Unmoved (node : Node) (nBlockHeight : Int) (before : List HashAsk) : Prop :=
  ∀ query, node.hashQuery nBlockHeight = some query → Memo.Unmoved query (hashQueries before)

def ChainCall.moves : ChainCall → Bool
  | processNewBlock .. | connectTip .. | disconnectTip .. => true
  | testBlockValidity .. | rebuildStakePointerCache | verifyDB .. => false

/-- A run of a node since its start: blocks arrive, the tip is connected and disconnected,
other things happen, and `GetBlockHash` is called in between. The calls are listed with the
latest one first. -/
inductive HashRun [ChainParams] [Crypto] [Legacy] : Node → BlockHashCache → List HashAsk → Prop
  | start {node : Node} (sound : node.store.Sound) (path : node.store.Path node.vChain) :
      HashRun node (fun _ => none) []
  | chain {node : Node} {cache : BlockHashCache} {asks : List HashAsk}
      (run : HashRun node cache asks) (call : ChainCall) (moves : call.moves = true) :
      HashRun (call.run node) cache asks
  | other {node after : Node} {cache : BlockHashCache} {asks : List HashAsk}
      (run : HashRun node cache asks) (same : node.SameBlocks after) : HashRun after cache asks
  | getBlockHash {node : Node} {cache : BlockHashCache} {asks : List HashAsk}
      (run : HashRun node cache asks) (nBlockHeight : Int) :
      HashRun node (node.getBlockHash cache nBlockHeight).1
        (⟨node, nBlockHeight, (node.getBlockHash cache nBlockHeight).2⟩ :: asks)

section

variable [ChainParams] [Crypto] [Legacy] {node : Node} {cache : BlockHashCache}
  {asks : List HashAsk}

theorem HashRun.foldl (run : HashRun node cache asks) (calls : List ChainCall)
    (moves : calls.all ChainCall.moves = true) :
    HashRun (calls.foldl ChainCall.run node) cache asks := by
  induction calls generalizing node with
  | nil => exact run
  | cons call rest ih =>
    rw [all_cons, Bool.and_eq_true] at moves
    exact ih (run.chain call moves.1) moves.2

theorem ChainCall.run_path (sound : node.store.Sound) (path : node.store.Path node.vChain)
    {call : ChainCall} (moves : call.moves = true) :
    (call.run node).store.Sound ∧ (call.run node).store.Path (call.run node).vChain := by
  cases call with
  | processNewBlock data block fromPeer written =>
    have arrived := processNewBlock_arrived sound data block fromPeer written
    obtain ⟨middle, first, second⟩ := arrived.store
    refine ⟨second.sound (first.sound sound), ?_⟩
    change BlockStore.Path (Agouti.processNewBlock data node block fromPeer written).1.store
      (Agouti.processNewBlock data node block fromPeer written).1.vChain
    rw [arrived.vChain]
    exact (path.arrival first).arrival second
  | connectTip data fScriptChecks hash pblock flushed =>
    simp only [ChainCall.run]
    split
    · exact ⟨sound, path⟩
    · rename_i pindex found
      split
      · rename_i ready
        simp only [connects, Bool.and_eq_true, beq_iff_eq] at ready
        obtain ⟨⟨next, stored⟩, _⟩ := ready
        obtain ⟨store, moved, _⟩ := connectTip_blocks sound path found stored next fScriptChecks
          pblock flushed rfl
        exact ⟨store ▸ sound, moved⟩
      · exact ⟨sound, path⟩
  | disconnectTip flushed =>
    obtain ⟨store, moved, _⟩ : _ ∧ _ ∧ (Agouti.disconnectTip node flushed).1.vChain = _ :=
      disconnectTip_blocks path rfl
    exact ⟨store ▸ sound, moved⟩
  | testBlockValidity data fScriptChecks block fCheckPOW fCheckMerkleRoot => contradiction
  | rebuildStakePointerCache => contradiction
  | verifyDB data options coins => contradiction

theorem HashRun.kept (run : HashRun node cache asks) :
    node.store.Sound ∧ node.store.Path node.vChain ∧ Memo.TableOf (hashQueries asks) cache := by
  induction run with
  | start sound path => exact ⟨sound, path, .empty⟩
  | chain _ call moves ih =>
    obtain ⟨sound, path, table⟩ := ih
    obtain ⟨soundAfter, pathAfter⟩ := call.run_path sound path moves
    exact ⟨soundAfter, pathAfter, table⟩
  | other _ same ih =>
    obtain ⟨sound, path, table⟩ := ih
    rw [same.store, same.vChain]
    exact ⟨sound, path, table⟩
  | @getBlockHash node cache asks _ nBlockHeight ih =>
    obtain ⟨sound, path, table⟩ := ih
    refine ⟨sound, path, ?_⟩
    cases asked : node.hashQuery nBlockHeight with
    | none =>
      rw [Node.getBlockHash_none asked, hashQueries, filterMap_cons, asked]
      exact table
    | some query =>
      rw [Node.getBlockHash_some asked, hashQueries, filterMap_cons, asked]
      exact table.lookup query

theorem HashRun.earlier (run : HashRun node cache asks) {later before : List HashAsk}
    {ask : HashAsk} (split : asks = later ++ ask :: before) :
    ∃ cache, HashRun ask.node cache before ∧
      ask.answer = (ask.node.getBlockHash cache ask.nBlockHeight).2 := by
  induction run generalizing later with
  | start sound path => exact absurd split.symm (append_ne_nil_of_right_ne_nil _ (by simp))
  | chain _ _ _ ih => exact ih split
  | other _ _ ih => exact ih split
  | @getBlockHash node cache asks run nBlockHeight ih =>
    cases later with
    | nil =>
      obtain ⟨rfl, rfl⟩ := List.cons.inj split
      exact ⟨cache, run, rfl⟩
    | cons head rest => exact ih (List.cons.inj split).2

theorem HashRun.answer_iff (run : HashRun node cache asks) (nBlockHeight : Int) :
    ((node.getBlockHash cache nBlockHeight).2 = node.found nBlockHeight ↔
        node.Unmoved nBlockHeight asks) ∧
      ((∀ hash, (node.getBlockHash cache nBlockHeight).2 = some hash →
        node.found nBlockHeight = some hash) ↔ node.Unmoved nBlockHeight asks) := by
  obtain ⟨_, _, table⟩ := run.kept
  unfold Node.Unmoved Node.found
  cases asked : node.hashQuery nBlockHeight with
  | none =>
    rw [Node.getBlockHash_none asked]
    simp
  | some query =>
    rw [Node.getBlockHash_some asked]
    simpa using table.lookup_eq_iff query

theorem HashRun.one_missing (run : HashRun node cache asks) :
    (node.getBlockHash cache 1).2 = none := by
  obtain ⟨sound, path, table⟩ := run.kept
  have nothing : ∀ query ∈ hashQueries asks, query.key = 1 → query.value = none := by
    intro query member key
    obtain ⟨ask, here, asked⟩ := mem_filterMap.mp member
    obtain ⟨later, before, split⟩ := append_of_mem here
    obtain ⟨_, shorter, _⟩ := run.earlier split
    obtain ⟨soundThen, pathThen, _⟩ := shorter.kept
    obtain ⟨tip, top, rfl⟩ := map_eq_some_iff.mp asked
    change (if ask.nBlockHeight = 0 then tip.nHeight else ask.nBlockHeight) = 1 at key
    change ask.node.walked tip (if ask.nBlockHeight = 0 then tip.nHeight else _) = none
    rw [key, Node.walked_eq soundThen pathThen top, if_neg (by decide), if_pos rfl]
  cases asked : node.hashQuery 1 with
  | none => rw [Node.getBlockHash_none asked]
  | some query =>
    have found := Node.found_one sound path
    rw [Node.found, asked] at found
    rw [Node.getBlockHash_some asked]
    have key : query.key = 1 := by
      obtain ⟨tip, top, rfl⟩ := map_eq_some_iff.mp asked
      rfl
    refine (Memo.lookup_missing ?_).trans found
    rw [key]
    cases held : cache 1 with
    | none => rfl
    | some hash =>
      obtain ⟨middle, first, older, split, firstly, value⟩ := table.held 1 hash held
      have member : first ∈ hashQueries asks := by
        rw [split]
        exact mem_append_right _ mem_cons_self
      rw [nothing first member firstly.key_eq] at value
      contradiction

theorem HashRun.active_iff (run : HashRun node cache asks) {nBlockHeight : Int}
    (positive : 0 < nBlockHeight) :
    (∀ hash, (node.getBlockHash cache nBlockHeight).2 = some hash →
        node.active (nBlockHeight - 1) = some hash) ↔ node.Unmoved nBlockHeight asks := by
  obtain ⟨sound, path, table⟩ := run.kept
  rw [← (run.answer_iff nBlockHeight).2]
  by_cases first : nBlockHeight = 1
  · subst first
    rw [run.one_missing]
    simp
  · rw [Node.found_eq_active sound path (by omega)]

/-! ### Scores and ranks -/

omit [ChainParams] [Legacy] in
theorem CMasternode.calculateScore_eq (node : Node) (cache : BlockHashCache) (mn : CMasternode)
    (nBlockHeight : Int) :
    mn.calculateScore node cache nBlockHeight =
      ((node.getBlockHash cache (toInt32 nBlockHeight)).1,
        ((node.getBlockHash cache (toInt32 nBlockHeight)).2.map
          (scoreOf mn.vin.prevout)).getD 0) := by
  unfold CMasternode.calculateScore
  rcases answered : node.getBlockHash cache (toInt32 nBlockHeight) with ⟨after, answer⟩
  cases answer with
  | none => rfl
  | some hash => rfl

/-- Besides the active chain and the masternode list the ranks depend on the time and on what
the checks of the masternodes find. -/
structure SameChecks (context other : MasternodeContext) : Prop where
  time : context.time = other.time
  adjustedTime : context.adjustedTime = other.adjustedTime
  check : ∀ mn : CMasternode, mn.check context false = mn.check other false

omit [Legacy] in
theorem RankCall.scan_congr {context other : MasternodeContext} (same : SameChecks context other)
    (call : RankCall) (fEnforced : Bool) {cache cacheOther : BlockHashCache} {answer : Option Uint256}
    (settled : context.node.getBlockHash cache (toInt32 call.nBlockHeight) = (cache, answer))
    (settledOther : other.node.getBlockHash cacheOther (toInt32 call.nBlockHeight) =
      (cacheOther, answer)) (vMasternodes : List CMasternode) :
    (call.scan context fEnforced cache vMasternodes).2 =
      (call.scan other fEnforced cacheOther vMasternodes).2 := by
  induction vMasternodes with
  | nil => rfl
  | cons mn rest ih =>
    have step : ∀ mn : CMasternode,
        mn.calculateScore context.node cache call.nBlockHeight =
            (cache, (answer.map (scoreOf mn.vin.prevout)).getD 0) ∧
          mn.calculateScore other.node cacheOther call.nBlockHeight =
            (cacheOther, (answer.map (scoreOf mn.vin.prevout)).getD 0) := by
      intro mn
      rw [CMasternode.calculateScore_eq, CMasternode.calculateScore_eq, settled, settledOther]
      exact ⟨rfl, rfl⟩
    have tail := Prod.ext_iff.mp ih
    unfold RankCall.scan
    rw [same.adjustedTime, same.check mn]
    split
    · exact Prod.ext (congrArg (mn :: ·) tail.1) tail.2
    · dsimp only
      generalize (if call.fOnlyActive = true then mn.check other false else mn) = checked
      by_cases disabled : (call.fOnlyActive && !checked.isEnabled) = true
      · rw [if_pos disabled, if_pos disabled]
        exact Prod.ext (congrArg (checked :: ·) tail.1) tail.2
      · rw [if_neg disabled, if_neg disabled, (step checked).1, (step checked).2]
        exact Prod.ext (congrArg (checked :: ·) tail.1) (congrArg (_ :: ·) tail.2)

omit [Legacy] in
theorem getMasternodeRank_congr {context other : MasternodeContext}
    (same : SameChecks context other) (sort : List (Int × CTxIn) → List (Int × CTxIn))
    (mapSporksActive : SporkMap) (cache cacheOther : BlockHashCache)
    (vMasternodes : List CMasternode) (call : RankCall)
    (answers : (context.node.getBlockHash cache (toInt32 call.nBlockHeight)).2 =
      (other.node.getBlockHash cacheOther (toInt32 call.nBlockHeight)).2) :
    (getMasternodeRank sort mapSporksActive context cache vMasternodes call).2 =
      (getMasternodeRank sort mapSporksActive other cacheOther vMasternodes call).2 := by
  have again := Node.getBlockHash_again context.node cache (toInt32 call.nBlockHeight)
  have againOther := Node.getBlockHash_again other.node cacheOther (toInt32 call.nBlockHeight)
  unfold getMasternodeRank
  rcases answered : context.node.getBlockHash cache (toInt32 call.nBlockHeight) with ⟨after, answer⟩
  rcases answeredOther : other.node.getBlockHash cacheOther (toInt32 call.nBlockHeight) with
    ⟨afterOther, answerOther⟩
  rw [answered, answeredOther] at answers
  rw [answered] at again
  rw [answeredOther] at againOther
  obtain rfl : answer = answerOther := answers
  cases answer with
  | none => rfl
  | some hash =>
    have scanned := RankCall.scan_congr same call
      (isSporkActive mapSporksActive 10007 (Int64.ofInt context.time)) again againOther vMasternodes
    have parts := Prod.ext_iff.mp scanned
    rw [same.time] at parts
    dsimp only
    rw [same.time]
    exact Prod.ext parts.1 (congrArg (fun scores => rankAmong call.vin.prevout 0 (sort scores))
      parts.2)

/-- **When the cache of block hashes is right.** In every run an answer of `GetBlockHash` is
what walking back from the tip gives, and for a positive height the active block one below,
exactly when the walk for that height, if it found a block before, found this block the first
time. Two nodes with one active chain, one masternode list and the same checks compute the
same scores and ranks for every height for which this holds on both. -/
theorem getBlockHash_of_run (run : HashRun node cache asks) :
    (∀ later ask before, asks = later ++ ask :: before →
      ((∀ hash, ask.answer = some hash → ask.node.found ask.nBlockHeight = some hash) ↔
        ask.node.Unmoved ask.nBlockHeight before) ∧
      (0 < ask.nBlockHeight →
        ((∀ hash, ask.answer = some hash →
            ask.node.active (ask.nBlockHeight - 1) = some hash) ↔
          ask.node.Unmoved ask.nBlockHeight before))) ∧
    ∀ context other : MasternodeContext, context.node = node → SameChecks context other →
      ∀ cacheOther asksOther, HashRun other.node cacheOther asksOther →
        node.vChain = other.node.vChain → ∀ nBlockHeight,
          node.Unmoved (toInt32 nBlockHeight) asks →
          other.node.Unmoved (toInt32 nBlockHeight) asksOther →
        (∀ mn : CMasternode, (mn.calculateScore node cache nBlockHeight).2 =
          (mn.calculateScore other.node cacheOther nBlockHeight).2) ∧
        ∀ sort mapSporksActive vMasternodes vin minProtocol fOnlyActive,
          (getMasternodeRank sort mapSporksActive context cache vMasternodes
              ⟨vin, nBlockHeight, minProtocol, fOnlyActive⟩).2 =
            (getMasternodeRank sort mapSporksActive other cacheOther vMasternodes
              ⟨vin, nBlockHeight, minProtocol, fOnlyActive⟩).2 := by
  refine ⟨fun later ask before split => ?_, ?_⟩
  · obtain ⟨before, shorter, answer⟩ := run.earlier split
    rw [answer]
    exact ⟨(shorter.answer_iff _).2, fun positive => shorter.active_iff positive⟩
  · rintro context other rfl same cacheOther asksOther runOther chain nBlockHeight here there
    obtain ⟨sound, path, _⟩ := run.kept
    obtain ⟨soundOther, pathOther, _⟩ := runOther.kept
    have answers : (context.node.getBlockHash cache (toInt32 nBlockHeight)).2 =
        (other.node.getBlockHash cacheOther (toInt32 nBlockHeight)).2 := by
      rw [(run.answer_iff _).1.mpr here, (runOther.answer_iff _).1.mpr there,
        Node.found_congr sound path soundOther pathOther chain]
    refine ⟨fun mn => ?_, fun sort mapSporksActive vMasternodes vin minProtocol fOnlyActive => ?_⟩
    · rw [CMasternode.calculateScore_eq, CMasternode.calculateScore_eq, answers]
    · exact getMasternodeRank_congr same sort mapSporksActive cache cacheOther vMasternodes
        ⟨vin, nBlockHeight, minProtocol, fOnlyActive⟩ answers

end

namespace MovedHash

/-! On the two branches of `LateBranch` the node asks for height 3 with two blocks on top of
the genesis block, and again after both were replaced by two others. -/

def arrivals : List ChainCall :=
  [.processNewBlock LateBranch.data (StakedTip.powBlock 1) true true,
    .connectTip LateBranch.data false 1 none true,
    .processNewBlock LateBranch.data (LateBranch.sideBlock 1) true true,
    .processNewBlock LateBranch.data (StakedTip.powBlock 2) true true,
    .connectTip LateBranch.data false 2 none true,
    .processNewBlock LateBranch.data (LateBranch.sideBlock 2) true true]

/-- The other branch takes its place. -/
def moves : List ChainCall :=
  [.disconnectTip true, .disconnectTip true, .connectTip LateBranch.data false 11 none true,
    .connectTip LateBranch.data false 12 none true]

/-- What a call of `GetMasternodeRank` on a node reads. -/
def context (node : Node) : MasternodeContext where
  enabled := true
  fMasterNode := false
  fMainNet := false
  fShutdown := false
  lockMain := true
  time := 100000
  adjustedTime := 100000
  minPaymentsProto := 0
  node := node
  mempool := { lookup := fun _ => none, mapNextTx := fun _ => false }
  readTxIndex _ := none
  mapLockedInputs _ := none
  lowPriority _ _ := false
  collateralPubKey := []
  broadcastSigned _ := true
  pingSigned _ _ := true
  ipUpdateSigned _ _ := true

def masternode (hash : Uint256) : CMasternode :=
  { vin := { prevout := ⟨hash, 0⟩, scriptSig := [] }, pubKeyCollateralAddress := .invalid,
    pubKeyMasternode := .invalid, sigTime := 0, protocolVersion := 70054 }

/-- A masternode that scores high for the old block and low for the new one. -/
def changing : CMasternode :=
  masternode 50850494215329334498181966961487282284769358345228395848015764405591480212164

def vMasternodes : List CMasternode := [changing, masternode 1]

def call : RankCall := { vin := changing.vin, nBlockHeight := 3, minProtocol := 0, fOnlyActive := false }

def sort (scores : List (Int × CTxIn)) : List (Int × CTxIn) :=
  scores.insertionSort fun left right => right.1 ≤ left.1

end MovedHash

section

local instance MovedHash.params : ChainParams := regTestParams 0
local instance MovedHash.crypto : Crypto := StakedTip.crypto
local instance MovedHash.legacy : Legacy := VotedPayee.legacy

namespace MovedHash

def before : Node := arrivals.foldl ChainCall.run LateBranch.start

def after : Node := moves.foldl ChainCall.run before

def cache : BlockHashCache := (before.getBlockHash (fun _ => none) 3).1

theorem start_run : HashRun LateBranch.start (fun _ => none) [] :=
  .start (LateBranch.store_start ▸ VotedPayee.sound) (LateBranch.store_start ▸ VotedPayee.path)

theorem before_answer : (before.getBlockHash (fun _ => none) 3).2 = some 2 := by
  decide +kernel

theorem after_answer : (after.getBlockHash cache 3).2 = some 2 := by
  decide +kernel

theorem before_run : HashRun before cache [⟨before, 3, some 2⟩] := by
  have arrived : HashRun before (fun _ => none) [] := start_run.foldl arrivals rfl
  have run := arrived.getBlockHash 3
  rw [before_answer] at run
  exact run

theorem after_run : HashRun after (after.getBlockHash cache 3).1
    [⟨after, 3, some 2⟩, ⟨before, 3, some 2⟩] := by
  have moved : HashRun after cache [⟨before, 3, some 2⟩] := before_run.foldl moves rfl
  have run := moved.getBlockHash 3
  rw [after_answer] at run
  exact run

end MovedHash

open MovedHash

/-- After a reorganisation of two blocks the cache still answers with a block that is no
longer active. A node that was started afterwards, with the same active chain and the same
masternodes, finds other scores and another rank. -/
theorem movedHash_stale :
    HashRun after (after.getBlockHash cache 3).1
        [⟨after, 3, some 2⟩, ⟨before, 3, some 2⟩] ∧
      after.active 2 = some 12 ∧
      (changing.calculateScore after cache 3).2 ≠
        (changing.calculateScore after (fun _ => none) 3).2 ∧
      (getMasternodeRank sort (fun _ => none) (context after)
        cache vMasternodes call).2.2 = 1 ∧
      (getMasternodeRank sort (fun _ => none) (context after)
        (fun _ => none) vMasternodes call).2.2 = 2 := by
  exact ⟨after_run, by decide +kernel, by decide +kernel, by decide +kernel,
    by decide +kernel⟩

/-- The first answer is right. -/
theorem getBlockHash_of_run_first : before.active 2 = some 2 := by
  have right := ((getBlockHash_of_run before_run).1 [] ⟨before, 3, some 2⟩ []
    (nil_append _).symm).2 (by decide)
  have below : (2 : Int) = 3 - 1 := by decide
  rw [below]
  dsimp only at right
  refine right.mpr (fun query _ middle first older split => ?_) 2 rfl
  exact absurd split.symm (append_ne_nil_of_right_ne_nil _ (cons_ne_nil _ _))

end

end Agouti
