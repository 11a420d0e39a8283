import Agouti.Validation.CChain

/-! # Locators

A node tells another one where it is with the locator of an entry: hashes of ancestors of the entry,
dense at first and then in steps that double, down to the genesis block. The other node takes the
first one that is on its own active chain. The chain and the block tree of a node change as it adds
headers, marks entries and sets tips (`Navigated`). In every such state `SetTip`, `FindFork`,
`LastCommonAncestor` and `GetLocator` do what they are for, and the block that any other node on the
same genesis block finds from the locator is a common one (`chain_navigation`).
-/

namespace Agouti

open List Function Option

/-- The variables of `CChain::GetLocator`. -/
structure LocatorWalk where
  pindex : Option Uint256
  nStep : Int
  vHave : List Uint256

namespace CChain

/-- One round of the loop of `CChain::GetLocator`. -/
def locatorRound (s : SkipNode) (chain : CChain) (walk : LocatorWalk) :
    LocatorWalk ⊕ List Uint256 :=
  match walk.pindex with
  | none => .inr walk.vHave
  | some hash =>
    match s.node.mapBlockIndex hash with
    | none => .inr walk.vHave
    | some pindex =>
      let vHave := walk.vHave ++ [pindex.getBlockHash]
      -- stop when the genesis block is added
      if pindex.nHeight = 0 then .inr vHave
      else
        let nHeight := max (pindex.nHeight - walk.nStep) 0
        .inl {
          pindex :=
            if chain.contains s.node.mapBlockIndex hash then chain.atHeight nHeight
            else s.getAncestor hash nHeight
          nStep := if 10 < vHave.length then walk.nStep * 2 else walk.nStep
          vHave := vHave }

def getLocator (s : SkipNode) (chain : CChain) (pindex : Option Uint256) : Option (List Uint256) :=
  Loop.run (locatorRound s chain) ((pindex.or chain.tip).elim 0 s.node.mapBlockIndex.level + 1)
    ⟨pindex.or chain.tip, 1, []⟩

end CChain

def findForkInGlobalIndex (mapBlockIndex : BlockMap) (chain : CChain) (vHave : List Uint256) :
    Option Uint256 :=
  (vHave.find? (chain.contains mapBlockIndex)).or chain.genesis

/-- An empty chain or the path to a tip. -/
def CChain.Valid (mapBlockIndex : BlockMap) (chain : CChain) : Prop :=
  chain.vChain = [] ∨ ∃ tip, chain.OnPath mapBlockIndex tip

/-- The block trees of a node and its chains: `AcceptBlockHeader` adds a block on an entry, or the
genesis block. -/
inductive Navigated [Crypto] (genesis : Uint256) : SkipNode → CChain → Prop
  | started (node : Node) (pskip : Uint256 → Option Uint256)
      (none : ∀ hash, node.mapBlockIndex hash = none) : Navigated genesis ⟨node, pskip⟩ ⟨[]⟩
  | loaded (node : Node) (tree : node.mapBlockIndex.Tree)
      (rooted : node.mapBlockIndex.Rooted genesis) (vSortedByHeight : List Uint256)
      (all : ∀ hash, (node.mapBlockIndex hash).isSome → hash ∈ vSortedByHeight)
      (sorted : vSortedByHeight.Pairwise fun first second => ∀ lower higher,
        node.mapBlockIndex first = some lower → node.mapBlockIndex second = some higher →
          lower.nHeight ≤ higher.nHeight) :
      Navigated genesis (SkipNode.loadSkips ⟨node, fun _ => Option.none⟩ vSortedByHeight) ⟨[]⟩
  | added {s : SkipNode} {chain : CChain} (navigated : Navigated genesis s chain) (block : CBlock)
      (onEntry : block.getHash = genesis ∨ (s.node.mapBlockIndex block.hashPrevBlock).isSome) :
      Navigated genesis (s.addToBlockIndex block) chain
  | updated {s : SkipNode} {chain : CChain} (navigated : Navigated genesis s chain) (node : Node)
      (same : BlockMap.SameLinks s.node.mapBlockIndex node.mapBlockIndex) :
      Navigated genesis { s with node := node } chain
  | setTip {s : SkipNode} {chain after : CChain} (navigated : Navigated genesis s chain)
      (pindex : Option Uint256) (known : ∀ hash ∈ pindex, (s.node.mapBlockIndex hash).isSome)
      (sets : chain.setTip s.node.mapBlockIndex pindex = some after) : Navigated genesis s after

namespace CChain

variable {chain : CChain} {before after mapBlockIndex : BlockMap} {tip hash : Uint256}

theorem Valid.aligned (valid : chain.Valid mapBlockIndex) (tree : mapBlockIndex.Tree) :
    Aligned mapBlockIndex chain.vChain := by
  rcases valid with empty | ⟨tip, onPath⟩
  · rw [empty]
    exact aligned_nil
  · exact onPath.aligned tree

theorem Valid.onPath (valid : chain.Valid mapBlockIndex) (nonempty : chain.vChain ≠ []) :
    ∃ tip, chain.OnPath mapBlockIndex tip :=
  valid.resolve_left nonempty

theorem Valid.of_tip (valid : chain.Valid mapBlockIndex) (tree : mapBlockIndex.Tree)
    (top : chain.tip = some tip) : chain.OnPath mapBlockIndex tip := by
  rcases valid with empty | ⟨last, onPath⟩
  · rw [CChain.tip, empty] at top
    contradiction
  · rw [onPath.tip_eq tree, some.injEq] at top
    exact top ▸ onPath

theorem OnPath.mono (tree : before.Tree) (onPath : chain.OnPath before tip)
    (known : ∀ hash, (before hash).isSome → (after hash).isSome)
    (parent : ∀ hash, (before hash).isSome → after.parent hash = before.parent hash)
    (level : ∀ hash, (before hash).isSome → after.level hash = before.level hash) :
    chain.OnPath after tip where
  known := known tip onPath.known
  path := by
    have closed : ∀ hash above, (before hash).isSome → before.parent hash = some above →
        (before above).isSome :=
      fun hash above known up => (tree.forest.parent hash above known up).1
    rw [onPath.path, BlockMap.path, BlockMap.path, level tip onPath.known,
      SkipList.lineage_congr closed parent _ onPath.known]

theorem Valid.setTip (valid : chain.Valid mapBlockIndex) (tree : mapBlockIndex.Tree)
    {pindex : Option Uint256} (known : ∀ hash ∈ pindex, (mapBlockIndex hash).isSome)
    {changed : CChain} (sets : chain.setTip mapBlockIndex pindex = some changed) :
    changed.Valid mapBlockIndex := by
  cases pindex with
  | none =>
    rw [CChain.setTip, some.injEq] at sets
    exact .inl (by rw [← sets])
  | some hash =>
    rw [setTip_eq tree (valid.aligned tree) (known hash rfl), some.injEq] at sets
    exact .inr ⟨hash, known hash rfl, by rw [← sets]⟩

variable {s : SkipNode} {genesis : Uint256}

theorem Valid.locator_next (valid : chain.Valid s.node.mapBlockIndex) (sound : s.Sound)
    {pindex : CBlockIndex} (found : s.node.mapBlockIndex hash = some pindex) (nHeight : Int)
    (low : 0 ≤ nHeight) (high : nHeight ≤ pindex.nHeight) : ∃ above,
      (if chain.contains s.node.mapBlockIndex hash then chain.atHeight nHeight
        else s.getAncestor hash nHeight) = some above ∧
      SkipList.Ancestor s.parent above hash ∧
        (s.node.mapBlockIndex.level above : Int) = nHeight := by
  have known : (s.node.mapBlockIndex hash).isSome := by rw [found]; rfl
  obtain ⟨above, finds, ancestor, level⟩ := sound.getAncestor_eq found nHeight low high
  refine ⟨above, ?_, ancestor, level⟩
  cases inside : chain.contains s.node.mapBlockIndex hash with
  | false => rw [if_neg Bool.false_ne_true, finds]
  | true =>
    rcases valid with empty | ⟨tip, onPath⟩
    · rw [CChain.contains, found, any_some, CChain.atHeight, empty, if_pos (by
        rw [length_nil]
        omega)] at inside
      contradiction
    · -- on the chain the ancestor of the entry is the one of the tip
      have ofTip := (onPath.contains_iff sound.tree known).mp inside
      have lower := sound.tree.forest.height_le onPath.known (ancestor.trans ofTip)
      have climbs := (sound.tree.forest.ancestor_iff onPath.known).mp (ancestor.trans ofTip)
      have place : s.node.mapBlockIndex.level above = nHeight.toNat := by omega
      rw [if_pos rfl, onPath.atHeight_eq sound.tree nHeight low (by omega), ← place]
      exact climbs

theorem Valid.run_locatorRound (valid : chain.Valid s.node.mapBlockIndex) (sound : s.Sound)
    (rooted : s.node.mapBlockIndex.Rooted genesis) (known : (s.node.mapBlockIndex hash).isSome)
    (nStep : Int) (step : 1 ≤ nStep) (vHave : List Uint256) {fuel : Nat}
    (enough : s.node.mapBlockIndex.level hash < fuel) : ∃ added,
      Loop.run (locatorRound s chain) fuel ⟨some hash, nStep, vHave⟩ = some (vHave ++ added) ∧
      (∀ other ∈ added, SkipList.Ancestor s.parent other hash) ∧
      added.Pairwise (fun higher lower =>
        s.node.mapBlockIndex.level lower < s.node.mapBlockIndex.level higher) ∧
      added.getLast? = some genesis := by
  induction fuel generalizing hash nStep vHave with
  | zero => omega
  | succ fuel ih =>
    obtain ⟨pindex, found⟩ := isSome_iff_exists.mp known
    have level := sound.tree.height_eq found
    have named : pindex.getBlockHash = hash := by
      rw [CBlockIndex.getBlockHash, sound.tree.hash hash pindex found]
      rfl
    by_cases ground : pindex.nHeight = 0
    · have root := (rooted.ancestor sound.tree known).1
      have same := sound.tree.forest.ancestor_root known (by omega) root
      refine ⟨[hash], ?_, ?_, pairwise_singleton _ hash, by rw [same]; rfl⟩
      · rw [Loop.run, locatorRound]
        simp only [found, ground, ↓reduceIte, named]
      · intro other member
        rw [mem_singleton.mp member]
        exact .refl _ hash
    · obtain ⟨above, next, ancestor, lower⟩ := valid.locator_next sound found
        (max (pindex.nHeight - nStep) 0) (by omega) (by omega)
      have knownAbove := sound.tree.forest.known_of_ancestor known ancestor
      obtain ⟨added, run, ancestors, decreasing, last⟩ := ih knownAbove
        (if 10 < (vHave ++ [hash]).length then nStep * 2 else nStep)
        (by split <;> omega) (vHave ++ [hash]) (by omega)
      refine ⟨hash :: added, ?_, ?_, ?_, ?_⟩
      · rw [Loop.run, locatorRound]
        simp only [found, ground, ↓reduceIte, named, next]
        rw [run, append_assoc, singleton_append]
      · intro other member
        rcases mem_cons.mp member with rfl | later
        · exact .refl _ other
        · exact (ancestors other later).trans ancestor
      · refine pairwise_cons.mpr ⟨fun other later => ?_, decreasing⟩
        have below := sound.tree.forest.height_le knownAbove (ancestors other later)
        omega
      · rw [List.getLast?_cons, last, getD_some]

end CChain

namespace Navigated

variable [Crypto] {genesis : Uint256} {s : SkipNode} {chain : CChain}

theorem valid (navigated : Navigated genesis s chain) :
    s.Sound ∧ s.node.mapBlockIndex.Rooted genesis ∧ chain.Valid s.node.mapBlockIndex := by
  induction navigated with
  | started node pskip none =>
    refine ⟨(SkipNode.Reached.empty node pskip none).sound, ?_, .inl rfl⟩
    intro hash pindex found
    rw [none hash] at found
    contradiction
  | loaded node tree rooted vSortedByHeight all sorted =>
    have reached := SkipNode.Reached.loaded node tree vSortedByHeight all sorted
    refine ⟨reached.sound, ?_, .inl rfl⟩
    rwa [SkipNode.loadSkips_node]
  | added navigated block onEntry ih =>
    rename_i s chain
    obtain ⟨sound, rooted, valid⟩ := ih
    have grown := sound.addToBlockIndex block
    cases present : s.node.mapBlockIndex block.getHash with
    | some pindex =>
      rw [SkipNode.addToBlockIndex, if_pos (by rw [present]; rfl)]
      exact ⟨sound, rooted, valid⟩
    | none =>
      have index := SkipNode.addToBlockIndex_index present
      have kept : ∀ hash, (s.node.mapBlockIndex hash).isSome →
          (s.addToBlockIndex block).node.mapBlockIndex hash = s.node.mapBlockIndex hash := by
        intro hash known
        rw [index, update_of_ne]
        rintro rfl
        rw [present] at known
        contradiction
      refine ⟨grown, ?_, ?_⟩
      · intro hash pindex found pprev
        rw [index] at found
        by_cases here : hash = block.getHash
        · rw [here, update_self, some.injEq] at found
          have core := congrArg IndexCore.pprev (Node.newIndex_core s.node block)
          rw [← found, show (s.node.newIndex block).pprev = _ from core,
            map_eq_none_iff] at pprev
          rw [pprev] at onEntry
          exact here.trans (onEntry.resolve_right Bool.false_ne_true)
        · rw [update_of_ne here] at found
          exact rooted hash pindex found pprev
      · refine valid.imp_right (Exists.imp fun tip onPath => ?_)
        apply onPath.mono sound.tree
        · exact fun hash known => by rw [kept hash known]; exact known
        · exact fun hash known => by rw [BlockMap.parent, kept hash known]; rfl
        · exact fun hash known => by rw [BlockMap.level, kept hash known]; rfl
  | updated navigated node same ih =>
    obtain ⟨sound, rooted, valid⟩ := ih
    refine ⟨sound.updated same, same.rooted rooted, ?_⟩
    refine valid.imp_right (Exists.imp fun tip onPath => ?_)
    apply onPath.mono sound.tree
    · exact fun hash known => by rw [same.known]; exact known
    · exact fun hash _ => by rw [same.parent]
    · exact fun hash _ => by rw [same.level]
  | setTip navigated pindex known sets ih =>
    obtain ⟨sound, rooted, valid⟩ := ih
    exact ⟨sound, rooted, valid.setTip sound.tree known sets⟩

theorem findForkInGlobalIndex_eq (navigated : Navigated genesis s chain)
    (nonempty : chain.vChain ≠ []) {vHave : List Uint256} (last : vHave.getLast? = some genesis) :
    ∃ fork, findForkInGlobalIndex s.node.mapBlockIndex chain vHave = some fork ∧
      some fork ∈ chain.vChain ∧ fork ∈ vHave := by
  obtain ⟨sound, rooted, valid⟩ := navigated.valid
  obtain ⟨tip, onPath⟩ := valid.onPath nonempty
  have forest := sound.tree.forest
  obtain ⟨ofTip, ground⟩ := rooted.ancestor sound.tree onPath.known
  have inside : ∀ fork, SkipList.Ancestor s.parent fork tip → some fork ∈ chain.vChain := by
    intro fork ancestor
    rw [onPath.path]
    exact mem_map_of_mem ((forest.mem_lineage onPath.known).mpr ancestor)
  unfold findForkInGlobalIndex
  cases first : vHave.find? (chain.contains s.node.mapBlockIndex) with
  | some fork =>
    have contained := List.find?_some first
    have known : (s.node.mapBlockIndex fork).isSome := by
      rw [CChain.contains, Option.any_eq_true] at contained
      obtain ⟨pindex, found, -⟩ := contained
      rw [found]
      rfl
    exact ⟨fork, rfl, inside fork ((onPath.contains_iff sound.tree known).mp contained),
      List.mem_of_find?_eq_some first⟩
  | none =>
    refine ⟨genesis, ?_, inside genesis ofTip, List.mem_of_getLast? last⟩
    rw [none_or, onPath.genesis_eq sound.tree ofTip ground]

end Navigated

/-- **The chain is navigated along common ancestors.** In every state of a node on a genesis block,
`SetTip` makes the vector the path from the genesis block to the tip, whatever the chain was before.
`FindFork` and `LastCommonAncestor` return the highest common ancestor. `GetLocator` lists ancestors
at strictly decreasing heights down to the genesis block, and from it `FindForkInGlobalIndex` of
every node on the same genesis block that has an active chain returns a block of that chain which is
an ancestor of the entry. -/
theorem chain_navigation [Crypto] {genesis : Uint256} {s : SkipNode} {chain : CChain}
    (navigated : Navigated genesis s chain) :
    (∀ tip, (s.node.mapBlockIndex tip).isSome → ∃ path,
      chain.setTip s.node.mapBlockIndex (some tip) = some ⟨path.map some⟩ ∧
        SkipList.PathTo s.parent genesis tip path) ∧
    (∀ hash tip, (s.node.mapBlockIndex hash).isSome → chain.tip = some tip → ∃ fork,
      chain.findFork s hash = some (some fork) ∧
        SkipList.HighestCommon s.parent s.node.mapBlockIndex.level hash tip fork) ∧
    (∀ pa pb, (s.node.mapBlockIndex pa).isSome → (s.node.mapBlockIndex pb).isSome → ∃ above,
      lastCommonAncestor s pa pb = some (some above) ∧
        SkipList.HighestCommon s.parent s.node.mapBlockIndex.level pa pb above) ∧
    ∀ pindex hash, pindex.or chain.tip = some hash → (s.node.mapBlockIndex hash).isSome → ∃ vHave,
      chain.getLocator s pindex = some vHave ∧
        (∀ other ∈ vHave, SkipList.Ancestor s.parent other hash) ∧
        vHave.Pairwise (fun higher lower =>
          s.node.mapBlockIndex.level lower < s.node.mapBlockIndex.level higher) ∧
        vHave.getLast? = some genesis ∧
        ∀ peer peerChain, Navigated genesis peer peerChain → peerChain.vChain ≠ [] → ∃ fork,
          findForkInGlobalIndex peer.node.mapBlockIndex peerChain vHave = some fork ∧
            some fork ∈ peerChain.vChain ∧ SkipList.Ancestor s.parent fork hash := by
  obtain ⟨sound, rooted, valid⟩ := navigated.valid
  refine ⟨fun tip known => ?_, fun hash tip known top => ?_, fun pa pb => ?_,
    fun pindex hash start known => ?_⟩
  · obtain ⟨ancestor, ground⟩ := rooted.ancestor sound.tree known
    exact ⟨_, CChain.setTip_eq sound.tree (valid.aligned sound.tree) known,
      sound.tree.forest.pathTo_lineage known ancestor ground⟩
  · exact sound.findFork_eq rooted (valid.of_tip sound.tree top) known
  · exact sound.lastCommonAncestor_eq rooted
  · obtain ⟨vHave, run, ancestors, decreasing, last⟩ := valid.run_locatorRound sound rooted known
      1 le_rfl [] (Nat.lt_succ_self _)
    refine ⟨vHave, ?_, ancestors, decreasing, last, ?_⟩
    · rw [CChain.getLocator, start]
      exact run
    · intro peer peerChain onGenesis nonempty
      obtain ⟨fork, finds, inside, member⟩ := onGenesis.findForkInGlobalIndex_eq nonempty last
      exact ⟨fork, finds, inside, ancestors fork member⟩

namespace SkipChain

def side [Crypto] : CBlock := { block (blocks 2).getHash with nNonce := 1 }

def forked [Crypto] : SkipNode := added.addToBlockIndex side

def active [Crypto] : CChain := ⟨(forked.node.mapBlockIndex.path (blocks 4).getHash).map some⟩

end SkipChain

section

local instance SkipChain.instForked : Crypto := checksumCrypto

open SkipChain

theorem SkipChain.forked_navigated : Navigated (blocks 0).getHash forked ⟨[]⟩ := by
  refine .added (.added (.added (.added (.added (.added (.started node _ fun _ => rfl) (blocks 0)
    (.inl rfl)) (blocks 1) (.inr ?_)) (blocks 2) (.inr ?_)) (blocks 3) (.inr ?_)) (blocks 4)
    (.inr ?_)) side (.inr ?_)
  all_goals decide +kernel

theorem SkipChain.active_navigated : Navigated (blocks 0).getHash forked active := by
  have known : (forked.node.mapBlockIndex (blocks 4).getHash).isSome := by decide +kernel
  refine .setTip forked_navigated (some (blocks 4).getHash) ?_ ?_
  · intro hash member
    rw [← Option.mem_some.mp member]
    exact known
  · exact CChain.setTip_eq forked_navigated.valid.1.tree CChain.aligned_nil known

theorem chain_navigation_forked :
    (∃ path, active.setTip forked.node.mapBlockIndex (some side.getHash) = some ⟨path.map some⟩ ∧
      SkipList.PathTo forked.parent (blocks 0).getHash side.getHash path) ∧
    (∃ fork, active.findFork forked side.getHash = some (some fork) ∧
      SkipList.HighestCommon forked.parent forked.node.mapBlockIndex.level side.getHash
        (blocks 4).getHash fork) ∧
    (∃ above, lastCommonAncestor forked side.getHash (blocks 4).getHash = some (some above) ∧
      SkipList.HighestCommon forked.parent forked.node.mapBlockIndex.level side.getHash
        (blocks 4).getHash above) ∧
    ∃ vHave, active.getLocator forked (some side.getHash) = some vHave ∧
      vHave.getLast? = some (blocks 0).getHash ∧
      ∃ fork, findForkInGlobalIndex forked.node.mapBlockIndex active vHave = some fork ∧
        some fork ∈ active.vChain ∧ SkipList.Ancestor forked.parent fork side.getHash := by
  have knownTip : (forked.node.mapBlockIndex (blocks 4).getHash).isSome := by decide +kernel
  have knownSide : (forked.node.mapBlockIndex side.getHash).isSome := by decide +kernel
  have top : active.tip = some (blocks 4).getHash := by decide +kernel
  obtain ⟨setTip, findFork, common, getLocator⟩ := chain_navigation active_navigated
  refine ⟨setTip _ knownSide, findFork _ _ knownSide top, common _ _ knownSide knownTip, ?_⟩
  obtain ⟨vHave, locates, -, -, last, others⟩ := getLocator (some side.getHash) _ rfl knownSide
  exact ⟨vHave, locates, last, others forked active active_navigated (by decide +kernel)⟩

end

end Agouti
