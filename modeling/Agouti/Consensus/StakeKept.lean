import Agouti.Consensus.StakedAccept
import Agouti.Validation.Linking

/-! # The stake fields of linked blocks

In every state that the arrival of blocks leads to, the stake fields of a linked block are those
that `ComputeNextStakeModifier` and `GetStakeModifierChecksum` compute on its branch
(`StakedNode.StakeKept`): a linked block and its ancestors have their bodies, and what the
computation reads of them does not change any more. The blocks come from one tree (`BlockTree`), in
which a hash names one block.
-/

namespace Agouti

open Verdict Node List Function

/-- The blocks that a node may receive, by hash. The genesis block has no parent among them. -/
structure BlockTree [ChainParams] [Crypto] where
  block : Uint256 → Option CBlock
  named : ∀ hash body, block hash = some body → body.getHash = hash
  rooted : ∀ body, block ChainParams.hashGenesisBlock = some body →
    block body.hashPrevBlock = none

def CBlock.headerOnly (block : CBlock) : CBlock where
  toCBlockHeader := block.toCBlockHeader
  vtx := []

theorem CBlockIndex.getBlockHash_of_core {pindex later : CBlockIndex}
    (core : later.core = pindex.core) : later.getBlockHash = pindex.getBlockHash :=
  congrArg (fun core : IndexCore => core.phashBlock.getD 0) core

variable [ChainParams] [Crypto]

/-- The entry is that of the block with this hash in the tree. -/
structure BlockTree.Stands (tree : BlockTree) (hash : Uint256) (body : CBlock)
    (pindex : CBlockIndex) : Prop where
  found : tree.block hash = some body
  nTime : pindex.nTime = body.nTime
  pprev : pindex.pprev =
    if hash = ChainParams.hashGenesisBlock then none else some body.hashPrevBlock
  header : pindex.fProofOfStake = true → body.isProofOfStake = true
  stored : pindex.nStatus.haveData = true → body.isProofOfStake = true →
    pindex.fProofOfStake = true

namespace StakedNode

/-- What the stake fields depend on stays: the linked blocks keep their entries and stake fields. -/
structure Keeps (s t : StakedNode) : Prop where
  linked : ∀ hash pindex, s.node.mapBlockIndex hash = some pindex → pindex.nChainTx ≠ 0 →
    ∃ later, t.node.mapBlockIndex hash = some later ∧ later.core = pindex.core ∧
      later.nTime = pindex.nTime ∧ later.hashProofOfStake = pindex.hashProofOfStake ∧
      later.nChainTx ≠ 0
  stakes : ∀ hash, s.node.linked hash → t.stakes hash = s.stakes hash
  literal : t.literal = s.literal

variable [StakeParams] {s t : StakedNode} {tree : BlockTree}

variable {pindex later : CBlockIndex} {waiting : List Uint256} {block : CBlock}

omit [ChainParams] [StakeParams] [Crypto] in
theorem entry_of_core (core : later.core = pindex.core) (time : later.nTime = pindex.nTime)
    (stake : t.stakes pindex.getBlockHash = s.stakes pindex.getBlockHash) :
    t.entry later = s.entry pindex := by
  obtain ⟨_, _, height, _, _, staked⟩ := IndexCore.mk.inj core
  have here := CBlockIndex.getBlockHash_of_core core
  unfold entry
  rw [here, stake, height, CBlockIndex.getBlockTime, CBlockIndex.getBlockTime, time,
    CBlockIndex.isProofOfStake, CBlockIndex.isProofOfStake, staked]

omit [ChainParams] [StakeParams] in
theorem Keeps.walkBack (keeps : Keeps s t) (held : s.node.LinksHeld waiting) (fuel : Nat)
    {hash : Uint256} (found : s.node.mapBlockIndex hash = some pindex)
    (linked : pindex.nChainTx ≠ 0) (present : t.node.mapBlockIndex hash = some later) :
    t.walkBack fuel (some later) = s.walkBack fuel (some pindex) := by
  induction fuel generalizing hash pindex later with
  | zero => rfl
  | succ fuel ih =>
    obtain ⟨other, there, core, time, _⟩ := keeps.linked hash pindex found linked
    rw [present] at there
    obtain rfl := Option.some.inj there
    have here := (holds_of_sound held.sound found).2.2
    have stake : t.stakes pindex.getBlockHash = s.stakes pindex.getBlockHash :=
      keeps.stakes _ ⟨pindex, here.symm ▸ found, linked⟩
    have pprev : later.pprev = pindex.pprev := congrArg IndexCore.pprev core
    rw [StakedNode.walkBack, StakedNode.walkBack, entry_of_core core time stake, BlockMap.prev,
      BlockMap.prev, pprev]
    cases parent : pindex.pprev with
    | none =>
      simp only [Option.bind_none]
      cases fuel <;> rfl
    | some hashPrev =>
      obtain ⟨prev, foundPrev, linkedPrev⟩ := (held.stored hash pindex found linked).2 _ parent
      obtain ⟨laterPrev, presentPrev, _⟩ := keeps.linked hashPrev prev foundPrev linkedPrev
      simp only [Option.bind_some, foundPrev, presentPrev]
      rw [ih foundPrev linkedPrev presentPrev]

omit [ChainParams] in
theorem Keeps.nextStake (keeps : Keeps s t) (held : s.node.LinksHeld waiting) {hashPrev : Uint256}
    {prev laterPrev : CBlockIndex} (found : s.node.mapBlockIndex hashPrev = some prev)
    (linked : prev.nChainTx ≠ 0) (present : t.node.mapBlockIndex hashPrev = some laterPrev)
    (core : later.core = pindex.core) (kernel : later.hashProofOfStake = pindex.hashProofOfStake)
    (entropy : (t.stakes pindex.getBlockHash).fStakeEntropy =
      (s.stakes pindex.getBlockHash).fStakeEntropy) :
    t.nextStake laterPrev later = s.nextStake prev pindex := by
  obtain ⟨other, there, corePrev, _⟩ := keeps.linked hashPrev prev found linked
  rw [present] at there
  obtain rfl := Option.some.inj there
  have here := (holds_of_sound held.sound found).2.2
  have height : laterPrev.nHeight = prev.nHeight := congrArg IndexCore.nHeight corePrev
  have named := CBlockIndex.getBlockHash_of_core corePrev
  have self := CBlockIndex.getBlockHash_of_core core
  have stake : t.stakes prev.getBlockHash = s.stakes prev.getBlockHash :=
    keeps.stakes _ ⟨prev, here.symm ▸ found, linked⟩
  have lineage : t.lineage laterPrev = s.lineage prev := by
    rw [StakedNode.lineage, StakedNode.lineage, height]
    exact keeps.walkBack held _ found linked present
  have staked : later.fProofOfStake = pindex.fProofOfStake := congrArg IndexCore.fProofOfStake core
  unfold StakedNode.nextStake
  simp only [keeps.literal, lineage, named, self, stake, entropy, getStakeModifierChecksum,
    stakeFlags, staked, kernel]

/-- The stake fields of the block index, while the blocks `waiting` are about to be linked. -/
structure StakeKept (tree : BlockTree) (waiting : List Uint256) (s : StakedNode) : Prop where
  links : s.node.LinksHeld waiting
  known : ∀ hash pindex, s.node.mapBlockIndex hash = some pindex →
    ∃ body, tree.Stands hash body pindex
  entropy : ∀ hash pindex, s.node.mapBlockIndex hash = some pindex →
    (s.stakes hash).fStakeEntropy = (pindex.pprev.isSome && getStakeEntropyBit hash)
  root : ∀ hash pindex, s.node.mapBlockIndex hash = some pindex → pindex.pprev = none →
    s.stakes hash = {}
  computed : ∀ hash pindex, s.node.mapBlockIndex hash = some pindex → pindex.nChainTx ≠ 0 →
    ∀ prev, s.node.mapBlockIndex.prev pindex = some prev →
      s.stakes hash = s.nextStake prev pindex

theorem StakeKept.step {later : List Uint256} (kept : s.StakeKept tree waiting) (keeps : Keeps s t)
    (links : t.node.LinksHeld later)
    (known : ∀ hash pindex, t.node.mapBlockIndex hash = some pindex →
      ∃ body, tree.Stands hash body pindex)
    (entropy : ∀ hash pindex, t.node.mapBlockIndex hash = some pindex →
      (t.stakes hash).fStakeEntropy = (pindex.pprev.isSome && getStakeEntropyBit hash))
    (root : ∀ hash pindex, t.node.mapBlockIndex hash = some pindex → pindex.pprev = none →
      t.stakes hash = {})
    (new : ∀ hash pindex, t.node.mapBlockIndex hash = some pindex → pindex.nChainTx ≠ 0 →
      ¬ s.node.linked hash → ∀ prev, t.node.mapBlockIndex.prev pindex = some prev →
        t.stakes hash = t.nextStake prev pindex) : t.StakeKept tree later := by
  refine ⟨links, known, entropy, root, fun hash pindex found linked prev below => ?_⟩
  by_cases before : s.node.linked hash
  · obtain ⟨old, there, counted⟩ := before
    obtain ⟨same, again, core, _, kernel, _⟩ := keeps.linked hash old there counted
    rw [found] at again
    obtain rfl := Option.some.inj again
    obtain ⟨hashPrev, pprev, present⟩ := Option.bind_eq_some_iff.mp below
    have pprevOld : old.pprev = some hashPrev :=
      (congrArg IndexCore.pprev core).symm.trans pprev
    obtain ⟨oldPrev, foundPrev, linkedPrev⟩ := (kept.links.stored hash old there counted).2 _ pprevOld
    have here := (holds_of_sound kept.links.sound there).2.2
    have stake := keeps.stakes hash ⟨old, there, counted⟩
    have computed := kept.computed hash old there counted oldPrev
      (Option.bind_eq_some_iff.mpr ⟨hashPrev, pprevOld, foundPrev⟩)
    rw [stake, computed]
    symm
    apply keeps.nextStake kept.links foundPrev linkedPrev present core kernel
    rw [here, stake]
  · exact new hash pindex found linked before prev below

theorem StakeKept.same (kept : s.StakeKept tree waiting) (same : SameLinks s.node t.node)
    (stakes : t.stakes = s.stakes)
    (literal : t.literal = s.literal) : t.StakeKept tree waiting := by
  have keeps : Keeps s t := by
    refine ⟨fun hash pindex found linked => ?_, fun hash _ => by rw [stakes], literal⟩
    obtain ⟨later, present, link⟩ := same.entries hash pindex found
    exact ⟨later, present, link.core, link.field CBlockIndex.nTime fun _ => rfl,
      link.field CBlockIndex.hashProofOfStake fun _ => rfl, link.nChainTx.symm ▸ linked⟩
  refine kept.step keeps (same.held kept.links) ?known ?entropy ?root ?new
  case known =>
      intro hash later present
      obtain ⟨pindex, found, link⟩ := same.origin present
      obtain ⟨body, stands⟩ := kept.known hash pindex found
      have staked : later.fProofOfStake = pindex.fProofOfStake :=
        link.field CBlockIndex.fProofOfStake fun _ => rfl
      have time : later.nTime = pindex.nTime := link.field CBlockIndex.nTime fun _ => rfl
      exact ⟨body, stands.found, time.trans stands.nTime, link.pprev.trans stands.pprev,
        staked ▸ stands.header, staked.symm ▸ link.haveData.symm ▸ stands.stored⟩
  case entropy =>
      intro hash later present
      obtain ⟨pindex, found, link⟩ := same.origin present
      rw [stakes, link.pprev]
      exact kept.entropy hash pindex found
  case root =>
      intro hash later present root
      obtain ⟨pindex, found, link⟩ := same.origin present
      rw [stakes]
      exact kept.root hash pindex found (link.pprev.symm.trans root)
  case new =>
      intro hash later present linked missing
      exact absurd ((same.linked_iff hash).mp ⟨later, present, linked⟩) missing

/-- A round of the loop of `ReceivedBlockTransactions` keeps the stake fields: the block of the
round gets its own. -/
theorem StakeKept.link {hash : Uint256} {queue found : List Uint256}
    (kept : s.StakeKept tree (hash :: queue)) (step : LinkStep hash pindex found s.node t.node)
    (stakes : t.stakes = (s.linkBlock hash pindex).stakes) (literal : t.literal = s.literal) :
    t.StakeKept tree (queue ++ found) := by
  obtain ⟨entry, present, stored, uncounted, above⟩ := kept.links.ready hash mem_cons_self
  rw [step.entry] at present
  obtain rfl := Option.some.inj present
  have linked := step.linked_iff (kept.links.filled hash pindex step.entry stored).2
  have here := (holds_of_sound kept.links.sound step.entry).2.2
  have bottom : ¬ s.node.linked hash := by
    intro ⟨entry, there, counted⟩
    rw [step.entry] at there
    exact counted (Option.some.inj there ▸ uncounted)
  have others : ∀ other, other ≠ hash → t.stakes other = s.stakes other := by
    intro other apart
    rw [stakes, linkBlock]
    cases s.node.mapBlockIndex.prev pindex with
    | none => rfl
    | some prev => exact update_of_ne apart _ _
  have own : ∀ prev, s.node.mapBlockIndex.prev pindex = some prev →
      t.stakes hash = s.nextStake prev pindex := by
    intro prev below
    rw [stakes, linkBlock, below]
    exact update_self ..
  have bare : pindex.pprev = none → t.stakes hash = s.stakes hash := by
    intro root
    rw [stakes, linkBlock, BlockMap.prev, root]
    rfl
  have entropy : (t.stakes hash).fStakeEntropy = (s.stakes hash).fStakeEntropy := by
    cases below : s.node.mapBlockIndex.prev pindex with
    | none =>
      rw [stakes, linkBlock, below]
    | some prev =>
      rw [own prev below, nextStake, here]
  have keeps : Keeps s t := by
    refine ⟨fun other old there counted => ?_, fun other counted => others other ?_, literal⟩
    · have apart : other ≠ hash := by
        rintro rfl
        exact bottom ⟨old, there, counted⟩
      exact ⟨old, (index_update step.index apart).trans there, rfl, rfl, rfl, counted⟩
    · rintro rfl
      exact bottom counted
  refine kept.step keeps (step.held kept.links) ?known ?entropy ?root ?new
  case known =>
      intro other later there
      rcases step.origin there with ⟨rfl, rfl⟩ | ⟨_, before⟩
      · obtain ⟨body, stands⟩ := kept.known other pindex step.entry
        exact ⟨body, stands.found, stands.nTime, stands.pprev, stands.header, stands.stored⟩
      · exact kept.known other later before
  case entropy =>
      intro other later there
      rcases step.origin there with ⟨rfl, rfl⟩ | ⟨apart, before⟩
      · rw [entropy]
        exact kept.entropy other pindex step.entry
      · rw [others other apart]
        exact kept.entropy other later before
  case root =>
      intro other later there root
      rcases step.origin there with ⟨rfl, rfl⟩ | ⟨apart, before⟩
      · rw [bare root]
        exact kept.root other pindex step.entry root
      · rw [others other apart]
        exact kept.root other later before root
  case new =>
      intro other later there counted missing prev below
      rcases step.origin there with ⟨rfl, rfl⟩ | ⟨apart, before⟩
      · obtain ⟨hashPrev, pprev, present⟩ := Option.bind_eq_some_iff.mp below
        obtain ⟨old, foundPrev, linkedPrev⟩ := above hashPrev pprev
        have apart : hashPrev ≠ other := by
          rintro rfl
          exact bottom ⟨old, foundPrev, linkedPrev⟩
        have same := (index_update step.index apart).symm.trans present
        rw [foundPrev] at same
        obtain rfl := Option.some.inj same
        rw [own old (Option.bind_eq_some_iff.mpr ⟨hashPrev, pprev, foundPrev⟩)]
        have again : t.nextStake old (s.node.linkedIndex pindex) = s.nextStake old pindex := by
          refine keeps.nextStake kept.links foundPrev linkedPrev present ?_ ?_ ?_
          · rfl
          · rfl
          · rw [here, entropy]
        exact again.symm
      · exact absurd ⟨later, before, counted⟩ missing

theorem StakeKept.linkBlocks {queue : List Uint256} (kept : s.StakeKept tree queue) (fuel : Nat) :
    ∃ waiting, (linkBlocks fuel queue s).StakeKept tree waiting := by
  induction fuel generalizing queue s with
  | zero => exact ⟨queue, kept⟩
  | succ fuel ih =>
    cases queue with
    | nil => exact ⟨[], kept⟩
    | cons hash queue =>
      obtain ⟨pindex, found, _⟩ := kept.links.ready hash mem_cons_self
      simp only [StakedNode.linkBlocks, found]
      apply ih
      have visited : linkVisit hash s.node = some
          (let linked := s.node.linkBlock hash pindex
          let parts := linked.mapBlocksUnlinked.partition fun link => link.1 == hash
          ({ linked with mapBlocksUnlinked := parts.2 }, parts.1.map Prod.snd)) := by
        rw [linkVisit, found]
        rfl
      obtain ⟨entry, step⟩ := linkVisit_step visited
      have same := step.entry
      rw [found] at same
      obtain rfl := Option.some.inj same
      exact kept.link step rfl rfl

theorem StakeKept.settle (kept : s.StakeKept tree waiting)
    (links : s.node.LinksHeld []) : s.StakeKept tree [] :=
  ⟨links, kept.known, kept.entropy, kept.root, kept.computed⟩

omit [ChainParams] in
theorem receivedBlockTransactions_eq (s : StakedNode) (block : CBlock) (pindex : CBlockIndex) :
    s.receivedBlockTransactions block pindex =
      if (s.node.placeBody block pindex).2 then
        StakedNode.linkBlocks ((s.node.placeBody block pindex).1.mapBlocksUnlinked.length + 1)
          [(s.node.receivedIndex block pindex).getBlockHash]
          { s with node := (s.node.placeBody block pindex).1 }
      else { s with node := (s.node.placeBody block pindex).1 } := by
  unfold receivedBlockTransactions Node.placeBody
  simp only
  cases (s.node.receivedIndex block pindex).pprev with
  | none => rfl
  | some hashPrev =>
    simp only
    cases (s.node.setIndex (s.node.receivedIndex block pindex).getBlockHash
        (s.node.receivedIndex block pindex)).mapBlockIndex hashPrev with
    | none => rfl
    | some prev =>
      simp only
      by_cases linked : prev.nChainTx ≠ 0
      · rw [if_pos linked, if_pos linked]
        rfl
      · rw [if_neg linked, if_neg linked]
        by_cases valid : prev.isValid BLOCK_VALID_TREE = true
        · rw [if_pos valid, if_pos valid]
          rfl
        · rw [if_neg valid, if_neg valid]
          rfl

omit [ChainParams] [StakeParams] in
theorem receivedIndex_nTime (node : Node) (block : CBlock) (pindex : CBlockIndex) :
    (node.receivedIndex block pindex).nTime = pindex.nTime := by
  unfold Node.receivedIndex
  rw [(CBlockIndex.raiseValidity_mark _ _).field CBlockIndex.nTime fun _ => rfl]
  cases block.isProofOfStake with
  | true => rfl
  | false => rfl

theorem StakeKept.place (kept : s.StakeKept tree [])
    (inTree : tree.block block.getHash = some block)
    (found : s.node.mapBlockIndex block.getHash = some pindex)
    (header : pindex.nStatus.haveData = false) {base mid : Node}
    (body : HasBody block pindex (base.receivedIndex block pindex))
    (placed : BodyPlaced block (base.receivedIndex block pindex) s.node mid)
    (links : mid.LinksHeld waiting) :
    ({ s with node := mid } : StakedNode).StakeKept tree waiting := by
  have bottom := kept.links.not_linked fun entry present => by
    rw [found] at present
    exact Option.some.inj present ▸ header
  have origin := origin_update placed.index
  have keeps : Keeps s { s with node := mid } := by
    refine ⟨fun other old there counted => ?_, fun _ _ => rfl, rfl⟩
    have apart : other ≠ block.getHash := by
      rintro rfl
      exact bottom ⟨old, there, counted⟩
    exact ⟨old, (index_update placed.index apart).trans there, rfl, rfl, rfl, counted⟩
  refine kept.step keeps links ?known ?entropy ?root ?new
  case known =>
      intro other later there
      rcases origin other later there with ⟨rfl, rfl⟩ | ⟨_, before⟩
      · obtain ⟨known, stands⟩ := kept.known _ pindex found
        have same := stands.found
        rw [inTree] at same
        obtain rfl := Option.some.inj same
        have staked : (base.receivedIndex block pindex).fProofOfStake =
            (block.isProofOfStake || pindex.fProofOfStake) :=
          congrArg IndexCore.fProofOfStake (receivedIndex_core base block pindex)
        refine ⟨block, inTree, (receivedIndex_nTime base block pindex).trans stands.nTime,
          body.pprev.trans stands.pprev, ?_, ?_⟩
        · rw [staked, Bool.or_eq_true]
          exact fun either => either.elim id stands.header
        · intro _ stake
          rw [staked, stake, Bool.true_or]
      · exact kept.known other later before
  case entropy =>
      intro other later there
      rcases origin other later there with ⟨rfl, rfl⟩ | ⟨_, before⟩
      · rw [body.pprev]
        exact kept.entropy _ pindex found
      · exact kept.entropy other later before
  case root =>
      intro other later there root
      rcases origin other later there with ⟨rfl, rfl⟩ | ⟨_, before⟩
      · exact kept.root _ pindex found (body.pprev.symm.trans root)
      · exact kept.root other later before root
  case new =>
      intro other later there counted missing
      rcases origin other later there with ⟨rfl, rfl⟩ | ⟨_, before⟩
      · exact absurd body.nChainTx counted
      · exact absurd ⟨later, before, counted⟩ missing

theorem StakeKept.storeBlock (kept : s.StakeKept tree [])
    (inTree : tree.block block.getHash = some block)
    (found : s.node.mapBlockIndex block.getHash = some pindex)
    (header : pindex.nStatus.haveData = false) (intact : pindex.nStatus.failed = false)
    (parent : ∀ prev, s.node.mapBlockIndex.prev pindex = some prev → prev.nStatus.failed = false)
    (filled : block.vtx ≠ []) : (s.storeBlock block pindex).StakeKept tree [] := by
  have links := kept.links.storeBlock found header intact parent filled
  rw [← storeBlock_node] at links
  obtain ⟨placed, body, name, mid⟩ := placeBody_cases kept.links found header intact parent filled
  suffices some : ∃ waiting, (s.storeBlock block pindex).StakeKept tree waiting by
    obtain ⟨waiting, stakes⟩ := some
    exact stakes.settle links
  unfold StakedNode.storeBlock
  rw [receivedBlockTransactions_eq, name]
  split
  · rename_i enters
    rw [if_pos enters] at mid
    exact (kept.place inTree found header body placed mid).linkBlocks _
  · rename_i stays
    rw [if_neg stays] at mid
    exact ⟨[], kept.place inTree found header body placed mid⟩

omit [ChainParams] [StakeParams] in
theorem newIndex_nTime (node : Node) (block : CBlock) :
    (node.newIndex block).nTime = block.nTime := by
  unfold Node.newIndex
  exact (CBlockIndex.raiseValidity_mark _ _).field CBlockIndex.nTime fun _ => rfl

theorem StakeKept.addToBlockIndex (kept : s.StakeKept tree []) {body : CBlock}
    (inTree : tree.block block.getHash = some body)
    (header : block.toCBlockHeader = body.toCBlockHeader)
    (staked : block.isProofOfStake = true → body.isProofOfStake = true)
    (parent : block.getHash ≠ ChainParams.hashGenesisBlock →
      (s.node.mapBlockIndex block.hashPrevBlock).isSome = true) :
    (s.addToBlockIndex block).StakeKept tree [] := by
  cases known : s.node.mapBlockIndex block.getHash with
  | some pindex =>
    have same : s.addToBlockIndex block = s := by simp [StakedNode.addToBlockIndex, known]
    exact same.symm ▸ kept
  | none =>
    have links := kept.links.addToBlockIndex block
    rw [← addToBlockIndex_node] at links
    have index : (s.addToBlockIndex block).node.mapBlockIndex =
        Function.update s.node.mapBlockIndex block.getHash (some (s.node.newIndex block)) := by
      rw [addToBlockIndex_node, addToBlockIndex_index known]
    have stakes : (s.addToBlockIndex block).stakes = Function.update s.stakes block.getHash
        { fStakeEntropy := (s.node.mapBlockIndex block.hashPrevBlock).isSome &&
            getStakeEntropyBit block.getHash } := by
      simp [StakedNode.addToBlockIndex, known]
    have literal : (s.addToBlockIndex block).literal = s.literal := by
      simp [StakedNode.addToBlockIndex, known]
    have core := newIndex_core s.node block
    have pprev : (s.node.newIndex block).pprev =
        (s.node.mapBlockIndex block.hashPrevBlock).map fun _ => block.hashPrevBlock :=
      congrArg IndexCore.pprev core
    have bottom : ¬ s.node.linked block.getHash := by
      intro ⟨pindex, found, _⟩
      rw [known] at found
      contradiction
    have others : ∀ other, other ≠ block.getHash →
        (s.addToBlockIndex block).stakes other = s.stakes other := by
      intro other apart
      rw [stakes, update_of_ne apart]
    have origin := origin_update index
    have keeps : Keeps s (s.addToBlockIndex block) := by
      refine ⟨fun other old there counted => ?_, fun other counted => others other ?_, literal⟩
      · have apart : other ≠ block.getHash := by
          rintro rfl
          exact bottom ⟨old, there, counted⟩
        exact ⟨old, (index_update index apart).trans there, rfl, rfl, rfl, counted⟩
      · rintro rfl
        exact bottom counted
    refine kept.step keeps links ?known ?entropy ?root ?new
    case known =>
        intro other later there
        rcases origin other later there with ⟨rfl, rfl⟩ | ⟨_, before⟩
        · refine ⟨body, inTree, ?_, ?_, ?_, ?_⟩
          · rw [newIndex_nTime, header]
          · rw [pprev]
            split
            · rename_i genesis
              have rootless := tree.rooted body (genesis ▸ inTree)
              rw [← header] at rootless
              cases below : s.node.mapBlockIndex block.hashPrevBlock with
              | none => rfl
              | some prev =>
                obtain ⟨other, stands⟩ := kept.known _ prev below
                rw [stands.found] at rootless
                contradiction
            · rename_i other
              obtain ⟨prev, below⟩ := Option.isSome_iff_exists.mp (parent other)
              rw [below, header]
              rfl
          · intro stake
            exact staked ((congrArg IndexCore.fProofOfStake core).symm.trans stake)
          · intro data
            have bare : (s.node.newIndex block).nStatus.haveData = false :=
              congrArg IndexCore.haveData core
            rw [bare] at data
            contradiction
        · exact kept.known other later before
    case entropy =>
        intro other later there
        rcases origin other later there with ⟨rfl, rfl⟩ | ⟨apart, before⟩
        · rw [stakes, update_self, pprev, Option.isSome_map]
        · rw [others other apart]
          exact kept.entropy other later before
    case root =>
        intro other later there root
        rcases origin other later there with ⟨rfl, rfl⟩ | ⟨apart, before⟩
        · rw [pprev, Option.map_eq_none_iff] at root
          rw [stakes, update_self, root]
          rfl
        · rw [others other apart]
          exact kept.root other later before root
    case new =>
        intro other later there counted missing
        rcases origin other later there with ⟨rfl, rfl⟩ | ⟨_, before⟩
        · exact absurd (newIndex_status s.node block).1 counted
        · exact absurd ⟨later, before, counted⟩ missing

/-! ### Accepting headers and blocks -/

omit [StakeParams] in
theorem checkParent_ok {node : Node} {pindexPrev : Option CBlockIndex}
    (passed : checkParent node block = .ok pindexPrev)
    (other : block.getHash ≠ ChainParams.hashGenesisBlock) :
    ∃ prev, node.mapBlockIndex block.hashPrevBlock = some prev ∧ prev.nStatus.failed = false := by
  rw [checkParent, if_neg other] at passed
  simp only [bind_eq_ok, demand_eq_ok, reject_eq_ok] at passed
  obtain ⟨prev, found, _, intact, _⟩ := passed
  exact ⟨prev, found, intact⟩

omit [StakeParams] in
theorem checkNewHeader_parent {data : LocalData} {node : Node}
    (passed : checkNewHeader data node block = .ok ())
    (other : block.getHash ≠ ChainParams.hashGenesisBlock) :
    (node.mapBlockIndex block.hashPrevBlock).isSome = true := by
  simp only [checkNewHeader, bind_eq_ok] at passed
  obtain ⟨_, _, pindexPrev, parent, _⟩ := passed
  obtain ⟨prev, found, _⟩ := checkParent_ok parent other
  rw [found]
  rfl

theorem StakeKept.acceptBlockHeader (kept : s.StakeKept tree []) (data : LocalData) {body : CBlock}
    (inTree : tree.block block.getHash = some body)
    (header : block.toCBlockHeader = body.toCBlockHeader)
    (staked : block.isProofOfStake = true → body.isProofOfStake = true) :
    (s.acceptBlockHeader data block).1.StakeKept tree [] := by
  unfold StakedNode.acceptBlockHeader
  split
  · exact kept
  · split
    · exact kept
    · rename_i passed
      exact kept.addToBlockIndex inTree header staked (checkNewHeader_parent passed)

omit [StakeParams] in
theorem acceptBlockHeader_entry {data : LocalData} {after : StakedNode}
    (accepted : s.acceptBlockHeader data block = (after, .ok pindex)) :
    after.node.mapBlockIndex block.getHash = some pindex ∧ pindex.nStatus.failed = false := by
  unfold StakedNode.acceptBlockHeader at accepted
  split at accepted
  · rename_i found
    obtain ⟨rfl, verdict⟩ := Prod.mk.inj accepted
    split at verdict
    · contradiction
    · rename_i intact
      obtain rfl := Except.ok.inj verdict
      exact ⟨found, Bool.eq_false_iff.mpr intact⟩
  · rename_i absent
    split at accepted
    · have verdict := (Prod.mk.inj accepted).2
      contradiction
    · obtain ⟨rfl, verdict⟩ := Prod.mk.inj accepted
      obtain rfl := Except.ok.inj verdict
      refine ⟨?_, ?_⟩
      · rw [addToBlockIndex_node]
        exact (addToBlockIndex_arrival absent).2.2.2
      · unfold Node.newIndex
        have same := CBlockIndex.raiseValidity_mark
        exact congrArg₂ or (same _ _).failedValid (same _ _).failedChild

omit [StakeParams] in
theorem acceptBlockHeader_keeps {data : LocalData} {after : StakedNode}
    {verdict : Verdict CBlockIndex} (accepted : s.acceptBlockHeader data block = (after, verdict))
    {other : Uint256} (known : s.node.mapBlockIndex other = some pindex) :
    after.node.mapBlockIndex other = some pindex := by
  unfold StakedNode.acceptBlockHeader at accepted
  split at accepted
  · exact (Prod.mk.inj accepted).1 ▸ known
  · rename_i absent
    split at accepted
    · exact (Prod.mk.inj accepted).1 ▸ known
    · obtain ⟨rfl, _⟩ := Prod.mk.inj accepted
      have apart : other ≠ block.getHash := by
        rintro rfl
        rw [absent] at known
        contradiction
      rw [addToBlockIndex_node, Node.addToBlockIndex, absent]
      exact (update_of_ne apart _ _).trans known

theorem StakeKept.acceptBody (kept : s.StakeKept tree []) (data : LocalData)
    (inTree : tree.block block.getHash = some block)
    (found : s.node.mapBlockIndex block.getHash = some pindex)
    (intact : pindex.nStatus.failed = false)
    (parent : block.getHash ≠ ChainParams.hashGenesisBlock →
      ∀ prev, s.node.mapBlockIndex block.hashPrevBlock = some prev → prev.nStatus.failed = false)
    (written : Bool) : (s.acceptBody data block pindex written).1.StakeKept tree [] := by
  unfold StakedNode.acceptBody
  split
  · exact kept
  · rename_i header
    rw [Bool.not_eq_true] at header
    split
    · refine kept.same ?_ rfl rfl
      simp only
      split
      · exact markFailed_links _ _
      · exact .refl _
    · rename_i passed
      split
      · have filled : block.vtx ≠ [] := by
          obtain ⟨coinbase, others, list, _⟩ := ((checkBody_ok rfl).mp passed).1.transactions
          rw [list]
          exact cons_ne_nil coinbase others
        refine kept.storeBlock inTree found header intact ?_ filled
        intro prev below
        obtain ⟨hashPrev, pprev, present⟩ := Option.bind_eq_some_iff.mp below
        obtain ⟨body, stands⟩ := kept.known _ pindex found
        have same := stands.found
        rw [inTree] at same
        obtain rfl := Option.some.inj same
        rw [stands.pprev, Option.ite_none_left_eq_some, Option.some_inj] at pprev
        obtain ⟨other, rfl⟩ := pprev
        exact parent other prev present
      · exact kept

omit [StakeParams] in
theorem acceptWork_links [Legacy] {data : LocalData} {node worked : Node} {block : CBlock}
    {pindexPrev : Option CBlockIndex} (work : acceptWork data node block pindexPrev = some worked) :
    SameLinks node worked := by
  rcases acceptWork_recorded work with ⟨rfl, _⟩ | ⟨_, kernel, _, _, _, rfl⟩
  · exact .refl _
  · unfold recordProofOfStake
    split
    · exact .refl _
    · exact .of_index rfl rfl rfl

theorem StakeKept.acceptBlock (kept : s.StakeKept tree []) (bitsWithinHalf : Nat → Nat → Bool)
    (mempool : Uint256 → Option CTransaction) (data : LocalData) {block : CBlock}
    (inTree : tree.block block.getHash = some block) (written : Bool) :
    (s.acceptBlock bitsWithinHalf mempool data block written).1.StakeKept tree [] := by
  unfold StakedNode.acceptBlock
  split
  · exact kept
  · rename_i pindexPrev parent
    split
    · exact kept
    · rename_i worked work
      have index := (@Node.acceptWork_same _ _ (s.legacy bitsWithinHalf mempool) _ _ _ _ _ work).2
      have links := @acceptWork_links _ _ (s.legacy bitsWithinHalf mempool) _ _ _ _ _ work
      have keptWorked : ({ s with node := worked } : StakedNode).StakeKept tree [] :=
        kept.same links rfl rfl
      have keptHeader := keptWorked.acceptBlockHeader data inTree rfl id
      split
      · rename_i after state accepted
        rw [accepted] at keptHeader
        exact keptHeader
      · rename_i after pindex accepted
        rw [accepted] at keptHeader
        obtain ⟨found, intact⟩ := acceptBlockHeader_entry accepted
        refine keptHeader.acceptBody data inTree found intact ?_ written
        intro other prev present
        obtain ⟨before, known, intactPrev⟩ := checkParent_ok parent other
        rw [acceptBlockHeader_keeps accepted (index ▸ known)] at present
        exact Option.some.inj present ▸ intactPrev

/-- A block of the tree that is new. -/
theorem StakeKept.receive (kept : s.StakeKept tree [])
    (inTree : tree.block block.getHash = some block)
    (genesis : block.getHash = ChainParams.hashGenesisBlock)
    (absent : s.node.mapBlockIndex block.getHash = none) (filled : block.vtx ≠ []) :
    (s.receive block).StakeKept tree [] := by
  have keptHeader := kept.addToBlockIndex inTree rfl id fun other => absurd genesis other
  obtain ⟨_, _, _, here⟩ := addToBlockIndex_arrival absent
  rw [← addToBlockIndex_node] at here
  have core := newIndex_core s.node block
  obtain ⟨body, stands⟩ := keptHeader.known _ _ here
  have root : (s.node.newIndex block).pprev = none := stands.pprev.trans (if_pos genesis)
  unfold StakedNode.receive
  simp only [here]
  refine keptHeader.storeBlock inTree here (congrArg IndexCore.haveData core) ?_ ?_ filled
  · unfold Node.newIndex
    have same := CBlockIndex.raiseValidity_mark
    exact congrArg₂ or (same _ _).failedValid (same _ _).failedChild
  · intro prev below
    rw [BlockMap.prev, root] at below
    contradiction

end StakedNode

end Agouti
