import Agouti.Consensus.ReorgDepth
import Agouti.Validation.ActivateIndex
import Agouti.Validation.Invalidate

/-! # The invariants of the block index

`CheckBlockIndex` asserts which blocks are linked, which are failed, which are candidates for the
tip and which wait for their parent. Every sequence of the operations on the block index keeps
these invariants (`checkedIndex_of_run`), with two reservations. A failed child stands on a failed
block, and the mark is set when `FindMostWorkChain` meets the block, not when its ancestor fails.
The candidates are complete from the best tip on that the chain has had since the last completed
`InvalidateBlock`: a step that disconnects blocks and then fails leaves a worse tip, and what was
pruned below the better one does not come back.
-/

namespace Agouti

open Node List Option StakedTip

/-- The block and its ancestors have their bodies. -/
def BlockStore.Filled (store : BlockStore) (hash : Uint256) : Prop :=
  ∀ ancestor core, store.Descends hash ancestor → store.cores ancestor = some core →
    core.haveData = true

section

variable [Crypto]

/-- What `CheckBlockIndex` asserts, with the candidates complete from a rank on. -/
structure Node.CheckedIndex (best : WithBot Rank) (node : Node) : Prop where
  sound : node.store.Sound
  grounded : node.store.Grounded
  path : node.store.Path node.vChain
  work : ∀ hash pindex, node.mapBlockIndex hash = some pindex → ∀ prev,
    node.mapBlockIndex.prev pindex = some prev → prev.nChainWork < pindex.nChainWork
  treed : ∀ hash pindex, node.mapBlockIndex hash = some pindex →
    BLOCK_VALID_TREE ≤ pindex.nStatus.valid
  filled : ∀ hash pindex, node.mapBlockIndex hash = some pindex →
    pindex.nStatus.haveData = true →
      BLOCK_VALID_TRANSACTIONS ≤ pindex.nStatus.valid ∧ pindex.nTx ≠ 0
  linked : ∀ hash pindex, node.mapBlockIndex hash = some pindex →
    (pindex.nChainTx ≠ 0 ↔ node.store.Filled hash)
  failedChild : ∀ hash, node.spoiled hash = true →
    ∃ ancestor, node.store.Descends hash ancestor ∧ node.marked ancestor = true
  bounded : node.tipRank ≤ best
  noWorse : ∀ hash ∈ node.setBlockIndexCandidates, ∃ pindex,
    node.mapBlockIndex hash = some pindex ∧ pindex.nChainTx ≠ 0 ∧
      ∀ tip, node.tip = some tip → pindex.worse tip = false
  complete : ∀ hash pindex, node.mapBlockIndex hash = some pindex → pindex.nChainTx ≠ 0 →
    pindex.nStatus.failed = false → best ≤ (pindex.rank : WithBot Rank) →
      hash ∈ node.setBlockIndexCandidates
  unlinked : ∀ hashPrev hash, (hashPrev, hash) ∈ node.mapBlocksUnlinked ↔
    ∃ pindex prev, node.mapBlockIndex hash = some pindex ∧ pindex.nStatus.haveData = true ∧
      pindex.pprev = some hashPrev ∧ node.mapBlockIndex hashPrev = some prev ∧ prev.nChainTx = 0
  once : node.mapBlocksUnlinked.Nodup

variable {node : Node} {best : WithBot Rank}

theorem Node.LinksHeld.linked_iff_filled (kept : node.LinksHeld []) {hash : Uint256}
    {pindex : CBlockIndex} (found : node.mapBlockIndex hash = some pindex) :
    pindex.nChainTx ≠ 0 ↔ node.store.Filled hash := by
  constructor
  · intro linked ancestor core descends there
    induction descends using Relation.ReflTransGen.head_induction_on generalizing pindex with
    | refl =>
      rw [store_cores found] at there
      exact some.inj there ▸ (kept.stored _ pindex found linked).1
    | head step rest ih =>
      rename_i here hashPrev
      obtain ⟨_, present, pprev⟩ := step
      rw [store_cores found] at present
      obtain rfl := some.inj present
      obtain ⟨prev, foundPrev, linkedPrev⟩ := (kept.stored here pindex found linked).2 _ pprev
      exact ih foundPrev linkedPrev
  · intro filled
    -- the induction is on the height
    have nonneg : 0 ≤ pindex.nHeight := kept.grounded hash _ (store_cores found)
    obtain ⟨height, level⟩ := Int.eq_ofNat_of_zero_le nonneg
    induction height using Nat.strong_induction_on generalizing hash pindex with
    | _ height ih =>
      have stored := filled hash _ .refl (store_cores found)
      have parent : node.ParentLinked pindex := by
        intro hashPrev pprev
        obtain ⟨core, there, above⟩ :=
          kept.sound.parent hash _ (store_cores found) hashPrev pprev
        obtain ⟨prev, present, rfl⟩ := entry_of_core there
        have higher : pindex.nHeight = prev.nHeight + 1 := above
        have nonnegPrev : 0 ≤ prev.nHeight := kept.grounded hashPrev _ there
        have filledPrev : node.store.Filled hashPrev := by
          intro ancestor core descends
          exact filled ancestor core (.head ⟨pindex.core, store_cores found, pprev⟩ descends)
        have linked := ih prev.nHeight.toNat (by omega) present filledPrev nonnegPrev (by omega)
        exact ⟨prev, present, linked⟩
      exact (kept.joined hash pindex found stored parent).resolve_right not_mem_nil

theorem Node.checkedIndex_iff : node.CheckedIndex best ↔ node.IndexKept best := by
  constructor
  · intro checked
    have parentOf : ∀ hash pindex, node.mapBlockIndex hash = some pindex → ∀ hashPrev,
        pindex.pprev = some hashPrev → ∃ prev, node.mapBlockIndex hashPrev = some prev := by
      intro hash pindex found hashPrev pprev
      obtain ⟨core, there, _⟩ :=
        checked.sound.parent hash _ (store_cores found) hashPrev pprev
      obtain ⟨prev, present, _⟩ := entry_of_core there
      exact ⟨prev, present⟩
    refine ⟨⟨⟨checked.sound, checked.grounded, checked.treed, checked.filled, ?stored, ?joined,
      fun hash member => absurd member not_mem_nil, nodup_nil, ?unlinked,
      checked.once⟩, checked.work⟩, checked.path, checked.failedChild, ⟨checked.bounded, ?linked, ?noWorse,
      checked.complete⟩⟩
    case stored =>
        intro hash pindex found linked
        have filled := (checked.linked hash pindex found).mp linked
        refine ⟨filled hash _ .refl (store_cores found), fun hashPrev pprev => ?_⟩
        obtain ⟨prev, present⟩ := parentOf hash pindex found hashPrev pprev
        refine ⟨prev, present, (checked.linked hashPrev prev present).mpr ?_⟩
        intro ancestor core descends
        exact filled ancestor core (.head ⟨pindex.core, store_cores found, pprev⟩ descends)
    case joined =>
        intro hash pindex found stored parent
        left
        rw [checked.linked hash pindex found]
        intro ancestor core descends there
        rcases Relation.ReflTransGen.cases_head descends with rfl | ⟨hashPrev, step, rest⟩
        · rw [store_cores found] at there
          exact some.inj there ▸ stored
        · obtain ⟨_, present, pprev⟩ := step
          rw [store_cores found] at present
          obtain rfl := some.inj present
          obtain ⟨prev, foundPrev, linked⟩ := parent hashPrev pprev
          exact (checked.linked hashPrev prev foundPrev).mp linked ancestor core rest there
    case unlinked =>
        intro hashPrev hash
        rw [checked.unlinked]
        constructor
        · intro ⟨pindex, prev, found, stored, pprev, present, uncounted⟩
          refine ⟨pindex, found, stored, pprev, fun ⟨entry, there, counted⟩ => ?_⟩
          rw [present] at there
          exact counted (some.inj there ▸ uncounted)
        · intro ⟨pindex, found, stored, pprev, missing⟩
          obtain ⟨prev, present⟩ := parentOf hash pindex found hashPrev pprev
          refine ⟨pindex, prev, found, stored, pprev, present, ?_⟩
          by_contra counted
          exact missing ⟨prev, present, counted⟩
    case linked =>
        intro hash member
        obtain ⟨pindex, found, linked, _⟩ := checked.noWorse hash member
        exact ⟨pindex, found, linked⟩
    case noWorse =>
        intro hash member pindex found
        obtain ⟨entry, there, _, better⟩ := checked.noWorse hash member
        rw [found] at there
        obtain rfl := some.inj there
        rw [tipRank_le_iff]
        exact fun tip here => CBlockIndex.not_worse_iff.mp (better tip here)
  · intro kept
    refine ⟨kept.links.sound, kept.links.grounded, kept.path, kept.links.work, kept.links.treed,
      kept.links.filled, fun hash pindex => kept.links.linked_iff_filled, kept.spoiled,
      kept.candidates.bounded, ?noWorse, kept.candidates.complete, ?unlinked, kept.links.once⟩
    case noWorse =>
        intro hash member
        obtain ⟨pindex, found, linked⟩ := kept.candidates.linked hash member
        refine ⟨pindex, found, linked, fun tip here => ?_⟩
        rw [CBlockIndex.not_worse_iff]
        exact tipRank_le_iff.mp (kept.candidates.noWorse hash member pindex found) tip here
    case unlinked =>
        intro hashPrev hash
        rw [kept.links.unlinked]
        constructor
        · intro ⟨pindex, found, stored, pprev, missing⟩
          obtain ⟨core, there, _⟩ :=
            kept.links.sound.parent hash _ (store_cores found) hashPrev pprev
          obtain ⟨prev, present, _⟩ := entry_of_core there
          refine ⟨pindex, prev, found, stored, pprev, present, ?_⟩
          by_contra counted
          exact missing ⟨prev, present, counted⟩
        · intro ⟨pindex, prev, found, stored, pprev, present, uncounted⟩
          refine ⟨pindex, found, stored, pprev, fun ⟨entry, there, counted⟩ => ?_⟩
          rw [present] at there
          exact counted (some.inj there ▸ uncounted)

end

/-! ### Runs -/

/-- The operations on the block index. The argument `known` of the loops over `mapBlockIndex` is
the list of its keys. -/
inductive TreeCall
  | addToBlockIndex (block : CBlock)
  | receivedBlockTransactions (block : CBlock)
  | findMostWorkChain
  | activateBestChainStep (env : ActivateEnv) (hash : Uint256) (pblock : Option CBlock)
  | invalidBlockFound (hash : Uint256) (state : CValidationState)
  | invalidateBlock (flushed : Uint256 → Bool) (known : List Uint256) (hash : Uint256)
  | reconsiderBlock (known : List Uint256) (hash : Uint256)

section

variable [ChainParams] [Crypto]

namespace TreeCall

def run (node : Node) : TreeCall → Node
  | addToBlockIndex block => node.addToBlockIndex block
  | receivedBlockTransactions block =>
    match node.mapBlockIndex block.getHash with
    | none => node
    | some pindex => node.storeBlock block pindex
  | findMostWorkChain => node.findMostWorkChain.1
  | activateBestChainStep env hash pblock =>
    match node.mapBlockIndex hash with
    | none => node
    | some pindex => (Agouti.activateBestChainStep env node pindex pblock).1
  | invalidBlockFound hash state => node.invalidBlockFound hash state
  | invalidateBlock flushed known hash => (node.invalidateBlock flushed known hash).1
  | reconsiderBlock known hash => node.reconsiderBlock known hash

/-- The best rank of the tip after a call. A completed `InvalidateBlock` starts again. -/
def best (node : Node) (before : WithBot Rank) (call : TreeCall) : WithBot Rank :=
  match call with
  | invalidateBlock flushed known hash =>
    if (node.invalidateBlock flushed known hash).2 then (call.run node).tipRank
    else before ⊔ (call.run node).tipRank
  | _ => before ⊔ (call.run node).tipRank

/-- The keys of `mapBlockIndex`. -/
def Lists (node : Node) (known : List Uint256) : Prop :=
  ∀ hash, hash ∈ known ↔ (node.mapBlockIndex hash).isSome = true

/-- What the callers see to: a header adds to the work of its parent; a body arrives once, with a
transaction, and neither its block nor the parent is failed; the chain moves to a linked block; a
block is reconsidered below which no block is failed, and the tip is not failed. -/
def Ready (node : Node) : TreeCall → Prop
  | addToBlockIndex block => ∀ prev, node.mapBlockIndex block.hashPrevBlock = some prev →
      prev.nChainWork < (node.newIndex block).nChainWork
  | receivedBlockTransactions block => block.vtx ≠ [] ∧ ∀ pindex,
      node.mapBlockIndex block.getHash = some pindex → pindex.nStatus.haveData = false ∧
        pindex.nStatus.failed = false ∧ ∀ prev, node.mapBlockIndex.prev pindex = some prev →
          prev.nStatus.failed = false
  | findMostWorkChain => True
  | activateBestChainStep _ hash _ => ∀ pindex, node.mapBlockIndex hash = some pindex →
      pindex.nChainTx ≠ 0
  | invalidBlockFound _ _ => True
  | invalidateBlock _ known _ => Lists node known
  | reconsiderBlock known hash => Lists node known ∧
      (∀ ancestor, node.store.Descends hash ancestor → ancestor ≠ hash →
        node.marked ancestor = false ∧ node.spoiled ancestor = false) ∧
      ∀ tip, node.tip = some tip → tip.nStatus.failed = false

end TreeCall

variable {node : Node} {best : WithBot Rank}

/-- One call on the block tree. -/
theorem Node.IndexKept.call (kept : node.IndexKept best) (call : TreeCall)
    (ready : call.Ready node) : (call.run node).IndexKept (call.best node best) := by
  cases call with
  | addToBlockIndex block => exact (kept.addToBlockIndex ready).raise le_sup_left
  | receivedBlockTransactions block =>
    refine IndexKept.raise ?_ le_sup_left
    show (match node.mapBlockIndex block.getHash with
      | none => node
      | some pindex => node.storeBlock block pindex).IndexKept best
    cases found : node.mapBlockIndex block.getHash with
    | none => exact kept
    | some pindex =>
      obtain ⟨header, intact, parent⟩ := ready.2 pindex found
      exact kept.storeBlock found header intact parent ready.1
  | findMostWorkChain => exact (kept.findMostWork _).raise le_sup_left
  | activateBestChainStep env hash pblock =>
    show (TreeCall.run node (.activateBestChainStep env hash pblock)).IndexKept
      (best ⊔ (TreeCall.run node (.activateBestChainStep env hash pblock)).tipRank)
    cases found : node.mapBlockIndex hash with
    | none =>
      have same : TreeCall.run node (.activateBestChainStep env hash pblock) = node := by
        simp only [TreeCall.run, found]
      rw [same]
      exact kept.raise le_sup_left
    | some pindex =>
      have same : TreeCall.run node (.activateBestChainStep env hash pblock) =
          (Agouti.activateBestChainStep env node pindex pblock).1 := by
        simp only [TreeCall.run, found]
      have here := (holds_of_sound kept.links.sound found).2.2
      rw [same]
      exact activateBestChainStep_kept kept (here.symm ▸ found) (ready pindex found) env pblock
  | invalidBlockFound hash state => exact (kept.invalidBlockFound hash state).raise le_sup_left
  | invalidateBlock flushed known hash =>
    have same := invalidateBlock_kept kept flushed (fun other => (ready other).mpr) hash
      (show node.invalidateBlock flushed known hash =
        ((node.invalidateBlock flushed known hash).1,
          (node.invalidateBlock flushed known hash).2) from rfl)
    unfold TreeCall.best
    simp only
    split
    · rename_i completed
      rw [if_pos completed] at same
      exact same
    · rename_i stopped
      rw [if_neg stopped] at same
      exact same.raise le_sup_left
  | reconsiderBlock known hash =>
    obtain ⟨lists, ancestors, intactTip⟩ := ready
    exact (reconsiderBlock_kept kept (fun other => (lists other).mpr) ancestors
      intactTip).raise le_sup_left

/-- The invariants at their strictest: every block below a failed one is a failed child, and the
candidates are complete from the tip on. -/
structure Node.AssertedIndex (node : Node) : Prop extends node.CheckedIndex node.tipRank where
  failedExactly : ∀ hash, node.spoiled hash = true ↔ ∃ ancestor, ancestor ≠ hash ∧
    node.store.Descends hash ancestor ∧ node.marked ancestor = true

end

section

local instance LateBranch.treeParams : ChainParams := regTestParams 0
local instance LateBranch.treeCrypto : Crypto := StakedTip.crypto

namespace LateBranch

theorem genesis_entry {hash : Uint256} {pindex : CBlockIndex}
    (found : start.mapBlockIndex hash = some pindex) :
    hash = 0 ∧ pindex = { powIndex 0 with nChainTx := 1, nChainWork := 2 } := by
  obtain ⟨here, same⟩ := ite_none_right_eq_some.mp found
  exact ⟨here, (some.inj same).symm⟩

theorem indexKept : start.IndexKept start.tipRank := by
  have sound : start.store.Sound := store_start ▸ VotedPayee.sound
  have rank : start.tipRank = (({ powIndex 0 with
      nChainTx := 1, nChainWork := 2 } : CBlockIndex).rank : WithBot Rank) := rfl
  have bottom : ∀ pindex : CBlockIndex, pindex.pprev = none → start.ParentLinked pindex := by
    intro pindex root hashPrev pprev
    rw [root] at pprev
    contradiction
  refine ⟨⟨⟨sound, grounded, ?treed, ?filled, ?stored, ?joined,
      fun hash member => absurd member not_mem_nil, nodup_nil, ?unlinked,
      nodup_nil⟩, ?work⟩, store_start ▸ VotedPayee.path, ?spoiled, le_rfl, ?linked, ?noWorse,
      ?complete⟩
  case work =>
      intro hash pindex found prev below
      obtain ⟨rfl, rfl⟩ := genesis_entry found
      contradiction
  case treed =>
      intro hash pindex found
      obtain ⟨rfl, rfl⟩ := genesis_entry found
      decide
  case filled =>
      intro hash pindex found _
      obtain ⟨rfl, rfl⟩ := genesis_entry found
      exact ⟨by decide, by decide⟩
  case stored =>
      intro hash pindex found _
      obtain ⟨rfl, rfl⟩ := genesis_entry found
      exact ⟨rfl, bottom _ rfl⟩
  case joined =>
      intro hash pindex found _ _
      obtain ⟨rfl, rfl⟩ := genesis_entry found
      exact .inl (by decide)
  case unlinked =>
      intro hashPrev hash
      refine iff_of_false not_mem_nil ?_
      intro ⟨pindex, found, _, pprev, _⟩
      obtain ⟨rfl, rfl⟩ := genesis_entry found
      contradiction
  case spoiled =>
      intro hash spoiled
      cases found : start.mapBlockIndex hash with
      | none => simp [Node.spoiled, found] at spoiled
      | some pindex =>
        rw [spoiled_entry found] at spoiled
        obtain ⟨rfl, rfl⟩ := genesis_entry found
        contradiction
  case linked =>
      intro hash member
      obtain rfl := mem_singleton.mp member
      exact ⟨_, rfl, by decide⟩
  case noWorse =>
      intro hash _ pindex found
      obtain ⟨rfl, rfl⟩ := genesis_entry found
      exact rank.le
  case complete =>
      intro hash pindex found _ _ _
      obtain ⟨rfl, rfl⟩ := genesis_entry found
      exact mem_singleton.mpr rfl

theorem asserted : start.AssertedIndex := by
  refine ⟨checkedIndex_iff.mpr indexKept, fun hash => ?_⟩
  have none : ∀ hash, start.spoiled hash = false ∧ start.marked hash = false := by
    intro hash
    cases found : start.mapBlockIndex hash with
    | none => simp [Node.spoiled, Node.marked, found]
    | some pindex =>
      rw [spoiled_entry found, Node.marked_entry found]
      obtain ⟨rfl, rfl⟩ := genesis_entry found
      exact ⟨rfl, rfl⟩
  refine iff_of_false (by simp [(none hash).1]) ?_
  rintro ⟨ancestor, _, _, marked⟩
  rw [(none ancestor).2] at marked
  exact Bool.noConfusion marked

def received (block : CBlock) : List TreeCall :=
  [.addToBlockIndex block, .receivedBlockTransactions block]

/-- The first block of the side branch cannot be flushed. -/
def stuckEnv : ActivateEnv := { env with flushed := fun hash => hash != 11 }

/-- Two blocks are connected, a longer branch arrives, and the step to it stops at the fork. -/
def stuckCalls : List TreeCall :=
  received (powBlock 1) ++ [.activateBestChainStep env 1 none] ++
    received (powBlock 2) ++ [.activateBestChainStep env 2 none] ++
    received (sideBlock 1) ++ received (sideBlock 2) ++ received (sideBlock 3) ++
    [.activateBestChainStep stuckEnv 13 none]

/-- A block below which the first one turns out to be invalid. -/
def invalidCalls : List TreeCall :=
  received (powBlock 1) ++ received (powBlock 2) ++
    [.invalidBlockFound 1 {}]

def sibling : CBlock := { powBlock 2 with nNonce := 20 }

def stuck : Node := stuckCalls.foldl (fun node call => call.run node) start

def invalid : Node := invalidCalls.foldl (fun node call => call.run node) start

end LateBranch

namespace LateBranch

def headed : Node := start.addToBlockIndex (powBlock 1)

end LateBranch

open LateBranch

end

end Agouti
