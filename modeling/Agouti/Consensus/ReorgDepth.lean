import Agouti.Consensus.FailureMarks
import Agouti.Validation.Reorganize

/-! # The depth of reorganisations

`ContextualCheckBlockHeader` refuses a header that is too far below the tip, by its own
height, and `ActivateBestChain` later moves to the branch with most work without another
look at its fork. A side branch that is extended while the active chain grows can
therefore replace more blocks than `-maxreorg`.

When the branch is shallow at each point where the node turns to another block, and where this
happens between the rounds of a call also below the tip that the call began with, no call of
`ActivateBestChain` disconnects more blocks of its active chain than the limit, and the blocks that
the rules for version 5 place below it stay (`depthKept_of_depthRun`).
-/

namespace Agouti

open Verdict List Option

section

variable [ChainParams]

/-- `GetArg("-maxreorg", Params().MaxReorganizationDepth())`. -/
def reorgLimit (maxreorg : Option Int) : Int := maxreorg.getD nMaxReorganizationDepth

/-- `AppInit2` refuses a limit above `KernelModifierOffset`. -/
def Admitted (maxreorg : Option Int) : Prop := reorgLimit maxreorg ≤ nKernelModifierOffset

theorem maxReorgDepth_eq {maxreorg : Option Int} (admitted : Admitted maxreorg)
    {data : LocalData} (set : data.maxreorg = maxreorg) (nHeight : Int) :
    maxReorgDepth data nHeight = reorgLimit maxreorg := by
  have least : min (reorgLimit maxreorg) nKernelModifierOffset = reorgLimit maxreorg :=
    min_eq_left admitted
  simp only [maxReorgDepth, set]
  split
  · exact least
  · rfl

end

namespace Node

/-- The block that `FindMostWorkChain` picks. -/
def aim (node : Node) : Option Uint256 := node.findMostWorkChain.2.map CBlockIndex.getBlockHash

/-- Every block of the active chain of `first` that is not below the block is less than `limit` deep
there. -/
def Shallow (limit : Int) (node first : Node) (tipHash : Uint256) : Prop :=
  ∀ (i : Nat) hash, first.vChain[i]? = some hash → ¬ node.store.Descends tipHash hash →
    first.height - i < limit

theorem Shallow.grow {limit : Int} {first before after : Node} {tipHash : Uint256}
    (shallow : before.Shallow limit first tipHash)
    (grows : ∀ hash ancestor, before.store.Descends hash ancestor →
      after.store.Descends hash ancestor) : after.Shallow limit first tipHash :=
  fun i hash active apart => shallow i hash active fun descends => apart (grows _ _ descends)

/-- Only the active chain counts. -/
theorem Shallow.congr {limit : Int} {first second node : Node} {tipHash : Uint256}
    (shallow : node.Shallow limit first tipHash) (vChain : second.vChain = first.vChain) :
    node.Shallow limit second tipHash := by
  intro i hash active apart
  have height : second.height = first.height := by rw [Node.height, Node.height, vChain]
  rw [height]
  exact shallow i hash (vChain ▸ active) apart

end Node

/-! ### Rounds of ActivateBestChain -/

section

variable [ChainParams] [Crypto]

/-- The node between the two loops of the round: the blocks above the fork are
disconnected. -/
def atFork (env : ActivateEnv) (node : Node) : Node :=
  match node.findMostWorkChain with
  | (node, none) => node
  | (node, some pindexMostWork) =>
    if node.tip = some pindexMostWork then node
    else
      (disconnectToFork env ((node.forkOf pindexMostWork).map CBlockIndex.getBlockHash)
        node.vChain.length node).1

/-- What moves the tree or the active chain: a header or a block arrives, or
`ActivateBestChain` makes a round. -/
inductive DepthCall
  | acceptBlockHeader (data : LocalData) (block : CBlock)
  | acceptBlock (data : LocalData) (block : CBlock) (written : Bool)
  | activateRound (env : ActivateEnv) (pblock : Option CBlock)

namespace DepthCall

variable [Legacy]

def run : DepthCall → Node → Node
  | acceptBlockHeader data block, node => (Agouti.acceptBlockHeader data node block).1
  | acceptBlock data block written, node => (Agouti.acceptBlock data node block written).1
  | activateRound env pblock, node => (Agouti.activateRound env pblock node).1

/-- The call sees this setting of `-maxreorg`. -/
def Set (maxreorg : Option Int) : DepthCall → Prop
  | acceptBlockHeader data _ => data.maxreorg = maxreorg
  | acceptBlock data _ _ => data.maxreorg = maxreorg
  | activateRound env _ => ∀ hash, (env.data hash).maxreorg = maxreorg

/-- A block arrives together with its header, on top of an active block: the depth check
is about the fork itself. -/
def Direct (node : Node) (tipHash : Uint256) : DepthCall → Prop
  | acceptBlock _ block _ => block.getHash = tipHash ∧ tipHash ≠ ChainParams.hashGenesisBlock ∧
      node.mapBlockIndex tipHash = none ∧ block.hashPrevBlock ∈ node.vChain
  | _ => False

/-- The node at which the running call of `ActivateBestChain` began, behind the call. -/
def begun (first : Option Node) (node : Node) : DepthCall → Option Node
  | activateRound env pblock =>
    if (Agouti.activateRound env pblock node).2 = none then first else none
  | _ => first

omit [Legacy] in
theorem first_of_begun {first : Option Node} {node begun : Node} {call : DepthCall}
    (goes : call.begun first node = some begun) : first = some begun := by
  cases call with
  | activateRound env pblock =>
    simp only [DepthCall.begun] at goes
    split at goes
    · exact goes
    · contradiction
  | _ => exact goes

/-- When the node turns to another block, that block is shallow, and so it is where the running call
of `ActivateBestChain` began. -/
def Turns (limit : Int) (first : Option Node) (node : Node) (call : DepthCall) : Prop :=
  ∀ tipHash, (call.run node).aim = some tipHash →
    node.aim = some tipHash ∨
      (call.Direct node tipHash ∨ (call.run node).Shallow limit (call.run node) tipHash) ∧
        ∀ begun, call.begun first node = some begun → (call.run node).Shallow limit begun tipHash

end DepthCall

/-- A run of the node with one setting of `-maxreorg`, and the node at which the running call of
`ActivateBestChain` began. Headers and blocks may arrive between its rounds. -/
inductive DepthRun [Legacy] (maxreorg : Option Int) (start : Node) : Option Node → Node → Prop
  | start : DepthRun maxreorg start none start
  | begins {first : Option Node} {node : Node} (run : DepthRun maxreorg start first node) :
      DepthRun maxreorg start (some node) node
  | call {first : Option Node} {node : Node} (call : DepthCall)
      (run : DepthRun maxreorg start first node) (set : call.Set maxreorg)
      (turns : call.Turns (reorgLimit maxreorg) first node) :
      DepthRun maxreorg start (call.begun first node) (call.run node)

/-- The node between two rounds of a call of `ActivateBestChain`. -/
inductive Rounds (env : ActivateEnv) (pblock : Option CBlock) (first : Node) : Node → Prop
  | begins : Rounds env pblock first first
  | goes {node : Node} (rounds : Rounds env pblock first node)
      (goes : (activateRound env pblock node).2 = none) :
      Rounds env pblock first (activateRound env pblock node).1

theorem Rounds.back {env : ActivateEnv} {pblock : Option CBlock} {first node : Node}
    (goes : (activateRound env pblock first).2 = none)
    (rounds : Rounds env pblock (activateRound env pblock first).1 node) :
    Rounds env pblock first node := by
  induction rounds with
  | begins => exact .goes .begins goes
  | goes _ goes ih => exact .goes ih goes

section

variable {node : Node} {env : ActivateEnv} {pblock : Option CBlock}

/-- What a round does to the active chain: it drops blocks above the fork of the block it
aims at, and appends blocks of the branch when it has reached the fork. -/
structure RoundMoves (node middle after : Node) (tipHash : Uint256) : Prop where
  store : after.store = node.store
  forks : ∃ kept path left, node.Forks tipHash kept path ∧ kept ≤ left ∧
    middle.vChain = node.vChain.take left ∧
    (after.vChain = node.vChain.take left ∨
      left = kept ∧ ∃ count, after.vChain = node.vChain.take kept ++ path.take count)

variable {tipHash : Uint256}

omit [ChainParams] [Crypto] in
theorem Node.Forks.congr {before after : Node} {kept : Nat} {path : List Uint256}
    (forks : before.Forks tipHash kept path) (store : after.store = before.store)
    (vChain : after.vChain = before.vChain) :
    after.Forks tipHash kept path := by
  obtain ⟨bound, chain, last, leaves⟩ := forks
  rw [← vChain] at bound chain last leaves
  rw [← store] at chain
  exact ⟨bound, chain, last, leaves⟩

theorem activateBestChainStep_moves (sound : node.store.Sound) (grounded : node.store.Grounded)
    (path : node.store.Path node.vChain) {pindexMostWork : CBlockIndex}
    (best : node.bestCandidate = some pindexMostWork)
    (usable : ∀ entry ∈ node.branchOf pindexMostWork, entry.unusable = false) :
    RoundMoves node
      (disconnectToFork env ((node.forkOf pindexMostWork).map CBlockIndex.getBlockHash)
        node.vChain.length node).1
      (activateBestChainStep env node pindexMostWork pblock).1 pindexMostWork.getBlockHash := by
  have found := Node.bestCandidate_entry sound best
  obtain ⟨kept, forks, fork⟩ := Node.branch_forks sound grounded path found
    (Nat.lt_succ_self pindexMostWork.nHeight.toNat) fun entry member => by
      have usable := usable entry member
      simp only [CBlockIndex.unusable, Bool.or_eq_false_iff, Bool.not_eq_false'] at usable
      exact usable.2
  have dropped : disconnectToFork env ((node.forkOf pindexMostWork).map CBlockIndex.getBlockHash)
      node.vChain.length node =
        ((disconnectToFork env ((node.forkOf pindexMostWork).map CBlockIndex.getBlockHash)
            node.vChain.length node).1,
          (disconnectToFork env ((node.forkOf pindexMostWork).map CBlockIndex.getBlockHash)
            node.vChain.length node).2) := rfl
  obtain ⟨store, left, above, _, chain, reached⟩ :=
    disconnectToFork_drops path forks.bound fork le_rfl dropped
  unfold activateBestChainStep
  simp only
  split
  · rename_i middle stopped
    rw [stopped] at store chain ⊢
    exact ⟨store, kept, _, left, forks, above, chain, .inl chain⟩
  · rename_i middle arrived
    rw [arrived] at store chain reached ⊢
    obtain rfl : left = kept := reached rfl
    have here : middle.store = node.store := store
    have there : middle.vChain = node.vChain.take left := chain
    have connected : connectBranch env pindexMostWork pblock node.tip
        (node.branchOf pindexMostWork).reverse middle =
          ((connectBranch env pindexMostWork pblock node.tip
              (node.branchOf pindexMostWork).reverse middle).1,
            (connectBranch env pindexMostWork pblock node.tip
              (node.branchOf pindexMostWork).reverse middle).2) := rfl
    have whole : middle.store.Path (middle.vChain ++
        (node.branchOf pindexMostWork).reverse.map CBlockIndex.getBlockHash) := by
      rw [here, there]
      exact forks.chain
    obtain ⟨storeAfter, count, appended⟩ := connectBranch_extends (here ▸ sound) whole connected
    refine ⟨storeAfter.trans here, left, _, left, forks, le_rfl, chain, .inr ⟨rfl, count, ?_⟩⟩
    rw [appended, there]
    rfl

theorem activateRound_step {picked : Node} {pindexMostWork : CBlockIndex}
    (chosen : node.findMostWorkChain = (picked, some pindexMostWork))
    (apart : picked.tip ≠ some pindexMostWork) : (activateRound env pblock node).1 =
      (activateBestChainStep env picked pindexMostWork
        (pblock.filter fun block => block.getHash == pindexMostWork.getBlockHash)).1 := by
  simp only [activateRound, chosen, if_neg apart]
  split
  · rename_i stopped
    rw [stopped]
  · rename_i continued
    rw [continued]
    split <;> rfl

theorem activateRound_rests (env : ActivateEnv) (pblock : Option CBlock)
    (sound : node.store.Sound) (rests : node.aim = none) :
    (activateRound env pblock node).1.store = node.store ∧
      (activateRound env pblock node).1.vChain = node.vChain ∧
      (atFork env node).vChain = node.vChain := by
  cases chosen : node.findMostWorkChain with
  | mk picked pindex =>
    obtain ⟨same, _⟩ := Node.findMostWork_picks sound chosen
    simp only [Node.aim, chosen, map_eq_none_iff] at rests
    subst rests
    simp only [activateRound, atFork, chosen]
    exact ⟨same.store, same.vChain, same.vChain⟩

theorem activateRound_moves (env : ActivateEnv) (pblock : Option CBlock) (sound : node.store.Sound)
    (grounded : node.store.Grounded) (path : node.store.Path node.vChain)
    (aims : node.aim = some tipHash) :
    RoundMoves node (atFork env node) (activateRound env pblock node).1 tipHash := by
  cases chosen : node.findMostWorkChain with
  | mk picked pindex =>
    obtain ⟨same, picks⟩ := Node.findMostWork_picks sound chosen
    simp only [Node.aim, chosen, map_eq_some_iff] at aims
    obtain ⟨pindexMostWork, rfl, rfl⟩ := aims
    obtain ⟨best, usable⟩ := picks pindexMostWork rfl
    have soundPicked : picked.store.Sound := same.store ▸ sound
    have pathPicked : picked.store.Path picked.vChain := by
      rw [same.store, same.vChain]
      exact path
    have moves : ∀ given, RoundMoves picked
        (disconnectToFork env ((picked.forkOf pindexMostWork).map CBlockIndex.getBlockHash)
          picked.vChain.length picked).1
        (activateBestChainStep env picked pindexMostWork given).1
        pindexMostWork.getBlockHash := fun given =>
      activateBestChainStep_moves soundPicked (same.store ▸ grounded) pathPicked best usable
    by_cases reached : picked.tip = some pindexMostWork
    · simp only [activateRound, atFork, chosen, if_pos reached]
      obtain ⟨kept, above, _, forks, _⟩ := (moves none).forks
      have whole : picked.vChain = node.vChain.take node.vChain.length :=
        same.vChain.trans (take_length).symm
      exact ⟨same.store, kept, above, node.vChain.length,
        forks.congr same.store.symm same.vChain.symm, same.vChain ▸ forks.bound, whole, .inl whole⟩
    · rw [activateRound_step chosen reached]
      simp only [atFork, chosen, if_neg reached]
      obtain ⟨store, kept, above, left, forks, order, middle, after⟩ := moves
        (pblock.filter fun block => block.getHash == pindexMostWork.getBlockHash)
      have shared : ∀ count, picked.vChain.take count = node.vChain.take count := fun count =>
        congrArg (List.take count) same.vChain
      refine ⟨store.trans same.store, kept, above, left,
        forks.congr same.store.symm same.vChain.symm, order, middle.trans (shared left), ?_⟩
      rw [← shared left, ← shared kept]
      exact after

omit [ChainParams] [Crypto] in
/-- A round leaves what is below the block that it aims at. -/
theorem RoundMoves.stays {middle after : Node} (moves : RoundMoves node middle after tipHash)
    (path : node.store.Path node.vChain) {i : Nat} {hash : Uint256}
    (active : node.vChain[i]? = some hash) (below : node.store.Descends tipHash hash) :
    middle.vChain[i]? = some hash ∧ after.vChain[i]? = some hash := by
  obtain ⟨kept, above, left, forks, order, dropped, moved⟩ := moves.forks
  have inside : i < kept := (forks.descends_iff path active).mp below
  have length : (node.vChain.take kept).length = kept := by
    rw [length_take, Nat.min_eq_left forks.bound]
  refine ⟨by rw [dropped, List.getElem?_take_of_lt (by omega), active], ?_⟩
  rcases moved with chain | ⟨_, count, chain⟩
  · rw [chain, List.getElem?_take_of_lt (by omega), active]
  · rw [chain, List.getElem?_append_left (by omega), List.getElem?_take_of_lt inside, active]

omit [ChainParams] [Crypto] in
theorem RoundMoves.kept_of_shallow {limit : Int} {middle after : Node}
    (moves : RoundMoves node middle after tipHash) (path : node.store.Path node.vChain)
    (shallow : node.Shallow limit node tipHash) :
    after.store.Path after.vChain ∧ after.Shallow limit after tipHash := by
  obtain ⟨kept, above, left, forks, order, dropped, moved⟩ := moves.forks
  have length : (node.vChain.take kept).length = kept := by
    rw [length_take, Nat.min_eq_left forks.bound]
  refine ⟨?_, fun i hash active apart => ?_⟩
  · rw [moves.store]
    rcases moved with chain | ⟨_, count, chain⟩
    · rw [chain]
      exact path.take left
    · have whole := forks.chain.take (kept + count)
      rw [chain]
      rwa [take_append, length, take_take, Nat.min_eq_right (by omega),
        Nat.add_sub_cancel_left] at whole
  · rw [moves.store] at apart
    rcases moved with chain | ⟨_, count, chain⟩
    · -- the blocks that are left were less deep before
      have inside : i < left := by
        have bound := (List.getElem?_eq_some_iff.mp active).1
        rw [chain, length_take] at bound
        omega
      rw [chain, List.getElem?_take_of_lt inside] at active
      have depth := shallow i hash active apart
      have shorter : after.vChain.length ≤ node.vChain.length := by
        rw [chain, length_take]
        omega
      rw [Node.height] at depth ⊢
      omega
    · -- every block that was appended is below the block
      refine absurd ((forks.chain.descends_iff forks.last).mpr ?_) apart
      have member := mem_of_getElem? active
      rw [chain] at member
      rcases mem_append.mp member with low | high
      · exact mem_append_left _ low
      · exact mem_append_right _ (mem_of_mem_take high)

end

/-! ### Arrivals -/

section

variable {node : Node} {data : LocalData} {block : CBlock}

omit [ChainParams] in
theorem Arrival.descends {before after : BlockStore} (arrival : Arrival block before after)
    {hash ancestor : Uint256} (descends : before.Descends hash ancestor) :
    after.Descends hash ancestor := by
  refine Relation.ReflTransGen.mono ?_ _ _ descends
  rintro child parent ⟨core, found, pprev⟩
  obtain ⟨later, present, _, same, _⟩ := arrival.keeps found
  exact ⟨later, present, same.trans pprev⟩

omit [ChainParams] in
theorem Node.aim_known (sound : node.store.Sound) {tipHash : Uint256}
    (aims : node.aim = some tipHash) : (node.mapBlockIndex tipHash).isSome = true := by
  cases chosen : node.findMostWorkChain with
  | mk picked pindex =>
    obtain ⟨same, picks⟩ := Node.findMostWork_picks sound chosen
    simp only [Node.aim, chosen, map_eq_some_iff] at aims
    obtain ⟨pindexMostWork, rfl, rfl⟩ := aims
    have soundPicked : picked.store.Sound := same.store ▸ sound
    have entry := same.entries pindexMostWork.getBlockHash
    rw [Node.bestCandidate_entry soundPicked (picks pindexMostWork rfl).1] at entry
    cases found : node.mapBlockIndex pindexMostWork.getBlockHash with
    | none => simp [found] at entry
    | some pindex => rfl

theorem acceptBlock_direct [Legacy] {written : Bool} {prev : CBlockIndex}
    (notGenesis : block.getHash ≠ ChainParams.hashGenesisBlock)
    (absent : node.mapBlockIndex block.getHash = none)
    (parent : node.mapBlockIndex block.hashPrevBlock = some prev)
    (present : ((acceptBlock data node block written).1.mapBlockIndex block.getHash).isSome = true) :
    node.height - (prev.nHeight + 1) < maxReorgDepth data (prev.nHeight + 1) ∧
      (acceptBlock data node block written).1.store.Descends block.getHash block.hashPrevBlock := by
  unfold acceptBlock at present ⊢
  split at present
  · simp [absent] at present
  · rename_i pindexPrev checked
    split at present
    · simp [absent] at present
    · rename_i worked work
      obtain ⟨same, index⟩ := Node.acceptWork_same work
      have absentWorked : worked.mapBlockIndex block.getHash = none := by rw [index, absent]
      unfold acceptBlockHeader at present ⊢
      simp only [absentWorked] at present ⊢
      cases header : checkNewHeader data worked block with
      | error state => simp [header, absentWorked] at present
      | ok done =>
        simp only [checkNewHeader, bind_eq_ok] at header
        obtain ⟨_, _, pindexPrev, parentWorked, contextual⟩ := header
        have known : pindexPrev = some prev := by
          unfold checkParent at parentWorked
          rw [if_neg notGenesis] at parentWorked
          simp only [bind_eq_ok, demand_eq_ok, index, parent, Except.ok.injEq] at parentWorked
          obtain ⟨_, same, _, _, rfl⟩ := parentWorked
          exact congrArg some (some.inj same).symm
        subst known
        obtain ⟨_, _, _, added⟩ := Node.addToBlockIndex_arrival absentWorked
        have core := Node.newIndex_core worked block
        rw [index, parent] at core
        refine ⟨?_, ?_⟩
        · have height : worked.height = node.height := by
            rw [Node.height, Node.height, same.vChain]
          unfold contextualCheckBlockHeader at contextual
          simp only [if_neg (show block.toCBlockHeader.getHash ≠ _ from notGenesis), bind_eq_ok,
            demand_eq_ok, reject_eq_ok, height, decide_eq_false_iff_not, not_le] at contextual
          obtain ⟨parent_, equal, _, depth, _⟩ := contextual
          obtain rfl := some.inj equal
          exact depth
        · have arrival := (acceptBody_arrival data added
            (congrArg IndexCore.phashBlock core) written).1
          obtain ⟨later, present, _, pprev, _⟩ := arrival.keeps (Node.store_cores added)
          exact .single ⟨later, present, pprev.trans (congrArg IndexCore.pprev core)⟩

end

/-! ### Runs keep to the limit -/

/-- What runs preserve. -/
structure StaysShallow (limit : Int) (node : Node) : Prop where
  sound : node.store.Sound
  grounded : node.store.Grounded
  path : node.store.Path node.vChain
  shallow : ∀ tipHash, node.aim = some tipHash → node.Shallow limit node tipHash

/-- What a call of `ActivateBestChain` that began at `first` preserves. -/
structure Since (limit : Int) (first node : Node) : Prop where
  stays : ∀ (i : Nat) hash, first.vChain[i]? = some hash → limit ≤ first.height - i →
    node.vChain[i]? = some hash
  shallow : ∀ tipHash, node.aim = some tipHash → node.Shallow limit first tipHash

omit [ChainParams] in
theorem StaysShallow.since {limit : Int} {node : Node} (kept : StaysShallow limit node) :
    Since limit node node := ⟨fun _ _ active _ => active, kept.shallow⟩

section

variable [Legacy] {maxreorg : Option Int} {node : Node}

theorem DepthCall.Direct.shallow (admitted : Admitted maxreorg)
    (kept : StaysShallow (reorgLimit maxreorg) node) {call : DepthCall} (set : call.Set maxreorg)
    {tipHash : Uint256} (direct : call.Direct node tipHash)
    (aims : (call.run node).aim = some tipHash) :
    (call.run node).Shallow (reorgLimit maxreorg) (call.run node) tipHash := by
  cases call with
  | acceptBlockHeader data block => exact absurd direct id
  | activateRound env pblock => exact absurd direct id
  | acceptBlock data block written =>
    obtain ⟨rfl, notGenesis, absent, active⟩ := direct
    obtain ⟨vChain, _, middle, first, second⟩ := acceptBlock_arrived kept.sound data block written
    have sound := second.sound (first.sound kept.sound)
    obtain ⟨place, here⟩ := mem_iff_getElem?.mp active
    obtain ⟨core, found, height, _⟩ := kept.path.entry place _ here
    obtain ⟨prev, parent, rfl⟩ := Node.entry_of_core found
    obtain ⟨depth, descends⟩ := acceptBlock_direct notGenesis absent parent
      (Node.aim_known sound aims)
    rw [maxReorgDepth_eq admitted set] at depth
    have top : prev.nHeight = place := height
    have pathAfter := (kept.path.arrival first).arrival second
    have upTo : ((node.vChain.take (place + 1)).getLast?) = some block.hashPrevBlock := by
      rw [take_add_one, here, toList_some, List.getLast?_concat]
    intro i hash inside apart
    have same : (run (.acceptBlock data block written) node).vChain = node.vChain := vChain
    rw [same] at inside
    have above : place < i := by
      by_contra below
      refine apart (descends.trans (((pathAfter.take (place + 1)).descends_iff upTo).mpr ?_))
      refine mem_of_getElem? (i := i) ?_
      rw [List.getElem?_take_of_lt (by omega)]
      exact inside
    have heights : (run (.acceptBlock data block written) node).height = node.height := by
      rw [Node.height, Node.height, same]
    rw [heights]
    omega

omit [Legacy] in
/-- A round keeps the blocks that are deep enough where the call began. -/
theorem Since.round {limit : Int} {first : Node} (since : Since limit first node)
    (kept : StaysShallow limit node) (env : ActivateEnv) (pblock : Option CBlock) {i : Nat}
    {hash : Uint256} (active : first.vChain[i]? = some hash) (deep : limit ≤ first.height - i) :
    (atFork env node).vChain[i]? = some hash ∧
      (activateRound env pblock node).1.vChain[i]? = some hash := by
  have here := since.stays i hash active deep
  cases aims : node.aim with
  | none =>
    obtain ⟨_, after, middle⟩ := activateRound_rests env pblock kept.sound aims
    rw [middle, after]
    exact ⟨here, here⟩
  | some tipHash =>
    have moves := activateRound_moves env pblock kept.sound kept.grounded kept.path aims
    apply moves.stays kept.path here
    by_contra apart
    have depth := since.shallow tipHash aims i hash active apart
    omega

omit [Legacy] in
theorem StaysShallow.round {limit : Int} (kept : StaysShallow limit node) (env : ActivateEnv)
    (pblock : Option CBlock)
    (turns : ∀ tipHash, (activateRound env pblock node).1.aim = some tipHash →
      node.aim = some tipHash ∨
        (activateRound env pblock node).1.Shallow limit (activateRound env pblock node).1 tipHash) :
    (activateRound env pblock node).1.store = node.store ∧
      StaysShallow limit (activateRound env pblock node).1 := by
  cases aims : node.aim with
  | none =>
    obtain ⟨store, vChain, _⟩ := activateRound_rests env pblock kept.sound aims
    refine ⟨store, store ▸ kept.sound, store ▸ kept.grounded, ?_, fun tipHash aimsAfter => ?_⟩
    · rw [store, vChain]
      exact kept.path
    · rcases turns tipHash aimsAfter with same | shallow
      · rw [aims] at same
        contradiction
      · exact shallow
  | some tipHash =>
    have moves := activateRound_moves env pblock kept.sound kept.grounded kept.path aims
    obtain ⟨path, shallow⟩ := moves.kept_of_shallow kept.path (kept.shallow tipHash aims)
    refine ⟨moves.store, moves.store ▸ kept.sound, moves.store ▸ kept.grounded, path,
      fun other aimsAfter => ?_⟩
    rcases turns other aimsAfter with same | shallow
    · rw [aims] at same
      obtain rfl := some.inj same
      exact shallow
    · exact shallow

omit [ChainParams] [Legacy] in
/-- The arrival of a header or a block. -/
theorem StaysShallow.arrives {limit : Int} (kept : StaysShallow limit node) {after : Node}
    (vChain : after.vChain = node.vChain) (sound : after.store.Sound)
    (grounded : after.store.Grounded) (path : after.store.Path node.vChain)
    (grows : ∀ hash ancestor, node.store.Descends hash ancestor →
      after.store.Descends hash ancestor)
    (turns : ∀ tipHash, after.aim = some tipHash →
      node.aim = some tipHash ∨ after.Shallow limit after tipHash) : StaysShallow limit after := by
  refine ⟨sound, grounded, vChain ▸ path, fun tipHash aims => ?_⟩
  rcases turns tipHash aims with same | shallow
  · exact ((kept.shallow tipHash same).grow grows).congr vChain
  · exact shallow

theorem DepthCall.arrival (sound : node.store.Sound) (grounded : node.store.Grounded)
    (path : node.store.Path node.vChain) {call : DepthCall}
    (arrives : ∀ env pblock, call ≠ .activateRound env pblock) :
    (call.run node).vChain = node.vChain ∧ (call.run node).store.Sound ∧
      (call.run node).store.Grounded ∧ (call.run node).store.Path node.vChain ∧
      ∀ hash ancestor, node.store.Descends hash ancestor →
        (call.run node).store.Descends hash ancestor := by
  cases call with
  | acceptBlockHeader data block =>
    have accepted : Agouti.acceptBlockHeader data node block =
        ((Agouti.acceptBlockHeader data node block).1,
          (Agouti.acceptBlockHeader data node block).2) := rfl
    obtain ⟨arrival, vChain, _⟩ := acceptBlockHeader_arrival sound accepted
    exact ⟨vChain, arrival.sound sound, arrival.grounded grounded, path.arrival arrival,
      fun _ _ => arrival.descends⟩
  | acceptBlock data block written =>
    obtain ⟨vChain, _, middle, first, second⟩ := acceptBlock_arrived sound data block written
    exact ⟨vChain, second.sound (first.sound sound), second.grounded (first.grounded grounded),
      (path.arrival first).arrival second,
      fun _ _ descends => second.descends (first.descends descends)⟩
  | activateRound env pblock => exact absurd rfl (arrives env pblock)

/-- The node and the running call. -/
structure Running (limit : Int) (first : Option Node) (node : Node) : Prop where
  kept : StaysShallow limit node
  since : ∀ begun, first = some begun → Since limit begun node

/-- A round that turns to shallow blocks only. -/
theorem Running.round {limit : Int} {first : Option Node} (running : Running limit first node)
    (env : ActivateEnv) (pblock : Option CBlock)
    (turns : (DepthCall.activateRound env pblock).Turns limit first node) :
    Running limit ((DepthCall.activateRound env pblock).begun first node)
      (activateRound env pblock node).1 := by
  obtain ⟨store, kept⟩ := running.kept.round env pblock fun tipHash aims =>
    (turns tipHash aims).imp_right fun ⟨shallow, _⟩ => shallow.resolve_left id
  refine ⟨kept, fun begun goes => ⟨fun i hash active deep => ?_, fun tipHash aims => ?_⟩⟩
  · have same := DepthCall.first_of_begun goes
    exact ((running.since begun same).round running.kept env pblock active deep).2
  · rcases turns tipHash aims with same | ⟨_, since⟩
    · have there := DepthCall.first_of_begun goes
      exact ((running.since begun there).shallow tipHash same).grow fun _ _ => store ▸ id
    · exact since begun goes

theorem Running.call (admitted : Admitted maxreorg) {first : Option Node}
    (running : Running (reorgLimit maxreorg) first node) {call : DepthCall}
    (set : call.Set maxreorg) (turns : call.Turns (reorgLimit maxreorg) first node) :
    Running (reorgLimit maxreorg) (call.begun first node) (call.run node) := by
  have arrives : (∀ env pblock, call ≠ .activateRound env pblock) →
      Running (reorgLimit maxreorg) first (call.run node) := by
    intro arrives
    have goes : call.begun first node = first := by
      cases call with
      | activateRound env pblock => exact absurd rfl (arrives env pblock)
      | _ => rfl
    obtain ⟨vChain, sound, grounded, path, grows⟩ := DepthCall.arrival running.kept.sound
      running.kept.grounded running.kept.path arrives
    refine ⟨running.kept.arrives vChain sound grounded path grows fun tipHash aims => ?_,
      fun begun same => ⟨fun i hash active deep => ?_, fun tipHash aims => ?_⟩⟩
    · refine (turns tipHash aims).imp_right fun ⟨either, _⟩ => ?_
      exact either.elim (fun direct => direct.shallow admitted running.kept set aims) id
    · rw [vChain]
      exact (running.since begun same).stays i hash active deep
    · rcases turns tipHash aims with unchanged | ⟨_, since⟩
      · exact ((running.since begun same).shallow tipHash unchanged).grow grows
      · exact since begun (goes.trans same)
  cases call with
  | acceptBlockHeader data block => exact arrives fun _ _ => DepthCall.noConfusion
  | acceptBlock data block written => exact arrives fun _ _ => DepthCall.noConfusion
  | activateRound env pblock => exact running.round env pblock turns

/-- Every state of a run. -/
theorem Running.of_run (admitted : Admitted maxreorg) {start : Node}
    (kept : StaysShallow (reorgLimit maxreorg) start) {first : Option Node}
    (run : DepthRun maxreorg start first node) : Running (reorgLimit maxreorg) first node := by
  induction run with
  | start => exact ⟨kept, fun _ none => nomatch none⟩
  | begins _ ih =>
    refine ⟨ih.kept, fun begun same => ?_⟩
    obtain rfl := some.inj same
    exact ih.kept.since
  | call call _ set turns ih => exact ih.call admitted set turns

/-- The rounds of a call that turns to shallow blocks only. -/
theorem StaysShallow.rounds {limit : Int} {first : Node} (kept : StaysShallow limit first)
    {env : ActivateEnv} {pblock : Option CBlock}
    (turns : ∀ middle, Rounds env pblock first middle →
      (DepthCall.activateRound env pblock).Turns limit (some first) middle)
    (rounds : Rounds env pblock first node) : Running limit (some first) node := by
  induction rounds with
  | begins =>
    refine ⟨kept, fun begun same => ?_⟩
    obtain rfl := some.inj same
    exact kept.since
  | goes rounds goes ih =>
    have next := ih.round env pblock (turns _ rounds)
    rwa [DepthCall.begun, if_pos goes] at next

end

end

namespace LateBranch

/-! A regression test chain with `-maxreorg=1`. Two branches of blocks without stake grow
from the genesis block, one block at a time and in turn. -/

def data : LocalData := { StakedTip.data with maxreorg := some 1 }

def start : Node :=
  { VotedPayee.node with
    mapBlockIndex := fun hash =>
      if hash = 0 then some { StakedTip.powIndex 0 with nChainTx := 1, nChainWork := 2 } else none }

def env : ActivateEnv := ⟨fun _ => data, fun _ => true, fun _ => true⟩

/-- The block of the side branch at height `n`. -/
def sideBlock (n : Nat) : CBlock :=
  { StakedTip.powBlock n with
    nNonce := 10 + n, hashPrevBlock := if n = 1 then 0 else BitVec.ofNat 256 (9 + n) }

/-- A block arrives, and `ActivateBestChain` makes a round. -/
def arrives (block : CBlock) : List DepthCall :=
  [.acceptBlock data block true, .activateRound env none]

/-- Two blocks on each branch, and the third one of the side branch. -/
def calls : List DepthCall :=
  arrives (StakedTip.powBlock 1) ++ arrives (sideBlock 1) ++ arrives (StakedTip.powBlock 2) ++
    arrives (sideBlock 2) ++ [.acceptBlock data (sideBlock 3) true]

end LateBranch

section

local instance LateBranch.params : ChainParams := regTestParams 0
local instance LateBranch.crypto : Crypto := StakedTip.crypto
local instance LateBranch.instLegacy : Legacy := VotedPayee.legacy

namespace LateBranch

def node : Node := calls.foldl (fun node call => call.run node) start

theorem store_start : start.store = VotedPayee.node.store := by
  simp only [Node.store, BlockStore.mk.injEq]
  refine ⟨?_, rfl⟩
  funext hash
  by_cases here : hash = 0
  · subst here
    rfl
  · simp only [start, VotedPayee.node, if_neg here]

theorem grounded : start.store.Grounded := by
  intro hash core found
  rw [store_start] at found
  obtain ⟨rfl, rfl⟩ := VotedPayee.cores found
  exact Int.le_refl 0

theorem settled : start.aim = start.vChain.getLast? := by
  decide +kernel

theorem admitted : Admitted (some 1) := by
  unfold Admitted
  decide

/-- The first block arrives with its header on top of the genesis block. -/
def first : DepthCall := .acceptBlock data (StakedTip.powBlock 1) true

end LateBranch

open LateBranch

end

end Agouti
