import Agouti.Consensus.LegacyKernel
import Agouti.Validation.Reorganize

/-! # The coin-age kernel on two active chains

The search of `GetKernelStakeModifier` goes forward on the active chain, so the verdict of
`CheckProofOfStake` is a property of the block under test and its ancestors only where the active
chains hold the same blocks in the window of the search (`checkProofOfStake_agrees`). Between two
branches that part inside the window it depends on the tip (`checkProofOfStake_tip`).
-/

namespace Agouti

open List Serialize

/-! ### The window of the search -/

namespace StakedNode

/-- The search for a modifier ends at this block: it generated one, and late enough. -/
def endsSearch (s : StakedNode) (nTimeStop : Int) (hash : Uint256) : Bool :=
  ((s.node.mapBlockIndex hash).map fun pindex =>
    (s.stakes pindex.getBlockHash).fStakeModifier &&
      decide (nTimeStop ≤ pindex.getBlockTime)).getD false

/-- The blocks of a chain up to the first one that ends the search. -/
def upToEnd (s : StakedNode) (nTimeStop : Int) : List Uint256 → List Uint256
  | [] => []
  | hash :: above =>
    if s.endsSearch nTimeStop hash then [hash] else hash :: s.upToEnd nTimeStop above

def kernelWindow (s : StakedNode) (pindexFrom : CBlockIndex) : List Uint256 :=
  s.upToEnd (pindexFrom.getBlockTime + getStakeModifierSelectionInterval)
    (s.node.vChain.drop (pindexFrom.nHeight.toNat + 1))

def passOver (s : StakedNode) (walk : KernelWalk) (hash : Uint256) : KernelWalk :=
  match s.node.mapBlockIndex hash with
  | none => walk
  | some next => s.walkOn walk next

variable {s : StakedNode}

variable {walk : KernelWalk}

theorem modifierLoop_late {nTimeStop : Int} (fuel : Nat) (pindexNext : Option CBlockIndex)
    (late : nTimeStop ≤ walk.nStakeModifierTime) :
    s.modifierLoop nTimeStop fuel pindexNext walk = walk := by
  cases fuel with
  | zero => rfl
  | succ fuel => exact if_neg (not_lt.mpr late)

theorem endsSearch_entry {hash : Uint256} {pindex : CBlockIndex}
    (found : s.node.mapBlockIndex hash = some pindex) (nTimeStop : Int) :
    s.endsSearch nTimeStop hash = ((s.stakes pindex.getBlockHash).fStakeModifier &&
      decide (nTimeStop ≤ pindex.getBlockTime)) := by
  rw [endsSearch, found, Option.map_some, Option.getD_some]

theorem walkOn_time {hash : Uint256} {next : CBlockIndex}
    (found : s.node.mapBlockIndex hash = some next) {nTimeStop : Int}
    (early : walk.nStakeModifierTime < nTimeStop) :
    (s.walkOn walk next).nStakeModifierTime < nTimeStop ↔ s.endsSearch nTimeStop hash = false := by
  rw [endsSearch_entry found, walkOn]
  cases (s.stakes next.getBlockHash).fStakeModifier with
  | false => simpa using early
  | true => simp

theorem modifierLoop_window (path : s.node.store.Path s.node.vChain) {nTimeStop : Int} (fuel : Nat)
    {place : Nat} (early : walk.nStakeModifierTime < nTimeStop)
    (enough : s.node.vChain.length ≤ place + fuel) :
    s.modifierLoop nTimeStop fuel (s.activeEntry place) walk =
      (s.upToEnd nTimeStop (s.node.vChain.drop place)).foldl s.passOver walk := by
  induction fuel generalizing place walk with
  | zero =>
    rw [drop_eq_nil_of_le (by omega)]
    rfl
  | succ fuel ih =>
    simp only [modifierLoop, if_pos early]
    by_cases inside : place < s.node.vChain.length
    · have here := List.getElem?_eq_getElem inside
      obtain ⟨core, there, height, _⟩ := path.entry place _ here
      obtain ⟨next, found, rfl⟩ := Node.entry_of_core there
      have level : next.nHeight = place := height
      have entry : s.activeEntry place = some next := by
        rw [activeEntry, Node.active, if_neg (by omega), Int.toNat_natCast, here,
          Option.bind_some, found]
      have above : next.nHeight + 1 = ((place + 1 : Nat) : Int) := by
        rw [level]
        rfl
      have passed : s.passOver walk s.node.vChain[place] = s.walkOn walk next := by
        rw [passOver, found]
      simp only [entry, above]
      rw [drop_eq_getElem_cons inside, upToEnd]
      have stays := walkOn_time found early
      by_cases ends : s.endsSearch nTimeStop s.node.vChain[place] = true
      · rw [if_pos ends, foldl_cons, foldl_nil, passed]
        apply modifierLoop_late
        rw [← not_lt, stays, ends]
        exact Bool.noConfusion
      · rw [if_neg ends, foldl_cons, passed]
        rw [Bool.not_eq_true] at ends
        exact ih (stays.mpr ends) (by omega)
    · have outside : s.node.vChain[place]? = none := List.getElem?_eq_none (not_lt.mp inside)
      have entry : s.activeEntry place = none := by
        rw [activeEntry, Node.active, if_neg (by omega), Int.toNat_natCast, outside,
          Option.bind_none]
      rw [drop_eq_nil_of_le (not_lt.mp inside), entry]
      rfl

theorem selectionInterval_pos : 0 < getStakeModifierSelectionInterval := by
  decide

theorem getKernelStakeModifier_window (path : s.node.store.Path s.node.vChain)
    {hashBlockFrom : Uint256} {pindexFrom : CBlockIndex}
    (found : s.node.mapBlockIndex hashBlockFrom = some pindexFrom)
    (nonneg : 0 ≤ pindexFrom.nHeight) :
    s.getKernelStakeModifier hashBlockFrom = some (s.searchResult
      ((s.kernelWindow pindexFrom).foldl s.passOver (.start pindexFrom))) := by
  have early : (KernelWalk.start pindexFrom).nStakeModifierTime <
      pindexFrom.getBlockTime + getStakeModifierSelectionInterval :=
    Int.lt_add_of_pos_right _ selectionInterval_pos
  have above : pindexFrom.nHeight + 1 = ((pindexFrom.nHeight.toNat + 1 : Nat) : Int) := by
    omega
  have enough : s.node.vChain.length ≤ pindexFrom.nHeight.toNat + 1 + s.node.vChain.length :=
    Nat.le_add_left _ _
  rw [getKernelStakeModifier, found, Option.bind_eq_bind, Option.bind_some, above,
    modifierLoop_window path _ early enough]
  rfl

end StakedNode

/-! ### Two active chains of one block tree -/

/-- Two nodes with one tree, each on a branch of it. -/
structure SameTree [Crypto] (first second : StakedNode) : Prop where
  sound : first.node.store.Sound
  grounded : first.node.store.Grounded
  cores : second.node.store.cores = first.node.store.cores
  entries : ∀ hash, (second.node.mapBlockIndex hash).map second.entry =
    (first.node.mapBlockIndex hash).map first.entry
  onFirst : first.node.store.Path first.node.vChain
  onSecond : second.node.store.Path second.node.vChain

namespace SameTree

variable [Crypto] {first second : StakedNode}

variable {one : CBlockIndex}

theorem known (same : SameTree first second) {hash : Uint256}
    (found : first.node.mapBlockIndex hash = some one) :
    ∃ two, second.node.mapBlockIndex hash = some two ∧ second.entry two = first.entry one ∧
      one.getBlockHash = hash ∧ two.getBlockHash = hash := by
  have entries := same.entries hash
  rw [found, Option.map_some, Option.map_eq_some_iff] at entries
  obtain ⟨two, present, equal⟩ := entries
  have here := (Node.holds_of_sound same.sound found).2.2
  have there : two.getBlockHash = one.getBlockHash := congrArg StakeEntry.hash equal
  exact ⟨two, present, equal, here, there.trans here⟩

theorem walkOn (same : SameTree first second) {hash : Uint256} {two : CBlockIndex}
    (found : first.node.mapBlockIndex hash = some one)
    (present : second.node.mapBlockIndex hash = some two) {walk other : KernelWalk}
    (result : second.searchResult other = first.searchResult walk) :
    second.searchResult (second.walkOn other two) = first.searchResult (first.walkOn walk one) := by
  obtain ⟨entry, there, equal, _⟩ := same.known found
  rw [present] at there
  obtain rfl := Option.some.inj there
  obtain ⟨_, height, time, _, generated, modifier⟩ := StakeEntry.mk.inj equal
  obtain ⟨_, heights, times⟩ := KernelModifier.mk.inj result
  unfold StakedNode.walkOn
  rw [generated]
  split
  · exact KernelModifier.mk.injEq .. ▸ ⟨modifier, height, time⟩
  · exact KernelModifier.mk.injEq .. ▸ ⟨modifier, heights, times⟩

theorem foldl (same : SameTree first second) (window : List Uint256) {walk other : KernelWalk}
    (result : second.searchResult other = first.searchResult walk) :
    second.searchResult (window.foldl second.passOver other) =
      first.searchResult (window.foldl first.passOver walk) := by
  induction window generalizing walk other with
  | nil => exact result
  | cons hash above ih =>
    rw [foldl_cons, foldl_cons]
    apply ih
    unfold StakedNode.passOver
    cases found : first.node.mapBlockIndex hash with
    | none =>
      have absent : second.node.mapBlockIndex hash = none := by
        have entries := same.entries hash
        rwa [found, Option.map_none, Option.map_eq_none_iff] at entries
      rw [absent]
      exact result
    | some one =>
      obtain ⟨two, present, _⟩ := same.known found
      rw [present]
      exact same.walkOn found present result

theorem getKernelStakeModifier (same : SameTree first second) {hashBlockFrom : Uint256}
    {two : CBlockIndex} (found : first.node.mapBlockIndex hashBlockFrom = some one)
    (present : second.node.mapBlockIndex hashBlockFrom = some two)
    (window : second.kernelWindow two = first.kernelWindow one) :
    second.getKernelStakeModifier hashBlockFrom = first.getKernelStakeModifier hashBlockFrom := by
  obtain ⟨entry, there, equal, _⟩ := same.known found
  rw [present] at there
  obtain rfl := Option.some.inj there
  obtain ⟨_, height, time, _, _, modifier⟩ := StakeEntry.mk.inj equal
  have nonneg : 0 ≤ one.nHeight := same.grounded _ _ (Node.store_cores found)
  have result : second.searchResult (.start two) = first.searchResult (.start one) :=
    KernelModifier.mk.injEq .. ▸ ⟨modifier, height, time⟩
  rw [StakedNode.getKernelStakeModifier_window same.onSecond present (height ▸ nonneg),
    StakedNode.getKernelStakeModifier_window same.onFirst found nonneg, window,
    same.foldl _ result]

end SameTree

/-! ### The block whose modifier is taken -/

namespace StakedNode

variable {s : StakedNode}

def kernelBlock (s : StakedNode) (pindexFrom : CBlockIndex) : Uint256 :=
  ((s.kernelWindow pindexFrom).foldl s.passOver (.start pindexFrom)).pindex.getBlockHash

/-- The node with other modifiers in its block index, generated at the same blocks. -/
def labelled (s : StakedNode) (label : Uint256 → BitVec 64) : StakedNode :=
  { s with stakes := fun hash => { s.stakes hash with nStakeModifier := label hash } }

theorem upToEnd_begins (nTimeStop : Int) (chain : List Uint256) :
    s.upToEnd nTimeStop chain <+: chain := by
  induction chain with
  | nil => exact prefix_rfl
  | cons hash above ih =>
    rw [upToEnd]
    split
    · exact prefix_cons_inj hash |>.mpr above.nil_prefix
    · exact prefix_cons_inj hash |>.mpr ih

theorem labelled_upToEnd (label : Uint256 → BitVec 64) (nTimeStop : Int) (chain : List Uint256) :
    (s.labelled label).upToEnd nTimeStop chain = s.upToEnd nTimeStop chain := by
  induction chain with
  | nil => rfl
  | cons hash above ih =>
    rw [upToEnd, upToEnd, ih]
    rfl

theorem labelled_modifier (path : s.node.store.Path s.node.vChain) (label : Uint256 → BitVec 64)
    {hashBlockFrom : Uint256} {pindexFrom : CBlockIndex}
    (found : s.node.mapBlockIndex hashBlockFrom = some pindexFrom)
    (nonneg : 0 ≤ pindexFrom.nHeight) :
    ((s.labelled label).getKernelStakeModifier hashBlockFrom).map KernelModifier.nStakeModifier =
      some (label (s.kernelBlock pindexFrom)) := by
  have window : (s.labelled label).kernelWindow pindexFrom = s.kernelWindow pindexFrom :=
    labelled_upToEnd label _ _
  rw [getKernelStakeModifier_window (s := s.labelled label) path found nonneg, window]
  rfl

theorem kernelBlock_window (sound : ∀ hash pindex, s.node.mapBlockIndex hash = some pindex →
      pindex.getBlockHash = hash)
    (path : s.node.store.Path s.node.vChain) (pindexFrom : CBlockIndex) :
    s.kernelBlock pindexFrom =
      (s.kernelWindow pindexFrom).getLast?.getD pindexFrom.getBlockHash := by
  have known : ∀ hash ∈ s.kernelWindow pindexFrom, ∃ pindex,
      s.node.mapBlockIndex hash = some pindex := by
    intro hash member
    have onChain := mem_of_mem_drop ((upToEnd_begins _ _).subset member)
    obtain ⟨place, here⟩ := mem_iff_getElem?.mp onChain
    obtain ⟨core, there, _⟩ := path.entry place hash here
    obtain ⟨pindex, found, _⟩ := Node.entry_of_core there
    exact ⟨pindex, found⟩
  unfold kernelBlock
  generalize s.kernelWindow pindexFrom = window at known
  induction window using List.reverseRecOn with
  | nil => rfl
  | append_singleton below top _ =>
    obtain ⟨pindex, found⟩ := known top mem_concat_self
    rw [foldl_concat, List.getLast?_concat, Option.getD_some, passOver, found]
    simp only [walkOn]
    split
    · exact sound top pindex found
    · exact sound top pindex found

theorem kernelWindow_above (path : s.node.store.Path s.node.vChain) {pindexFrom : CBlockIndex}
    {hash : Uint256} (member : hash ∈ s.kernelWindow pindexFrom) {pindex : CBlockIndex}
    (found : s.node.mapBlockIndex hash = some pindex) : pindexFrom.nHeight < pindex.nHeight := by
  obtain ⟨place, here⟩ := mem_iff_getElem?.mp ((upToEnd_begins _ _).subset member)
  rw [List.getElem?_drop] at here
  obtain ⟨core, there, height, _⟩ := path.entry _ hash here
  rw [Node.store_cores found] at there
  obtain rfl := Option.some.inj there
  have level : pindex.nHeight = ((pindexFrom.nHeight.toNat + 1 + place : Nat) : Int) := height
  omega

theorem kernelWindow_chain (s : StakedNode) (pindexFrom : CBlockIndex) :
    ∃ count, s.kernelWindow pindexFrom =
      (s.node.vChain.take count).drop (pindexFrom.nHeight.toNat + 1) := by
  have beginning := prefix_iff_eq_take.mp (upToEnd_begins (s := s)
    (pindexFrom.getBlockTime + getStakeModifierSelectionInterval)
    (s.node.vChain.drop (pindexFrom.nHeight.toNat + 1)))
  refine ⟨pindexFrom.nHeight.toNat + 1 + (s.kernelWindow pindexFrom).length, ?_⟩
  rw [drop_take, Nat.add_sub_cancel_left]
  exact beginning

end StakedNode

theorem BlockStore.Path.of_cores {store other : BlockStore} {chain : List Uint256}
    (path : store.Path chain) (same : other.cores = store.cores) : other.Path chain :=
  ⟨same ▸ path.entry⟩

namespace SameTree

variable [Crypto] {first second : StakedNode}

theorem named (same : SameTree first second) (hash : Uint256) (pindex : CBlockIndex)
    (found : first.node.mapBlockIndex hash = some pindex) : pindex.getBlockHash = hash :=
  (Node.holds_of_sound same.sound found).2.2

theorem namedSecond (same : SameTree first second) (hash : Uint256) (pindex : CBlockIndex)
    (found : second.node.mapBlockIndex hash = some pindex) : pindex.getBlockHash = hash := by
  have known := Node.store_cores found
  rw [same.cores] at known
  obtain ⟨entry, there, _⟩ := Node.entry_of_core known
  obtain ⟨other, present, _, _, here⟩ := same.known there
  rw [found] at present
  exact Option.some.inj present ▸ here

theorem labelled (same : SameTree first second) (label : Uint256 → BitVec 64) :
    SameTree (first.labelled label) (second.labelled label) := by
  refine ⟨same.sound, same.grounded, same.cores, fun hash => ?_, same.onFirst, same.onSecond⟩
  have relabelled : ∀ (s : StakedNode), (s.node.mapBlockIndex hash).map (s.labelled label).entry =
      ((s.node.mapBlockIndex hash).map s.entry).map fun entry =>
        { entry with nStakeModifier := label entry.hash } := by
    intro s
    rw [Option.map_map]
    rfl
  show (second.node.mapBlockIndex hash).map (second.labelled label).entry =
    (first.node.mapBlockIndex hash).map (first.labelled label).entry
  rw [relabelled, relabelled, same.entries]

theorem window_of_block (same : SameTree first second) {hashBlockFrom : Uint256}
    {one two : CBlockIndex} (found : first.node.mapBlockIndex hashBlockFrom = some one)
    (present : second.node.mapBlockIndex hashBlockFrom = some two)
    (block : second.kernelBlock two = first.kernelBlock one) :
    second.kernelWindow two = first.kernelWindow one := by
  obtain ⟨entry, there, equal, here, here'⟩ := same.known found
  rw [present] at there
  obtain rfl := Option.some.inj there
  obtain ⟨_, height, _⟩ := StakeEntry.mk.inj equal
  have height : two.nHeight = one.nHeight := height
  rw [StakedNode.kernelBlock_window same.namedSecond same.onSecond,
    StakedNode.kernelBlock_window same.named same.onFirst, here, here'] at block
  cases top : (first.kernelWindow one).getLast? with
  | none =>
    rw [List.getLast?_eq_none_iff.mp top]
    by_contra some
    obtain ⟨last, member⟩ := Option.ne_none_iff_exists'.mp (mt List.getLast?_eq_none_iff.mp some)
    rw [top, member, Option.getD_some, Option.getD_none] at block
    have above := StakedNode.kernelWindow_above same.onSecond (List.mem_of_getLast? member)
      (block ▸ present)
    exact lt_irrefl _ above
  | some hash =>
    have member : (second.kernelWindow two).getLast? = some hash := by
      cases last : (second.kernelWindow two).getLast? with
      | some other =>
        rwa [top, last, Option.getD_some, Option.getD_some, ← Option.some_inj] at block
      | none =>
        rw [top, last, Option.getD_some, Option.getD_none] at block
        have above := StakedNode.kernelWindow_above same.onFirst (List.mem_of_getLast? top)
          (block ▸ found)
        exact absurd above (lt_irrefl _)
    obtain ⟨count, chain⟩ := first.kernelWindow_chain one
    obtain ⟨count', chain'⟩ := second.kernelWindow_chain two
    have last : (first.node.vChain.take count).getLast? = some hash := by
      rw [chain, List.getLast?_drop] at top
      exact (Option.ite_none_left_eq_some.mp top).2
    have last' : (second.node.vChain.take count').getLast? = some hash := by
      rw [chain', List.getLast?_drop] at member
      exact (Option.ite_none_left_eq_some.mp member).2
    have path := (same.onSecond.take count').of_cores same.cores.symm
    rw [chain, chain', height,
      path.eq_of_last (same.onFirst.take count) (last'.trans last.symm)]

end SameTree

/-! ### The verdict -/

/-- A hash that tells one value of the first eight bytes from all others. -/
@[reducible] def markedCrypto (mark : List UInt8) : Crypto where
  Hash bytes := if bytes.take 8 = mark then 0 else ~~~(0 : Uint256)
  XEVAN _ := 0
  Hash160 _ := 0
  ecdsaVerify _ _ _ := true
  verifyScript _ _ _ _ _ := true

theorem stakeHash_marked (mark : List UInt8) (nTimeTx : Nat) (nStakeModifier : BitVec 64)
    (prevout : COutPoint) (nTimeBlockFrom : Nat) :
    @stakeHash (markedCrypto mark) nTimeTx nStakeModifier prevout nTimeBlockFrom =
      if le 8 nStakeModifier.toNat = mark then 0 else ~~~(0 : Uint256) := by
  have first : ∀ rest, (le 8 nStakeModifier.toNat ++ rest).take 8 =
      le 8 nStakeModifier.toNat := by
    intro rest
    apply take_left'
    rw [le, length_map, length_range]
  simp only [stakeHash, append_assoc]
  exact if_congr (by rw [first]) rfl rfl

section

variable [ChainParams] [StakeParams]

theorem checkStakeKernelHash_old [Crypto] {s : StakedNode} {hashBlockFrom : Uint256}
    {modifier : KernelModifier} (here : s.getKernelStakeModifier hashBlockFrom = some modifier)
    {nTimeBlockFrom nTimeTx : Nat} (old : nTimeBlockFrom ≤ nTimeTx)
    (aged : (nTimeBlockFrom + StakeParams.nStakeMinAge) % 2 ^ 32 ≤ nTimeTx) (nBits : Nat)
    (nValueIn : CAmount) (prevout : COutPoint) (nHeight : Int) :
    let hashProofOfStake := stakeHash nTimeTx modifier.nStakeModifier prevout nTimeBlockFrom
    s.checkStakeKernelHash nBits hashBlockFrom nTimeBlockFrom nValueIn prevout nTimeTx nHeight =
      if stakeTargetHit hashProofOfStake nValueIn (Uint256.setCompact nBits) nHeight = true then
        some hashProofOfStake
      else none := by
  simp only [StakedNode.checkStakeKernelHash, here, guard, if_pos old, if_pos aged,
    Option.pure_def, Option.bind_eq_bind, Option.bind_some]
  split
  · rfl
  · rfl

theorem checkStakeKernelHash_separates {first second : StakedNode} {hashBlockFrom : Uint256}
    {one two : KernelModifier} (here : first.getKernelStakeModifier hashBlockFrom = some one)
    (there : second.getKernelStakeModifier hashBlockFrom = some two)
    (apart : le 8 two.nStakeModifier.toNat ≠ le 8 one.nStakeModifier.toNat)
    (nTimeBlockFrom : Nat) :
    ∃ (_ : Crypto) (nBits : Nat) (nValueIn : CAmount) (prevout : COutPoint) (nTimeTx : Nat)
      (nHeight : Int),
      first.checkStakeKernelHash nBits hashBlockFrom nTimeBlockFrom nValueIn prevout nTimeTx
          nHeight = some 0 ∧
        second.checkStakeKernelHash nBits hashBlockFrom nTimeBlockFrom nValueIn prevout nTimeTx
          nHeight = none := by
  have old : nTimeBlockFrom ≤ nTimeBlockFrom + 2 ^ 32 := Nat.le_add_right _ _
  have aged : (nTimeBlockFrom + StakeParams.nStakeMinAge) % 2 ^ 32 ≤ nTimeBlockFrom + 2 ^ 32 :=
    (Nat.mod_lt _ (Nat.two_pow_pos 32)).le.trans (Nat.le_add_left _ _)
  have light : ¬(nStakePointerForkHeight ≤ 0 ∧ STAKE_WEIGHT_CAP < 100) := by
    intro ⟨_, heavy⟩
    exact absurd heavy (by decide)
  have hit : stakeTargetHit 0 100 (Uint256.setCompact 0x01010000) 0 = true := by
    unfold stakeTargetHit
    rw [if_neg light]
    decide
  have missed :
      stakeTargetHit (~~~(0 : Uint256)) 100 (Uint256.setCompact 0x01010000) 0 = false := by
    unfold stakeTargetHit
    rw [if_neg light]
    decide
  refine ⟨markedCrypto (le 8 one.nStakeModifier.toNat), 0x01010000, 100, .null,
    nTimeBlockFrom + 2 ^ 32, 0, ?_, ?_⟩
  · rw [@checkStakeKernelHash_old _ _ (markedCrypto _) _ _ _ here _ _ old aged, stakeHash_marked,
      if_pos rfl, if_pos hit]
  · rw [@checkStakeKernelHash_old _ _ (markedCrypto _) _ _ _ there _ _ old aged, stakeHash_marked,
      if_neg apart, missed]
    exact if_neg Bool.false_ne_true

def CBlock.stakeInput (block : CBlock) : Option CTxIn := block.vtx[1]?.bind fun tx => tx.vin.head?

variable [Crypto]

/-- Two nodes find one stake input and search one window. -/
structure SameSearch (first second : StakedNode) (mempool other : Uint256 → Option CTransaction)
    (block : CBlock) : Prop where
  lookup : ∀ txin, block.stakeInput = some txin →
    second.getTransaction other txin.prevout.hash true =
      first.getTransaction mempool txin.prevout.hash true
  window : ∀ txin, block.stakeInput = some txin → ∀ txPrev hashBlock,
    first.getTransaction mempool txin.prevout.hash true = some (txPrev, hashBlock) → ∀ one two,
      first.node.mapBlockIndex (hashBlock.getD 0) = some one →
        second.node.mapBlockIndex (hashBlock.getD 0) = some two →
          second.kernelWindow two = first.kernelWindow one

theorem SameTree.checkStakeKernelHash {first second : StakedNode} {hashBlockFrom : Uint256}
    (modifier : second.getKernelStakeModifier hashBlockFrom =
      first.getKernelStakeModifier hashBlockFrom) (nBits nTimeBlockFrom : Nat) (nValueIn : CAmount)
    (prevout : COutPoint) (nTimeTx : Nat) (nHeight : Int) :
    second.checkStakeKernelHash nBits hashBlockFrom nTimeBlockFrom nValueIn prevout nTimeTx
        nHeight =
      first.checkStakeKernelHash nBits hashBlockFrom nTimeBlockFrom nValueIn prevout nTimeTx
        nHeight := by
  unfold StakedNode.checkStakeKernelHash
  rw [modifier]

theorem SameTree.checkProofOfStake {first second : StakedNode} (same : SameTree first second)
    {mempool other : Uint256 → Option CTransaction} {block : CBlock}
    (search : SameSearch first second mempool other block) (nHeight : Int) :
    second.checkProofOfStake other block nHeight =
      first.checkProofOfStake mempool block nHeight := by
  unfold StakedNode.checkProofOfStake
  cases second' : block.vtx[1]? with
  | none => rfl
  | some tx =>
    simp only [Option.bind_eq_bind, Option.bind_some]
    refine Option.bind_congr fun _ _ => ?_
    cases input : tx.vin.head? with
    | none => rfl
    | some txin =>
      have staked : block.stakeInput = some txin := by
        rw [CBlock.stakeInput, second', Option.bind_some, input]
      simp only [Option.bind_some]
      rw [search.lookup txin staked]
      cases read : first.getTransaction mempool txin.prevout.hash true with
      | none => rfl
      | some found =>
        obtain ⟨txPrev, hashBlock⟩ := found
        simp only [Option.bind_some]
        refine Option.bind_congr fun txout _ => Option.bind_congr fun _ _ => ?_
        cases here : first.node.mapBlockIndex (hashBlock.getD 0) with
        | none =>
          have entries := same.entries (hashBlock.getD 0)
          rw [here, Option.map_none, Option.map_eq_none_iff] at entries
          rw [entries]
          rfl
        | some one =>
          obtain ⟨two, present, equal, named, namedToo⟩ := same.known here
          have time : two.nTime = one.nTime :=
            Int.ofNat_inj.mp (congrArg StakeEntry.nTime equal)
          have window :=
            search.window txin staked txPrev hashBlock read one two here present
          rw [present, Option.bind_some, Option.bind_some, named, namedToo, time]
          apply SameTree.checkStakeKernelHash
          exact same.getKernelStakeModifier here present window

/-- **The legacy kernel is a property of the branch up to the window of its search.** On one block
tree the verdict on a block is the same for two active chains that hold the same blocks in the
window of the search, where `GetTransaction` reads the same staked transaction. No weaker condition
on the chains will do: unless the windows are the same, there are stake modifiers, a hash function
and a kernel on which the verdicts differ. -/
theorem checkProofOfStake_agrees {first second : StakedNode} (same : SameTree first second) :
    (∀ mempool other block nHeight, SameSearch first second mempool other block →
        second.checkProofOfStake other block nHeight =
          first.checkProofOfStake mempool block nHeight) ∧
      ∀ hashBlockFrom one two, first.node.mapBlockIndex hashBlockFrom = some one →
        second.node.mapBlockIndex hashBlockFrom = some two →
          ((∀ (_ : Crypto) (label : Uint256 → BitVec 64) nBits nValueIn prevout nTimeTx
              nHeight,
              (second.labelled label).checkStakeKernelHash nBits hashBlockFrom one.nTime nValueIn
                  prevout nTimeTx nHeight =
                (first.labelled label).checkStakeKernelHash nBits hashBlockFrom one.nTime nValueIn
                  prevout nTimeTx nHeight) ↔
            second.kernelWindow two = first.kernelWindow one) := by
  refine ⟨fun mempool other block nHeight search => same.checkProofOfStake search nHeight, ?_⟩
  intro hashBlockFrom one two found present
  obtain ⟨entry, there, equal, _⟩ := same.known found
  rw [present] at there
  obtain rfl := Option.some.inj there
  have nonneg : 0 ≤ one.nHeight := same.grounded _ _ (Node.store_cores found)
  have height : two.nHeight = one.nHeight := congrArg StakeEntry.nHeight equal
  constructor
  · intro agree
    by_contra differ
    have apart : second.kernelBlock two ≠ first.kernelBlock one :=
      mt (same.window_of_block found present) differ
    let label : Uint256 → BitVec 64 := fun hash => if hash = first.kernelBlock one then 0 else 1
    obtain ⟨modifier, here, zero⟩ := Option.map_eq_some_iff.mp
      (StakedNode.labelled_modifier same.onFirst label found nonneg)
    obtain ⟨modifier', here', one'⟩ := Option.map_eq_some_iff.mp
      (StakedNode.labelled_modifier same.onSecond label present (height ▸ nonneg))
    have zero : modifier.nStakeModifier = 0 := zero.trans (if_pos rfl)
    have one' : modifier'.nStakeModifier = 1 := one'.trans (if_neg apart)
    have bytes : le 8 modifier'.nStakeModifier.toNat ≠
        le 8 modifier.nStakeModifier.toNat := by
      rw [zero, one']
      decide
    obtain ⟨crypto, nBits, nValueIn, prevout, nTimeTx, nHeight, hit, missed⟩ :=
      checkStakeKernelHash_separates here here' bytes one.nTime
    have equal := agree crypto label nBits nValueIn prevout nTimeTx nHeight
    rw [hit, missed] at equal
    exact Option.some_ne_none _ equal.symm
  · intro window
    have modifier : ∀ label, (second.labelled label).getKernelStakeModifier hashBlockFrom =
        (first.labelled label).getKernelStakeModifier hashBlockFrom := by
      intro label
      apply (same.labelled label).getKernelStakeModifier found present
      exact (StakedNode.labelled_upToEnd label _ _).trans
        (window.trans (StakedNode.labelled_upToEnd label _ _).symm)
    intro crypto label nBits nValueIn prevout nTimeTx nHeight
    exact SameTree.checkStakeKernelHash (modifier label) nBits one.nTime nValueIn prevout nTimeTx
      nHeight

end

/-! ### Two tips of one tree -/

section

variable [Crypto] [StakeParams]

theorem StakedNode.receive_sound {s : StakedNode} {block : CBlock}
    (absent : s.node.mapBlockIndex block.getHash = none) (sound : s.node.store.Sound)
    (grounded : s.node.store.Grounded) :
    (s.receive block).node.store.Sound ∧ (s.receive block).node.store.Grounded := by
  obtain ⟨arrival, _, _, here⟩ := Node.addToBlockIndex_arrival absent
  rw [← addToBlockIndex_node] at arrival here
  have core := Node.newIndex_core s.node block
  obtain ⟨named, _, _, _, header, _⟩ := IndexCore.mk.inj core
  obtain ⟨stored, _⟩ := Node.storeBlock_arrival (Node.store_cores here) named header
  rw [← storeBlock_node] at stored
  unfold receive
  simp only [here]
  exact ⟨stored.sound (arrival.sound sound), stored.grounded (arrival.grounded grounded)⟩

/-- None of the blocks is known when it arrives. -/
def StakedNode.allNew (s : StakedNode) : List CBlock → Bool
  | [] => true
  | block :: later =>
    (s.node.mapBlockIndex block.getHash).isNone && (s.receive block).allNew later

theorem StakedNode.receiveAll_sound {s : StakedNode} {blocks : List CBlock}
    (new : s.allNew blocks = true) (sound : s.node.store.Sound)
    (grounded : s.node.store.Grounded) :
    (blocks.foldl StakedNode.receive s).node.store.Sound ∧
      (blocks.foldl StakedNode.receive s).node.store.Grounded := by
  induction blocks generalizing s with
  | nil => exact ⟨sound, grounded⟩
  | cons block later ih =>
    rw [allNew, Bool.and_eq_true, Option.isNone_iff_eq_none] at new
    obtain ⟨soundNext, groundedNext⟩ := receive_sound new.1 sound grounded
    exact ih new.2 soundNext groundedNext

end

namespace Tips

/-! A proof-of-work chain of two blocks, which is continued by two branches. The second blocks of
the branches, which are at the same height, have hashes of different parity, and the modifier of the
third ones is this bit. -/

/-- The first bytes of a byte string are the most significant ones of its hash. -/
@[reducible] def crypto : Crypto where
  Hash bytes := BitVec.ofNat 256 (CScript.littleEndian (bytes.take 32).reverse)
  XEVAN bytes := BitVec.ofNat 256 (CScript.littleEndian ((bytes.drop 76).take 4))
  Hash160 _ := 0
  ecdsaVerify _ _ _ := true
  verifyScript _ _ _ _ _ := true

end Tips

section

local instance Tips.instChainParams : ChainParams := mainParams
local instance Tips.instStakeParams : StakeParams := mainStakeParams
local instance Tips.instCrypto : Crypto := Tips.crypto

namespace Tips

def coinbase (nHeight : Nat) : CTransaction where
  nVersion := nHeight
  vin := [{ prevout := .null, scriptSig := [1, 0x51] }]
  vout := [{ nValue := 100 * COIN, scriptPubKey := [0x51] }]
  nLockTime := 0

def block (nNonce hashPrev nHeight nTime : Nat) : CBlock where
  nVersion := 3
  hashPrevBlock := BitVec.ofNat 256 hashPrev
  hashMerkleRoot := 0
  nTime := nTime
  nBits := 0x207fffff
  nNonce := nNonce
  vtx := [coinbase nHeight]

def empty : StakedNode where
  node :=
    { mapBlockIndex := fun _ => none, vChain := [], diskBlocks := fun _ => none,
      diskUndo := fun _ => none, pcoinsTip := ⟨fun _ => {}, 0⟩, mapProofOfStake := [],
      setStakeSeen := [], mapUsedStakePointers := fun _ => none, setBlockIndexCandidates := [],
      mapBlocksUnlinked := [], nBlockSequenceId := 1 }
  fTxIndex := true
  txindex hash := if hash = (coinbase 1).getHash then some ⟨17, 0⟩ else none
  stakes _ := {}
  literal := 0x4a2b10

def blocks : List CBlock :=
  [block 16 0 0 1400000000, block 17 16 1 1400000060, block 18 17 2 1400003060,
    block 19 17 2 1400003061, block 20 18 3 1400003120, block 21 19 3 1400003121,
    block 22 20 4 1400003180]

def tree : StakedNode := blocks.foldl StakedNode.receive empty

def tip (chain : List Uint256) : StakedNode :=
  { tree with node := { tree.node with vChain := chain } }

/-- A block on top of the first branch that stakes the coin of height 1. -/
def staker : CBlock where
  nVersion := 3
  hashPrevBlock := 20
  hashMerkleRoot := 0
  nTime := 1400009000
  nBits := 0x1a010000
  nNonce := 23
  vtx := [coinbase 4,
    { nVersion := 9, vin := [{ prevout := ⟨(coinbase 1).getHash, 0⟩, scriptSig := [] }],
      vout := [.empty, { nValue := 100 * COIN, scriptPubKey := [0x51] }], nLockTime := 0 }]

theorem sound : tree.node.store.Sound ∧ tree.node.store.Grounded := by
  apply StakedNode.receiveAll_sound
  · decide +kernel
  · exact ⟨fun _ _ found => by contradiction, fun _ _ found => by contradiction,
      fun _ _ found => by contradiction, fun _ _ found => by contradiction⟩
  · exact fun _ _ found => by contradiction

theorem sameTree {chain other : List Uint256} (one : tree.node.store.Path chain)
    (two : tree.node.store.Path other) : SameTree (tip chain) (tip other) where
  sound := sound.1
  grounded := sound.2
  cores := rfl
  entries _ := rfl
  onFirst := one
  onSecond := two

theorem paths : tree.node.store.Path [16, 17, 18, 20] ∧ tree.node.store.Path [16, 17, 19, 21] ∧
    tree.node.store.Path [16, 17, 18, 20, 22] := by
  have checks : ∀ chain ∈ [[16, 17, 18, 20], [16, 17, 19, 21], [16, 17, 18, 20, 22]],
      tree.node.store.Path chain := by
    intro chain member
    apply BlockStore.Path.of_check
    revert chain
    decide +kernel
  simpa using checks

end Tips

/-- A block on the first branch passes the kernel while the first branch is active, and not while
the second one is. -/
theorem checkProofOfStake_tip :
    SameTree (Tips.tip [16, 17, 18, 20]) (Tips.tip [16, 17, 19, 21]) ∧
      (Tips.tree.node.mapBlockIndex Tips.staker.hashPrevBlock).isSome = true ∧
      ((Tips.tip [16, 17, 18, 20]).checkProofOfStake (fun _ => none) Tips.staker 4).isSome = true ∧
      (Tips.tip [16, 17, 19, 21]).checkProofOfStake (fun _ => none) Tips.staker 4 = none := by
  refine ⟨Tips.sameTree Tips.paths.1 Tips.paths.2.1, ?_, ?_, ?_⟩
  · decide +kernel
  · decide +kernel
  · decide +kernel

/-- A longer chain of the first branch gives the same verdict. -/
theorem checkProofOfStake_agrees_longer :
    (Tips.tip [16, 17, 18, 20, 22]).checkProofOfStake (fun _ => none) Tips.staker 4 =
      (Tips.tip [16, 17, 18, 20]).checkProofOfStake (fun _ => none) Tips.staker 4 := by
  refine (checkProofOfStake_agrees (Tips.sameTree Tips.paths.1 Tips.paths.2.2)).1 _ _ _ 4 ?_
  refine ⟨fun txin staked => rfl, fun txin staked txPrev hashBlock read one two found present => ?_⟩
  have input : Tips.staker.stakeInput =
      some { prevout := ⟨(Tips.coinbase 1).getHash, 0⟩, scriptSig := [] } := rfl
  obtain rfl := Option.some.inj (input.symm.trans staked)
  have staked : ((Tips.tip [16, 17, 18, 20]).getTransaction (fun _ => none)
      (Tips.coinbase 1).getHash true).map Prod.snd = some (some 17) := by decide +kernel
  rw [read, Option.map_some, Option.some_inj] at staked
  have staked : hashBlock = some 17 := staked
  subst staked
  obtain rfl := Option.some.inj (found.symm.trans present)
  have windows : (Tips.tree.node.mapBlockIndex 17).map (fun pindex =>
      ((Tips.tip [16, 17, 18, 20, 22]).kernelWindow pindex,
        (Tips.tip [16, 17, 18, 20]).kernelWindow pindex)) = some ([18, 20], [18, 20]) := by
    decide +kernel
  have known : Tips.tree.node.mapBlockIndex 17 = some one := found
  rw [known, Option.map_some, Option.some_inj] at windows
  obtain ⟨longer, shorter⟩ := Prod.mk.inj windows
  exact longer.trans shorter.symm

end

end Agouti
