import Agouti.Consensus.PointerRuns
import Mathlib.Tactic.Linarith

/-! # What a block may mint

`ConnectBlock` compares the mint of a block with the subsidy, `IsBlockValueValid` skips the
comparison for a superblock, whose value is checked nowhere, and in some blocks of a node that
is not synchronized (`LocalData.mintUnchecked`). Where the comparison is made, the mint is at
most the subsidy of the schedule, with the fees in a block of proof of work
(`mintedWithinSchedule`), and the money supply stays at most
`MaxMoneyOut()` (`moneySupply_le_of_chain`).
-/

namespace Agouti

open Verdict List Function Option

section

variable [ChainParams]

/-! ## The subsidy -/

omit [ChainParams] in
theorem blockSubsidy_pos (nHeight : Int) : 0 < blockSubsidy nHeight := by
  unfold blockSubsidy
  split_ifs <;> decide

theorem getBlockValue_nonneg (nMoneySupply : CAmount) (nHeight : Int) :
    0 ≤ getBlockValue nMoneySupply nHeight := by
  have positive := blockSubsidy_pos nHeight
  unfold getBlockValue
  simp only
  split_ifs <;> linarith

theorem getBlockValue_le (nMoneySupply : CAmount) (nHeight : Int) :
    getBlockValue nMoneySupply nHeight ≤ blockSubsidy nHeight ∧
      (nMoneySupply ≤ nMaxMoneyOut →
        nMoneySupply + getBlockValue nMoneySupply nHeight ≤ nMaxMoneyOut) := by
  have positive := blockSubsidy_pos nHeight
  unfold getBlockValue
  simp only
  constructor
  · split_ifs <;> linarith
  · intro _
    split_ifs <;> linarith

/-- The height whose subsidy a block on top of this one gets. -/
def CBlockIndex.mintHeight (pprev : CBlockIndex) : Int :=
  if nStakePointerForkHeight ≤ pprev.nHeight + 1 then pprev.nHeight + 1 else pprev.nHeight

/-- `IsBlockValueValid` does not compare the mint of the block. -/
def LocalData.mintUnchecked (data : LocalData) (node : Node) (block : CBlock) : Bool :=
  let nHeight := node.heightOnTopOf block.hashPrevBlock
  node.tip.isNone ||
    if data.fSynced then
      data.isSporkActive .SPORK_13_ENABLE_SUPERBLOCKS && data.isBudgetPaymentBlock nHeight
    else
      decide (nHeight < nStakePointerForkHeight) &&
        decide (nHeight.tmod ChainParams.nBudgetPaymentCycleBlocks < 100)

theorem isBlockValueValid_eq (data : LocalData) (node : Node) (block : CBlock)
    (nExpectedValue nMinted : CAmount) :
    data.isBlockValueValid node block nExpectedValue nMinted =
      (data.mintUnchecked node block || decide (nMinted ≤ nExpectedValue)) := by
  unfold LocalData.isBlockValueValid LocalData.mintUnchecked
  cases node.tip with
  | none => rfl
  | some tip =>
    cases data.fSynced with
    | true =>
      simp only [Bool.not_true, Bool.false_eq_true, if_false, if_true, isNone_some,
        Bool.false_or]
      cases data.isSporkActive .SPORK_13_ENABLE_SUPERBLOCKS <;> rfl
    | false =>
      simp only [Bool.not_false, if_true, Bool.false_eq_true, if_false, isNone_some,
        Bool.false_or]
      by_cases fork : nStakePointerForkHeight ≤ node.heightOnTopOf block.hashPrevBlock
      · rw [if_pos fork, decide_eq_false (not_lt.mpr fork), Bool.false_and, Bool.false_or]
      · rw [if_neg fork, decide_eq_true (not_le.mp fork), Bool.true_and]

/-! ## The fees -/

theorem checkInputValues_sum {view : CCoinsViewCache} {nSpendHeight : Int} {vin : List CTxIn}
    {nValueIn result : CAmount}
    (passed : checkInputValues view nSpendHeight vin nValueIn = .ok result) :
    result = nValueIn + (vin.map fun txin => (view.getOutputFor txin).nValue).sum := by
  induction vin generalizing nValueIn with
  | nil =>
    obtain rfl := Except.ok.inj passed
    rw [map_nil, List.sum_nil, Int.add_zero]
  | cons txin rest ih =>
    simp only [checkInputValues, bind_eq_ok] at passed
    obtain ⟨_, _, _, _, passed⟩ := passed
    rw [ih passed, map_cons, List.sum_cons, Int.add_assoc]

variable [Crypto]

variable {totals : ConnectTotals}

theorem tallyInputs_fees {mapBlockIndex : BlockMap} {strict checks : Bool} {flags : Nat}
    {view : CCoinsViewCache} {tx : CTransaction} {result : ConnectTotals}
    (tallied : tallyInputs mapBlockIndex strict checks flags view tx totals = .ok result) :
    totals.nFees ≤ result.nFees := by
  unfold tallyInputs at tallied
  split at tallied
  · obtain rfl := Except.ok.inj tallied
    exact le_rfl
  · split at tallied
    · rename_i spends
      simp only [bind_eq_ok] at tallied
      obtain ⟨_, _, _, _, _, checked, last⟩ := tallied
      obtain rfl := Except.ok.inj last
      change totals.nFees ≤ totals.nFees + _
      split
      · exact (add_zero _).ge
      · rename_i plain
        simp only [checkInputs, bind_eq_ok, whenever_eq_ok, reject_eq_ok,
          decide_eq_false_iff_not, not_lt] at checked
        obtain ⟨_, _, _, _, nValueIn, values, afford⟩ := checked
        obtain ⟨_, afford, _⟩ := afford (by simpa using plain)
        have same : nValueIn = view.getValueIn tx := by
          rw [checkInputValues_sum values, Int.zero_add, CCoinsViewCache.getValueIn, if_neg]
          simp only [CTransaction.hasInputs, Bool.and_eq_true, Bool.not_eq_true'] at spends
          rw [spends.1]
          exact Bool.false_ne_true
        linarith
    · obtain rfl := Except.ok.inj tallied
      exact le_rfl

theorem connectTransactions_fees {mapBlockIndex : BlockMap} {nHeight : Int} {strict checks : Bool}
    {flags : Nat} {vtx : List CTransaction} {view after : CCoinsViewCache}
    {vtxundo : List (List CTxInUndo)} {result : ConnectTotals}
    (connected : connectTransactions mapBlockIndex nHeight strict checks flags vtx view totals =
      .ok (after, vtxundo, result)) : totals.nFees ≤ result.nFees := by
  induction vtx generalizing view vtxundo totals with
  | nil =>
    simp only [connectTransactions, Except.ok.injEq, Prod.mk.injEq] at connected
    obtain ⟨_, _, rfl⟩ := connected
    exact le_rfl
  | cons tx rest ih =>
    simp only [connectTransactions, bind_eq_ok] at connected
    obtain ⟨_, _, _, _, middle, tallied, ⟨_, _⟩, _, ⟨_, _, _⟩, connected, last⟩ := connected
    simp only [Except.ok.injEq, Prod.mk.injEq] at last
    obtain ⟨rfl, _, rfl⟩ := last
    have first := tallyInputs_fees tallied
    have others := ih connected
    exact le_trans first others

theorem connectCoins_fees {data : LocalData} {node : Node} {fScriptChecks : Bool} {block : CBlock}
    {pindex : CBlockIndex} {view after : CCoinsViewCache} {fJustCheck : Bool}
    {vtxundo : List (List CTxInUndo)}
    (connected : connectCoins data node fScriptChecks block pindex view fJustCheck =
      .ok (after, vtxundo, totals)) : 0 ≤ totals.nFees := by
  simp only [connectCoins, applyTransactions, bind_eq_ok] at connected
  obtain ⟨_, _, _, _, _, _, _, _, _, _, connected⟩ := connected
  exact connectTransactions_fees connected

/-! ## A block on top of the tip -/

/-- `ConnectBlock` accepts a block whose parent is the tip: `prev` is the tip as far as its
height and its money supply go, and `stored` the entry that is left. -/
structure ConnectsOn (data : LocalData) (node : Node) (fScriptChecks : Bool) (block : CBlock)
    (pindex : CBlockIndex) (view : CCoinsViewCache) (prev stored : CBlockIndex) : Prop where
  tip : ∃ top, node.tip = some top ∧ node.mapBlockIndex.prev pindex = some top ∧
    top.nHeight = prev.nHeight ∧ top.nMoneySupply = prev.nMoneySupply
  height : pindex.nHeight = prev.nHeight + 1
  entry : ∃ hash, pindex.phashBlock = some hash ∧ node.mapBlockIndex hash = some pindex ∧
    (connectBlock data node fScriptChecks block pindex view false).node.mapBlockIndex hash =
      some stored
  accepted : ∃ after vtxundo,
    (connectBlock data node fScriptChecks block pindex view false).verdict =
      .ok (after, some vtxundo)

omit [ChainParams] [Crypto] in
theorem CBlockIndex.raiseValidity_status (pindex : CBlockIndex) (nUpTo : Nat) :
    ∃ nStatus, pindex.raiseValidity nUpTo = { pindex with nStatus := nStatus } := by
  unfold CBlockIndex.raiseValidity
  split
  · exact ⟨_, rfl⟩
  · split
    · exact ⟨_, rfl⟩
    · exact ⟨_, rfl⟩

omit [ChainParams] [Crypto] in
theorem Node.writeUndo_entry {node : Node} {pindex : CBlockIndex} {hash : Uint256}
    (named : pindex.phashBlock = some hash) (found : node.mapBlockIndex hash = some pindex)
    (vtxundo : List (List CTxInUndo)) :
    ∃ nStatus, (node.writeUndo pindex vtxundo).1.mapBlockIndex hash =
      some { pindex with nStatus := nStatus } := by
  unfold Node.writeUndo
  split
  · obtain ⟨nStatus, raised⟩ := CBlockIndex.raiseValidity_status
      { pindex with nStatus := { pindex.nStatus with haveUndo := true } } BLOCK_VALID_SCRIPTS
    refine ⟨nStatus, Eq.trans ?_ (congrArg some raised)⟩
    simp only [Node.storeIndex, CBlockIndex.raiseValidity_phashBlock, named, Node.setIndex,
      update_self]
  · exact ⟨pindex.nStatus, found⟩

theorem Node.recordPointer_index {node after : Node} {block : CBlock} {pindex : CBlockIndex}
    (recorded : node.recordPointer block pindex = .ok after) :
    after.mapBlockIndex = node.mapBlockIndex := by
  unfold Node.recordPointer at recorded
  simp only at recorded
  split at recorded
  · obtain rfl := Except.ok.inj recorded
    rfl
  · split at recorded
    · contradiction
    · obtain rfl := Except.ok.inj recorded
      rfl

variable {data : LocalData} {node : Node} {fScriptChecks : Bool} {block : CBlock}
  {pindex prev stored : CBlockIndex} {view : CCoinsViewCache}

theorem ConnectsOn.stored_eq (connects : ConnectsOn data node fScriptChecks block pindex view prev
    stored) : ∃ coins undo totals nStatus,
      connectCoins data node fScriptChecks block pindex view false = .ok (coins, undo, totals) ∧
      connectReward data (node.storeIndex (node.withSupply pindex totals)) block
        (node.withSupply pindex totals) totals = .ok () ∧
      stored = { node.withSupply pindex totals with nStatus := nStatus } := by
  obtain ⟨hash, named, found, left⟩ := connects.entry
  obtain ⟨after, vtxundo, accepted⟩ := connects.accepted
  obtain ⟨notGenesis, coins, undo, totals, connected, rewarded, _⟩ :=
    connectBlock_accepted accepted
  refine ⟨coins, undo, totals, ?_⟩
  unfold connectBlock at accepted left
  simp only [if_neg notGenesis, connected, connectFinish, rewarded, Bool.false_eq_true,
    if_false] at accepted left
  have supplied : (node.storeIndex (node.withSupply pindex totals)).mapBlockIndex hash =
      some (node.withSupply pindex totals) := by
    simp only [Node.storeIndex, Node.withSupply_phashBlock, named, Node.setIndex,
      update_self]
  obtain ⟨nStatus, wrote⟩ := Node.writeUndo_entry
    (show (node.withSupply pindex totals).phashBlock = some hash from named) supplied undo.tail
  split at accepted
  · contradiction
  · rename_i recorded
    rw [recorded, Node.recordPointer_index recorded, wrote, some.injEq] at left
    exact ⟨nStatus, connected, rewarded, left.symm⟩

theorem ConnectsOn.supplied (connects : ConnectsOn data node fScriptChecks block pindex view prev
    stored) (totals : ConnectTotals) :
    (∃ top, node.tip = some top ∧
      (node.storeIndex (node.withSupply pindex totals)).tip = some top ∧
      (node.storeIndex (node.withSupply pindex totals)).mapBlockIndex.prev pindex = some top ∧
      node.mapBlockIndex.prev pindex = some top ∧
      top.nHeight = prev.nHeight ∧ top.nMoneySupply = prev.nMoneySupply) ∧
    data.mintUnchecked (node.storeIndex (node.withSupply pindex totals)) block =
      data.mintUnchecked node block := by
  obtain ⟨top, tip, parent, height, supply⟩ := connects.tip
  obtain ⟨hash, named, found, _⟩ := connects.entry
  have moved : node.storeIndex (node.withSupply pindex totals) =
      node.setIndex hash (node.withSupply pindex totals) := by
    simp only [Node.storeIndex, Node.withSupply_phashBlock, named]
  -- the parent is another entry, one height below
  have other : ∀ hashTop, node.mapBlockIndex hashTop = some top → hashTop ≠ hash := by
    rintro hashTop there rfl
    rw [found, some.injEq] at there
    have above := connects.height
    rw [there, height] at above
    omega
  obtain ⟨hashTip, last, foundTip⟩ := bind_eq_some_iff.mp
    (show node.vChain.getLast?.bind node.mapBlockIndex = some top from tip)
  obtain ⟨hashPrev, pprev, foundPrev⟩ := bind_eq_some_iff.mp
    (show pindex.pprev.bind node.mapBlockIndex = some top from parent)
  have tipAfter : (node.setIndex hash (node.withSupply pindex totals)).tip = some top := by
    simp only [Node.tip, Node.setIndex, last, bind_some,
      update_of_ne (other hashTip foundTip), foundTip]
  have parentAfter : (node.setIndex hash (node.withSupply pindex totals)).mapBlockIndex.prev
      pindex = some top := by
    simp only [BlockMap.prev, Node.setIndex, pprev, bind_some,
      update_of_ne (other hashPrev foundPrev), foundPrev]
  have heights : ∀ hashPrevBlock,
      (node.setIndex hash (node.withSupply pindex totals)).heightOnTopOf hashPrevBlock =
        node.heightOnTopOf hashPrevBlock := by
    intro hashPrevBlock
    simp only [Node.heightOnTopOf, tipAfter, tip]
    split
    · rfl
    · by_cases here : hashPrevBlock = hash
      · rw [here, found]
        simp only [Node.setIndex, update_self]
        rfl
      · simp only [Node.setIndex, update_of_ne here]
  refine ⟨⟨top, tip, ?_, ?_, parent, height, supply⟩, ?_⟩
  · rw [moved]
    exact tipAfter
  · rw [moved]
    exact parentAfter
  · unfold LocalData.mintUnchecked
    rw [moved, heights, tipAfter, tip]

/-- The block mints its part of the schedule at most: what it mints is the change of the money
supply and its fees, and without the fees of proof of work it is at most the subsidy on top of
`prev`. -/
structure Minted (block : CBlock) (prev stored : CBlockIndex) (nFees : CAmount) : Prop where
  fees : 0 ≤ nFees
  mint : stored.nMint = stored.nMoneySupply - prev.nMoneySupply + nFees
  bound : stored.nMint ≤ getBlockValue prev.nMoneySupply prev.mintHeight +
    if block.isProofOfWork then nFees else 0
  height : stored.nHeight = prev.nHeight + 1

theorem ConnectsOn.minted (connects : ConnectsOn data node fScriptChecks block pindex view prev
    stored) (checked : data.mintUnchecked node block = false) :
    ∃ nFees, Minted block prev stored nFees := by
  obtain ⟨coins, undo, totals, nStatus, connected, rewarded, rfl⟩ := connects.stored_eq
  obtain ⟨⟨top, tip, tipAfter, parentAfter, parent, height, supply⟩, sameCheck⟩ :=
    connects.supplied totals
  refine ⟨totals.nFees, connectCoins_fees connected, ?_, ?_, connects.height⟩
  · simp only [Node.withSupply, parent, map_some, getD_some, supply]
  · simp only [connectReward, bind_eq_ok, demand_eq_ok, reject_eq_ok, Bool.not_eq_false']
      at rewarded
    obtain ⟨pprev, found, _, valid, _⟩ := rewarded
    have same : pprev = top := by
      have there : (node.storeIndex (node.withSupply pindex totals)).mapBlockIndex.prev pindex =
          some pprev := found
      rw [parentAfter, some.injEq] at there
      exact there.symm
    rw [isBlockValueValid_eq, sameCheck, checked, Bool.false_or, decide_eq_true_eq] at valid
    subst same
    have value : nExpectedMint (node.storeIndex (node.withSupply pindex totals)) block
        (node.withSupply pindex totals) pprev totals =
          getBlockValue prev.nMoneySupply prev.mintHeight +
            if block.isProofOfWork then totals.nFees else 0 := by
      simp only [nExpectedMint, Node.tipMoneySupply, tipAfter, map_some, getD_some,
        supply, Node.withSupply_nHeight, connects.height, height, CBlockIndex.mintHeight]
    rw [value] at valid
    exact valid

/-! ## Chains -/

/-- The entries of a chain, the tip first, whose blocks `ConnectBlock` has accepted one on top of
the other, each in a node of its own that fits. It skips the genesis block. -/
inductive ConnectedChain (fits : LocalData → Node → CBlock → Prop) : List CBlockIndex → Prop
  | genesis {pindex : CBlockIndex} (root : pindex.nHeight = 0)
      (skipped : pindex.nMoneySupply = 0) : ConnectedChain fits [pindex]
  | connect {data : LocalData} {node : Node} {fScriptChecks : Bool} {block : CBlock}
      {pindex : CBlockIndex} {view : CCoinsViewCache} {prev stored : CBlockIndex}
      {rest : List CBlockIndex} (chain : ConnectedChain fits (prev :: rest))
      (connects : ConnectsOn data node fScriptChecks block pindex view prev stored)
      (fit : fits data node block) : ConnectedChain fits (stored :: prev :: rest)

omit [Crypto] in
theorem Minted.supply {nFees : CAmount} (minted : Minted block prev stored nFees) :
    stored.nMoneySupply ≤
      prev.nMoneySupply + getBlockValue prev.nMoneySupply prev.mintHeight := by
  have fees := minted.fees
  have mint := minted.mint
  have bound := minted.bound
  split_ifs at bound <;> linarith

/-- **The cap on the money supply.** In every chain whose blocks all had their mint compared, the
money supply of every block is at most `MaxMoneyOut()`; and the subsidy is never negative. -/
theorem moneySupply_le_of_chain (capped : 0 ≤ nMaxMoneyOut) {entries : List CBlockIndex}
    (chain : ConnectedChain (fun data node block => data.mintUnchecked node block = false)
      entries) :
    (∀ pindex ∈ entries, pindex.nMoneySupply ≤ nMaxMoneyOut) ∧
      ∀ nMoneySupply nHeight, 0 ≤ getBlockValue nMoneySupply nHeight := by
  refine ⟨?_, getBlockValue_nonneg⟩
  induction chain with
  | genesis root skipped =>
    intro pindex member
    obtain rfl := mem_singleton.mp member
    rw [skipped]
    exact capped
  | connect chain connects checked ih =>
    intro pindex member
    rcases mem_cons.mp member with rfl | member
    · obtain ⟨nFees, minted⟩ := connects.minted checked
      exact minted.supply.trans ((getBlockValue_le _ _).2 (ih _ mem_cons_self))
    · exact ih pindex member

/-- The subsidies up to a height. -/
def scheduledSubsidy : Nat → CAmount
  | 0 => 0
  | nHeight + 1 =>
    scheduledSubsidy nHeight +
      blockSubsidy (if nStakePointerForkHeight ≤ (nHeight : Int) + 1 then (nHeight : Int) + 1
        else (nHeight : Int))

/-- The node knows that no superblock is due. -/
def LocalData.paysNoBudget (data : LocalData) (node : Node) (block : CBlock) : Prop :=
  data.fSynced = true ∧ (data.isSporkActive .SPORK_13_ENABLE_SUPERBLOCKS &&
    data.isBudgetPaymentBlock (node.heightOnTopOf block.hashPrevBlock)) = false

theorem ConnectsOn.checked (connects : ConnectsOn data node fScriptChecks block pindex view prev
    stored) (plain : data.paysNoBudget node block) : data.mintUnchecked node block = false := by
  obtain ⟨top, tip, _⟩ := connects.tip
  obtain ⟨synced, noBudget⟩ := plain
  unfold LocalData.mintUnchecked
  rw [tip]
  simp only [synced, isNone_some, Bool.false_or, if_true]
  exact noBudget

theorem ConnectedChain.scheduled {entries : List CBlockIndex}
    (chain : ConnectedChain LocalData.paysNoBudget entries) :
    ∀ pindex ∈ entries, 0 ≤ pindex.nHeight ∧
      pindex.nMoneySupply ≤ scheduledSubsidy pindex.nHeight.toNat := by
  induction chain with
  | genesis root skipped =>
    intro pindex member
    obtain rfl := mem_singleton.mp member
    rw [root, skipped]
    exact ⟨le_rfl, le_rfl⟩
  | @connect data node fScriptChecks block pindex view prev stored rest chain connects plain ih =>
    intro other member
    rcases mem_cons.mp member with rfl | member
    · obtain ⟨nonneg, below⟩ := ih prev mem_cons_self
      obtain ⟨nFees, minted⟩ := connects.minted (connects.checked plain)
      obtain ⟨height, same⟩ := Int.eq_ofNat_of_zero_le nonneg
      rw [minted.height, same]
      rw [same, Int.toNat_natCast] at below
      have step : scheduledSubsidy (height + 1) =
          scheduledSubsidy height + blockSubsidy prev.mintHeight := by
        rw [scheduledSubsidy, CBlockIndex.mintHeight, same]
      refine ⟨by omega, ?_⟩
      rw [show ((height : Int) + 1).toNat = height + 1 by omega, step]
      have subsidy := (getBlockValue_le prev.nMoneySupply prev.mintHeight).1
      exact minted.supply.trans (add_le_add below subsidy)
    · exact ih other member

/-- **What a block may mint.** A block that a synchronized node accepts at a height that pays no
budget mints at most the subsidy on top of its parent, and the fees besides if it is a block of
proof of work; so the money supply of every chain of such blocks is within the schedule. -/
theorem mintedWithinSchedule :
    (∀ (data : LocalData) (node : Node) (fScriptChecks : Bool) (block : CBlock)
        (pindex : CBlockIndex) (view : CCoinsViewCache) (prev stored : CBlockIndex),
      ConnectsOn data node fScriptChecks block pindex view prev stored →
      data.paysNoBudget node block → ∃ nFees, Minted block prev stored nFees) ∧
    ∀ entries, ConnectedChain LocalData.paysNoBudget entries →
      ∀ pindex ∈ entries, pindex.nMoneySupply ≤ scheduledSubsidy pindex.nHeight.toNat := by
  constructor
  · intro data node fScriptChecks block pindex view prev stored connects plain
    exact connects.minted (connects.checked plain)
  · intro entries chain pindex member
    exact (chain.scheduled pindex member).2

end

namespace Superblock

/-! A regression test chain with a first block that mints what the schedule has for height `0`,
and a second block that pays a budget and mints more. -/

/-- The block of proof of work at height `n` with these outputs. -/
def mintBlock (n : Nat) (vout : List CTxOut) : CBlock :=
  StakedTip.withMerkleRoot
    { nVersion := 3, hashPrevBlock := BitVec.ofNat 256 (n - 1), hashMerkleRoot := 0,
      nTime := 1400000000 + 600 * n, nBits := 0x207fffff, nNonce := n,
      vtx := [StakedTip.coinbase n vout] }

def first : CBlock := mintBlock 1 [{ nValue := 1809759 * COIN, scriptPubKey := [0x51] }]

def second : CBlock :=
  mintBlock 2 [{ nValue := 5, scriptPubKey := [0x52] },
    { nValue := 43199500 * COIN - 5, scriptPubKey := [0x51] }]

def entry (n : Nat) (block : CBlock) (nMoneySupply : CAmount) : CBlockIndex :=
  { CBlockIndex.ofBlock block with
    phashBlock := some (BitVec.ofNat 256 n),
    pprev := if n = 0 then none else some (BitVec.ofNat 256 (n - 1)), nHeight := n,
    nMoneySupply := nMoneySupply, nTx := 1, nStatus := { valid := 3, haveData := true } }

def genesis : CBlockIndex := entry 0 (mintBlock 0 []) 0

/-- The node with the first `height` blocks connected. -/
def node (height : Nat) : Node :=
  { StakedTip.node with
    mapBlockIndex := fun hash =>
      if hash = 0 then some genesis
      else if hash = 1 then some (entry 1 first (if height = 0 then 0 else 1809759 * COIN))
      else if hash = 2 then some (entry 2 second 0)
      else none
    vChain := (List.range (height + 1)).map (BitVec.ofNat 256) }

def view (height : Nat) : CCoinsViewCache := ⟨fun _ => {}, BitVec.ofNat 256 height⟩

/-- A synchronized node without budgets. -/
def plain : LocalData := { StakedTip.data with fSynced := true }

/-- A synchronized node with a budget that pays at height `2`. -/
def budgeted : LocalData :=
  { plain with
    isSporkActive := fun spork => spork == .SPORK_13_ENABLE_SUPERBLOCKS
    nEnabled := 10
    mapFinalizedBudgets := [⟨true, 2, [⟨1, [0x52], 5⟩], 1⟩] }

end Superblock

section

local instance Superblock.params : ChainParams := regTestParams 0
local instance Superblock.instCrypto : Crypto := StakedTip.crypto

open Superblock

theorem Superblock.connectsOn (hash : Uint256) {data : LocalData} {height : Nat}
    {block : CBlock} {pindex prev : CBlockIndex} {supply mint : CAmount}
    (top : ∃ top, (node height).tip = some top ∧
      (node height).mapBlockIndex.prev pindex = some top ∧ top.nHeight = prev.nHeight ∧
      top.nMoneySupply = prev.nMoneySupply)
    (above : pindex.nHeight = prev.nHeight + 1) (named : pindex.phashBlock = some hash)
    (found : (node height).mapBlockIndex hash = some pindex)
    (accepted : (connectBlock data (node height) true block pindex (view height)
      false).blockundo.isSome = true)
    (left : ((connectBlock data (node height) true block pindex (view height)
      false).node.mapBlockIndex hash).map (fun stored => (stored.nHeight, stored.nMoneySupply,
        stored.nMint)) = some (pindex.nHeight, supply, mint)) :
    ∃ stored, ConnectsOn data (node height) true block pindex (view height) prev stored ∧
      stored.nHeight = pindex.nHeight ∧ stored.nMoneySupply = supply ∧ stored.nMint = mint := by
  obtain ⟨stored, there, fields⟩ := map_eq_some_iff.mp left
  simp only [Prod.mk.injEq] at fields
  exact ⟨stored, ⟨top, above, ⟨hash, named, found, there⟩,
    ConnectResult.accepted_of_blockundo accepted⟩, fields⟩

theorem Superblock.connects_first : ∃ stored,
    ConnectsOn plain (node 0) true first (entry 1 first 0) (view 0) genesis stored ∧
      stored.nHeight = 1 ∧ stored.nMoneySupply = 1809759 * COIN ∧
      stored.nMint = 1809759 * COIN := by
  apply Superblock.connectsOn 1
  · exact ⟨genesis, rfl, rfl, rfl, rfl⟩
  · rfl
  · rfl
  · rfl
  · decide +kernel
  · decide +kernel

theorem Superblock.connects_second {prev : CBlockIndex} (height : prev.nHeight = 1)
    (supply : prev.nMoneySupply = 1809759 * COIN) : ∃ stored,
      ConnectsOn budgeted (node 1) true second (entry 2 second 0) (view 1) prev stored ∧
        stored.nHeight = 2 ∧ stored.nMoneySupply = (1809759 + 43199500) * COIN ∧
        stored.nMint = 43199500 * COIN := by
  apply Superblock.connectsOn 2
  · exact ⟨entry 1 first (1809759 * COIN), rfl, rfl, height.symm, supply.symm⟩
  · rw [height]
    rfl
  · rfl
  · rfl
  · decide +kernel
  · decide +kernel

theorem Superblock.plain_noBudget : plain.paysNoBudget (node 0) first := ⟨rfl, rfl⟩

/-- A superblock at height `2` mints the whole cap once more. -/
theorem superblock_exceeds_cap :
    ∃ entries, ConnectedChain (fun data _ _ => data.fSynced = true) entries ∧
      ∃ pindex ∈ entries, nMaxMoneyOut < pindex.nMoneySupply := by
  obtain ⟨stored, connects, height, supply, _⟩ := Superblock.connects_first
  obtain ⟨last, connectsLast, _, exceeds, _⟩ := Superblock.connects_second height supply
  refine ⟨[last, stored, genesis], ((ConnectedChain.genesis rfl rfl).connect connects
    rfl).connect connectsLast rfl, last, mem_cons_self, ?_⟩
  rw [exceeds]
  decide

/-- The chain of the genesis block and the first block. -/
theorem moneySupply_le_of_chain_first : ∃ stored,
    ConnectsOn plain (node 0) true first (entry 1 first 0) (view 0) genesis stored ∧
      (∀ pindex ∈ [stored, genesis], pindex.nMoneySupply ≤ nMaxMoneyOut) ∧
      ∀ nMoneySupply nHeight, 0 ≤ getBlockValue nMoneySupply nHeight := by
  obtain ⟨stored, connects, _⟩ := Superblock.connects_first
  refine ⟨stored, connects, moneySupply_le_of_chain (by decide) ?_⟩
  exact (ConnectedChain.genesis rfl rfl).connect connects
    (connects.checked Superblock.plain_noBudget)

/-- The first block mints more than the subsidy of its own height, at a height that pays no
budget. -/
theorem firstBlock_overSubsidy : ∃ stored,
    ConnectsOn plain (node 0) true first (entry 1 first 0) (view 0) genesis stored ∧
      plain.paysNoBudget (node 0) first ∧
      getBlockValue genesis.nMoneySupply stored.nHeight < stored.nMint := by
  obtain ⟨stored, connects, height, _, mint⟩ := Superblock.connects_first
  refine ⟨stored, connects, Superblock.plain_noBudget, ?_⟩
  rw [height, mint]
  decide

theorem mintedWithinSchedule_first : ∃ stored,
    (∃ nFees, Minted first genesis stored nFees) ∧
      ∀ pindex ∈ [stored, genesis],
        pindex.nMoneySupply ≤ scheduledSubsidy pindex.nHeight.toNat := by
  obtain ⟨stored, connects, _⟩ := Superblock.connects_first
  refine ⟨stored, ?_, ?_⟩
  · exact mintedWithinSchedule.1 _ _ _ _ _ _ _ _ connects Superblock.plain_noBudget
  · exact mintedWithinSchedule.2 _
      ((ConnectedChain.genesis rfl rfl).connect connects Superblock.plain_noBudget)

end

end Agouti
