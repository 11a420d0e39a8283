import Agouti.Consensus.UsedPointers

/-! # Used stake pointers over whole runs

`VerifyDB` rolls a scratch view back from the tip and forgets the live record of
every block it disconnects; its second loop records them again. A run of a node
keeps the records exact when each call does its part (`ChainCall.Keeps`): the main
theorem is `pointersExact_of_reached`.
-/

namespace Agouti

open Node List Option

section

variable [ChainParams] [Crypto]

/-! ### Verifying the chain -/

/-- The state of `VerifyDB` after its first loop: only records changed, those of the
blocks above `pindexState` are gone. -/
structure RolledBack (node : Node) (state : VerifyState) : Prop where
  global : ∃ used, state.node = { node with mapUsedStakePointers := used }
  forgotten : ∀ key value,
    some (key, value) ∈ node.register.chain.drop (state.stateHeight + 1).toNat →
      state.node.mapUsedStakePointers key = none
  kept : ∀ key,
    (∀ value, some (key, value) ∉ node.register.chain.drop (state.stateHeight + 1).toNat) →
      state.node.mapUsedStakePointers key = node.mapUsedStakePointers key

/-- The records after `VerifyDB` has connected the given blocks again. -/
structure Replayed (entries : List (Option (Uint256 × Uint256))) (before after : Node)
    (connected : Bool) : Prop where
  blocks : SameBlocks before after
  kept : ∀ key, (∀ value, some (key, value) ∉ entries) →
    after.mapUsedStakePointers key = before.mapUsedStakePointers key
  held : connected = true → ∀ key value, some (key, value) ∈ entries →
    before.mapUsedStakePointers key = none ∧ after.mapUsedStakePointers key = some value

namespace PointersKept

variable {node : Node}

theorem verifyBlock_rolledBack (kept : PointersKept node) (data : LocalData)
    (options : VerifyOptions) {i : Nat} {hash : Uint256} {pindex : CBlockIndex}
    {state : VerifyState} (active : node.vChain[i]? = some hash)
    (found : node.mapBlockIndex hash = some pindex) (rolled : RolledBack node state) :
    RolledBack node (verifyBlock data options pindex state).1 := by
  obtain ⟨used, same⟩ := rolled.global
  have readSame : state.node.readBlockFromDisk pindex = node.readBlockFromDisk pindex := by
    rw [same]
    rfl
  unfold verifyBlock
  cases read : state.node.readBlockFromDisk pindex with
  | none => exact rolled
  | some block =>
    simp only
    split
    · exact rolled
    · split
      · exact rolled
      · split
        · rename_i top
          split
          · exact rolled
          · rename_i changed coins fClean disconnected
            obtain rfl := disconnectBlock_node disconnected
            rw [readSame] at read
            obtain ⟨other, there, height, _⟩ := kept.at_height active
            rw [found] at there
            obtain rfl := some.inj there
            have stateHeight : state.stateHeight = i := by
              simp only [Bool.and_eq_true, beq_iff_eq] at top
              omega
            have entry : node.register.chain[i]? = some (pointerEntry block pindex hash) := by
              simp only [Node.register, List.getElem?_map, active, map_some,
                stored_pointer found read]
            have position : (pindex.nHeight - 1 + 1).toNat = i := by omega
            have below : (state.stateHeight + 1).toNat = i + 1 := by omega
            have drop : node.register.chain.drop i =
                pointerEntry block pindex hash :: node.register.chain.drop (i + 1) :=
              (List.drop_eq_getElem?_toList_append ..).trans (by rw [entry]; rfl)
            have erased := erasePointer_used state.node block pindex hash
            have forgotten := rolled.forgotten
            have untouched := rolled.kept
            rw [below] at forgotten untouched
            refine ⟨?_, fun key value member => ?_, fun key absent => ?_⟩
            · refine ⟨(state.node.erasePointer block pindex).mapUsedStakePointers, ?_⟩
              unfold erasePointer
              rw [same]
              split <;> rfl
            · simp only [position, drop, mem_cons] at member
              simp only [erased]
              by_cases here : ∃ value, pointerEntry block pindex hash = some (key, value)
              · obtain ⟨_, here⟩ := here
                exact Register.forget_of_entry here
              · rw [Register.forget_of_other fun value same => here ⟨value, same⟩]
                rcases member with here_ | member
                · exact absurd ⟨value, here_.symm⟩ here
                · exact forgotten key value member
            · simp only [position, drop, mem_cons, not_or] at absent
              simp only [erased]
              rw [Register.forget_of_other fun value same => (absent value).1 same.symm]
              exact untouched key fun value => (absent value).2
        · exact rolled

theorem verifyBack_rolledBack (kept : PointersKept node) {data : LocalData}
    {options : VerifyOptions} {nStopHeight : Int} (fuel : Nat) {i : Nat} {hash : Uint256}
    {pindex : CBlockIndex} {state : VerifyState} (active : node.vChain[i]? = some hash)
    (found : node.mapBlockIndex hash = some pindex) (rolled : RolledBack node state) :
    RolledBack node (verifyBack data options nStopHeight fuel (some pindex) state).1 := by
  induction fuel generalizing i hash pindex state with
  | zero => exact rolled
  | succ fuel ih =>
    have stepped := kept.verifyBlock_rolledBack data options active found rolled
    unfold verifyBack
    split
    · exact rolled
    · rename_i go
      split
      · rename_i later result step
        rw [step] at stepped
        exact stepped
      · rename_i later step
        rw [step] at stepped
        obtain ⟨used, same⟩ := stepped.global
        obtain ⟨other, there, _, pprev⟩ := kept.at_height active
        rw [found] at there
        obtain rfl := some.inj there
        cases parent : pindex.pprev with
        | none => simp [parent] at go
        | some hashPrev =>
          have activePrev : node.vChain[i - 1]? = some hashPrev := by
            rw [parent, List.getLast?_take] at pprev
            split at pprev
            · contradiction
            · have bound := (List.getElem?_eq_some_iff.mp active).1
              rw [List.getElem?_eq_getElem (show i - 1 < node.vChain.length by omega)]
                at pprev ⊢
              simpa using pprev.symm
          obtain ⟨prev, foundPrev, _, _⟩ := kept.at_height activePrev
          have step : later.node.mapBlockIndex.prev pindex = some prev := by
            rw [same]
            simp only [BlockMap.prev, parent, bind_some, foundPrev]
          rw [step]
          exact ih activePrev foundPrev stepped

theorem verifyForward_replayed (kept : PointersKept node) (data : LocalData)
    (fScriptChecks : Bool) {rest : List Uint256} (active : ∀ hash ∈ rest, hash ∈ node.vChain)
    {current : Node} (same : SameBlocks node current) (coins : CCoinsViewCache) :
    Replayed (rest.map node.storedPointer) current
      (verifyForward data fScriptChecks rest current coins).1
      (verifyForward data fScriptChecks rest current coins).2 := by
  induction rest generalizing current coins with
  | nil =>
    exact ⟨.refl current, fun _ _ => rfl, fun _ _ _ member => absurd member not_mem_nil⟩
  | cons hash rest ih =>
    have stopped : Replayed (List.map node.storedPointer (hash :: rest)) current current false :=
      ⟨.refl current, fun _ _ => rfl, fun connected => by contradiction⟩
    unfold verifyForward
    split
    · exact stopped
    · rename_i pindex block lookup
      simp only [bind_eq_some_iff, map_eq_some_iff, Prod.mk.injEq] at lookup
      obtain ⟨_, found, _, read, rfl, rfl⟩ := lookup
      rename_i pindex block
      have core : node.store.cores hash = some pindex.core := by
        rw [← same.store]
        exact store_cores found
      have holds : current.Holds pindex := by
        intro other known
        have here := kept.sound.hash hash _ core
        rw [show pindex.core.phashBlock = pindex.phashBlock from rfl, known] at here
        obtain rfl := some.inj here
        rw [found, map_some]
      have stored : node.storedPointer hash = pointerEntry block pindex hash := by
        rw [← storedPointer_of_store same.store]
        exact stored_pointer found read
      have hashed : block.getHash = hash := by
        obtain ⟨pindexOld, old, sameCore⟩ := entry_of_core core
        refine kept.stored_hash old (?_ : node.readBlockFromDisk pindexOld = some block)
        simp only [CBlockIndex.core, IndexCore.mk.injEq] at sameCore
        have bodies : current.diskBlocks = node.diskBlocks := congrArg BlockStore.bodies same.store
        simpa only [readBlockFromDisk, CBlockIndex.getBlockHash, sameCore.1,
          sameCore.2.2.2.2.1, bodies] using read
      have frame := connectBlock_frame holds data fScriptChecks block coins false
      simp only
      split
      · rename_i state refused
        exact ⟨frame.blocks, fun key _ => by rw [frame.refused state refused],
          fun connected => by contradiction⟩
      · rename_i view undo accepted
        have replayed := ih (fun other member => active other (mem_cons_of_mem hash member))
          (same.trans frame.blocks) view
        have recorded : (connectBlock data current fScriptChecks block pindex coins
            false).node.mapUsedStakePointers =
              Register.record current.mapUsedStakePointers (node.storedPointer hash) ∧
            Register.Fresh current.mapUsedStakePointers (node.storedPointer hash) := by
          by_cases genesis : block.getHash = ChainParams.hashGenesisBlock
          · rw [kept.genesis_plain hash (hashed.symm.trans genesis), frame.genesis genesis]
            exact ⟨rfl, fun key value entry => by contradiction⟩
          · rw [stored, ← hashed]
            exact (frame.accepted _ rfl genesis accepted).entry
        refine ⟨frame.blocks.trans replayed.blocks, fun key absent => ?_,
          fun connected key value member => ?_⟩
        · simp only [map_cons, mem_cons, not_or] at absent
          rw [replayed.kept key fun value => (absent value).2, recorded.1,
            Register.record_of_other fun value same => (absent value).1 same.symm]
        · have later := replayed.held connected
          rw [recorded.1] at later
          rcases mem_cons.mp member with here | member
          · have absent : ∀ other, some (key, other) ∉ rest.map node.storedPointer := by
              intro other again
              have free := (later key other again).1
              rw [Register.record_of_entry here.symm] at free
              contradiction
            refine ⟨recorded.2 key value here.symm, ?_⟩
            rw [replayed.kept key absent, recorded.1, Register.record_of_entry here.symm]
          · obtain ⟨free, set⟩ := later key value member
            refine ⟨?_, set⟩
            by_cases here : ∃ other, node.storedPointer hash = some (key, other)
            · obtain ⟨other, here⟩ := here
              rw [Register.record_of_entry here] at free
              contradiction
            · rwa [Register.record_of_other fun other same => here ⟨other, same⟩] at free

end PointersKept

/-- Verifying keeps the records when the first loop disconnects no block that uses a
pointer, or when both loops reach their end and the second one accepts every block
again. -/
def VerifyKeeps (data : LocalData) (options : VerifyOptions) (node : Node)
    (coins : CCoinsViewCache) : Prop :=
  ∀ pindex, node.tip = some pindex → pindex.pprev ≠ none →
    (∀ i hash block, node.StakedAt i hash block →
      (i : Int) ≤ (verifyRollback data options node coins pindex).1.stateHeight) ∨
    ((verifyRollback data options node coins pindex).2 = none ∧
      (verifyRollback data options node coins pindex).1.fFailure = false ∧ 4 ≤ options.level ∧
      (verifyReplay data options node (verifyRollback data options node coins pindex).1).2 = true)

namespace PointersKept

variable {node after : Node}

theorem rerecorded (kept : PointersKept node) (same : SameBlocks node after) (count : Nat)
    (held : ∀ key value, some (key, value) ∈ node.register.chain.drop count →
      after.mapUsedStakePointers key = some value)
    (untouched : ∀ key, (∀ value, some (key, value) ∉ node.register.chain.drop count) →
      after.mapUsedStakePointers key = node.mapUsedStakePointers key) :
    PointersKept after := by
  refine ⟨?_, ?_, ?_, ?_⟩
  · rw [same.store]
    exact kept.sound
  · rw [same.store]
    exact kept.faithful
  · rw [same.store, same.vChain]
    exact kept.path
  · have register : after.register = ⟨node.register.chain, after.mapUsedStakePointers⟩ := by
      simp only [Node.register, storedPointer_of_store same.store, same.vChain]
    rw [register]
    exact kept.exact.rerecord count held untouched

theorem untouched (kept : PointersKept node) (same : SameBlocks node after) (count : Nat)
    (plain : ∀ key value, some (key, value) ∉ node.register.chain.drop count)
    (used : ∀ key, (∀ value, some (key, value) ∉ node.register.chain.drop count) →
      after.mapUsedStakePointers key = node.mapUsedStakePointers key) :
    PointersKept after :=
  kept.rerecorded same count (fun key value member => absurd member (plain key value)) used

theorem verifyRollback_rolledBack (kept : PointersKept node) (data : LocalData)
    (options : VerifyOptions) (coins : CCoinsViewCache) {pindex : CBlockIndex}
    (tip : node.tip = some pindex) :
    RolledBack node (verifyRollback data options node coins pindex).1 := by
  obtain ⟨front, hash, split, found, height⟩ := kept.at_tip tip
  have active : node.vChain[front.length]? = some hash := by
    rw [split, List.getElem?_concat_length]
  have beyond : node.register.chain.drop (pindex.nHeight + 1).toNat = [] := by
    refine drop_eq_nil_of_le ?_
    simp only [Node.register, split, length_map, length_append, length_singleton]
    omega
  refine kept.verifyBack_rolledBack _ active found ⟨⟨_, rfl⟩, fun key value member => ?_,
    fun key _ => rfl⟩
  simp only [beyond] at member
  exact absurd member not_mem_nil

theorem verifyDB_kept (kept : PointersKept node) {data : LocalData} {options : VerifyOptions}
    {coins : CCoinsViewCache} (keeps : VerifyKeeps data options node coins) :
    PointersKept (verifyDB data options node coins).1 := by
  unfold verifyDB
  cases tip : node.tip with
  | none => exact kept
  | some pindex =>
    simp only
    split
    · exact kept
    · rename_i parent
      have rolled := kept.verifyRollback_rolledBack data options coins tip
      have condition := keeps pindex tip (by simpa using parent)
      obtain ⟨used, same⟩ := rolled.global
      have blocks : SameBlocks node (verifyRollback data options node coins pindex).1.node := by
        rw [same]
        exact ⟨rfl, rfl⟩
      have active : ∀ hash ∈ node.vChain.drop
          ((verifyRollback data options node coins pindex).1.stateHeight + 1).toNat,
          hash ∈ node.vChain := fun _ member => mem_of_mem_drop member
      have replayed := kept.verifyForward_replayed data options.fScriptChecks active blocks
        (verifyRollback data options node coins pindex).1.coins
      have entries : (node.vChain.drop ((verifyRollback data options node coins
          pindex).1.stateHeight + 1).toNat).map node.storedPointer =
            node.register.chain.drop ((verifyRollback data options node coins
              pindex).1.stateHeight + 1).toNat := map_drop
      rw [entries] at replayed
      rcases condition with plain | ⟨ended, clean, level, connected⟩
      · have none : ∀ key value, some (key, value) ∉ node.register.chain.drop
            ((verifyRollback data options node coins pindex).1.stateHeight + 1).toNat := by
          intro key value member
          obtain ⟨j, here⟩ := List.getElem?_of_mem member
          rw [List.getElem?_drop] at here
          obtain ⟨block, staked, _⟩ := register_entry.mp here
          have below := plain _ value block staked
          omega
        have first : PointersKept (verifyRollback data options node coins pindex).1.node :=
          kept.untouched blocks _ none rolled.kept
        have second : PointersKept
            (verifyReplay data options node (verifyRollback data options node coins pindex).1).1 :=
          kept.untouched (blocks.trans replayed.blocks) _ none fun key absent =>
            (replayed.kept key absent).trans (rolled.kept key absent)
        split
        · rename_i state result step
          rw [step] at first
          exact first
        · rename_i state step
          rw [step] at first second
          split
          · exact first
          · split
            · exact first
            · exact second
      · have second : PointersKept
            (verifyReplay data options node (verifyRollback data options node coins pindex).1).1 :=
          kept.rerecorded (blocks.trans replayed.blocks) _
            (fun key value member => (replayed.held connected key value member).2)
            fun key absent => (replayed.kept key absent).trans (rolled.kept key absent)
        split
        · rename_i state result step
          rw [step] at ended
          contradiction
        · rename_i state step
          rw [step] at clean second
          simp only at clean
          rw [if_neg (by simp [clean]), if_neg (by omega)]
          exact second

end PointersKept

/-! ### Runs -/

/-- The calls that reach `ConnectBlock` or `DisconnectBlock`, write the records, or
bring blocks. -/
inductive ChainCall
  /-- `ProcessNewBlock` up to `ActivateBestChain` -/
  | processNewBlock (data : LocalData) (block : CBlock) (fromPeer written : Bool)
  | connectTip (data : LocalData) (fScriptChecks : Bool) (hash : Uint256) (pblock : Option CBlock)
      (flushed : Bool)
  | disconnectTip (flushed : Bool)
  | testBlockValidity (data : LocalData) (fScriptChecks : Bool) (block : CBlock)
      (fCheckPOW fCheckMerkleRoot : Bool)
  | rebuildStakePointerCache
  | verifyDB (data : LocalData) (options : VerifyOptions) (coins : CCoinsViewCache)

/-- The callers of `ConnectTip` hand over a child of the tip whose body is stored, and
in memory a block of that hash only. -/
def connects (node : Node) (hash : Uint256) (pblock : Option CBlock) (pindex : CBlockIndex) :
    Bool :=
  pindex.pprev == node.vChain.getLast? && pindex.nStatus.haveData &&
    (pblock.map fun block => block.getHash == hash).getD true

variable [Legacy]

def ChainCall.run (node : Node) : ChainCall → Node
  | processNewBlock data block fromPeer written =>
    (Agouti.processNewBlock data node block fromPeer written).1
  | connectTip data fScriptChecks hash pblock flushed =>
    match node.mapBlockIndex hash with
    | none => node
    | some pindex =>
      if connects node hash pblock pindex then
        (Agouti.connectTip data node fScriptChecks pindex pblock flushed).1
      else node
  | disconnectTip flushed => (Agouti.disconnectTip node flushed).1
  | testBlockValidity data fScriptChecks block fCheckPOW fCheckMerkleRoot =>
    match node.tip with
    | none => node
    | some pindexPrev =>
      (Agouti.testBlockValidity data node fScriptChecks block pindexPrev fCheckPOW
        fCheckMerkleRoot).1
  | rebuildStakePointerCache => Agouti.rebuildStakePointerCache node
  | verifyDB data options coins => (Agouti.verifyDB data options node coins).1

omit [Legacy] in
/-- The condition under which a call keeps the records exact. Testing a block and
rebuilding the records always do. -/
def ChainCall.Keeps (node : Node) : ChainCall → Prop
  | processNewBlock _ block _ _ => node.store.Welcomes block
  | connectTip data fScriptChecks hash pblock flushed =>
    ConnectKeeps data node fScriptChecks hash pblock flushed
  | disconnectTip flushed => DisconnectKeeps node flushed
  | testBlockValidity .. => True
  | rebuildStakePointerCache => True
  | verifyDB data options coins => VerifyKeeps data options node coins

theorem ChainCall.run_kept {node : Node} (kept : PointersKept node) {call : ChainCall}
    (keeps : call.Keeps node) : PointersKept (call.run node) := by
  cases call with
  | processNewBlock data block fromPeer written =>
    exact kept.arrived (processNewBlock_arrived kept.sound data block fromPeer written) keeps
  | connectTip data fScriptChecks hash pblock flushed =>
    simp only [ChainCall.run]
    split
    · exact kept
    · rename_i pindex found
      split
      · rename_i ready
        simp only [connects, Bool.and_eq_true, beq_iff_eq] at ready
        obtain ⟨⟨next, stored⟩, named⟩ := ready
        refine connectTip_kept kept found stored next (fun block given => ?_) keeps
        simpa [given] using named
      · exact kept
  | disconnectTip flushed => exact disconnectTip_kept kept keeps
  | testBlockValidity data fScriptChecks block fCheckPOW fCheckMerkleRoot =>
    simp only [ChainCall.run]
    split
    · exact kept
    · exact kept.congr (testBlockValidity_same ..).pointers
  | rebuildStakePointerCache => exact kept.rebuild
  | verifyDB data options coins => exact kept.verifyDB_kept keeps

/-- The nodes that the calls lead to. -/
inductive Reached (start : Node) : Node → Prop
  | start : Reached start start
  | call {node : Node} (call : ChainCall) (reached : Reached start node)
      (keeps : call.Keeps node) : Reached start (call.run node)

/-- **The records stay exact.** From a node with exact records over a sound block index,
every run whose calls all meet their conditions reaches only nodes with exact
records, and no two blocks of the active chain within the validity period use the
same stake pointer. -/
theorem pointersExact_of_reached {start node : Node} (kept : PointersKept start)
    (reached : Reached start node) : PointersExact node := by
  have keptNode : PointersKept node := by
    induction reached with
    | start => exact kept
    | call call _ keeps ih => exact ChainCall.run_kept ih keeps
  exact pointersExact_of_register keptNode.exact

end

namespace StakedTip

/-! A regression test chain with one stake block at its tip: 101 blocks of proof of
work, whose hash is their nonce, and a version 5 block. -/

/-- Block hashes below version 4 are the nonce. -/
@[reducible] def crypto : Crypto :=
  { checksumCrypto with
    XEVAN := fun bytes => BitVec.ofNat 256 (CScript.littleEndian (bytes.drop 76)) }

def coinbase (n : Nat) (vout : List CTxOut) : CTransaction :=
  { nVersion := 1, vin := [{ prevout := .null, scriptSig := [UInt8.ofNat n, 0x51] }], vout := vout,
    nLockTime := 0 }

def withMerkleRoot (block : CBlock) : CBlock :=
  { block with hashMerkleRoot := (@CBlock.buildMerkleTree crypto block).1 }

def minerKey : CPubKey := ⟨2 :: List.replicate 32 7⟩

/-- The block of proof of work at height `n`. -/
def powBlock (n : Nat) : CBlock :=
  withMerkleRoot
    { nVersion := 3, hashPrevBlock := BitVec.ofNat 256 (n - 1), hashMerkleRoot := 0,
      nTime := 1400000000 + 600 * n, nBits := 0x207fffff, nNonce := n,
      vtx := [coinbase n
        [{ nValue := 1, scriptPubKey := getScriptForKeyID (@CPubKey.getID crypto minerKey) }]] }

def powIndex (n : Nat) : CBlockIndex :=
  { CBlockIndex.ofBlock (powBlock n) with
    phashBlock := some (BitVec.ofNat 256 n),
    pprev := if n = 0 then none else some (BitVec.ofNat 256 (n - 1)), nHeight := n, nTx := 1,
    nStatus := { valid := BLOCK_VALID_SCRIPTS, haveData := true, haveUndo := true } }

def tipBlock : CBlock :=
  withMerkleRoot
    { nVersion := 5, hashPrevBlock := 100, hashMerkleRoot := 0, nTime := 1400060600,
      nBits := 0x1e00ffff, nNonce := 0,
      vtx := [coinbase 101 [.empty],
        { nVersion := 1, vin := [{ prevout := .null, scriptSig := [CScript.OP_PROOFOFSTAKE] }],
          vout := [.empty, { nValue := 1, scriptPubKey := [0x51] }], nLockTime := 0 }],
      vchBlockSig := [1],
      stakePointer := { StakePointer.null with hashBlock := 90, txid := 3, nPos := 1 } }

def tipHash : Uint256 := @CBlock.getHash crypto tipBlock

def tipIndex : CBlockIndex :=
  { CBlockIndex.ofBlock tipBlock with
    phashBlock := some tipHash, pprev := some 100, nHeight := 101, nTx := 2,
    nStatus := { valid := BLOCK_VALID_SCRIPTS, haveData := true, haveUndo := true } }

def coins : CCoinsViewCache where
  coins txid :=
    ((tipBlock.vtx.map fun tx => (tx, (101 : Int))) ++
      (powBlock 100).vtx.map fun tx => (tx, (100 : Int))).findSome?
        (fun entry => if @CTransaction.getHash crypto entry.1 = txid then
          some (CCoins.fromTx entry.1 entry.2) else none) |>.getD {}
  hashBlock := tipHash

def node : Node where
  mapBlockIndex hash :=
    if hash.toNat ≤ 100 then some (powIndex hash.toNat)
    else if hash = tipHash then some tipIndex else none
  vChain := (List.range 101).map (BitVec.ofNat 256) ++ [tipHash]
  diskBlocks hash :=
    if hash.toNat ≤ 100 then some (powBlock hash.toNat)
    else if hash = tipHash then some tipBlock else none
  diskUndo hash := if hash.toNat ≤ 100 then some [] else if hash = tipHash then some [[]] else none
  pcoinsTip := coins
  mapProofOfStake := []
  setStakeSeen := []
  mapUsedStakePointers :=
    Function.update (fun _ => none)
      (@stakePointerHash crypto tipBlock.stakePointer.outpoint) (some tipHash)
  setBlockIndexCandidates := [tipHash]
  mapBlocksUnlinked := []
  nBlockSequenceId := 103

def data : LocalData where
  adjustedTime := 1400060700
  fInitialBlockDownload := false
  isSporkActive _ := false
  mapLockedInputs _ := none
  fSynced := false
  nEnabled := 0
  mapMasternodeBlocks _ := none
  mapFinalizedBudgets := []
  mapSeenVetoVotes := []
  winningNode := none
  fCheckpoints := true
  maxreorg := none
  nRand := 0

/-- The options of the command `verifychain` with a depth of one block. -/
def options (nCheckLevel : Int) : VerifyOptions where
  nCheckLevel := nCheckLevel
  nCheckDepth := 1
  fScriptChecks := true
  fCacheRoom _ := true
  fShutdownRequested _ := false

@[reducible] def legacy : Legacy := ⟨fun _ _ _ => none, fun _ _ => false⟩

end StakedTip

section

local instance StakedTip.params : ChainParams := regTestParams 0
local instance StakedTip.instCrypto : Crypto := StakedTip.crypto

namespace StakedTip

theorem powBlock_hash {n : Nat} (low : n ≤ 100) : (powBlock n).getHash = BitVec.ofNat 256 n := by
  have nonce : ∀ n ≤ 100, CScript.littleEndian (Serialize.le 4 n) = n := by decide
  exact congrArg (BitVec.ofNat 256) (nonce n low)

theorem checked : 100 < tipHash.toNat ∧ node.store.entrySound tipHash = true ∧
    node.storedPointer tipHash =
      some (stakePointerHash tipBlock.stakePointer.outpoint, tipHash) ∧
    ∀ n ≤ 100, node.storedPointer (BitVec.ofNat 256 n) = none := by
  decide +kernel

theorem tipHash_high : 100 < tipHash.toNat := checked.1

theorem toNat_ofNat {n : Nat} (low : n ≤ 100) : (BitVec.ofNat 256 n).toNat = n := by
  rw [BitVec.toNat_ofNat, Nat.mod_eq_of_lt (by omega)]

theorem core_low {hash : Uint256} (low : hash.toNat ≤ 100) :
    node.store.cores hash = some (powIndex hash.toNat).core :=
  store_cores (if_pos low)

theorem core_tip : node.store.cores tipHash = some tipIndex.core :=
  store_cores (by simp only [node, if_neg (Nat.not_le.mpr tipHash_high), ↓reduceIte])

theorem core_cases {hash : Uint256} {core : IndexCore}
    (found : node.store.cores hash = some core) :
    (hash.toNat ≤ 100 ∧ core = (powIndex hash.toNat).core) ∨
      (100 < hash.toNat ∧ hash = tipHash ∧ core = tipIndex.core) := by
  by_cases low : hash.toNat ≤ 100
  · rw [core_low low] at found
    exact .inl ⟨low, (some.inj found).symm⟩
  · by_cases tip : hash = tipHash
    · rw [tip, core_tip] at found
      exact .inr ⟨Nat.not_le.mp low, tip, (some.inj found).symm⟩
    · simp [store, node, low, tip] at found

theorem body_low {hash : Uint256} (low : hash.toNat ≤ 100) :
    node.store.bodies hash = some (powBlock hash.toNat) :=
  if_pos low

theorem body_tip : node.store.bodies tipHash = some tipBlock := by
  simp only [store, node, if_neg (Nat.not_le.mpr tipHash_high), ↓reduceIte]

theorem low_sound {hash : Uint256} (low : hash.toNat ≤ 100) :
    node.store.entrySound hash = true := by
  have here : BitVec.ofNat 256 hash.toNat = hash := by simp
  have hashed : (powBlock hash.toNat).getHash = hash := (powBlock_hash low).trans here
  have work : (powBlock hash.toNat).isProofOfStake = false := rfl
  have below : (BitVec.ofNat 256 (hash.toNat - 1)).toNat = hash.toNat - 1 := toNat_ofNat (by omega)
  have prev := core_low (below.trans_le (by omega))
  rw [below] at prev
  rw [BlockStore.entrySound, core_low low, all_some, body_low low, any_some, hashed,
    work]
  simp only [powIndex, CBlockIndex.core, here]
  by_cases root : hash.toNat = 0
  · simp [root]
  · simp [root, prev, powIndex, CBlockIndex.core]
    omega

theorem entries_sound (hash : Uint256) : node.store.entrySound hash = true := by
  by_cases low : hash.toNat ≤ 100
  · exact low_sound low
  · by_cases tip : hash = tipHash
    · exact tip ▸ checked.2.1
    · simp [BlockStore.entrySound, store, node, low, tip]

theorem sound : node.store.Sound := .of_check entries_sound

theorem faithful : node.store.Faithful where
  version hash core block found _ body := by
    rcases core_cases found with ⟨low, rfl⟩ | ⟨_, rfl, rfl⟩
    · rw [body_low low] at body
      obtain rfl := some.inj body
      rfl
    · rw [body_tip] at body
      obtain rfl := some.inj body
      rfl
  genesis core block found _ body := by
    rw [body_low (by decide)] at body
    obtain rfl := some.inj body
    rfl

theorem path_low : node.store.Path ((List.range 101).map (BitVec.ofNat 256)) := by
  refine ⟨fun i hash found => ?_⟩
  rw [List.getElem?_map, map_eq_some_iff] at found
  obtain ⟨n, place, rfl⟩ := found
  obtain ⟨bound, same⟩ := List.getElem?_eq_some_iff.mp place
  rw [getElem_range] at same
  subst same
  rw [length_range] at bound
  have value : (BitVec.ofNat 256 i).toNat = i := toNat_ofNat (by omega)
  refine ⟨_, core_low (by omega), ?_, rfl, ?_⟩
  · rw [value]
    rfl
  · rw [value, List.getLast?_take]
    by_cases root : i = 0
    · simp [powIndex, CBlockIndex.core, root]
    · simp [powIndex, CBlockIndex.core, root, List.getElem?_range (show i - 1 < 101 by omega)]

def parent : Node :=
  { node with
    vChain := (List.range 101).map (BitVec.ofNat 256), mapUsedStakePointers := fun _ => none }

theorem parent_kept : PointersKept parent where
  sound := sound
  faithful := faithful
  path := path_low
  exact := by
    have none : ∀ (i : Nat) key value, parent.register.chain[i]? ≠ some (some (key, value)) := by
      intro i key value found
      simp only [register, parent, List.getElem?_map, map_eq_some_iff] at found
      obtain ⟨hash, ⟨n, place, rfl⟩, found⟩ := found
      have bound := (List.getElem?_eq_some_iff.mp place).1
      rw [length_range] at bound
      rw [List.getElem?_range bound] at place
      obtain rfl := some.inj place
      have plain := checked.2.2.2 i (by omega)
      exact absurd (found.symm.trans plain) (by simp)
    exact ⟨fun i key value _ found => absurd found (none i key value),
      fun key value held => by contradiction,
      fun i j key first second _ _ found => absurd found (none i key first)⟩

theorem kept : PointersKept node :=
  parent_kept.pushed
    (show parent.mapBlockIndex tipHash = some tipIndex by
      simp only [parent, node, if_neg (Nat.not_le.mpr tipHash_high), ↓reduceIte]) rfl
    rfl rfl rfl
    (by
      have store : parent.store = node.store := rfl
      rw [storedPointer_of_store store, checked.2.2.1]
      rfl)
    (fun _ _ _ => rfl)

def verified : Node × Bool := verifyDB data (options 3) node coins

theorem verified_checked : verified.2 = true ∧ verified.1.vChain[101]? = some tipHash ∧
    (verified.1.mapBlockIndex tipHash = some tipIndex ∧
      verified.1.readBlockFromDisk tipIndex = some tipBlock ∧ isV5Stake tipBlock tipIndex = true) ∧
    verified.1.mapUsedStakePointers (stakePointerHash tipBlock.stakePointer.outpoint) = none ∧
    verified.1.height - nStakePointerValidityPeriod < 101 := by
  decide +kernel

end StakedTip

open StakedTip

/-- `VerifyDB` at level 3, which finds nothing wrong, forgets the record of the tip. -/
theorem verifyDB_not_exact :
    PointersKept node ∧
      (verifyDB data (options 3) node coins).2 = true ∧
      ¬PointersExact
        (verifyDB data (options 3) node coins).1 := by
  obtain ⟨passed, active, staked, lost, recent⟩ := verified_checked
  refine ⟨kept, passed, fun exact => ?_⟩
  have exact : PointersExact verified.1 := exact
  have stakedAt : verified.1.StakedAt 101 tipHash tipBlock :=
    ⟨active, tipIndex, staked⟩
  have recorded := exact.recorded _ _ _ stakedAt recent
  exact some_ne_none _ (recorded.symm.trans lost)

local instance StakedTip.instLegacy : Legacy := legacy

theorem StakedTip.verifyKeeps :
    (ChainCall.verifyDB data (options 4) coins).Keeps
      (ChainCall.rebuildStakePointerCache.run node) := by
  have tip : (ChainCall.rebuildStakePointerCache.run node).tip = some tipIndex := by
    decide +kernel
  intro pindex here _
  rw [tip] at here
  obtain rfl := some.inj here
  exact .inr ⟨by decide +kernel, by decide +kernel, by decide, by decide +kernel⟩

theorem pointersExact_of_reached_stakedTip :
    PointersExact ((ChainCall.verifyDB data (options 4) coins).run
      (ChainCall.rebuildStakePointerCache.run node)) :=
  pointersExact_of_reached kept
    (.call _ (.call .rebuildStakePointerCache .start trivial) verifyKeeps)

end

end Agouti
