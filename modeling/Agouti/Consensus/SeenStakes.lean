import Agouti.Consensus.StakedAccept
import Agouti.Validation.Marks

/-! # The stakes that were seen

`setStakeSeen` holds the stakes of the proof-of-stake blocks that entered the block index. Only
`ProcessNewBlock` reads it: it refuses a block whose stake is in the set while its body is not
stored, be it another block with the same stake or the block itself. A header that arrives alone has
no transactions and no stake, so the set is filled by `AcceptBlock` with the body in hand. Behind it
the block is stored, or it is marked invalid, or the write fails (`acceptBlock_entered`).
-/

namespace Agouti

open Verdict Node Function Option

namespace Node

/-- The node with another `setStakeSeen`. -/
def withStakes (node : Node) (stakes : List (COutPoint × Nat)) : Node :=
  { node with setStakeSeen := stakes }

/-- The node whose `setStakeSeen` does not hold the stake. -/
def forgetStake (node : Node) (stake : COutPoint × Nat) : Node :=
  node.withStakes (node.setStakeSeen.filter fun seen => seen != stake)

end Node

/-! ### Nothing but the duplicate check reads the set -/

section

variable [ChainParams] [Crypto] (node : Node) (stakes : List (COutPoint × Nat))

omit [ChainParams] [Crypto] in
theorem scanPointers_withStakes (outpoint : COutPoint) (nStopHeight : Int) (fuel : Nat)
    (entry : Option CBlockIndex) :
    scanPointers (node.withStakes stakes) outpoint nStopHeight fuel entry =
      scanPointers node outpoint nStopHeight fuel entry := by
  induction fuel generalizing entry with
  | zero => rfl
  | succ fuel ih =>
    cases entry with
    | none => rfl
    | some pindex =>
      unfold scanPointers
      rw [ih]
      rfl

theorem checkStake_withStakes (data : LocalData) (pindexPrev : CBlockIndex) (block : CBlock) :
    checkStake data (node.withStakes stakes) pindexPrev block =
      checkStake data node pindexPrev block := by
  have pointer : checkBlockProofPointer (node.withStakes stakes) pindexPrev
      (pindexPrev.nHeight + 1) block =
        checkBlockProofPointer node pindexPrev (pindexPrev.nHeight + 1) block := by
    unfold checkBlockProofPointer isStakePointerUsed
    simp only [scanPointers_withStakes]
    rfl
  unfold checkStake
  rw [pointer]
  rfl

omit [ChainParams] [Crypto] in
theorem recordProofOfStake_withStakes (nRand : Nat) (hash kernel : Uint256) :
    (node.withStakes stakes).recordProofOfStake nRand hash kernel =
      (node.recordProofOfStake nRand hash kernel).withStakes stakes := by
  unfold recordProofOfStake withStakes
  split
  · rfl
  · rfl

end

/-- The rules of the blocks below the stake pointer fork do not read `setStakeSeen`. -/
def Legacy.Blind [Legacy] : Prop :=
  ∀ (node : Node) (stakes : List (COutPoint × Nat)) (block : CBlock) (nHeight : Int),
    Legacy.checkProofOfStake (node.withStakes stakes) block nHeight =
      Legacy.checkProofOfStake node block nHeight

/-- Older rules that do not read `setStakeSeen`. -/
structure KernelRules extends Legacy where
  blind : @Legacy.Blind toLegacy

namespace StakedNode

variable [ChainParams] [Crypto] [StakeParams]

end StakedNode

section

variable [ChainParams] [Crypto] [Legacy] {node : Node}

omit [Legacy] in
theorem checkBody_withStakes (data : LocalData) (node : Node) (stakes : List (COutPoint × Nat))
    (block : CBlock) (pindex : CBlockIndex) :
    checkBody data (node.withStakes stakes) block pindex = checkBody data node block pindex := rfl

theorem checkWork_withStakes (blind : Legacy.Blind) (data : LocalData) (node : Node)
    (stakes : List (COutPoint × Nat)) (block : CBlock) (pindexPrev : CBlockIndex) :
    checkWork data (node.withStakes stakes) block pindexPrev =
      (checkWork data node block pindexPrev).map fun worked => worked.withStakes stakes := by
  unfold checkWork
  simp only [checkStake_withStakes, blind node, recordProofOfStake_withStakes]
  have index : (node.withStakes stakes).mapBlockIndex = node.mapBlockIndex := rfl
  have kernels : (node.withStakes stakes).mapProofOfStake = node.mapProofOfStake := rfl
  rw [index, kernels]
  repeat' split
  all_goals simp only [map_some, map_none, Option.map_map, comp_def]

theorem acceptWork_withStakes (blind : Legacy.Blind) (data : LocalData) (node : Node)
    (stakes : List (COutPoint × Nat)) (block : CBlock) (pindexPrev : Option CBlockIndex) :
    acceptWork data (node.withStakes stakes) block pindexPrev =
      (acceptWork data node block pindexPrev).map fun worked => worked.withStakes stakes := by
  cases pindexPrev with
  | none => rfl
  | some pindexPrev => exact checkWork_withStakes blind data node stakes block pindexPrev

omit [Legacy] in
theorem acceptBlockHeader_withStakes (data : LocalData) (node : Node)
    (stakes : List (COutPoint × Nat)) (block : CBlock) : ∃ others,
    acceptBlockHeader data (node.withStakes stakes) block =
      ((acceptBlockHeader data node block).1.withStakes others,
        (acceptBlockHeader data node block).2) := by
  have index : (node.withStakes stakes).mapBlockIndex = node.mapBlockIndex := rfl
  have checks : checkNewHeader data (node.withStakes stakes) block =
      checkNewHeader data node block := rfl
  have entry : (node.withStakes stakes).newIndex block = node.newIndex block := rfl
  unfold acceptBlockHeader
  rw [index, checks, entry]
  cases found : node.mapBlockIndex block.getHash with
  | some pindex => exact ⟨stakes, rfl⟩
  | none =>
    cases checkNewHeader data node block with
    | error state => exact ⟨stakes, rfl⟩
    | ok =>
      refine ⟨((node.withStakes stakes).addToBlockIndex block).setStakeSeen, ?_⟩
      simp only [Node.addToBlockIndex, index, found, entry]
      rfl

theorem acceptBlock_withStakes (blind : Legacy.Blind) (data : LocalData) (node : Node)
    (stakes : List (COutPoint × Nat)) (block : CBlock) (written : Bool) :
    (acceptBlock data (node.withStakes stakes) block written).2 =
      (acceptBlock data node block written).2 := by
  have parent : checkParent (node.withStakes stakes) block = checkParent node block := rfl
  unfold acceptBlock
  rw [parent]
  cases checkParent node block with
  | error state => rfl
  | ok pindexPrev =>
    simp only [acceptWork_withStakes blind]
    cases acceptWork data node block pindexPrev with
    | none => rfl
    | some worked =>
      obtain ⟨others, header⟩ := acceptBlockHeader_withStakes data worked stakes block
      simp only [map_some, header]
      obtain ⟨headed, verdict⟩ := acceptBlockHeader data worked block
      cases verdict with
      | error state => rfl
      | ok pindex =>
        simp only
        unfold acceptBody
        rw [checkBody_withStakes]
        repeat' split
        all_goals rfl

theorem processNewBlock_ok {data : LocalData} {block : CBlock} {fromPeer written : Bool} :
    (processNewBlock data node block fromPeer written).2 = true ↔
      (!(block.isProofOfStake && decide (5 ≤ block.nVersion)) && !block.checkOwnSignature) = false ∧
      isDuplicateStake node block = false ∧
      (decide (block.getHash ≠ ChainParams.hashGenesisBlock) && fromPeer &&
        (node.mapBlockIndex block.hashPrevBlock).isNone) = false ∧
      checkBlock data node block true true = .ok () ∧
      (acceptBlock data node block written).2 = .ok () := by
  unfold processNewBlock
  split
  · rename_i unsigned
    simp only [unsigned, Bool.true_eq_false, false_and, Bool.false_eq_true]
  · rename_i signed
    split
    · rename_i duplicate
      simp only [duplicate, Bool.true_eq_false, false_and, and_false, Bool.false_eq_true]
    · rename_i single
      split
      · rename_i orphan
        simp only [orphan, Bool.true_eq_false, false_and, and_false, Bool.false_eq_true]
      · rename_i rooted
        rw [Bool.not_eq_true] at signed single rooted
        simp only [signed, single, rooted, true_and]
        cases checkBlock data node block true true with
        | error state => simp only [reduceCtorEq, Bool.false_eq_true, false_and]
        | ok =>
          cases (acceptBlock data node block written).2 with
          | error state => simp [Except.toOption]
          | ok => simp [Except.toOption]

theorem processNewBlock_withStakes (blind : Legacy.Blind) {data : LocalData} {node : Node}
    {stakes : List (COutPoint × Nat)} {block : CBlock} {fromPeer written : Bool}
    (accepted : (processNewBlock data (node.withStakes stakes) block fromPeer written).2 = true)
    (single : isDuplicateStake node block = false) :
    (processNewBlock data node block fromPeer written).2 = true := by
  obtain ⟨signed, _, rooted, checked, stored⟩ := processNewBlock_ok.mp accepted
  rw [acceptBlock_withStakes blind] at stored
  exact processNewBlock_ok.mpr ⟨signed, single, rooted, checked, stored⟩

end

/-! ### A block that entered the index is stored, or marked -/

namespace Verdict

/-- The check marks every block that it refuses. -/
def Condemning (check : Verdict Unit) : Prop :=
  ∀ state, check = .error state → (state.isInvalid && !state.corruptionPossible) = true

theorem Condemning.doS (fails : Bool) (level : Int) (code : Nat) (reason : String) :
    Condemning (reject fails (doS level code reason)) := by
  intro state refused
  cases fails with
  | false => contradiction
  | true =>
    obtain rfl := Except.error.inj refused
    rfl

theorem Condemning.whenever {applies : Bool} {check : Verdict Unit} (condemning : Condemning check) :
    Condemning (whenever applies check) := by
  cases applies with
  | false => exact fun state refused => by contradiction
  | true => exact condemning

theorem Condemning.bind {first : Verdict Unit} {next : Unit → Verdict Unit}
    (condemning : Condemning first) (others : Condemning (next ())) :
    Condemning (first >>= next) := by
  intro state refused
  cases first with
  | error other =>
    obtain rfl : other = state := Except.error.inj refused
    exact condemning other rfl
  | ok => exact others state refused

theorem contextualCheckBlock_condemning [ChainParams] (data : LocalData) (node : Node) (block : CBlock)
    (pindexPrev : Option CBlockIndex) :
    Condemning (contextualCheckBlock data node block pindexPrev) := by
  unfold contextualCheckBlock
  refine .bind (.doS _ _ _ _) (.bind (.whenever ?_) (.doS _ _ _ _))
  unfold checkStakePointerForm
  exact .bind (.doS _ _ _ _) (.bind (.doS _ _ _ _) (.doS _ _ _ _))

end Verdict

namespace Node

/-- The block is stored, or marked invalid. -/
def Settled (node : Node) (hash : Uint256) : Prop :=
  node.haveBlockData hash = true ∨ node.marked hash = true

variable {node after : Node} {hash : Uint256}

theorem Grows.haveBlockData (grows : Grows node after) (stored : node.haveBlockData hash = true) :
    after.haveBlockData hash = true := by
  unfold Node.haveBlockData at stored ⊢
  cases found : node.mapBlockIndex hash with
  | none =>
    rw [found] at stored
    contradiction
  | some pindex =>
    rw [found] at stored
    obtain ⟨later, present, _, kept⟩ := grows.entries hash pindex found
    rw [present]
    exact kept stored

theorem Settled.grow (settled : node.Settled hash) (grows : Grows node after)
    (marked : node.marked hash = true → after.marked hash = true) : after.Settled hash :=
  settled.imp grows.haveBlockData marked

end Node

section

variable [ChainParams] [Crypto] {data : LocalData} {node headed : Node} {block : CBlock}

omit [ChainParams] in
theorem storeBlock_haveBlockData {pindex : CBlockIndex}
    (known : pindex.getBlockHash = block.getHash) :
    (node.storeBlock block pindex).haveBlockData block.getHash = true := by
  have stored := (receivedIndex_status
    { node with diskBlocks := Function.update node.diskBlocks pindex.getBlockHash (some block) }
    block pindex).2.1
  have entries := (receivedBlockTransactions_entries
    { node with diskBlocks := Function.update node.diskBlocks pindex.getBlockHash (some block) }
    block pindex).1.marks
  refine entries.toGrows.haveBlockData ?_
  simp only [Node.haveBlockData, known, setIndex, update_self, map_some,
    getD_some] at stored ⊢
  exact stored

theorem acceptBody_cases {pindex : CBlockIndex} (known : pindex.getBlockHash = block.getHash)
    (found : headed.mapBlockIndex block.getHash = some pindex) (written : Bool) :
    (acceptBody data headed block pindex written).1 = headed ∧
        (pindex.nStatus.haveData = false → written = true →
          ¬ Condemning (checkBody data headed block pindex)) ∨
      (acceptBody data headed block pindex written).1.Settled block.getHash := by
  unfold acceptBody
  split
  · rename_i stored
    refine .inl ⟨rfl, fun header => ?_⟩
    rw [stored] at header
    contradiction
  · split
    · rename_i state refused
      split
      · refine .inr (.inr ?_)
        rw [known, markFailed_marked found, decide_eq_true rfl, Bool.true_or]
      · rename_i spared
        exact .inl ⟨rfl, fun _ _ condemning => spared (condemning state refused)⟩
    · cases written with
      | true => exact .inr (.inl (storeBlock_haveBlockData known))
      | false => exact .inl ⟨rfl, fun _ lost => by contradiction⟩

theorem checkBlock_addToBlockIndex (path : node.store.Path node.vChain)
    (absent : node.mapBlockIndex block.getHash = none)
    (parent : (node.mapBlockIndex block.hashPrevBlock).isSome = true)
    (fCheckPOW fCheckMerkleRoot : Bool) :
    checkBlock data (node.addToBlockIndex block) block fCheckPOW fCheckMerkleRoot =
      checkBlock data node block fCheckPOW fCheckMerkleRoot := by
  have entry : ∀ hash, (node.mapBlockIndex hash).isSome = true →
      (node.addToBlockIndex block).mapBlockIndex hash = node.mapBlockIndex hash := by
    intro hash present
    have other : hash ≠ block.getHash := by
      rintro rfl
      rw [absent] at present
      contradiction
    simp only [Node.addToBlockIndex, absent, isSome_none, Bool.false_eq_true, ↓reduceIte]
    exact setIndex_of_ne node _ other
  have vChain : (node.addToBlockIndex block).vChain = node.vChain := by
    simp only [Node.addToBlockIndex, absent, isSome_none, Bool.false_eq_true, ↓reduceIte,
      setIndex]
  have tip : (node.addToBlockIndex block).tip = node.tip := by
    unfold Node.tip
    rw [vChain]
    cases last : node.vChain.getLast? with
    | none => rfl
    | some hash =>
      rw [List.getLast?_eq_getElem?] at last
      obtain ⟨core, found, _⟩ := path.entry _ hash last
      obtain ⟨pindex, present, _⟩ := entry_of_core found
      exact entry hash (by rw [present]; rfl)
  have payee : checkPayee data (node.addToBlockIndex block) block = checkPayee data node block := by
    unfold checkPayee Node.heightOnTopOf Node.tipMoneySupply
    rw [tip, entry _ parent]
  unfold checkBlock
  rw [payee]

end

section

variable [ChainParams] [Crypto] {data : LocalData} {node : Node} {block : CBlock}

omit [ChainParams] [Crypto] in
theorem recordProofOfStake_setStakeSeen (node : Node) (nRand : Nat) (hash kernel : Uint256) :
    (node.recordProofOfStake nRand hash kernel).setStakeSeen = node.setStakeSeen := by
  unfold recordProofOfStake
  split
  · rfl
  · rfl

theorem acceptWork_setStakeSeen [Legacy] {worked : Node} {pindexPrev : Option CBlockIndex}
    (work : acceptWork data node block pindexPrev = some worked) :
    worked.setStakeSeen = node.setStakeSeen := by
  rcases acceptWork_recorded work with ⟨rfl, _⟩ | ⟨_, _, _, _, _, rfl⟩
  · rfl
  · exact recordProofOfStake_setStakeSeen ..

omit [ChainParams] in
theorem addToBlockIndex_setStakeSeen (unstaked : block.isProofOfStake = false) :
    (node.addToBlockIndex block).setStakeSeen = node.setStakeSeen := by
  have staked : (node.newIndex block).isProofOfStake = block.isProofOfStake :=
    congrArg IndexCore.fProofOfStake (newIndex_core node block)
  unfold Node.addToBlockIndex
  split
  · rfl
  · simp only [staked, unstaked, Bool.false_eq_true, ↓reduceIte]

theorem acceptBody_entered (path : node.store.Path node.vChain)
    (absent : node.mapBlockIndex block.getHash = none)
    (parent : (node.mapBlockIndex block.hashPrevBlock).isSome = true)
    (checked : checkBlock data node block true true = .ok ()) (written : Bool)
    (disk : block.isProofOfStake = true → written = true) :
    (acceptBody data (node.addToBlockIndex block) block (node.newIndex block) written).1.setStakeSeen
        = node.setStakeSeen ∨
      (acceptBody data (node.addToBlockIndex block) block (node.newIndex block) written).1.Settled
        block.getHash := by
  have core := newIndex_core node block
  have named : (node.newIndex block).getBlockHash = block.getHash :=
    congrArg (fun core : IndexCore => core.phashBlock.getD 0) core
  have header : (node.newIndex block).nStatus.haveData = false := congrArg IndexCore.haveData core
  have found : (node.addToBlockIndex block).mapBlockIndex block.getHash =
      some (node.newIndex block) := by
    simp only [Node.addToBlockIndex, absent, isSome_none, Bool.false_eq_true, ↓reduceIte,
      setIndex, update_self]
  rcases acceptBody_cases named found written with ⟨same, lost⟩ | settled
  · refine .inl ?_
    rw [same]
    cases staked : block.isProofOfStake with
    | false => exact addToBlockIndex_setStakeSeen staked
    | true =>
      -- `CheckBlock` has passed before, and `ContextualCheckBlock` marks what it refuses
      refine absurd ?_ (lost header (disk staked))
      unfold checkBody
      rw [checkBlock_addToBlockIndex path absent parent, checked]
      exact contextualCheckBlock_condemning _ _ _ _
  · exact .inr settled

theorem acceptBlock_entered [Legacy] (sound : node.store.Sound)
    (path : node.store.Path node.vChain)
    (genesis : (node.mapBlockIndex ChainParams.hashGenesisBlock).isSome = true)
    (checked : checkBlock data node block true true = .ok ()) {written : Bool}
    (disk : block.isProofOfStake = true → node.mapBlockIndex block.getHash = none →
      written = true) :
    (acceptBlock data node block written).1.setStakeSeen = node.setStakeSeen ∨
      (acceptBlock data node block written).1.Settled block.getHash := by
  unfold acceptBlock
  split
  · exact .inl rfl
  · rename_i pindexPrev parent
    split
    · exact .inl rfl
    · rename_i worked work
      have stakes := acceptWork_setStakeSeen work
      obtain ⟨same, index⟩ := acceptWork_same work
      have blocks := same.pointers.toSameBlocks
      unfold acceptBlockHeader
      rw [index]
      cases found : node.mapBlockIndex block.getHash with
      | some pindex =>
        have named : pindex.phashBlock = some block.getHash :=
          sound.hash _ _ (store_cores found)
        simp only
        cases pindex.nStatus.failed with
        | true => exact .inl stakes
        | false =>
          rcases acceptBody_cases (by simp [CBlockIndex.getBlockHash, named])
            (index ▸ found) written with ⟨kept, _⟩ | settled
          · exact .inl ((congrArg setStakeSeen kept).trans stakes)
          · exact .inr settled
      | none =>
        have other : block.getHash ≠ ChainParams.hashGenesisBlock := by
          intro same
          rw [← same, found] at genesis
          contradiction
        have known : (worked.mapBlockIndex block.hashPrevBlock).isSome = true := by
          simp only [checkParent, if_neg other, bind_eq_ok, demand_eq_ok] at parent
          obtain ⟨prev, present, _⟩ := parent
          rw [index, present]
          rfl
        have checkedWorked : checkBlock data worked block true true = .ok () := by
          have tip : worked.tip = node.tip := by rw [Node.tip, blocks.vChain, index]; rfl
          have payee : checkPayee data worked block = checkPayee data node block := by
            unfold checkPayee Node.heightOnTopOf Node.tipMoneySupply
            rw [tip, index]
          unfold checkBlock
          rw [payee]
          exact checked
        simp only
        cases checkNewHeader data worked block with
        | error state => exact .inl stakes
        | ok =>
          have pathWorked : worked.store.Path worked.vChain := by
            rw [blocks.store, blocks.vChain]
            exact path
          have entered := acceptBody_entered pathWorked (index ▸ found) known checkedWorked
            written fun staked => disk staked found
          rw [stakes] at entered
          exact entered

end

/-! ### Moving the active chain leaves the set alone -/

namespace Node

theorem storeIndex_setStakeSeen (node : Node) (pindex : CBlockIndex) :
    (node.storeIndex pindex).setStakeSeen = node.setStakeSeen := by
  unfold storeIndex
  split
  · rfl
  · rfl

theorem writeUndo_setStakeSeen (node : Node) (pindex : CBlockIndex)
    (vtxundo : List (List CTxInUndo)) :
    (node.writeUndo pindex vtxundo).1.setStakeSeen = node.setStakeSeen := by
  unfold writeUndo
  split
  · exact storeIndex_setStakeSeen ..
  · rfl

theorem invalidBlockFound_setStakeSeen (node : Node) (hash : Uint256) (state : CValidationState) :
    (node.invalidBlockFound hash state).setStakeSeen = node.setStakeSeen := by
  unfold invalidBlockFound
  split
  · rfl
  · split
    · rfl
    · rfl

theorem findMostWork_setStakeSeen (fuel : Nat) (node : Node) :
    (findMostWork fuel node).1.setStakeSeen = node.setStakeSeen := by
  have dropped : ∀ (fFailedChain : Bool) (above : List CBlockIndex) (node : Node),
      (above.foldl (dropDescendant fFailedChain) node).setStakeSeen = node.setStakeSeen := by
    intro fFailedChain above
    induction above with
    | nil => exact fun node => rfl
    | cons pindex rest ih =>
      intro node
      refine (ih _).trans ?_
      cases fFailedChain with
      | false => rfl
      | true => rfl
  induction fuel generalizing node with
  | zero => rfl
  | succ fuel ih =>
    unfold findMostWork
    split
    · rfl
    · split
      · rfl
      · exact (ih _).trans (dropped ..)

end Node

section

variable [ChainParams] [Crypto] {data : LocalData} {node : Node} {block : CBlock}

theorem connectFinish_setStakeSeen {pindex : CBlockIndex} (fJustCheck : Bool)
    (view : CCoinsViewCache) (vtxundo : List (List CTxInUndo)) (totals : ConnectTotals) :
    (connectFinish data node block pindex fJustCheck view vtxundo totals).node.setStakeSeen =
      node.setStakeSeen := by
  have undone : ∀ pindex vtxundo, ((node.storeIndex (node.withSupply pindex totals)).writeUndo
      (node.withSupply pindex totals) vtxundo).1.setStakeSeen = node.setStakeSeen := fun _ _ =>
    (writeUndo_setStakeSeen ..).trans (storeIndex_setStakeSeen ..)
  unfold connectFinish
  simp only
  split
  · exact storeIndex_setStakeSeen ..
  · split
    · exact storeIndex_setStakeSeen ..
    · split
      · exact undone ..
      · rename_i result recorded
        unfold recordPointer at recorded
        simp only at recorded
        split at recorded
        · cases recorded
          exact undone ..
        · split at recorded
          · contradiction
          · cases recorded
            exact undone ..

theorem connectBlock_setStakeSeen {pindex : CBlockIndex} (fScriptChecks : Bool)
    (view : CCoinsViewCache) (fJustCheck : Bool) :
    (connectBlock data node fScriptChecks block pindex view fJustCheck).node.setStakeSeen =
      node.setStakeSeen := by
  unfold connectBlock
  split
  · rfl
  · split
    · rfl
    · exact connectFinish_setStakeSeen ..

theorem connectTip_setStakeSeen (fScriptChecks : Bool) (pindexNew : CBlockIndex)
    (pblock : Option CBlock) (flushed : Bool) :
    (connectTip data node fScriptChecks pindexNew pblock flushed).1.setStakeSeen =
      node.setStakeSeen := by
  unfold connectTip
  split
  · rfl
  · simp only
    split
    · split
      · exact (invalidBlockFound_setStakeSeen ..).trans (connectBlock_setStakeSeen ..)
      · exact connectBlock_setStakeSeen ..
    · split
      · exact connectBlock_setStakeSeen ..
      · exact connectBlock_setStakeSeen ..

theorem disconnectTip_setStakeSeen (flushed : Bool) :
    (disconnectTip node flushed).1.setStakeSeen = node.setStakeSeen := by
  have erased : ∀ block pindex,
      (node.erasePointer block pindex).setStakeSeen = node.setStakeSeen := by
    intro block pindex
    unfold erasePointer
    split
    · rfl
    · rfl
  unfold disconnectTip
  split
  · rfl
  · split
    · rfl
    · split
      · rfl
      · rename_i disconnected
        have changed := disconnectBlock_node disconnected
        subst changed
        split
        · exact erased ..
        · split
          · exact erased ..
          · exact erased ..

end

end Agouti
