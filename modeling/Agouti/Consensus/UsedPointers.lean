import Agouti.Library.Register
import Agouti.Validation.ActiveChain

/-! # The records of used stake pointers

`mapUsedStakePointers` is a second copy of what the active chain says: the pointers that the version
5 proof-of-stake blocks of the last `nStakePointerValidityPeriod` heights have used. It is a
register beside the active chain (`Node.register`), and every caller of `ConnectBlock` and
`DisconnectBlock` has to keep it exact (`PointersExact`). `VerifyDB` disconnects blocks from a
scratch view and forgets their live records; they come back only when it runs to its end at level 4.
-/

namespace Agouti

open List Function Option

variable [ChainParams] [Crypto]

def pointerEntry (block : CBlock) (pindex : CBlockIndex) (hash : Uint256) :
    Option (Uint256 × Uint256) :=
  if isV5Stake block pindex then some (stakePointerHash block.stakePointer.outpoint, hash) else none

namespace Node

/-- A version 5 proof-of-stake block with a stake pointer stands on the active chain. -/
structure StakedAt (node : Node) (i : Nat) (hash : Uint256) (block : CBlock) : Prop where
  active : node.vChain[i]? = some hash
  staked : ∃ pindex, node.mapBlockIndex hash = some pindex ∧
    node.readBlockFromDisk pindex = some block ∧ isV5Stake block pindex = true

def storedPointer (node : Node) (hash : Uint256) : Option (Uint256 × Uint256) :=
  (node.mapBlockIndex hash).bind fun pindex =>
    (node.readBlockFromDisk pindex).bind fun block => pointerEntry block pindex hash

def register (node : Node) : Register Uint256 Uint256 :=
  ⟨node.vChain.map node.storedPointer, node.mapUsedStakePointers⟩

end Node

/-- The map holds exactly the pointers that the active chain uses within the validity
period, and none is used twice within it. -/
structure PointersExact (node : Node) : Prop where
  recorded : ∀ i hash block, node.StakedAt i hash block →
    node.height - nStakePointerValidityPeriod < i →
      node.mapUsedStakePointers (stakePointerHash block.stakePointer.outpoint) = some hash
  genuine : ∀ pointer hash, node.mapUsedStakePointers pointer = some hash →
    ∃ i block, node.StakedAt i hash block ∧
      pointer = stakePointerHash block.stakePointer.outpoint
  unused : ∀ (i j : Nat) first second before after, node.StakedAt i first before →
    node.StakedAt j second after → i < j → (j : Int) ≤ i + nStakePointerValidityPeriod →
      before.stakePointer.outpoint ≠ after.stakePointer.outpoint

def pointerWindow : Nat := nStakePointerValidityPeriod.toNat

variable {pindex : CBlockIndex}

theorem pointerEntry_eq_some {block : CBlock} {hash value pointer : Uint256} :
    pointerEntry block pindex hash = some (pointer, value) ↔
      isV5Stake block pindex = true ∧ pointer = stakePointerHash block.stakePointer.outpoint ∧
        value = hash := by
  unfold pointerEntry
  split
  · rename_i staked
    simp only [some.injEq, Prod.mk.injEq, staked, true_and]
    exact ⟨fun same => ⟨same.1.symm, same.2.symm⟩, fun same => ⟨same.1.symm, same.2.symm⟩⟩
  · rename_i plain
    simp [plain]

theorem pointerEntry_none {block : CBlock} {hash : Uint256} :
    pointerEntry block pindex hash = none ↔ isV5Stake block pindex = false := by
  unfold pointerEntry
  split <;> simp_all

namespace Node

variable {node : Node}

theorem register_entry {i : Nat} {pointer hash : Uint256} :
    node.register.chain[i]? = some (some (pointer, hash)) ↔
      ∃ block, node.StakedAt i hash block ∧
        pointer = stakePointerHash block.stakePointer.outpoint := by
  simp only [register, List.getElem?_map, map_eq_some_iff]
  constructor
  · rintro ⟨active, place, found⟩
    simp only [storedPointer, bind_eq_some_iff, pointerEntry_eq_some] at found
    obtain ⟨pindex, here, block, read, staked, rfl, rfl⟩ := found
    exact ⟨block, ⟨place, pindex, here, read, staked⟩, rfl⟩
  · rintro ⟨block, ⟨active, pindex, here, read, staked⟩, rfl⟩
    refine ⟨hash, active, ?_⟩
    simp only [storedPointer, here, bind_some, read]
    exact pointerEntry_eq_some.mpr ⟨staked, rfl, rfl⟩

theorem pointersExact_of_register (exact : node.register.Exact pointerWindow) :
    PointersExact node := by
  have length : node.register.chain.length = node.vChain.length := by simp [register]
  refine ⟨fun i hash block staked inside => ?_, fun pointer hash held => ?_,
    fun i j first second before after early late order near same => ?_⟩
  · refine exact.recorded i _ hash ?_ (register_entry.mpr ⟨block, staked, rfl⟩)
    rw [length]
    simp only [Node.height, pointerWindow] at inside ⊢
    omega
  · obtain ⟨i, found⟩ := List.getElem?_of_mem (exact.genuine pointer hash held)
    obtain ⟨block, staked, rfl⟩ := register_entry.mp found
    exact ⟨i, block, staked, rfl⟩
  · refine exact.distinct i j (stakePointerHash before.stakePointer.outpoint) first second order ?_
      (register_entry.mpr ⟨before, early, rfl⟩) (register_entry.mpr ⟨after, late, by rw [same]⟩)
    simp only [pointerWindow]
    omega

theorem storedPointer_congr {before after : Node} {hash : Uint256}
    (cores : after.store.cores hash = before.store.cores hash)
    (bodies : ∀ core, before.store.cores hash = some core →
      after.store.bodies (core.phashBlock.getD 0) = before.store.bodies (core.phashBlock.getD 0)) :
    after.storedPointer hash = before.storedPointer hash := by
  cases found : before.mapBlockIndex hash with
  | none =>
    have absent : after.mapBlockIndex hash = none := by
      simpa [store, found] using cores
    simp [storedPointer, found, absent]
  | some pindex =>
    rw [store_cores found] at cores
    obtain ⟨changed, there, core⟩ := entry_of_core cores
    have same := bodies pindex.core (store_cores found)
    simp only [CBlockIndex.core, IndexCore.mk.injEq] at core same
    obtain ⟨phash, _, height, _, stored, _⟩ := core
    have read : after.readBlockFromDisk changed = before.readBlockFromDisk pindex := by
      simp only [readBlockFromDisk, stored, CBlockIndex.getBlockHash, phash]
      split
      · exact same
      · rfl
    simp only [storedPointer, found, there, bind_some, read, pointerEntry,
      isV5Stake_congr _ height]

theorem storedPointer_of_store {before after : Node} (same : after.store = before.store) :
    after.storedPointer = before.storedPointer := by
  funext hash
  exact storedPointer_congr (by rw [same]) fun _ _ => by rw [same]

end Node

/-- No two headers with one hash were met: a stored body has the version of its entry,
and the genesis block is none of proof of stake. -/
structure BlockStore.Faithful (store : BlockStore) : Prop where
  version : ∀ hash core block, store.cores hash = some core → core.haveData = true →
    store.bodies hash = some block → core.nVersion = block.nVersion
  genesis : ∀ core block, store.cores ChainParams.hashGenesisBlock = some core →
    core.haveData = true → store.bodies ChainParams.hashGenesisBlock = some block →
      block.isProofOfStake = false

/-- The block agrees with its entry, and the genesis block is not staked. -/
structure BlockStore.Welcomes (store : BlockStore) (block : CBlock) : Prop where
  version : ∀ core, store.cores block.getHash = some core → core.nVersion = block.nVersion
  genesis : block.getHash = ChainParams.hashGenesisBlock → block.isProofOfStake = false

section

variable {block : CBlock} {before after : BlockStore}

omit [ChainParams] in
theorem Arrival.version (arrival : Arrival block before after)
    (known : ∀ core, before.cores block.getHash = some core → core.nVersion = block.nVersion)
    (core : IndexCore) (found : after.cores block.getHash = some core) :
    core.nVersion = block.nVersion := by
  cases arrival with
  | known same =>
    subst same
    exact known core found
  | header added _ _ _ version _ same =>
    subst same
    simp only [update_self, some.injEq] at found
    rw [← found, version]
  | body old present _ same =>
    subst same
    simp only [update_self, some.injEq] at found
    rw [← found]
    exact known old present

theorem Arrival.welcomes (arrival : Arrival block before after) (welcome : before.Welcomes block) :
    after.Welcomes block :=
  ⟨arrival.version welcome.version, welcome.genesis⟩

theorem Arrival.faithful (arrival : Arrival block before after) (faithful : before.Faithful)
    (welcome : before.Welcomes block) : after.Faithful := by
  have body : ∀ hash core stored, after.cores hash = some core → core.haveData = true →
      after.bodies hash = some stored →
        (before.cores hash = some core ∧ before.bodies hash = some stored) ∨
          (hash = block.getHash ∧ stored = block) := by
    intro hash core stored found haveData here
    cases arrival with
    | known same =>
      subst same
      exact .inl ⟨found, here⟩
    | header added absent _ _ _ header same =>
      subst same
      by_cases self : hash = block.getHash
      · subst self
        simp only [update_self, some.injEq] at found
        rw [← found, header] at haveData
        contradiction
      · simp only [update_of_ne self] at found
        exact .inl ⟨found, here⟩
    | body old present _ same =>
      subst same
      by_cases self : hash = block.getHash
      · subst self
        simp only [update_self, some.injEq] at here
        exact .inr ⟨rfl, here.symm⟩
      · simp only [update_of_ne self] at found here
        exact .inl ⟨found, here⟩
  refine ⟨fun hash core stored found haveData here => ?_,
    fun core stored found haveData here => ?_⟩
  · rcases body hash core stored found haveData here with ⟨old, stood⟩ | ⟨rfl, rfl⟩
    · exact faithful.version hash core stored old haveData stood
    · exact arrival.version welcome.version core found
  · rcases body _ core stored found haveData here with ⟨old, stood⟩ | ⟨self, rfl⟩
    · exact faithful.genesis core stored old haveData stood
    · exact welcome.genesis self.symm

end

/-- A node whose records are exact, with what the argument needs to know about its
block index. -/
structure PointersKept (node : Node) : Prop where
  sound : node.store.Sound
  faithful : node.store.Faithful
  path : node.store.Path node.vChain
  exact : node.register.Exact pointerWindow

open Node

namespace PointersKept

variable {node after : Node}

theorem register_congr (vChain : after.vChain = node.vChain)
    (used : after.mapUsedStakePointers = node.mapUsedStakePointers)
    (pointers : ∀ hash ∈ node.vChain, after.storedPointer hash = node.storedPointer hash) :
    after.register = node.register := by
  simp only [register, vChain, used, Register.mk.injEq, and_true]
  exact map_congr_left pointers

theorem congr (kept : PointersKept node) (same : SamePointers node after) :
    PointersKept after := by
  have register := register_congr same.vChain same.used fun hash _ =>
    congrFun (storedPointer_of_store same.store) hash
  refine ⟨?_, ?_, ?_, register ▸ kept.exact⟩
  · rw [same.store]
    exact kept.sound
  · rw [same.store]
    exact kept.faithful
  · rw [same.store, same.vChain]
    exact kept.path

variable {hash : Uint256} {pindex : CBlockIndex}

theorem holds (kept : PointersKept node) (found : node.mapBlockIndex hash = some pindex) :
    node.Holds pindex ∧ pindex.getBlockHash = hash := by
  obtain ⟨holds, _, here⟩ := Node.holds_of_sound kept.sound found
  exact ⟨holds, here⟩

theorem stored_hash (kept : PointersKept node) {block : CBlock}
    (found : node.mapBlockIndex hash = some pindex)
    (read : node.readBlockFromDisk pindex = some block) :
    block.getHash = hash := Node.stored_hash kept.sound found read

theorem stored_pointer {block : CBlock} (found : node.mapBlockIndex hash = some pindex)
    (read : node.readBlockFromDisk pindex = some block) :
    node.storedPointer hash = pointerEntry block pindex hash := by
  simp only [storedPointer, found, read, bind_some]

theorem at_tip (kept : PointersKept node) (tip : node.tip = some pindex) :
    ∃ front hash, node.vChain = front ++ [hash] ∧ node.mapBlockIndex hash = some pindex ∧
      pindex.nHeight = front.length := by
  obtain ⟨hash, last, found⟩ := tip_entry tip
  obtain ⟨front, split⟩ := List.getLast?_eq_some_iff.mp last
  obtain ⟨core, here, height, _⟩ := kept.path.last last
  rw [store_cores found] at here
  refine ⟨front, hash, split, found, ?_⟩
  have same : pindex.nHeight = core.nHeight := congrArg IndexCore.nHeight (some.inj here)
  rw [same, height, split, length_append, length_singleton]
  omega

theorem at_height (kept : PointersKept node) {i : Nat} (active : node.vChain[i]? = some hash) :
    ∃ pindex, node.mapBlockIndex hash = some pindex ∧ pindex.nHeight = i ∧
      pindex.pprev = (node.vChain.take i).getLast? := by
  obtain ⟨core, found, height, _, pprev⟩ := kept.path.entry i hash active
  obtain ⟨pindex, here, rfl⟩ := entry_of_core found
  exact ⟨pindex, here, height, pprev⟩

/-! ### Arriving blocks -/

theorem arrived (kept : PointersKept node) {block : CBlock} (arrival : Arrived block node after)
    (welcome : node.store.Welcomes block) : PointersKept after := by
  obtain ⟨middle, first, second⟩ := arrival.store
  have register := register_congr arrival.vChain arrival.used fun hash member => by
    obtain ⟨i, active⟩ := List.getElem?_of_mem member
    obtain ⟨core, found, _, stored, _⟩ := kept.path.entry i hash active
    obtain ⟨core₁, found₁, _, _, _, _, same₁⟩ := first.keeps found
    obtain ⟨rfl, bodies₁⟩ := same₁ stored
    obtain ⟨core₂, found₂, _, _, _, _, same₂⟩ := second.keeps found₁
    obtain ⟨rfl, bodies₂⟩ := same₂ stored
    refine storedPointer_congr (found₂.trans found.symm) fun core here => ?_
    rw [kept.sound.hash hash core here]
    exact bodies₂.trans bodies₁
  refine ⟨second.sound (first.sound kept.sound),
    second.faithful (first.faithful kept.faithful welcome) (first.welcomes welcome), ?_,
    register ▸ kept.exact⟩
  rw [arrival.vChain]
  exact (kept.path.arrival first).arrival second

/-! ### Connecting and disconnecting the tip -/

theorem pushed (kept : PointersKept node) (found : node.mapBlockIndex hash = some pindex)
    (stored : pindex.nStatus.haveData = true) (next : pindex.pprev = node.vChain.getLast?)
    (store : after.store = node.store) (vChain : after.vChain = node.vChain ++ [hash])
    (used : after.mapUsedStakePointers =
      Register.record node.mapUsedStakePointers (node.storedPointer hash))
    (fresh : Register.Fresh node.mapUsedStakePointers (node.storedPointer hash)) :
    PointersKept after := by
  obtain ⟨_, path⟩ := kept.path.push kept.sound (store_cores found) stored next
  have register : after.register = node.register.push (node.storedPointer hash) := by
    simp only [register, storedPointer_of_store store, vChain, used, Register.push, map_append,
      map_cons, map_nil]
  refine ⟨?_, ?_, ?_, ?_⟩
  · rw [store]
    exact kept.sound
  · rw [store]
    exact kept.faithful
  · rw [store, vChain]
    exact path
  · rw [register]
    exact kept.exact.push fresh

/-- Dropping the tip after its pointer was forgotten, while the block that comes back
into the window is recorded. -/
theorem popped (kept : PointersKept node) {front : List Uint256}
    (split : node.vChain = front ++ [hash]) (store : after.store = node.store)
    (vChain : after.vChain = front) (used : after.mapUsedStakePointers =
      Register.forget node.mapUsedStakePointers (node.storedPointer hash))
    (returns : ∀ i other block, node.StakedAt i other block →
      (i : Int) = node.height - nStakePointerValidityPeriod →
        node.mapUsedStakePointers (stakePointerHash block.stakePointer.outpoint) = some other) :
    PointersKept after := by
  have chain : node.register.chain = front.map node.storedPointer ++ [node.storedPointer hash] := by
    simp only [register, split, map_append, map_cons, map_nil]
  have register : after.register = node.register.pop := by
    have last : node.register.chain.getLast?.getD none = node.storedPointer hash := by
      rw [chain, List.getLast?_concat, getD_some]
    rw [Register.pop, last, chain, dropLast_concat]
    simp only [Node.register, storedPointer_of_store store, vChain, used]
  refine ⟨?_, ?_, ?_, ?_⟩
  · rw [store]
    exact kept.sound
  · rw [store]
    exact kept.faithful
  · rw [store, vChain]
    have path := kept.path.pop
    rwa [split, dropLast_concat] at path
  · rw [register]
    refine kept.exact.pop chain fun i pointer other inside back found => ?_
    obtain ⟨block, staked, rfl⟩ := register_entry.mp found
    refine returns i other block staked ?_
    rw [length_map] at back inside
    simp only [Node.height, split, length_append, length_singleton, pointerWindow] at back ⊢
    omega

end PointersKept

/-- Connecting keeps the records when an accepted block that uses a pointer is flushed,
and a body handed over in memory has the pointer of the stored one. -/
def ConnectKeeps (data : LocalData) (node : Node) (fScriptChecks : Bool) (hash : Uint256)
    (pblock : Option CBlock) (flushed : Bool) : Prop :=
  ∀ pindex block value, node.mapBlockIndex hash = some pindex →
    (pblock <|> node.readBlockFromDisk pindex) = some block →
      (connectBlock data node fScriptChecks block pindex node.pcoinsTip false).verdict =
        .ok value →
          if flushed then pointerEntry block pindex hash = node.storedPointer hash
          else isV5Stake block pindex = false

/-- Disconnecting keeps the records when a block that uses a pointer is disconnected
cleanly and flushed, and the block that comes back into the validity period is
recorded. -/
def DisconnectKeeps (node : Node) (flushed : Bool) : Prop :=
  ∀ pindex block changed view fClean, node.tip = some pindex →
    node.readBlockFromDisk pindex = some block →
      disconnectBlock node block pindex node.pcoinsTip = some (changed, view, fClean) →
        if fClean && flushed then
          ∀ i other returned, node.StakedAt i other returned →
            (i : Int) = node.height - nStakePointerValidityPeriod →
              node.mapUsedStakePointers (stakePointerHash returned.stakePointer.outpoint) =
                some other
        else isV5Stake block pindex = false

theorem Recorded.entry {block : CBlock} {before after : Uint256 → Option Uint256}
    (recorded : Recorded block pindex before after) :
    after = Register.record before (pointerEntry block pindex block.getHash) ∧
      Register.Fresh before (pointerEntry block pindex block.getHash) := by
  cases recorded with
  | plain none same =>
    rw [pointerEntry_none.mpr none]
    exact ⟨same, fun key value entry => by contradiction⟩
  | staked v5 free set =>
    simp only [pointerEntry, v5, ↓reduceIte]
    refine ⟨set, fun key value entry => ?_⟩
    obtain ⟨rfl, _⟩ := Prod.mk.inj (some.inj entry)
    exact free

theorem PointersKept.genesis_plain {node : Node} (kept : PointersKept node)
    (hash : Uint256) (genesis : hash = ChainParams.hashGenesisBlock) :
    node.storedPointer hash = none := by
  cases entry : node.storedPointer hash with
  | none => rfl
  | some pair =>
    simp only [storedPointer, bind_eq_some_iff] at entry
    obtain ⟨pindex, found, block, read, used⟩ := entry
    obtain ⟨staked, _⟩ := pointerEntry_eq_some.mp used
    simp only [readBlockFromDisk, (kept.holds found).2, ite_none_right_eq_some] at read
    subst genesis
    have plain := kept.faithful.genesis _ block (store_cores found) read.1 read.2
    simp [isV5Stake, plain] at staked

theorem connectTip_kept {data : LocalData} {node : Node} (kept : PointersKept node)
    {fScriptChecks flushed : Bool} {hash : Uint256} {pblock : Option CBlock}
    (found : node.mapBlockIndex hash = some pindex) (stored : pindex.nStatus.haveData = true)
    (next : pindex.pprev = node.vChain.getLast?)
    (named : ∀ block, pblock = some block → block.getHash = hash)
    (keeps : ConnectKeeps data node fScriptChecks hash pblock flushed) :
    PointersKept (connectTip data node fScriptChecks pindex pblock flushed).1 := by
  obtain ⟨holds, here⟩ := kept.holds found
  unfold connectTip
  cases body : (pblock <|> node.readBlockFromDisk pindex) with
  | none => exact kept
  | some block =>
    have hashed : block.getHash = hash := by
      cases pblock with
      | none => exact kept.stored_hash found body
      | some given => exact some.inj body ▸ named given rfl
    have frame := connectBlock_frame holds data fScriptChecks block node.pcoinsTip false
    simp only
    split
    · rename_i state refused
      have same : SamePointers node (connectBlock data node fScriptChecks block pindex
          node.pcoinsTip false).node := ⟨frame.blocks, frame.refused state refused⟩
      split
      · exact kept.congr (same.trans (invalidBlockFound_same _ _ _))
      · exact kept.congr same
    · rename_i view undo accepted
      have condition := keeps pindex block _ found body accepted
      have recorded : (connectBlock data node fScriptChecks block pindex node.pcoinsTip
          false).node.mapUsedStakePointers =
            Register.record node.mapUsedStakePointers (pointerEntry block pindex hash) ∧
          Register.Fresh node.mapUsedStakePointers (pointerEntry block pindex hash) ∨
          hash = ChainParams.hashGenesisBlock ∧ (connectBlock data node fScriptChecks block pindex
            node.pcoinsTip false).node.mapUsedStakePointers = node.mapUsedStakePointers := by
        by_cases genesis : block.getHash = ChainParams.hashGenesisBlock
        · exact .inr ⟨hashed.symm.trans genesis, frame.genesis genesis⟩
        · exact .inl (hashed ▸ (frame.accepted _ rfl genesis accepted).entry)
      cases flushed with
      | true =>
        simp only [↓reduceIte] at condition ⊢
        have height := (kept.path.push kept.sound (store_cores found) stored next).1
        rw [condition] at recorded
        have record : (connectBlock data node fScriptChecks block pindex node.pcoinsTip
            false).node.mapUsedStakePointers =
              Register.record node.mapUsedStakePointers (node.storedPointer hash) ∧
            Register.Fresh node.mapUsedStakePointers (node.storedPointer hash) := by
          rcases recorded with same | ⟨genesis, same⟩
          · exact same
          · rw [kept.genesis_plain hash genesis]
            exact ⟨same, fun key value entry => by contradiction⟩
        refine kept.pushed found stored next frame.blocks.store ?_ record.1 record.2
        have length : pindex.nHeight.toNat = node.vChain.length := by
          have same : pindex.nHeight = node.vChain.length := height
          omega
        simp only [setTip, frame.blocks.vChain, length, take_length, here]
      | false =>
        simp only [Bool.false_eq_true, ↓reduceIte] at condition ⊢
        rw [pointerEntry_none.mpr condition] at recorded
        have used : (connectBlock data node fScriptChecks block pindex node.pcoinsTip
            false).node.mapUsedStakePointers = node.mapUsedStakePointers := by
          rcases recorded with same | same
          · exact same.1
          · exact same.2
        exact kept.congr ⟨⟨frame.blocks.store, frame.blocks.vChain⟩, used⟩

theorem erasePointer_used (node : Node) (block : CBlock) (pindex : CBlockIndex) (hash : Uint256) :
    (node.erasePointer block pindex).mapUsedStakePointers =
      Register.forget node.mapUsedStakePointers (pointerEntry block pindex hash) := by
  unfold erasePointer pointerEntry
  split <;> rfl

theorem disconnectTip_kept {node : Node} (kept : PointersKept node) {flushed : Bool}
    (keeps : DisconnectKeeps node flushed) : PointersKept (disconnectTip node flushed).1 := by
  unfold disconnectTip
  cases tip : node.tip with
  | none => exact kept
  | some pindex =>
    simp only
    cases read : node.readBlockFromDisk pindex with
    | none => exact kept
    | some block =>
      simp only
      cases disconnected : disconnectBlock node block pindex node.pcoinsTip with
      | none => exact kept
      | some result =>
        obtain ⟨changed, view, fClean⟩ := result
        have condition := keeps pindex block changed view fClean tip read disconnected
        obtain rfl := disconnectBlock_node disconnected
        obtain ⟨front, hash, split, found, _⟩ := kept.at_tip tip
        have blocks := (erasePointer_same node block pindex).blocks
        have used := erasePointer_used node block pindex hash
        have plain : isV5Stake block pindex = false →
            PointersKept (node.erasePointer block pindex) := by
          intro plain
          rw [erasePointer_plain plain]
          exact kept
        cases fClean with
        | false => exact plain (by simpa using condition)
        | true =>
          cases flushed with
          | false =>
            exact (plain (by simpa using condition)).congr ⟨⟨rfl, rfl⟩, rfl⟩
          | true =>
            simp only [Bool.and_self, ↓reduceIte, Bool.not_true, Bool.false_eq_true]
              at condition ⊢
            refine kept.popped split blocks.store ?_ ?_ condition
            · simp only [dropTip, blocks.vChain, split, dropLast_concat]
            · rw [PointersKept.stored_pointer found read]
              exact used

/-! ### Rebuilding the records -/

namespace PointersKept

variable {node : Node}

theorem below_fork (kept : PointersKept node) {i : Nat} {entry : Option (Uint256 × Uint256)}
    (found : node.register.chain[i]? = some entry) (below : (i : Int) < nStakePointerForkHeight) :
    entry = none := by
  cases entry with
  | none => rfl
  | some pair =>
    obtain ⟨block, ⟨active, pindex, here, _, staked⟩, _⟩ := register_entry.mp found
    obtain ⟨other, there, height, _⟩ := kept.at_height active
    rw [here] at there
    obtain rfl := some.inj there
    simp only [isV5Stake, Bool.and_eq_true, decide_eq_true_eq] at staked
    omega

theorem pointerRecord_eq (kept : PointersKept node) {hash : Uint256} {pindex : CBlockIndex}
    (found : node.mapBlockIndex hash = some pindex)
    (above : nStakePointerForkHeight ≤ pindex.nHeight) :
    pointerRecord node pindex = node.storedPointer hash := by
  cases read : node.readBlockFromDisk pindex with
  | none => simp [pointerRecord, storedPointer, found, read]
  | some block =>
    have hashed := kept.stored_hash found read
    have onDisk := read
    simp only [readBlockFromDisk, (kept.holds found).2, ite_none_right_eq_some] at onDisk
    have version : pindex.nVersion = block.nVersion :=
      kept.faithful.version hash _ block (store_cores found) onDisk.1 onDisk.2
    obtain ⟨body, there, _, staked⟩ := kept.sound.body hash _ (store_cores found) onDisk.1
    have same : node.diskBlocks hash = some body := there
    rw [onDisk.2] at same
    obtain rfl := some.inj same
    rw [stored_pointer found read]
    simp only [pointerRecord, pointerEntry, isV5Stake, read, bind_some, hashed, version,
      CBlockIndex.isProofOfStake, above, decide_true, Bool.and_true]
    cases stake : block.isProofOfStake with
    | false => simp
    | true =>
      have flag : pindex.fProofOfStake = true := staked stake
      by_cases v5 : 5 ≤ block.nVersion
      · simp [flag, v5]
      · simp [v5]

theorem rebuildPointers_eq (kept : PointersKept node) {nStopHeight : Int}
    (fork : nStakePointerForkHeight ≤ nStopHeight + 1) (fuel : Nat) {i : Nat} {hash : Uint256}
    {pindex : CBlockIndex} (active : node.vChain[i]? = some hash)
    (found : node.mapBlockIndex hash = some pindex) (enough : ((i : Int) - nStopHeight).toNat ≤ fuel)
    (used : Uint256 → Option Uint256) :
    rebuildPointers node nStopHeight fuel (some pindex) used =
      Register.recordAll used ((node.register.chain.take (i + 1)).drop (nStopHeight + 1).toNat) := by
  have bound := (List.getElem?_eq_some_iff.mp active).1
  have length : node.register.chain.length = node.vChain.length := by simp [Node.register]
  induction fuel generalizing i hash pindex used with
  | zero =>
    rw [drop_eq_nil_of_le]
    · rfl
    · rw [length_take]
      omega
  | succ fuel ih =>
    obtain ⟨other, there, height, pprev⟩ := kept.at_height active
    rw [found] at there
    obtain rfl := some.inj there
    simp only [rebuildPointers, height]
    split
    · rename_i above
      have record : insertPointer used (pointerRecord node pindex) =
          Register.record used (node.storedPointer hash) := by
        rw [kept.pointerRecord_eq found (by omega)]
        cases node.storedPointer hash <;> rfl
      have here : node.register.chain[i]? = some (node.storedPointer hash) := by
        simp only [Node.register, List.getElem?_map, active, map_some]
      have split : (node.register.chain.take (i + 1)).drop (nStopHeight + 1).toNat =
          (node.register.chain.take i).drop (nStopHeight + 1).toNat ++ [node.storedPointer hash] := by
        rw [take_add_one, here, toList_some, drop_append_of_le_length]
        rw [length_take]
        omega
      rw [record, split, Register.recordAll_append]
      cases i with
      | zero =>
        have root : pindex.pprev = none := by simpa using pprev
        simp only [BlockMap.prev, root, bind_none, take_zero, drop_nil]
        cases fuel <;> rfl
      | succ i =>
        have parent : pindex.pprev = node.vChain[i]? := by
          rw [pprev, List.getLast?_take]
          simp [List.getElem?_eq_getElem (show i < node.vChain.length by omega)]
        obtain ⟨hashPrev, activePrev⟩ : ∃ hashPrev, node.vChain[i]? = some hashPrev :=
          ⟨_, List.getElem?_eq_getElem (show i < node.vChain.length by omega)⟩
        obtain ⟨prev, foundPrev, _, _⟩ := kept.at_height activePrev
        simp only [BlockMap.prev, parent, activePrev, bind_some, foundPrev]
        exact ih activePrev foundPrev (by omega) _ (by omega)
    · rename_i below
      rw [drop_eq_nil_of_le]
      · rfl
      · rw [length_take]
        omega

theorem rebuild_register (kept : PointersKept node) :
    (rebuildStakePointerCache node).register = node.register.refill pointerWindow := by
  have length : node.register.chain.length = node.vChain.length := by simp [Node.register]
  have empty : (∀ entry ∈ node.register.chain.drop (node.register.chain.length - pointerWindow),
      entry = none) → node.register.refill pointerWindow = ⟨node.register.chain, fun _ => none⟩ := by
    intro none
    rw [Register.refill, Register.recordAll_none none]
  unfold rebuildStakePointerCache
  cases tip : node.tip with
  | none =>
    have nil := tip_none kept.path tip
    rw [empty]
    · rfl
    · simp [Node.register, nil]
  | some pindex =>
    obtain ⟨front, hash, split, found, height⟩ := kept.at_tip tip
    have size : node.vChain.length = front.length + 1 := by simp [split]
    have active : node.vChain[front.length]? = some hash := by
      rw [split, List.getElem?_concat_length]
    simp only
    split
    · rename_i below
      rw [empty]
      · rfl
      · intro entry member
        obtain ⟨i, at_i⟩ := List.getElem?_of_mem member
        rw [List.getElem?_drop] at at_i
        have bound := (List.getElem?_eq_some_iff.mp at_i).1
        exact kept.below_fork at_i (by omega)
    · have stop : rebuildStopHeight pindex =
          max (pindex.nHeight - nStakePointerValidityPeriod) (nStakePointerForkHeight - 1) := rfl
      rw [kept.rebuildPointers_eq (by omega) _ active found (by omega)]
      have whole : node.register.chain.take (front.length + 1) = node.register.chain :=
        take_of_length_le (by omega)
      rw [whole]
      -- the blocks of the window below the fork have no record
      have parts : node.register.chain.drop (node.register.chain.length - pointerWindow) =
          (node.register.chain.drop (node.register.chain.length - pointerWindow)).take
              ((rebuildStopHeight pindex + 1).toNat -
                (node.register.chain.length - pointerWindow)) ++
            node.register.chain.drop (rebuildStopHeight pindex + 1).toNat := by
        conv_lhs =>
          rw [← take_append_drop ((rebuildStopHeight pindex + 1).toNat -
            (node.register.chain.length - pointerWindow))
            (node.register.chain.drop (node.register.chain.length - pointerWindow))]
        rw [drop_drop]
        congr 2
        simp only [pointerWindow, length]
        omega
      have plain : ∀ entry ∈ (node.register.chain.drop
          (node.register.chain.length - pointerWindow)).take
            ((rebuildStopHeight pindex + 1).toNat - (node.register.chain.length - pointerWindow)),
          entry = none := by
        intro entry member
        obtain ⟨i, at_i⟩ := List.getElem?_of_mem member
        have inside := (List.getElem?_eq_some_iff.mp at_i).1
        rw [length_take] at inside
        rw [List.getElem?_take_of_lt (by omega), List.getElem?_drop] at at_i
        have bound := (List.getElem?_eq_some_iff.mp at_i).1
        refine kept.below_fork at_i ?_
        simp only [pointerWindow, length] at inside bound ⊢
        omega
      rw [Register.refill, parts, Register.recordAll_append, Register.recordAll_none plain]
      rfl

theorem rebuild (kept : PointersKept node) : PointersKept (rebuildStakePointerCache node) := by
  have same : SameBlocks node (rebuildStakePointerCache node) := by
    unfold rebuildStakePointerCache
    split <;> exact ⟨rfl, rfl⟩
  refine ⟨?_, ?_, ?_, ?_⟩
  · rw [same.store]
    exact kept.sound
  · rw [same.store]
    exact kept.faithful
  · rw [same.store, same.vChain]
    exact kept.path
  · rw [kept.rebuild_register]
    exact kept.exact.refill

end PointersKept

end Agouti
