import Agouti.Validation.Frame

/-! # The active chain as a path of the block tree

Every block of the active chain is stored, stands at its height and names the block
below it as its parent (`BlockStore.Path`). The chain stays such a path when a child
of the tip is appended, when the tip is dropped and when blocks arrive.
-/

namespace Agouti

open List Option

/-- A branch from the genesis block, all of it with bodies. -/
structure BlockStore.Path (store : BlockStore) (chain : List Uint256) : Prop where
  entry : ∀ (i : Nat) hash, chain[i]? = some hash → ∃ core, store.cores hash = some core ∧
    core.nHeight = i ∧ core.haveData = true ∧ core.pprev = (chain.take i).getLast?

namespace BlockStore.Path

variable {store : BlockStore} {chain : List Uint256}

theorem nil (store : BlockStore) : store.Path [] :=
  ⟨fun i hash found => by simp at found⟩

theorem last (path : store.Path chain) {hash : Uint256} (tip : chain.getLast? = some hash) :
    ∃ core, store.cores hash = some core ∧ core.nHeight = chain.length - 1 ∧
      core.haveData = true ∧ core.pprev = chain.dropLast.getLast? := by
  have here : chain[chain.length - 1]? = some hash := by
    rw [← List.getLast?_eq_getElem?]
    exact tip
  have bound := (List.getElem?_eq_some_iff.mp here).1
  obtain ⟨core, found, height, stored, pprev⟩ := path.entry _ hash here
  refine ⟨core, found, ?_, stored, ?_⟩
  · rw [height]
    omega
  · rw [pprev, dropLast_eq_take]

theorem push [Crypto] (path : store.Path chain) (sound : store.Sound) {hash : Uint256}
    {core : IndexCore} (found : store.cores hash = some core) (stored : core.haveData = true)
    (next : core.pprev = chain.getLast?) :
    core.nHeight = chain.length ∧ store.Path (chain ++ [hash]) := by
  have height : core.nHeight = chain.length := by
    cases tip : chain.getLast? with
    | none =>
      rw [List.getLast?_eq_none_iff.mp tip]
      exact sound.root hash core found (next.trans tip)
    | some hashPrev =>
      obtain ⟨prev, parent, above⟩ := sound.parent hash core found hashPrev (next.trans tip)
      obtain ⟨last, here, top, _⟩ := path.last tip
      rw [parent] at here
      rw [above, some.inj here, top]
      omega
  refine ⟨height, ⟨fun i other place => ?_⟩⟩
  by_cases inside : i < chain.length
  · rw [List.getElem?_append_left inside] at place
    rw [take_append_of_le_length (by omega)]
    exact path.entry i other place
  · have bound := (List.getElem?_eq_some_iff.mp place).1
    rw [length_append, length_singleton] at bound
    have end_ : i = chain.length := by omega
    subst end_
    rw [List.getElem?_concat_length] at place
    obtain rfl := some.inj place
    refine ⟨core, found, height, stored, ?_⟩
    rw [next, take_left]

theorem pop (path : store.Path chain) : store.Path chain.dropLast := by
  refine ⟨fun i hash found => ?_⟩
  rw [dropLast_eq_take] at found ⊢
  have bound := (List.getElem?_eq_some_iff.mp found).1
  rw [length_take] at bound
  rw [List.getElem?_take_of_lt (by omega)] at found
  rw [take_take, Nat.min_eq_left (by omega)]
  exact path.entry i hash found

theorem arrival [Crypto] {after : BlockStore} {block : CBlock} (path : store.Path chain)
    (arrival : Arrival block store after) : after.Path chain := by
  refine ⟨fun i hash found => ?_⟩
  obtain ⟨core, here, height, stored, pprev⟩ := path.entry i hash found
  obtain ⟨later, there, _, _, _, _, same⟩ := arrival.keeps here
  obtain ⟨rfl, _⟩ := same stored
  exact ⟨later, there, height, stored, pprev⟩

theorem of_check
    (check : ∀ i < chain.length, (chain[i]?.bind store.cores).map
      (fun core => (core.nHeight, core.haveData, core.pprev)) =
        some ((i : Int), true, (chain.take i).getLast?)) : store.Path chain := by
  refine ⟨fun i hash here => ?_⟩
  have checked := check i (List.getElem?_eq_some_iff.mp here).1
  rw [here, bind_some] at checked
  obtain ⟨core, there, fields⟩ := map_eq_some_iff.mp checked
  obtain ⟨height, stored, pprev⟩ := Prod.mk.inj fields |>.imp id Prod.mk.inj
  exact ⟨core, there, height, stored, pprev⟩

end BlockStore.Path

section

variable [Crypto] {store : BlockStore}

/-- What soundness asks of the entry under a hash. -/
def BlockStore.entrySound (store : BlockStore) (hash : Uint256) : Bool :=
  (store.cores hash).all fun core =>
    core.phashBlock == some hash &&
    (match core.pprev with
      | none => core.nHeight == 0
      | some hashPrev => (store.cores hashPrev).any fun prev => core.nHeight == prev.nHeight + 1) &&
    (!core.haveData || (store.bodies hash).any fun block =>
      block.getHash == hash && (!block.isProofOfStake || core.fProofOfStake))

theorem BlockStore.Sound.of_check (check : ∀ hash, store.entrySound hash = true) :
    store.Sound := by
  have passed hash core (found : store.cores hash = some core) := by
    have entry := check hash
    simpa only [entrySound, found, all_some, Bool.and_eq_true, Bool.or_eq_true,
      Bool.not_eq_true', beq_iff_eq, Option.any_eq_true] using entry
  refine ⟨fun hash core found => (passed hash core found).1.1,
    fun hash core found hashPrev below => ?_, fun hash core found root => ?_,
    fun hash core found stored => ?_⟩
  · simpa [below, Option.any_eq_true] using (passed hash core found).1.2
  · simpa [root] using (passed hash core found).1.2
  · obtain empty | ⟨block, body, hashed, staked⟩ := (passed hash core found).2
    · rw [stored] at empty
      contradiction
    · exact ⟨block, body, hashed, fun stake => by simpa [stake] using staked⟩

end

namespace Node

variable {node : Node}

theorem tip_entry {pindex : CBlockIndex} (tip : node.tip = some pindex) :
    ∃ hash, node.vChain.getLast? = some hash ∧ node.mapBlockIndex hash = some pindex := by
  simpa only [Node.tip, bind_eq_some_iff] using tip

theorem tip_none (path : node.store.Path node.vChain) (tip : node.tip = none) :
    node.vChain = [] := by
  cases last : node.vChain.getLast? with
  | none => exact List.getLast?_eq_none_iff.mp last
  | some hash =>
    obtain ⟨core, found, _⟩ := path.last last
    obtain ⟨pindex, here, _⟩ := entry_of_core found
    simp [Node.tip, last, here] at tip

end Node

/-! ### Moving the tip -/

section

variable [ChainParams] [Crypto] {data : LocalData} {node : Node}

variable {pindex : CBlockIndex}

omit [ChainParams] in
theorem Node.holds_of_sound (sound : node.store.Sound) {hash : Uint256}
    (found : node.mapBlockIndex hash = some pindex) :
    node.Holds pindex ∧ pindex.phashBlock = some hash ∧ pindex.getBlockHash = hash := by
  have named : pindex.phashBlock = some hash := sound.hash hash _ (Node.store_cores found)
  refine ⟨fun other known => ?_, named, by simp [CBlockIndex.getBlockHash, named]⟩
  rw [named] at known
  obtain rfl := some.inj known
  rw [found]
  rfl

omit [ChainParams] in
theorem Node.stored_hash (sound : node.store.Sound) {hash : Uint256} {block : CBlock}
    (found : node.mapBlockIndex hash = some pindex)
    (read : node.readBlockFromDisk pindex = some block) : block.getHash = hash := by
  obtain ⟨_, _, here⟩ := Node.holds_of_sound sound found
  simp only [readBlockFromDisk, here, ite_none_right_eq_some] at read
  obtain ⟨stored, present⟩ := read
  obtain ⟨body, there, same, _⟩ := sound.body hash _ (store_cores found) stored
  have equal : node.diskBlocks hash = some body := there
  rw [present] at equal
  exact some.inj equal ▸ same

theorem connectTip_blocks (sound : node.store.Sound) (path : node.store.Path node.vChain)
    {hash : Uint256} (found : node.mapBlockIndex hash = some pindex)
    (stored : pindex.nStatus.haveData = true) (next : pindex.pprev = node.vChain.getLast?)
    (fScriptChecks : Bool) (pblock : Option CBlock) (flushed : Bool) {after : Node}
    {verdict : Verdict Unit}
    (connected : connectTip data node fScriptChecks pindex pblock flushed = (after, verdict)) :
    after.store = node.store ∧ after.store.Path after.vChain ∧
      after.vChain = match verdict with
        | .ok _ => node.vChain ++ [hash]
        | .error _ => node.vChain := by
  obtain ⟨holds, _, here⟩ := Node.holds_of_sound sound found
  obtain ⟨height, pushed⟩ := path.push sound (Node.store_cores found) stored next
  have length : pindex.nHeight = node.vChain.length := height
  unfold connectTip at connected
  split at connected
  · obtain ⟨rfl, rfl⟩ := Prod.mk.inj connected
    exact ⟨rfl, path, rfl⟩
  · rename_i block read
    have blocks := (connectBlock_frame holds data fScriptChecks block node.pcoinsTip false).blocks
    have pathSame : (connectBlock data node fScriptChecks block pindex node.pcoinsTip
        false).node.store.Path (connectBlock data node fScriptChecks block pindex node.pcoinsTip
        false).node.vChain := by
      rw [blocks.store, blocks.vChain]
      exact path
    simp only at connected
    split at connected
    · rename_i state refused
      split at connected
      · obtain ⟨rfl, rfl⟩ := Prod.mk.inj connected
        have found := (Node.invalidBlockFound_same (connectBlock data node fScriptChecks block pindex
          node.pcoinsTip false).node pindex.getBlockHash state).toSameBlocks
        refine ⟨found.store.trans blocks.store, ?_, found.vChain.trans blocks.vChain⟩
        rw [found.store, found.vChain]
        exact pathSame
      · obtain ⟨rfl, rfl⟩ := Prod.mk.inj connected
        exact ⟨blocks.store, pathSame, blocks.vChain⟩
    · split at connected
      · obtain ⟨rfl, rfl⟩ := Prod.mk.inj connected
        have chain : (connectBlock data node fScriptChecks block pindex node.pcoinsTip
            false).node.vChain.take pindex.nHeight.toNat ++ [pindex.getBlockHash] =
              node.vChain ++ [hash] := by
          rw [blocks.vChain, length, here, Int.toNat_natCast, take_length]
        refine ⟨blocks.store, ?_, chain⟩
        show BlockStore.Path (connectBlock data node fScriptChecks block pindex node.pcoinsTip
          false).node.store (_ ++ _)
        rw [blocks.store, chain]
        exact pushed
      · obtain ⟨rfl, rfl⟩ := Prod.mk.inj connected
        exact ⟨blocks.store, pathSame, blocks.vChain⟩

theorem disconnectTip_blocks (path : node.store.Path node.vChain) {flushed : Bool}
    {after : Node} {done : Bool} (disconnected : disconnectTip node flushed = (after, done)) :
    after.store = node.store ∧ after.store.Path after.vChain ∧
      after.vChain = if done then node.vChain.dropLast else node.vChain := by
  unfold disconnectTip at disconnected
  split at disconnected
  · obtain ⟨rfl, rfl⟩ := Prod.mk.inj disconnected
    exact ⟨rfl, path, rfl⟩
  · rename_i pindexDelete _
    split at disconnected
    · obtain ⟨rfl, rfl⟩ := Prod.mk.inj disconnected
      exact ⟨rfl, path, rfl⟩
    · rename_i block _
      split at disconnected
      · obtain ⟨rfl, rfl⟩ := Prod.mk.inj disconnected
        exact ⟨rfl, path, rfl⟩
      · rename_i changed view fClean done
        obtain rfl := disconnectBlock_node done
        have blocks := (Node.erasePointer_same node block pindexDelete).blocks
        have pathSame : (node.erasePointer block pindexDelete).store.Path
            (node.erasePointer block pindexDelete).vChain := by
          rw [blocks.store, blocks.vChain]
          exact path
        split at disconnected
        · obtain ⟨rfl, rfl⟩ := Prod.mk.inj disconnected
          exact ⟨blocks.store, pathSame, blocks.vChain⟩
        · split at disconnected
          · obtain ⟨rfl, rfl⟩ := Prod.mk.inj disconnected
            exact ⟨blocks.store, pathSame.pop, congrArg List.dropLast blocks.vChain⟩
          · obtain ⟨rfl, rfl⟩ := Prod.mk.inj disconnected
            exact ⟨blocks.store, pathSame, blocks.vChain⟩

end

end Agouti
