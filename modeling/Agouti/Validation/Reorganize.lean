import Agouti.Validation.Marks

/-! # Moving the active chain to another branch

A block with all its ancestors stored has one chain below it (`BlockStore.Path`), and its
ancestors are the blocks of that chain. `ActivateBestChainStep` drops the active chain to
the fork of the block it aims at and appends blocks of that chain, one by one.
-/

namespace Agouti

open List Function Option

/-- No height is negative. -/
def BlockStore.Grounded (store : BlockStore) : Prop :=
  ∀ hash core, store.cores hash = some core → 0 ≤ core.nHeight

theorem Arrival.grounded [Crypto] {block : CBlock} {before after : BlockStore}
    (arrival : Arrival block before after) (grounded : before.Grounded) : after.Grounded := by
  intro hash core found
  cases arrival with
  | known same =>
    subst same
    exact grounded hash core found
  | header added absent known parent version header same =>
    subst same
    by_cases here : hash = block.getHash
    · subst here
      simp only [update_self, some.injEq] at found
      subst found
      rcases parent with ⟨prev, present, _, height⟩ | ⟨_, height⟩
      · have above := grounded _ prev present
        omega
      · omega
    · simp only [update_of_ne here] at found
      exact grounded hash core found
  | body old present header same =>
    subst same
    by_cases here : hash = block.getHash
    · subst here
      simp only [update_self, some.injEq] at found
      subst found
      exact grounded _ old present
    · simp only [update_of_ne here] at found
      exact grounded hash core found

namespace BlockStore.Path

variable {store : BlockStore} {chain : List Uint256}

theorem take (path : store.Path chain) (count : Nat) : store.Path (chain.take count) := by
  refine ⟨fun i hash found => ?_⟩
  have bound := (List.getElem?_eq_some_iff.mp found).1
  rw [length_take] at bound
  rw [List.getElem?_take_of_lt (by omega)] at found
  rw [take_take, Nat.min_eq_left (by omega)]
  exact path.entry i hash found

theorem unique (path : store.Path chain) {i j : Nat} {hash : Uint256} (first : chain[i]? = some hash)
    (second : chain[j]? = some hash) : i = j := by
  obtain ⟨core, found, height, _⟩ := path.entry i hash first
  obtain ⟨other, present, place, _⟩ := path.entry j hash second
  rw [found] at present
  obtain rfl := some.inj present
  omega

theorem eq_of_last (path : store.Path chain) {other : List Uint256} (second : store.Path other)
    (same : chain.getLast? = other.getLast?) : chain = other := by
  induction chain using List.reverseRecOn generalizing other with
  | nil => exact (List.getLast?_eq_none_iff.mp same.symm).symm
  | append_singleton rest top ih =>
    rw [List.getLast?_concat, eq_comm] at same
    obtain ⟨core, found, _, _, below⟩ := path.last List.getLast?_concat
    obtain ⟨core', present, _, _, below'⟩ := second.last same
    rw [found] at present
    obtain rfl := some.inj present
    rw [dropLast_concat] at below
    have pathRest : store.Path rest := by simpa using path.pop
    rw [ih pathRest second.pop (below.symm.trans below')]
    exact dropLast_append_getLast? _ same

theorem descends_iff (path : store.Path chain) {hash ancestor : Uint256}
    (last : chain.getLast? = some hash) : store.Descends hash ancestor ↔ ancestor ∈ chain := by
  constructor
  · intro descends
    induction descends using Relation.ReflTransGen.head_induction_on generalizing chain with
    | refl => exact List.mem_of_getLast? last
    | head step rest ih =>
      obtain ⟨core, found, pprev⟩ := step
      obtain ⟨here, present, _, _, below⟩ := path.last last
      rw [found] at present
      obtain rfl := some.inj present
      exact dropLast_subset chain (ih path.pop (below.symm.trans pprev))
  · intro member
    induction chain using List.reverseRecOn generalizing hash with
    | nil => exact absurd member not_mem_nil
    | append_singleton rest top ih =>
      obtain rfl : top = hash := by simpa using last
      rcases mem_append.mp member with inside | here
      · obtain ⟨core, found, _, _, below⟩ := path.last last
        rw [dropLast_concat] at below
        cases tip : rest.getLast? with
        | none =>
          rw [List.getLast?_eq_none_iff.mp tip] at inside
          exact absurd inside not_mem_nil
        | some hashPrev =>
          have pathRest : store.Path rest := by simpa using path.pop
          exact .head ⟨core, found, below.trans tip⟩ (ih pathRest tip inside)
      · obtain rfl := mem_singleton.mp here
        exact .refl

end BlockStore.Path

namespace Node

variable {node : Node}

/-- The chain of a block: the active chain up to a fork, and a path from there. -/
structure Forks (node : Node) (tipHash : Uint256) (kept : Nat) (path : List Uint256) : Prop where
  bound : kept ≤ node.vChain.length
  chain : node.store.Path (node.vChain.take kept ++ path)
  last : (node.vChain.take kept ++ path).getLast? = some tipHash
  leaves : ∀ hash, path.head? = some hash → node.vChain[kept]? ≠ some hash

theorem contains_iff {pindex : CBlockIndex} (nonneg : 0 ≤ pindex.nHeight) :
    node.contains pindex = true ↔ node.vChain[pindex.nHeight.toNat]? = some pindex.getBlockHash := by
  rw [contains, active, if_neg (by omega), beq_iff_eq]

theorem branch_none (fuel : Nat) : node.branch fuel none = [] ∧ node.findFork fuel none = none := by
  cases fuel <;> exact ⟨rfl, rfl⟩

theorem Forks.descends_iff (path : node.store.Path node.vChain) {tipHash : Uint256} {kept : Nat}
    {above : List Uint256} (forks : node.Forks tipHash kept above) {i : Nat} {hash : Uint256}
    (active : node.vChain[i]? = some hash) : node.store.Descends tipHash hash ↔ i < kept := by
  rw [forks.chain.descends_iff forks.last]
  have length : (node.vChain.take kept).length = kept := by
    rw [length_take, Nat.min_eq_left forks.bound]
  constructor
  · intro member
    obtain ⟨j, place⟩ := mem_iff_getElem?.mp member
    -- a block has the same height on both chains, and one path to it
    have same : i = j := by
      obtain ⟨core, found, height, _⟩ := path.entry i hash active
      obtain ⟨other, present, there, _⟩ := forks.chain.entry j hash place
      rw [found] at present
      obtain rfl := some.inj present
      omega
    subst same
    have below : node.vChain.take (i + 1) = (node.vChain.take kept ++ above).take (i + 1) := by
      refine (path.take (i + 1)).eq_of_last (forks.chain.take (i + 1)) ?_
      rw [take_add_one, take_add_one, active, place, toList_some,
        List.getLast?_concat, List.getLast?_concat]
    by_contra outside
    have first : above.head? = node.vChain[kept]? := by
      have early : kept < i + 1 := by omega
      have shared : (node.vChain.take (i + 1))[kept]? = node.vChain[kept]? :=
        List.getElem?_take_of_lt early
      rw [← shared, below, List.getElem?_take_of_lt early, List.getElem?_append_right length.le,
        length, Nat.sub_self, List.head?_eq_getElem?]
    have inside : kept < node.vChain.length := by
      have bound := (List.getElem?_eq_some_iff.mp active).1
      omega
    rw [List.getElem?_eq_getElem inside] at first
    exact forks.leaves _ first (List.getElem?_eq_getElem inside)
  · intro below
    refine mem_append_left _ (mem_of_getElem? (i := i) ?_)
    rw [List.getElem?_take_of_lt below]
    exact active

section

variable [Crypto]

theorem branch_forks (sound : node.store.Sound) (grounded : node.store.Grounded)
    (path : node.store.Path node.vChain) {fuel : Nat} {pindex : CBlockIndex}
    (found : node.mapBlockIndex pindex.getBlockHash = some pindex)
    (enough : pindex.nHeight.toNat < fuel)
    (stored : ∀ entry ∈ node.branch fuel (some pindex), entry.nStatus.haveData = true) :
    ∃ kept, node.Forks pindex.getBlockHash kept
        ((node.branch fuel (some pindex)).reverse.map CBlockIndex.getBlockHash) ∧
      (node.findFork fuel (some pindex)).map CBlockIndex.getBlockHash =
        (node.vChain.take kept).getLast? := by
  induction fuel generalizing pindex with
  | zero => exact absurd enough (Nat.not_lt_zero _)
  | succ fuel ih =>
    have core := store_cores found
    have nonneg : 0 ≤ pindex.nHeight := grounded _ _ core
    by_cases inside : node.contains pindex = true
    · have here := (contains_iff nonneg).mp inside
      have bound := (List.getElem?_eq_some_iff.mp here).1
      have last : (node.vChain.take (pindex.nHeight.toNat + 1)).getLast? =
          some pindex.getBlockHash := by
        rw [take_add_one, here, toList_some, List.getLast?_concat]
      refine ⟨pindex.nHeight.toNat + 1, ⟨bound, ?_, ?_, fun hash head => ?_⟩, ?_⟩
      · simp only [branch, inside, ↓reduceIte, reverse_nil, map_nil, append_nil]
        exact path.take _
      · simp only [branch, inside, ↓reduceIte, reverse_nil, map_nil, append_nil]
        exact last
      · simp [branch, inside] at head
      · simp only [findFork, inside, ↓reduceIte, map_some]
        exact last.symm
    · have outside : node.vChain[pindex.nHeight.toNat]? ≠ some pindex.getBlockHash := fun here =>
        inside ((contains_iff nonneg).mpr here)
      have walk : node.branch (fuel + 1) (some pindex) =
          pindex :: node.branch fuel (node.mapBlockIndex.prev pindex) := by
        rw [branch, if_neg inside]
      have fork : node.findFork (fuel + 1) (some pindex) =
          node.findFork fuel (node.mapBlockIndex.prev pindex) := by
        rw [findFork, if_neg inside]
      have data : pindex.nStatus.haveData = true :=
        stored pindex (walk ▸ mem_cons_self)
      rw [walk, fork, reverse_cons, map_append, map_singleton]
      -- a chain that ends in the parent is extended by the block
      have extend : ∀ (kept : Nat) (below : List Uint256), kept ≤ node.vChain.length →
          node.store.Path (node.vChain.take kept ++ below) →
          pindex.pprev = (node.vChain.take kept ++ below).getLast? →
          (∀ hash, below.head? = some hash → node.vChain[kept]? ≠ some hash) →
          node.Forks pindex.getBlockHash kept (below ++ [pindex.getBlockHash]) := by
        intro kept below bound chain next leaves
        obtain ⟨height, pushed⟩ := chain.push sound core data next
        refine ⟨bound, by rwa [← append_assoc], ?_, fun hash head => ?_⟩
        · rw [← append_assoc, List.getLast?_concat]
        · cases below with
          | nil =>
            obtain rfl : pindex.getBlockHash = hash := by simpa using head
            have place : pindex.nHeight = kept := by
              rw [append_nil, length_take, Nat.min_eq_left bound] at height
              exact height
            rwa [place, Int.toNat_natCast] at outside
          | cons first others => exact leaves hash (by simpa using head)
      cases parent : pindex.pprev with
      | none =>
        have prev : node.mapBlockIndex.prev pindex = none := by simp [BlockMap.prev, parent]
        rw [prev, (branch_none fuel).1, (branch_none fuel).2]
        refine ⟨0, ?_, rfl⟩
        exact extend 0 [] (Nat.zero_le _) (.nil _) parent (fun hash head => by simp at head)
      | some hashPrev =>
        obtain ⟨prevCore, present, above⟩ := sound.parent _ _ core hashPrev parent
        obtain ⟨prev, entry, rfl⟩ := entry_of_core present
        have height : pindex.nHeight = prev.nHeight + 1 := above
        have nonnegPrev : 0 ≤ prev.nHeight := grounded _ _ present
        obtain ⟨_, _, here⟩ := holds_of_sound sound entry
        have prev_ : node.mapBlockIndex.prev pindex = some prev := by
          simp [BlockMap.prev, parent, entry]
        rw [prev_]
        rw [walk, prev_] at stored
        obtain ⟨kept, forks, fork⟩ := ih (here.symm ▸ entry) (by omega)
          fun entry member => stored entry (mem_cons_of_mem _ member)
        exact ⟨kept, extend kept _ forks.bound forks.chain
          (by rw [forks.last, here, parent]) forks.leaves, fork⟩

end

end Node

variable [ChainParams] [Crypto] {node after : Node} {env : ActivateEnv} {done : Bool}

theorem disconnectToFork_drops {fork : Option Uint256} {kept fuel : Nat}
    (path : node.store.Path node.vChain) (bound : kept ≤ node.vChain.length)
    (here : fork = (node.vChain.take kept).getLast?) (enough : node.vChain.length ≤ fuel)
    (dropped : disconnectToFork env fork fuel node = (after, done)) :
    after.store = node.store ∧ ∃ left, kept ≤ left ∧ left ≤ node.vChain.length ∧
      after.vChain = node.vChain.take left ∧ (done = true → left = kept) := by
  induction fuel generalizing node with
  | zero =>
    obtain ⟨rfl, rfl⟩ := Prod.mk.inj dropped
    exact ⟨rfl, node.vChain.length, bound, le_rfl, (take_length).symm, fun _ => by omega⟩
  | succ fuel ih =>
    unfold disconnectToFork at dropped
    cases tip : node.vChain.getLast? with
    | none =>
      rw [tip] at dropped
      obtain ⟨rfl, rfl⟩ := Prod.mk.inj dropped
      have empty := List.getLast?_eq_none_iff.mp tip
      rw [empty] at bound
      exact ⟨rfl, kept, le_rfl, by rwa [empty], by simp [empty], fun _ => rfl⟩
    | some hash =>
      simp only [tip] at dropped
      have top : node.vChain[node.vChain.length - 1]? = some hash := by
        rw [← List.getLast?_eq_getElem?]
        exact tip
      have filled := (List.getElem?_eq_some_iff.mp top).1
      split at dropped
      · rename_i arrived
        obtain ⟨rfl, rfl⟩ := Prod.mk.inj dropped
        -- the fork is on the chain once, and the tip is at the end
        have reached : kept = node.vChain.length := by
          rw [here, List.getLast?_eq_getElem?, length_take, Nat.min_eq_left bound] at arrived
          have positive : kept - 1 < kept := by
            have inside := (List.getElem?_eq_some_iff.mp arrived).1
            rw [length_take] at inside
            omega
          rw [List.getElem?_take_of_lt positive] at arrived
          have same := path.unique arrived top
          omega
        exact ⟨rfl, kept, le_rfl, bound, by rw [reached, take_length], fun _ => rfl⟩
      · rename_i apart
        have moved : disconnectTip node (env.flushed hash) =
            ((disconnectTip node (env.flushed hash)).1,
              (disconnectTip node (env.flushed hash)).2) := rfl
        obtain ⟨store, pathNext, chain⟩ := disconnectTip_blocks path moved
        split at dropped
        · rename_i stopped
          obtain ⟨rfl, rfl⟩ := Prod.mk.inj dropped
          rw [stopped] at store chain
          exact ⟨store, node.vChain.length, bound, le_rfl,
            chain.trans (take_length).symm, fun finished => by contradiction⟩
        · rename_i next continued
          rw [continued] at store chain pathNext
          simp only [↓reduceIte, dropLast_eq_take] at chain
          have below : kept ≤ node.vChain.length - 1 := by
            by_contra above
            have whole : kept = node.vChain.length := by omega
            rw [whole, take_length, tip] at here
            exact apart here
          have length : next.vChain.length = node.vChain.length - 1 := by
            rw [chain, length_take]
            omega
          have pathNext : next.store.Path next.vChain := pathNext
          have again : fork = (next.vChain.take kept).getLast? := by
            rw [here, chain, take_take, Nat.min_eq_left below]
          obtain ⟨storeAfter, left, above, inside, same, exact_⟩ :=
            ih pathNext (by omega) again (by omega) dropped
          refine ⟨storeAfter.trans store, left, above, by omega, ?_, exact_⟩
          rw [same, chain, take_take, Nat.min_eq_left (by omega)]

theorem connectBranch_extends {pindexMostWork : CBlockIndex} {pblock : Option CBlock}
    {pindexOldTip : Option CBlockIndex} {rest : List CBlockIndex} (sound : node.store.Sound)
    (chain : node.store.Path (node.vChain ++ rest.map CBlockIndex.getBlockHash))
    (connected : connectBranch env pindexMostWork pblock pindexOldTip rest node = (after, done)) :
    after.store = node.store ∧ ∃ count,
      after.vChain = node.vChain ++ (rest.map CBlockIndex.getBlockHash).take count := by
  induction rest generalizing node with
  | nil =>
    obtain ⟨rfl, rfl⟩ := Prod.mk.inj connected
    exact ⟨rfl, 0, by simp⟩
  | cons pindexConnect rest ih =>
    have unmoved : ∀ other : Node, other.store = node.store → other.vChain = node.vChain →
        other.store = node.store ∧ ∃ count, other.vChain = node.vChain ++
          ((pindexConnect :: rest).map CBlockIndex.getBlockHash).take count :=
      fun other store same => ⟨store, 0, by simpa using same⟩
    have path : node.store.Path node.vChain := by
      have begin_ := chain.take node.vChain.length
      rwa [take_left] at begin_
    have here : (node.vChain ++ (pindexConnect :: rest).map CBlockIndex.getBlockHash)[
        node.vChain.length]? = some pindexConnect.getBlockHash := by
      rw [List.getElem?_append_right le_rfl, Nat.sub_self]
      rfl
    obtain ⟨core, found, _, data, next⟩ := chain.entry _ _ here
    rw [take_left] at next
    obtain ⟨pindex, entry, rfl⟩ := Node.entry_of_core found
    unfold connectBranch at connected
    simp only [entry, getD_some] at connected
    split at connected
    · rename_i middle state refused
      obtain ⟨rfl, rfl⟩ := Prod.mk.inj connected
      obtain ⟨store, _, same⟩ := connectTip_blocks sound path entry data next _ _ _ refused
      exact unmoved _ store same
    · rename_i middle appended
      obtain ⟨store, _, same⟩ := connectTip_blocks sound path entry data next _ _ _ appended
      have pruned : middle.pruneBlockIndexCandidates.store = node.store ∧
          middle.pruneBlockIndexCandidates.vChain =
            node.vChain ++ [pindexConnect.getBlockHash] := by
        unfold Node.pruneBlockIndexCandidates
        split
        · exact ⟨store, same⟩
        · exact ⟨store, same⟩
      split at connected
      · obtain ⟨rfl, rfl⟩ := Prod.mk.inj connected
        refine ⟨pruned.1, 1, ?_⟩
        rw [pruned.2]
        rfl
      · obtain ⟨storeAfter, count, appendedAll⟩ := ih (pruned.1.symm ▸ sound)
          (by
            rw [pruned.1, pruned.2, append_assoc]
            exact chain) connected
        refine ⟨storeAfter.trans pruned.1, count + 1, ?_⟩
        rw [appendedAll, pruned.2, append_assoc]
        rfl

end Agouti
