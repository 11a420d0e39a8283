import Agouti.Coins.Available
import Agouti.Consensus.BlockUndo
import Agouti.Consensus.PointerScan
import Agouti.Library.Issuance
import Agouti.Script.Push

/-! # Transaction ids along a chain

A transaction that spends outputs cannot enter a chain twice, unless a transaction that spends
none does: a coinbase or a version 5 coinstake (`txids_of_chain`). For these there is only the
rule of BIP30, which lets a transaction be overwritten once its outputs are spent. Coinstakes
that carry the height of their block, as `CreateCoinStakeV5` makes them, are different; but no
check compares this height (`repeatedStake_txids`).
-/

namespace Agouti

open Verdict List LongBranch

section

variable [Crypto]

def coinIssuance : Issuance CTransaction Uint256 COutPoint where
  name := CTransaction.getHash
  issuer := COutPoint.hash
  uses := CTransaction.spends

theorem Updates.issue {nHeight : Int} {vtx : List CTransaction} {view after : CCoinsViewCache}
    {vtxundo : List (List CTxInUndo)} (updates : Updates nHeight vtx view after vtxundo)
    {items : List CTransaction} (run : coinIssuance.Run items view.available) :
    coinIssuance.Run (vtx.reverse ++ items) after.available := by
  induction updates generalizing items with
  | nil view => exact run
  | @cons tx rest view middle final txundo vtxundo updated others ih =>
    obtain ⟨available, left⟩ := updateCoins_available updated
    have issued : coinIssuance.Run (tx :: items) middle.available := run.issue available left
    have longer := ih issued
    rwa [reverse_cons, append_assoc, singleton_append]

end

section

variable [ChainParams] [Crypto] [Legacy]

/-- The blocks of a chain above the genesis block, the last first, with the coins they leave.
Every block was connected on top of the ones before, and from the stake pointer fork on it was
accepted and stored before, each in a node of its own. -/
inductive AcceptedChain : List CBlock → CCoinsViewCache → Prop
  | genesis {view : CCoinsViewCache} (empty : ∀ txid, view.coins txid = {}) :
      AcceptedChain [] view
  | connect {blocks : List CBlock} {view after : CCoinsViewCache} {data : LocalData} {node : Node}
      {fScriptChecks : Bool} {block : CBlock} {pindex : CBlockIndex}
      {vtxundo : List (List CTxInUndo)} (chain : AcceptedChain blocks view)
      (height : pindex.nHeight = blocks.length + 1)
      (stored : nStakePointerForkHeight ≤ pindex.nHeight →
        ∃ dataStored nodeStored, nodeStored.mapBlockIndex block.getHash = none ∧
          (acceptBlock dataStored nodeStored block true).2 = .ok ())
      (connected : (connectBlock data node fScriptChecks block pindex view false).verdict =
        .ok (after, some vtxundo)) : AcceptedChain (block :: blocks) after

def chainTxs (blocks : List CBlock) : List CTransaction :=
  blocks.flatMap fun block => block.vtx.reverse

/-- Different transactions have different hashes. -/
def CollisionFree (blocks : List CBlock) : Prop :=
  ∀ tx ∈ chainTxs blocks, ∀ other ∈ chainTxs blocks, tx.getHash = other.getHash → tx = other

variable {blocks : List CBlock} {view : CCoinsViewCache}

/-- An accepted chain issues and spends its outputs one by one. -/
theorem AcceptedChain.run (chain : AcceptedChain blocks view) :
    coinIssuance.Run (chainTxs blocks) view.available := by
  induction chain with
  | @genesis view empty =>
    have none : view.available = ∅ := by
      apply Set.eq_empty_of_forall_notMem
      intro out there
      have there : (view.coins out.hash).isAvailable out.n = true := there
      rw [empty] at there
      contradiction
    rw [none]
    exact .start
  | connect chain height stored connected ih =>
    obtain ⟨_, coins, updates, rfl⟩ := (connectBlock_accepted connected).updates
    exact updates.issue ih

/-! ## Transactions without inputs -/

omit [Crypto] [Legacy] in
theorem checkTransactions_vin {vtx : List CTransaction}
    (checked : checkTransactions vtx = .ok ()) : ∀ tx ∈ vtx, tx.vin ≠ [] := by
  induction vtx with
  | nil => exact fun tx absent => absurd absent not_mem_nil
  | cons tx rest ih =>
    simp only [checkTransactions, bind_eq_ok] at checked
    obtain ⟨_, first, others⟩ := checked
    intro other member
    rcases mem_cons.mp member with rfl | member
    · simp only [checkTransaction, bind_eq_ok, reject_eq_ok, beq_eq_false_iff_ne] at first
      obtain ⟨_, filled, _⟩ := first
      exact filled
    · exact ih others other member

omit [Legacy] in
theorem Accepted.checked {data : LocalData} {node : Node} {fScriptChecks : Bool} {block : CBlock}
    {pindex : CBlockIndex} {before after : CCoinsViewCache} {vtxundo : List (List CTxInUndo)}
    (accepted : Accepted data node fScriptChecks block pindex before after vtxundo) :
    Checked data node block true true := by
  obtain ⟨coins, undo, totals, connected, _⟩ := accepted.coins
  simp only [connectCoins, bind_eq_ok] at connected
  obtain ⟨_, checked, _⟩ := connected
  exact checkBlock_ok.mp checked

theorem AcceptedChain.sources (chain : AcceptedChain blocks view) :
    coinIssuance.sources (chainTxs blocks) =
      (chainTxs blocks).filter fun tx => !tx.hasInputs := by
  have filled : ∀ tx ∈ chainTxs blocks, tx.vin ≠ [] := by
    induction chain with
    | genesis empty => exact fun tx absent => absurd absent not_mem_nil
    | connect chain height stored connected ih =>
      intro tx member
      rcases mem_append.mp member with here | earlier
      · have checked := (connectBlock_accepted connected).checked.checked
        exact checkTransactions_vin checked tx (mem_reverse.mp here)
      · exact ih tx earlier
  apply filter_congr
  intro tx member
  change tx.spends.isEmpty = !tx.hasInputs
  unfold CTransaction.spends
  cases tx.hasInputs with
  | false => rfl
  | true =>
    rw [if_pos rfl, Bool.not_true, isEmpty_eq_false_iff, ne_eq, map_eq_nil_iff]
    exact filled tx member

omit [ChainParams] [Crypto] [Legacy] in
/-- A list without repetitions among the elements of either kind has none among both. -/
theorem nodup_filter_or {p q : CTransaction → Bool} {txs : List CTransaction}
    (first : (txs.filter p).Nodup) (second : (txs.filter q).Nodup) :
    (txs.filter fun tx => p tx || q tx).Nodup := by
  rw [nodup_iff_sublist] at first second ⊢
  intro tx twice
  have either := (mem_filter.mp (twice.subset mem_cons_self)).2
  have both := twice.trans filter_sublist
  rcases Bool.or_eq_true_iff.mp either with holds | holds
  · apply first tx
    simpa only [filter_cons_of_pos holds, filter_nil] using both.filter p
  · apply second tx
    simpa only [filter_cons_of_pos holds, filter_nil] using both.filter q

/-- The input that `CreateCoinStakeV5` puts into a coinstake for a height. -/
def vinMarker (nNewHeight : Int) : CTxIn where
  prevout := .null
  scriptSig := CScript.OP_PROOFOFSTAKE :: CScript.pushInt64 nNewHeight

/-- The version 5 coinstakes of the block stand where a block of proof of stake has them, and
carry the height. -/
def CarriesHeight (block : CBlock) (nHeight : Nat) : Prop :=
  ∀ tx ∈ block.vtx, tx.isV5CoinStake = true →
    block.isProofOfStake = true ∧ tx.vin = [vinMarker nHeight]

/-- The version 5 coinstakes of all blocks of a chain carry their heights. -/
def CarryHeights (blocks : List CBlock) : Prop :=
  ∀ block rest, block :: rest <:+ blocks → CarriesHeight block (rest.length + 1)

omit [Legacy] in
theorem CarriesHeight.nodup {data : LocalData} {node : Node} {block : CBlock} {nHeight : Nat}
    (carries : CarriesHeight block nHeight) (checked : Checked data node block true true) :
    (block.vtx.reverse.filter CTransaction.isV5CoinStake).Nodup := by
  rw [filter_reverse, nodup_reverse]
  by_cases staked : block.isProofOfStake = true
  · have form := checked.form staked
    simp only [checkProofOfStakeForm, bind_eq_ok, reject_eq_ok] at form
    obtain ⟨_, _, _, _, alone⟩ := form
    obtain ⟨coinbase, others, list, isCoinBase, _⟩ := checked.transactions
    have plain : coinbase.isV5CoinStake = false := by
      simp only [CTransaction.isCoinBase, CTransaction.firstInputMarked, Bool.and_eq_true]
        at isCoinBase
      unfold CTransaction.isV5CoinStake CTransaction.firstInputMarked
      cases inputs : coinbase.vin with
      | nil => simp
      | cons txin rest =>
        rw [inputs] at isCoinBase
        simp_all
    rw [list] at alone ⊢
    rw [filter_cons_of_neg (by rw [plain]; exact Bool.false_ne_true)]
    cases others with
    | nil => exact nodup_nil
    | cons coinstake rest =>
      have none : rest.filter CTransaction.isV5CoinStake = [] := by
        rw [filter_eq_nil_iff]
        intro tx member isV5
        have absent := any_eq_false.mp alone tx member
        exact absent (by simp [CTransaction.isCoinStake, isV5])
      rw [filter_cons, none]
      split
      · exact nodup_singleton coinstake
      · exact nodup_nil
  · have none : block.vtx.filter CTransaction.isV5CoinStake = [] := by
      rw [filter_eq_nil_iff]
      exact fun tx member isV5 => staked (carries tx member isV5).1
    rw [none]
    exact nodup_nil

omit [ChainParams] [Crypto] [Legacy] in
theorem vinMarker_injective {a b : Nat} (same : vinMarker a = vinMarker b) : a = b := by
  have scripts := congrArg CTxIn.scriptSig same
  exact CScript.pushInt64_injective (List.cons.inj scripts).2

omit [ChainParams] [Crypto] [Legacy] in
theorem CarryHeights.tail {block : CBlock} {rest : List CBlock}
    (carry : CarryHeights (block :: rest)) : CarryHeights rest :=
  fun other others suffix => carry other others (suffix.trans (suffix_cons block rest))

omit [ChainParams] [Crypto] [Legacy] in
theorem CarryHeights.low (carry : CarryHeights blocks) :
    ∀ tx ∈ (chainTxs blocks).filter CTransaction.isV5CoinStake,
      ∃ n ≤ blocks.length, tx.vin = [vinMarker (n : Nat)] := by
  induction blocks with
  | nil => exact fun tx absent => absurd absent not_mem_nil
  | cons block rest ih =>
    intro tx member
    obtain ⟨member, isV5⟩ := mem_filter.mp member
    rcases mem_append.mp member with here | earlier
    · have carries := carry block rest suffix_rfl tx (mem_reverse.mp here) isV5
      exact ⟨rest.length + 1, le_rfl, carries.2⟩
    · obtain ⟨n, bound, marked⟩ := ih carry.tail tx (mem_filter.mpr ⟨earlier, isV5⟩)
      exact ⟨n, Nat.le_succ_of_le bound, marked⟩

theorem AcceptedChain.stakes_nodup (chain : AcceptedChain blocks view)
    (carry : CarryHeights blocks) :
    ((chainTxs blocks).filter CTransaction.isV5CoinStake).Nodup := by
  induction chain with
  | genesis empty => exact nodup_nil
  | @connect blocks view after data node fScriptChecks block pindex vtxundo chain height stored
      connected ih =>
      have checked := (connectBlock_accepted connected).checked
      have carries : CarriesHeight block (blocks.length + 1) := carry block blocks suffix_rfl
      have split : chainTxs (block :: blocks) = block.vtx.reverse ++ chainTxs blocks := rfl
      rw [split, filter_append]
      refine (carries.nodup checked).append (ih carry.tail) ?_
      intro tx here earlier
      obtain ⟨member, isV5⟩ := mem_filter.mp here
      obtain ⟨n, bound, marked⟩ := carry.tail.low tx earlier
      have own := (carries tx (mem_reverse.mp member) isV5).2
      have same := vinMarker_injective (singleton_inj.mp (own.symm.trans marked))
      omega

omit [Legacy] [ChainParams] in
theorem CollisionFree.txids_nodup (collisionFree : CollisionFree blocks) :
    ((chainTxs blocks).map CTransaction.getHash).Nodup ↔ (chainTxs blocks).Nodup := by
  constructor
  · intro different
    exact different.of_map _
  · intro different
    exact different.map_on collisionFree

omit [Legacy] in
theorem Accepted.overwrites_none {data : LocalData} {node : Node} {fScriptChecks : Bool}
    {block : CBlock} {pindex : CBlockIndex} {before after : CCoinsViewCache}
    {vtxundo : List (List CTxInUndo)}
    (accepted : Accepted data node fScriptChecks block pindex before after vtxundo)
    (enforced : enforceBIP30 pindex = true) :
    ∀ tx ∈ block.vtx, (before.coins tx.getHash).isPruned = true := by
  obtain ⟨coins, undo, totals, connected, _⟩ := accepted.coins
  simp only [connectCoins, applyTransactions, bind_eq_ok, reject_eq_ok] at connected
  obtain ⟨_, _, _, _, _, _, _, _, _, fresh, _⟩ := connected
  intro tx member
  rw [enforced, Bool.true_and, any_eq_false] at fresh
  simpa using fresh tx member

/-- **Transaction ids along a chain.** The ids are pairwise different exactly when the coinbases
and the version 5 coinstakes are; for these coinstakes it is enough that they carry the height
of their block. A block on top of the chain contains no transaction of which an earlier copy
has unspent outputs. -/
theorem txids_of_chain {blocks : List CBlock} {view : CCoinsViewCache}
    (chain : AcceptedChain blocks view) (collisionFree : CollisionFree blocks) :
    (((chainTxs blocks).map CTransaction.getHash).Nodup ↔
        ((chainTxs blocks).filter fun tx => !tx.hasInputs).Nodup) ∧
      (((chainTxs blocks).filter CTransaction.isCoinBase).Nodup → CarryHeights blocks →
        ((chainTxs blocks).map CTransaction.getHash).Nodup) ∧
      ∀ data node fScriptChecks block pindex after vtxundo,
        (connectBlock data node fScriptChecks block pindex view false).verdict =
          .ok (after, some vtxundo) → enforceBIP30 pindex = true →
        ∀ tx ∈ block.vtx, (view.coins tx.getHash).isPruned = true := by
  have unique : ((chainTxs blocks).map CTransaction.getHash).Nodup ↔
      ((chainTxs blocks).filter fun tx => !tx.hasInputs).Nodup := by
    rw [collisionFree.txids_nodup, ← chain.sources]
    exact chain.run.nodup_iff collisionFree
  refine ⟨unique, ?_, ?_⟩
  · intro coinbases carry
    have sources := nodup_filter_or coinbases (chain.stakes_nodup carry)
    rw [unique]
    simpa only [CTransaction.hasInputs, Bool.not_and, Bool.not_not] using sources
  · intro data node fScriptChecks block pindex after vtxundo connected enforced
    exact (connectBlock_accepted connected).overwrites_none enforced

end

namespace RepeatedStake

/-! A regression test chain of 117 blocks: proof of work up to height 100, then version 5
blocks. The coinstake of height 101 is spent at height 116 and enters again at height 117. -/

/-- The coinstake at height `n`, the one of height 101 again at height 117. -/
def tag (n : Nat) : Nat := if n = 117 then 101 else n

/-- The transaction of height 116, which spends all outputs of the coinstake. -/
def spend : CTransaction :=
  { nVersion := 3000,
    vin := (List.range 3).map fun n => { prevout := ⟨101, n⟩, scriptSig := [0x51] },
    vout := [{ nValue := 2, scriptPubKey := [0x51] }], nLockTime := 0 }

/-- The pointer of the block at height `n` names the coinbase 40 blocks below. -/
def pointer (n : Nat) : StakePointer where
  hashBlock := BitVec.ofNat 256 (n - 40)
  txid := BitVec.ofNat 256 (2000 + (n - 40))
  nPos := 0
  pubKeyCollateral := StakedTip.minerKey
  pubKeyProofOfStake := StakedTip.minerKey
  vchSigCollateralSignOver := []

/-- The block at height `n`. -/
def block (n : Nat) : CBlock :=
  if n ≤ 100 then
    { nVersion := 3, hashPrevBlock := BitVec.ofNat 256 (n - 1),
      hashMerkleRoot := BitVec.ofNat 256 (2000 + n), nTime := 1400000000 + 600 * n,
      nBits := 0x207fffff, nNonce := 0, vtx := [coinbase n [payment]] }
  else
    { nVersion := 5, hashPrevBlock := BitVec.ofNat 256 (n - 1),
      hashMerkleRoot := BitVec.ofNat 256 (2000 + n), nTime := 1400000000 + 600 * n,
      nBits := if n = 101 then 0x1f123156 else 0x1e00ffff, nNonce := 0,
      vtx := [coinbase n [.empty], coinstake (tag n)] ++
        if n = 116 then [spend] else [],
      vchBlockSig := [1], stakePointer := pointer n }

def entry (n : Nat) : CBlockIndex :=
  { CBlockIndex.ofBlock (block n) with
    phashBlock := some (BitVec.ofNat 256 n),
    pprev := if n = 0 then none else some (BitVec.ofNat 256 (n - 1)), nHeight := n, nTx := 1,
    nStatus := { valid := BLOCK_VALID_TRANSACTIONS, haveData := true } }

def index (n : Nat) : CBlockIndex :=
  { entry n with
    nMoneySupply := if n ≤ 100 then n else 2 * n - 100,
    nStatus := { valid := BLOCK_VALID_SCRIPTS, haveData := true, haveUndo := true } }

/-- The node whose tip is at height `n`. -/
def node (n : Nat) : Node :=
  { StakedTip.node with
    mapBlockIndex := fun hash => if hash.toNat ≤ n then some (index hash.toNat) else none,
    vChain := (List.range (n + 1)).map (BitVec.ofNat 256),
    diskBlocks := fun hash => if hash.toNat ≤ n then some (block hash.toNat) else none,
    mapUsedStakePointers := fun hash =>
      if 2061 ≤ hash.toNat ∧ hash.toNat ≤ 1960 + n then some (BitVec.ofNat 256 (hash.toNat - 1960))
      else none }

def data : LocalData := { StakedTip.data with adjustedTime := 1400000000 + 600 * 117 }

/-- The blocks up to height `n`, the last first. -/
def blocks : Nat → List CBlock
  | 0 => []
  | n + 1 => block (n + 1) :: blocks n

end RepeatedStake

section

local instance RepeatedStake.params : ChainParams := regTestParams 0
local instance RepeatedStake.instCrypto : Crypto := crypto
local instance RepeatedStake.instLegacy : Legacy := StakedTip.legacy

namespace RepeatedStake

/-- The block at height `n + 1` on top of the one at height `n`. -/
def connect (n : Nat) (view : CCoinsViewCache) : ConnectResult :=
  connectBlock data (node n) true (block (n + 1)) (entry (n + 1)) view false

/-- The coins at height `n`. -/
def views : Nat → CCoinsViewCache
  | 0 => ⟨fun _ => {}, 0⟩
  | n + 1 => ((connect n (views n)).verdict.toOption.map Prod.fst).getD (views n)

theorem stored : ∀ k < 17, (node (100 + k)).mapBlockIndex (block (101 + k)).getHash = none ∧
    (acceptBlock data (node (100 + k)) (block (101 + k)) true).2.toOption.isSome = true := by
  decide +kernel

theorem connected : ∀ n < 117, (connect n (views n)).blockundo.isSome = true := by
  decide +kernel

def labelled (nVersion : Nat) : CTransaction :=
  if nVersion < 2000 then coinstake nVersion
  else if nVersion = 3000 then spend
  else coinbase (nVersion - 2000) (if nVersion ≤ 2100 then [payment]
    else [.empty])

theorem txs_labelled : ∀ n < 118, ∀ tx ∈ (block n).vtx, tx.nVersion.toNat < 4000 ∧
    tx = labelled tx.nVersion.toNat ∧ tx.getHash = BitVec.ofNat 256 tx.nVersion.toNat := by
  decide +kernel

theorem chain (n : Nat) (bound : n ≤ 117) : AcceptedChain (blocks n) (views n) := by
  induction n with
  | zero => exact .genesis fun txid => rfl
  | succ n ih =>
    obtain ⟨after, vtxundo, accepted⟩ :=
      ConnectResult.accepted_of_blockundo (connected n (by omega))
    have length : (blocks n).length = n := by
      clear ih bound accepted
      induction n with
      | zero => rfl
      | succ n ih => exact congrArg Nat.succ ih
    have left : views (n + 1) = after := by
      rw [views, accepted]
      rfl
    rw [left]
    refine (ih (by omega)).connect ?_ (fun fork => ?_) accepted
    · rw [length]
      rfl
    · have fork : (101 : Int) ≤ (n + 1 : Nat) := fork
      obtain ⟨unknown, passed⟩ := stored (n - 100) (by omega)
      rw [show 100 + (n - 100) = n by omega, show 101 + (n - 100) = n + 1 by omega]
        at unknown passed
      refine ⟨data, node n, unknown, ?_⟩
      cases verdict : (acceptBlock data (node n) (block (n + 1)) true).2 with
      | ok result => rfl
      | error state =>
        rw [verdict] at passed
        contradiction

theorem mem_blocks {n : Nat} {tx : CTransaction} (member : tx ∈ chainTxs (blocks n)) :
    ∃ k ≤ n, tx ∈ (block k).vtx := by
  induction n with
  | zero => exact absurd member not_mem_nil
  | succ n ih =>
    rcases mem_append.mp member with here | earlier
    · exact ⟨n + 1, le_rfl, mem_reverse.mp here⟩
    · obtain ⟨k, below, there⟩ := ih earlier
      exact ⟨k, Nat.le_succ_of_le below, there⟩

theorem collisionFree (n : Nat) (bound : n ≤ 117) : CollisionFree (blocks n) := by
  intro tx member other there same
  obtain ⟨k, low, here⟩ := mem_blocks member
  obtain ⟨m, lowOther, hereOther⟩ := mem_blocks there
  obtain ⟨small, label, hash⟩ := txs_labelled k (by omega) tx here
  obtain ⟨smallOther, labelOther, hashOther⟩ := txs_labelled m (by omega) other hereOther
  rw [hash, hashOther] at same
  have versions := congrArg BitVec.toNat same
  rw [BitVec.toNat_ofNat, BitVec.toNat_ofNat, Nat.mod_eq_of_lt (by omega),
    Nat.mod_eq_of_lt (by omega)] at versions
  rw [label, labelOther, versions]

end RepeatedStake

/-- A coinstake without its height enters twice, both times above the stake pointer fork. -/
theorem repeatedStake_txids :
    AcceptedChain (RepeatedStake.blocks 117) (RepeatedStake.views 117) ∧
      CollisionFree (RepeatedStake.blocks 117) ∧
      ¬((chainTxs ((RepeatedStake.blocks 117).take 17)).map CTransaction.getHash).Nodup ∧
      ∀ nHeight, (coinstake 101).vin ≠ [vinMarker nHeight] := by
  refine ⟨RepeatedStake.chain 117 le_rfl, RepeatedStake.collisionFree 117 le_rfl, ?_, ?_⟩
  · intro different
    have apart : ¬(chainTxs ((RepeatedStake.blocks 117).take 17)).Nodup := by
      decide +kernel
    exact apart (different.of_map _)
  · intro nHeight same
    have scripts := congrArg CTxIn.scriptSig (singleton_inj.mp same)
    exact CScript.pushInt64_ne_nil nHeight (List.cons.inj scripts).2.symm

/-- Up to height 116 the ids are different exactly when the coinbases and the coinstakes are. -/
theorem txids_of_chain_repeatedStake :
    ((chainTxs (RepeatedStake.blocks 116)).map CTransaction.getHash).Nodup ↔
      ((chainTxs (RepeatedStake.blocks 116)).filter fun tx => !tx.hasInputs).Nodup :=
  (txids_of_chain (RepeatedStake.chain 116 (by decide))
    (RepeatedStake.collisionFree 116 (by decide))).1

end

end Agouti
