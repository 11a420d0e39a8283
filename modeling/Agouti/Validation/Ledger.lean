import Agouti.Coins.SameView
import Agouti.Validation.ActiveChain

/-! # What the blocks of a chain determine

The coins and the records of used stake pointers that a chain of blocks leaves are
a function of the blocks (`Ledger.ofChain`). Whether the transactions of the next
block can be applied only depends on these coins and on the height of the chain, not
on the node that applies them (`applyTransactions_same`).
-/

namespace Agouti

open Verdict List

/-- The totals of the same transactions. The scripts of the second side hold when the
first side has evaluated them. -/
structure ConnectTotals.Agrees (fScriptChecks : Bool) (a b : ConnectTotals) : Prop where
  nFees : a.nFees = b.nFees
  nValueIn : a.nValueIn = b.nValueIn
  nValueOut : a.nValueOut = b.nValueOut
  nSigOps : a.nSigOps = b.nSigOps
  scripts : fScriptChecks = true → a.fScripts = true → b.fScripts = true

theorem ConnectTotals.Agrees.refl (fScriptChecks : Bool) (totals : ConnectTotals) :
    totals.Agrees fScriptChecks totals := ⟨rfl, rfl, rfl, rfl, fun _ valid => valid⟩

section

variable {a b : CCoinsViewCache} {mapA mapB : BlockMap}

/-- The best blocks have one height. -/
def SameTop (mapA : BlockMap) (a : CCoinsViewCache) (mapB : BlockMap) (b : CCoinsViewCache) : Prop :=
  (mapA a.hashBlock).map CBlockIndex.nHeight = (mapB b.hashBlock).map CBlockIndex.nHeight

variable [ChainParams]

theorem checkInputValues_same (same : a.Same b) (nSpendHeight : Int) {vin : List CTxIn}
    (available : ∀ txin ∈ vin, (a.coins txin.prevout.hash).isAvailable txin.prevout.n = true)
    (nValueIn : CAmount) :
    checkInputValues a nSpendHeight vin nValueIn = checkInputValues b nSpendHeight vin nValueIn := by
  induction vin generalizing nValueIn with
  | nil => rfl
  | cons txin rest ih =>
    have here := available txin mem_cons_self
    obtain ⟨coinBase, coinStake, height, _⟩ :=
      (same.coins txin.prevout.hash).metadata_of_available here
    have others := ih fun other member => available other (mem_cons_of_mem _ member)
    simp only [checkInputValues, same.getOutputFor here, coinBase, coinStake, height, others]

variable {tx : CTransaction}

theorem checkInputs_same (same : a.Same b) (top : SameTop mapA a mapB b)
    (spends : tx.hasInputs = true) (have_ : a.haveInputs tx = true) {result : Unit}
    (passed : checkInputs mapA a tx = .ok result) : checkInputs mapB b tx = .ok result := by
  simp only [checkInputs, bind_eq_ok, reject_eq_ok, demand_eq_ok] at passed ⊢
  obtain ⟨_, found, prev, parent, nValueIn, values, rest⟩ := passed
  rw [SameTop, parent, Option.map_some, eq_comm, Option.map_eq_some_iff] at top
  obtain ⟨prevB, parentB, height⟩ := top
  refine ⟨(), (same.haveInputs tx).symm ▸ found, prevB, parentB, nValueIn, ?_, rest⟩
  rw [height, ← checkInputValues_same same _
    fun txin member => CCoinsViewCache.Same.available_of_haveInputs spends have_ member]
  exact values

variable [Crypto]

omit [ChainParams] in
theorem scriptsValid_same (same : a.Same b) (spends : tx.hasInputs = true)
    (have_ : a.haveInputs tx = true) (flags : Nat) :
    scriptsValid a flags tx = scriptsValid b flags tx := by
  unfold scriptsValid
  rw [Bool.eq_iff_iff, all_eq_true, all_eq_true]
  refine forall₂_congr fun entry member => ?_
  obtain ⟨txin, nIn⟩ := entry
  have inside : txin ∈ tx.vin := by
    have found := (List.mem_zipIdx_iff_getElem?.mp member)
    exact mem_of_getElem? found
  simp only [same.getOutputFor (CCoinsViewCache.Same.available_of_haveInputs spends have_ inside)]

theorem tallyInputs_same (same : a.Same b) (top : SameTop mapA a mapB b)
    (strict checksA checksB : Bool) (flags : Nat) {totalsA totalsB result : ConnectTotals}
    (agrees : totalsA.Agrees checksA totalsB)
    (tallied : tallyInputs mapA strict checksA flags a tx totalsA = .ok result) :
    ∃ other, tallyInputs mapB strict checksB flags b tx totalsB = .ok other ∧
      result.Agrees checksA other := by
  unfold tallyInputs at tallied ⊢
  split at tallied
  · obtain rfl := Except.ok.inj tallied
    rw [if_pos ‹_›]
    refine ⟨_, rfl, agrees.nFees, ?_, agrees.nValueOut, agrees.nSigOps, agrees.scripts⟩
    simp only [agrees.nValueIn]
  · rw [if_neg ‹_›]
    split at tallied
    · rename_i spends
      simp only [bind_eq_ok, reject_eq_ok, Bool.not_eq_false'] at tallied
      obtain ⟨_, have_, _, sigOps, _, checked, last⟩ := tallied
      obtain rfl := Except.ok.inj last
      rw [if_pos spends]
      have p2sh : (if strict = true then a.getP2SHSigOpCount tx else 0) =
          if strict = true then b.getP2SHSigOpCount tx else 0 := by
        rw [same.getP2SHSigOpCount spends have_]
      rw [agrees.nSigOps, p2sh] at sigOps
      refine ⟨{ totalsB with
          nSigOps := totalsB.nSigOps + if strict = true then b.getP2SHSigOpCount tx else 0
          nFees := totalsB.nFees + if tx.isCoinStake then 0 else b.getValueIn tx - tx.getValueOut
          nValueIn := totalsB.nValueIn + b.getValueIn tx
          fScripts := totalsB.fScripts && (!checksB || scriptsValid b flags tx) }, ?_, ?_⟩
      · simp only [bind_eq_ok, reject_eq_ok, Bool.not_eq_false']
        exact ⟨(), (same.haveInputs tx).symm ▸ have_, (), sigOps, (),
          checkInputs_same same top spends have_ checked, trivial⟩
      · refine ⟨?_, ?_, agrees.nValueOut, ?_, fun checks valid => ?_⟩
        · simp only [agrees.nFees, same.getValueIn spends have_]
        · simp only [agrees.nValueIn, same.getValueIn spends have_]
        · simp only [agrees.nSigOps, p2sh]
        · simp only [checks, Bool.not_true, Bool.false_or, Bool.and_eq_true] at valid
          simp only [agrees.scripts checks valid.1, ← scriptsValid_same same spends have_, valid.2,
            Bool.or_true, Bool.and_self]
    · rw [if_neg ‹_›]
      obtain rfl := Except.ok.inj tallied
      exact ⟨totalsB, rfl, agrees⟩

theorem connectTransactions_same {nHeight : Int} (strict checksA checksB : Bool) {flags : Nat}
    {vtx : List CTransaction} (same : a.Same b) (top : SameTop mapA a mapB b)
    {totalsA totalsB result : ConnectTotals} (agrees : totalsA.Agrees checksA totalsB)
    {final : CCoinsViewCache} {vtxundo : List (List CTxInUndo)}
    (connected : connectTransactions mapA nHeight strict checksA flags vtx a totalsA =
      .ok (final, vtxundo, result)) :
    ∃ other records otherTotals,
      connectTransactions mapB nHeight strict checksB flags vtx b totalsB =
        .ok (other, records, otherTotals) ∧ final.Same other ∧ result.Agrees checksA otherTotals := by
  induction vtx generalizing a b totalsA totalsB final vtxundo result with
  | nil =>
    simp only [connectTransactions, Except.ok.injEq, Prod.mk.injEq] at connected
    obtain ⟨rfl, rfl, rfl⟩ := connected
    exact ⟨b, [], totalsB, rfl, same, agrees⟩
  | cons tx rest ih =>
    simp only [connectTransactions, bind_eq_ok, reject_eq_ok, demand_eq_ok] at connected
    obtain ⟨_, sigOps, _, zerocoins, middle, tallied, ⟨next, txundo⟩, updated,
      ⟨last, others, lastTotals⟩, connected, result_⟩ := connected
    simp only [Except.ok.injEq, Prod.mk.injEq] at result_
    obtain ⟨rfl, rfl, rfl⟩ := result_
    have counted : ({ totalsA with nSigOps := totalsA.nSigOps + tx.getLegacySigOpCount } :
        ConnectTotals).Agrees checksA
        { totalsB with nSigOps := totalsB.nSigOps + tx.getLegacySigOpCount } :=
      ⟨agrees.nFees, agrees.nValueIn, agrees.nValueOut, by simp only [agrees.nSigOps],
        agrees.scripts⟩
    obtain ⟨middleB, talliedB, agreesMiddle⟩ :=
      tallyInputs_same same top strict checksA checksB flags counted tallied
    obtain ⟨nextB, txundoB, updatedB, sameNext⟩ := same.updateCoins updated
    have topNext : SameTop mapA next mapB nextB := by
      obtain ⟨_, _, bestA, _⟩ := updateCoins_run updated
      obtain ⟨_, _, bestB, _⟩ := updateCoins_run updatedB
      rw [SameTop, bestA, bestB]
      exact top
    have agreesNext : ({ middle with nValueOut := middle.nValueOut + tx.getValueOut } :
        ConnectTotals).Agrees checksA
        { middleB with nValueOut := middleB.nValueOut + tx.getValueOut } :=
      ⟨agreesMiddle.nFees, agreesMiddle.nValueIn, by simp only [agreesMiddle.nValueOut],
        agreesMiddle.nSigOps, agreesMiddle.scripts⟩
    obtain ⟨finalB, othersB, totalsEnd, connectedB, sameFinal, agreesFinal⟩ :=
      ih sameNext topNext agreesNext connected
    rw [agrees.nSigOps] at sigOps
    refine ⟨finalB, txundoB :: othersB, totalsEnd, ?_, sameFinal, agreesFinal⟩
    simp only [connectTransactions, bind_eq_ok, reject_eq_ok, demand_eq_ok]
    exact ⟨(), sigOps, (), zerocoins, middleB, talliedB, (nextB, txundoB), updatedB,
      (finalB, othersB, totalsEnd), connectedB, rfl⟩

/-- The fields of an entry that applying the transactions of its block reads. -/
structure CBlockIndex.SamePlace (a b : CBlockIndex) : Prop where
  phashBlock : a.phashBlock = b.phashBlock
  pprev : a.pprev = b.pprev
  nHeight : a.nHeight = b.nHeight
  nTime : a.nTime = b.nTime

omit [ChainParams] [Crypto] in
theorem enforceBIP30_place {pindex other : CBlockIndex} (place : pindex.SamePlace other) :
    enforceBIP30 pindex = enforceBIP30 other := by
  simp only [enforceBIP30, place.phashBlock, place.nHeight]

theorem applyTransactions_same {nodeA nodeB : Node} (same : a.Same b)
    (top : SameTop nodeA.mapBlockIndex a nodeB.mapBlockIndex b) {pindex other : CBlockIndex}
    (place : pindex.SamePlace other) (checksA checksB : Bool) {block : CBlock}
    {final : CCoinsViewCache} {vtxundo : List (List CTxInUndo)} {totals : ConnectTotals}
    (applied : applyTransactions nodeA checksA block pindex a = .ok (final, vtxundo, totals)) :
    ∃ finalB records totalsB,
      applyTransactions nodeB checksB block other b = .ok (finalB, records, totalsB) ∧
        final.Same finalB ∧ totals.Agrees checksA totalsB := by
  simp only [applyTransactions, bind_eq_ok, reject_eq_ok, (same.coins _).isPruned, place.pprev,
    place.nHeight, same.hashBlock, enforceBIP30_place place, CBlockIndex.getBlockTime,
    place.nTime] at applied ⊢
  obtain ⟨_, parent, _, early, _, ended, _, unique, connected⟩ := applied
  obtain ⟨finalB, records, totalsB, connectedB, views, agrees⟩ :=
    connectTransactions_same _ checksA checksB same top (.refl checksA {}) connected
  exact ⟨finalB, records, totalsB, ⟨(), parent, (), early, (), ended, (), unique, connectedB⟩, views,
    agrees⟩

end

/-- The coins and the records of used stake pointers behind a chain of blocks. -/
structure Ledger where
  coins : CCoinsViewCache
  used : Uint256 → Option Uint256
  nHeight : Int

namespace Ledger

def empty : Ledger := ⟨⟨fun _ => {}, 0⟩, fun _ => none, -1⟩

/-- The block index as far as applying transactions reads it: the best block and its
height. -/
def node (ledger : Ledger) : Node where
  mapBlockIndex := fun hash =>
    if hash = ledger.coins.hashBlock then some { nHeight := ledger.nHeight } else none
  vChain := []
  diskBlocks := fun _ => none
  diskUndo := fun _ => none
  pcoinsTip := ledger.coins
  mapProofOfStake := []
  setStakeSeen := []
  mapUsedStakePointers := ledger.used
  setBlockIndexCandidates := []
  mapBlocksUnlinked := []
  nBlockSequenceId := 0

variable [ChainParams] [Crypto]

def index (ledger : Ledger) (block : CBlock) : CBlockIndex :=
  { CBlockIndex.ofBlock block with
    phashBlock := some block.getHash
    pprev := if ledger.nHeight < 0 then none else some ledger.coins.hashBlock
    nHeight := ledger.nHeight + 1 }

def connect (ledger : Ledger) (block : CBlock) : Option Ledger :=
  let pindex := ledger.index block
  if block.getHash = ChainParams.hashGenesisBlock then
    some { ledger with
      coins := ledger.coins.setBestBlock block.getHash, nHeight := ledger.nHeight + 1 }
  else
    (applyTransactions ledger.node true block pindex ledger.coins).toOption.map fun applied =>
      { coins := applied.1.setBestBlock block.getHash
        used :=
          if isV5Stake block pindex then
            Function.update ledger.used (stakePointerHash block.stakePointer.outpoint)
              (some block.getHash)
          else ledger.used
        nHeight := ledger.nHeight + 1 }

def ofChain (bodies : Uint256 → Option CBlock) (chain : List Uint256) : Option Ledger :=
  chain.foldlM (fun ledger hash => (bodies hash).bind ledger.connect) empty

theorem ofChain_snoc (bodies : Uint256 → Option CBlock) (chain : List Uint256) (hash : Uint256) :
    ofChain bodies (chain ++ [hash]) = (ofChain bodies chain).bind fun ledger =>
      (bodies hash).bind ledger.connect := by
  simp only [ofChain, foldlM_append, foldlM_cons, foldlM_nil, Option.bind_eq_bind,
    Option.pure_def, Option.bind_fun_some]

theorem ofChain_congr {bodies others : Uint256 → Option CBlock} {chain : List Uint256}
    (same : ∀ hash ∈ chain, others hash = bodies hash) :
    ofChain others chain = ofChain bodies chain := by
  induction chain using List.reverseRecOn with
  | nil => rfl
  | append_singleton front hash ih =>
    have here := same hash (mem_append_right front mem_cons_self)
    have below := ih fun other member => same other (mem_append_left [hash] member)
    rw [ofChain_snoc, ofChain_snoc, here, below]

end Ledger

/-- The coins are those of the ledger. -/
structure Node.OnLedger (node : Node) (ledger : Ledger) : Prop where
  coins : node.pcoinsTip.Same ledger.coins
  top : SameTop node.mapBlockIndex node.pcoinsTip ledger.node.mapBlockIndex ledger.coins

section

variable [ChainParams] [Crypto] {data : LocalData} {node : Node} {fScriptChecks : Bool}
  {block : CBlock} {pindex : CBlockIndex}

end

end Agouti
