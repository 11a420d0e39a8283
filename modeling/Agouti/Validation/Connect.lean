import Agouti.Validation.CheckBlock

/-! # Connecting and disconnecting a block

`CheckInputs`, `ConnectBlock` and `DisconnectBlock` of `main.cpp`. Script checks
are collected and evaluated together, as with the check queue the node runs by
default. `ConnectBlock` changes the global state on its way, also where it fails
later, so its result carries the node next to the verdict; the view is returned
by value. An assertion that fails is an error verdict.
-/

namespace Agouti

def SCRIPT_VERIFY_NONE : Nat := 0
def SCRIPT_VERIFY_P2SH : Nat := 1
def SCRIPT_VERIFY_DERSIG : Nat := 4

/-- The sums and the script checks of the loop of `ConnectBlock`. -/
structure ConnectTotals where
  nFees : CAmount := 0
  nValueIn : CAmount := 0
  nValueOut : CAmount := 0
  nSigOps : Nat := 0
  fScripts : Bool := true
  deriving DecidableEq, Repr

namespace Verdict

variable [ChainParams]

/-- The loop of `CheckInputs` over the inputs, with the sum so far. -/
def checkInputValues (view : CCoinsViewCache) (nSpendHeight : Int) :
    List CTxIn → CAmount → Verdict CAmount
  | [], nValueIn => .ok nValueIn
  | txin :: rest, nValueIn => do
      let coins := view.coins txin.prevout.hash
      reject ((coins.fCoinBase || coins.fCoinStake) &&
          decide (nSpendHeight - coins.nHeight < nMaturity))
        (invalid REJECT_INVALID "bad-txns-premature-spend-of-coinbase")
      let nValue := (view.getOutputFor txin).nValue
      reject (!moneyRange nValue || !moneyRange (nValueIn + nValue))
        (doS 100 REJECT_INVALID "bad-txns-inputvalues-outofrange")
      checkInputValues view nSpendHeight rest (nValueIn + nValue)

/-- `CheckInputs` up to the script checks. -/
def checkInputs (mapBlockIndex : BlockMap) (view : CCoinsViewCache) (tx : CTransaction) :
    Verdict Unit := do
  reject (!view.haveInputs tx) (invalid 0 "")
  let pindexPrev ← demand (mapBlockIndex view.hashBlock) (failure.error "")
  let nValueIn ← checkInputValues view (pindexPrev.nHeight + 1) tx.vin 0
  whenever (!tx.isCoinStake) do
    reject (decide (nValueIn < tx.getValueOut)) (doS 100 REJECT_INVALID "bad-txns-in-belowout")
    reject (!moneyRange (nValueIn - tx.getValueOut))
      (doS 100 REJECT_INVALID "bad-txns-fee-outofrange")

variable [Crypto]

def scriptsValid (view : CCoinsViewCache) (flags : Nat) (tx : CTransaction) : Bool :=
  (tx.vin.zipIdx).all fun (txin, nIn) =>
    Crypto.verifyScript txin.scriptSig (view.getOutputFor txin).scriptPubKey flags tx nIn

/-- The part of the loop of `ConnectBlock` about the inputs of a transaction. -/
def tallyInputs (mapBlockIndex : BlockMap) (fStrictPayToScriptHash fScriptChecks : Bool)
    (flags : Nat) (view : CCoinsViewCache) (tx : CTransaction) (totals : ConnectTotals) :
    Verdict ConnectTotals :=
  if tx.isZerocoinSpend then
    let denominations := (tx.vin.filter fun txin => txin.scriptSig.isZerocoinSpend).map fun txin =>
      (txin.nSequence : CAmount) * COIN
    .ok { totals with nValueIn := totals.nValueIn + denominations.sum }
  else if tx.hasInputs then do
    reject (!view.haveInputs tx) (doS 100 REJECT_INVALID "bad-txns-inputs-missingorspent")
    let nSigOps := totals.nSigOps +
      if fStrictPayToScriptHash then view.getP2SHSigOpCount tx else 0
    reject (decide (MAX_BLOCK_SIGOPS_CURRENT < nSigOps)) (doS 100 REJECT_INVALID "bad-blk-sigops")
    checkInputs mapBlockIndex view tx
    let nValueIn := view.getValueIn tx
    .ok { totals with
      nSigOps := nSigOps,
      nFees := totals.nFees + if tx.isCoinStake then 0 else nValueIn - tx.getValueOut,
      nValueIn := totals.nValueIn + nValueIn,
      fScripts := totals.fScripts && (!fScriptChecks || scriptsValid view flags tx) }
  else .ok totals

/-- The loop of `ConnectBlock` over the transactions: the view, `vtxundo` with an
entry for the coinbase in front, and the totals. -/
def connectTransactions (mapBlockIndex : BlockMap) (nHeight : Int)
    (fStrictPayToScriptHash fScriptChecks : Bool) (flags : Nat) :
    List CTransaction → CCoinsViewCache → ConnectTotals →
      Verdict (CCoinsViewCache × List (List CTxInUndo) × ConnectTotals)
  | [], view, totals => .ok (view, [], totals)
  | tx :: rest, view, totals => do
      let totals := { totals with nSigOps := totals.nSigOps + tx.getLegacySigOpCount }
      reject (decide (MAX_BLOCK_SIGOPS_CURRENT < totals.nSigOps))
        (doS 100 REJECT_INVALID "bad-blk-sigops")
      reject (decide (2565000 ≤ nHeight) && tx.containsZerocoins) (doS 100 0 "")
      let totals ← tallyInputs mapBlockIndex fStrictPayToScriptHash fScriptChecks flags view tx totals
      let (view, txundo) ← demand (updateCoins tx view nHeight) (invalid 0 "")
      let totals := { totals with nValueOut := totals.nValueOut + tx.getValueOut }
      let (view, vtxundo, totals) ← connectTransactions mapBlockIndex nHeight
        fStrictPayToScriptHash fScriptChecks flags rest view totals
      .ok (view, txundo :: vtxundo, totals)

def enforceBIP30 (pindex : CBlockIndex) : Bool :=
  pindex.phashBlock.isNone ||
    !((pindex.nHeight == 91842 && pindex.phashBlock ==
        some 0x00000000000a4d0a398161ffc163c503763b1f4360639393e0e4c8e300e0caec) ||
      (pindex.nHeight == 91880 && pindex.phashBlock ==
        some 0x00000000000743f190a18c5577a3c2d2a1f610ae9601ac046a38084ccb7cd721))

/-- `ConnectBlock` behind `CheckBlock` to the end of the loop over the transactions, for
a block other than the genesis block. -/
def applyTransactions (node : Node) (fScriptChecks : Bool) (block : CBlock) (pindex : CBlockIndex)
    (view : CCoinsViewCache) :
    Verdict (CCoinsViewCache × List (List CTxInUndo) × ConnectTotals) := do
  reject (pindex.pprev.getD 0 != view.hashBlock) (failure.error "")
  reject (decide (pindex.nHeight ≤ nLastPOWBlock) && block.isProofOfStake)
    (doS 100 REJECT_INVALID "PoS-early")
  reject (decide (nLastPOWBlock < pindex.nHeight) && block.isProofOfWork)
    (doS 100 REJECT_INVALID "PoW-ended")
  reject (enforceBIP30 pindex && block.vtx.any fun tx => !(view.coins tx.getHash).isPruned)
    (doS 100 REJECT_INVALID "bad-txns-BIP30")
  let fStrictPayToScriptHash := decide (1333238400 ≤ pindex.getBlockTime)
  let flags := (if fStrictPayToScriptHash then SCRIPT_VERIFY_P2SH else SCRIPT_VERIFY_NONE) |||
    SCRIPT_VERIFY_DERSIG
  connectTransactions node.mapBlockIndex pindex.nHeight fStrictPayToScriptHash fScriptChecks flags
    block.vtx view {}

/-- `ConnectBlock` up to the end of the loop over the transactions. -/
def connectCoins (data : LocalData) (node : Node) (fScriptChecks : Bool) (block : CBlock)
    (pindex : CBlockIndex) (view : CCoinsViewCache) (fJustCheck : Bool) :
    Verdict (CCoinsViewCache × List (List CTxInUndo) × ConnectTotals) := do
  checkBlock data node block (!fJustCheck) (!fJustCheck)
  applyTransactions node fScriptChecks block pindex view

/-- `nExpectedMint` of `ConnectBlock`. -/
def nExpectedMint (node : Node) (block : CBlock) (pindex pprev : CBlockIndex)
    (totals : ConnectTotals) : CAmount :=
  let nCalcHeight := if nStakePointerForkHeight ≤ pindex.nHeight then pindex.nHeight
    else pprev.nHeight
  getBlockValue node.tipMoneySupply nCalcHeight + if block.isProofOfWork then totals.nFees else 0

/-- The reward check of `ConnectBlock` and the result of the script checks. -/
def connectReward (data : LocalData) (node : Node) (block : CBlock) (pindex : CBlockIndex)
    (totals : ConnectTotals) : Verdict Unit := do
  let pprev ← demand (node.mapBlockIndex.prev pindex) (failure.error "")
  reject (!data.isBlockValueValid node block (nExpectedMint node block pindex pprev totals)
    pindex.nMint) (doS 100 REJECT_INVALID "bad-cb-amount")
  reject (!totals.fScripts) (doS 100 0 "")

end Verdict

open Verdict

namespace Node

/-- The money supply fields that `ConnectBlock` sets. -/
def withSupply (node : Node) (pindex : CBlockIndex) (totals : ConnectTotals) : CBlockIndex :=
  let nMoneySupplyPrev := ((node.mapBlockIndex.prev pindex).map CBlockIndex.nMoneySupply).getD 0
  let nMoneySupply := nMoneySupplyPrev + totals.nValueOut - totals.nValueIn
  { pindex with
    nMoneySupply := nMoneySupply,
    nMint := nMoneySupply - nMoneySupplyPrev + totals.nFees }

/-- A change of `*pindex`; the entry `TestBlockValidity` passes is in no map. -/
def storeIndex (node : Node) (pindex : CBlockIndex) : Node :=
  match pindex.phashBlock with
  | none => node
  | some hash => node.setIndex hash pindex

/-- The undo data step of `ConnectBlock`: write it once and raise the validity. -/
def writeUndo (node : Node) (pindex : CBlockIndex) (vtxundo : List (List CTxInUndo)) :
    Node × CBlockIndex :=
  if !pindex.nStatus.haveUndo || !pindex.isValid BLOCK_VALID_SCRIPTS then
    let wrote := { pindex with nStatus := { pindex.nStatus with haveUndo := true } }
    let pindexNew := wrote.raiseValidity BLOCK_VALID_SCRIPTS
    let diskUndo :=
      if pindex.nStatus.haveUndo then node.diskUndo
      else Function.update node.diskUndo pindex.getBlockHash (some vtxundo)
    ({ node with diskUndo := diskUndo }.storeIndex pindexNew, pindexNew)
  else (node, pindex)

@[simp] theorem withSupply_phashBlock (node : Node) (pindex : CBlockIndex)
    (totals : ConnectTotals) : (node.withSupply pindex totals).phashBlock = pindex.phashBlock := rfl

@[simp] theorem withSupply_pprev (node : Node) (pindex : CBlockIndex)
    (totals : ConnectTotals) : (node.withSupply pindex totals).pprev = pindex.pprev := rfl

@[simp] theorem withSupply_nHeight (node : Node) (pindex : CBlockIndex)
    (totals : ConnectTotals) : (node.withSupply pindex totals).nHeight = pindex.nHeight := rfl

@[simp] theorem writeUndo_phashBlock (node : Node) (pindex : CBlockIndex)
    (vtxundo : List (List CTxInUndo)) :
    (node.writeUndo pindex vtxundo).2.phashBlock = pindex.phashBlock := by
  unfold Node.writeUndo
  split
  · exact CBlockIndex.raiseValidity_phashBlock _ _
  · rfl

end Node

/-- What `ConnectBlock` leaves: the global state, and the changed view with
`blockundo` when the block was accepted. The genesis block has no undo data. -/
structure ConnectResult where
  node : Node
  verdict : Verdict (CCoinsViewCache × Option (List (List CTxInUndo)))

def ConnectResult.blockundo (result : ConnectResult) : Option (List (List CTxInUndo)) :=
  result.verdict.toOption.bind Prod.snd

theorem ConnectResult.accepted_of_blockundo {result : ConnectResult}
    (wrote : result.blockundo.isSome = true) :
    ∃ after vtxundo, result.verdict = .ok (after, some vtxundo) := by
  obtain ⟨node, verdict⟩ := result
  match verdict, wrote with
  | .ok (after, some vtxundo), _ => exact ⟨after, vtxundo, rfl⟩

variable [ChainParams] [Crypto]

def stakePointerHash (outpoint : COutPoint) : Uint256 := Hash (Serialize.outpoint outpoint)

/-- The block is a version 5 proof-of-stake block with a pointer, as `ConnectBlock`
and `DisconnectBlock` ask. -/
def isV5Stake (block : CBlock) (pindex : CBlockIndex) : Bool :=
  block.isProofOfStake && decide (5 ≤ block.nVersion) &&
    decide (nStakePointerForkHeight ≤ pindex.nHeight) && !block.stakePointer.isNull

namespace Node

/-- The used-pointer step of `ConnectBlock`: refuse a recorded pointer, else record
it. -/
def recordPointer (node : Node) (block : CBlock) (pindex : CBlockIndex) : Verdict Node :=
  let spPointerHash := stakePointerHash block.stakePointer.outpoint
  if !isV5Stake block pindex then .ok node
  else if (node.mapUsedStakePointers spPointerHash).isSome then
    .error (doS 100 REJECT_INVALID "stake-pointer-reuse")
  else
    .ok { node with
      mapUsedStakePointers :=
        Function.update node.mapUsedStakePointers spPointerHash (some block.getHash) }

/-- The used-pointer step of `DisconnectBlock`. -/
def erasePointer (node : Node) (block : CBlock) (pindex : CBlockIndex) : Node :=
  if isV5Stake block pindex then
    { node with
      mapUsedStakePointers :=
        Function.update node.mapUsedStakePointers (stakePointerHash block.stakePointer.outpoint)
          none }
  else node

end Node

/-- `ConnectBlock` behind the loop over the transactions. -/
def connectFinish (data : LocalData) (node : Node) (block : CBlock) (pindex : CBlockIndex)
    (fJustCheck : Bool) (view : CCoinsViewCache) (vtxundo : List (List CTxInUndo))
    (totals : ConnectTotals) : ConnectResult :=
  let pindex := node.withSupply pindex totals
  let node := node.storeIndex pindex
  match connectReward data node block pindex totals with
  | .error state => ⟨node, .error state⟩
  | .ok () =>
    if fJustCheck then ⟨node, .ok (view, some vtxundo)⟩
    else
      let (node, pindex) := node.writeUndo pindex vtxundo
      match node.recordPointer block pindex with
      | .error state => ⟨node, .error state⟩
      | .ok node => ⟨node, .ok (view.setBestBlock pindex.getBlockHash, some vtxundo)⟩

/-- `ConnectBlock`. `fScriptChecks` is the result of the assumed-valid gate. -/
def connectBlock (data : LocalData) (node : Node) (fScriptChecks : Bool) (block : CBlock)
    (pindex : CBlockIndex) (view : CCoinsViewCache) (fJustCheck : Bool) : ConnectResult :=
  if block.getHash = ChainParams.hashGenesisBlock then
    ⟨node, do
      checkBlock data node block (!fJustCheck) (!fJustCheck)
      reject (pindex.pprev.getD 0 != view.hashBlock) (failure.error "")
      .ok (view.setBestBlock pindex.getBlockHash, none)⟩
  else
    match connectCoins data node fScriptChecks block pindex view fJustCheck with
    | .error state => ⟨node, .error state⟩
    | .ok (view, vtxundo, totals) =>
      connectFinish data node block pindex fJustCheck view vtxundo.tail totals

/-- What `ConnectBlock` has checked when it accepts a block that has undo data. -/
structure Accepted (data : LocalData) (node : Node) (fScriptChecks : Bool) (block : CBlock)
    (pindex : CBlockIndex) (before after : CCoinsViewCache) (vtxundo : List (List CTxInUndo)) :
    Prop where
  notGenesis : block.getHash ≠ ChainParams.hashGenesisBlock
  coins : ∃ coins undo totals,
    connectCoins data node fScriptChecks block pindex before false = .ok (coins, undo, totals) ∧
      connectReward data (node.storeIndex (node.withSupply pindex totals)) block
        (node.withSupply pindex totals) totals = .ok () ∧
      vtxundo = undo.tail ∧ after = coins.setBestBlock pindex.getBlockHash

theorem connectBlock_accepted {data : LocalData} {node : Node} {fScriptChecks : Bool}
    {block : CBlock} {pindex : CBlockIndex} {before after : CCoinsViewCache}
    {vtxundo : List (List CTxInUndo)}
    (accepted : (connectBlock data node fScriptChecks block pindex before false).verdict =
      .ok (after, some vtxundo)) :
    Accepted data node fScriptChecks block pindex before after vtxundo := by
  unfold connectBlock at accepted
  split at accepted
  · simp only [bind_eq_ok, Except.ok.injEq, Prod.mk.injEq, reduceCtorEq, and_false,
      exists_false] at accepted
  · rename_i notGenesis
    split at accepted
    · contradiction
    · rename_i coins undo totals connected
      refine ⟨notGenesis, coins, undo, totals, connected, ?_⟩
      unfold connectFinish at accepted
      simp only at accepted
      split at accepted
      · contradiction
      · rename_i rewarded
        simp only [Bool.false_eq_true, ↓reduceIte] at accepted
        split at accepted
        · contradiction
        · simp only [Except.ok.injEq, Prod.mk.injEq, Option.some.injEq] at accepted
          obtain ⟨rfl, rfl⟩ := accepted
          refine ⟨rewarded, rfl, ?_⟩
          simp only [CBlockIndex.getBlockHash, Node.writeUndo_phashBlock,
            Node.withSupply_phashBlock]

/-- `DisconnectBlock` on the view, with the undo data it has read: the view and
`fClean`; nothing when it returns early or an assertion fails. -/
def disconnectCoins (block : CBlock) (pindex : CBlockIndex) (vtxundo : List (List CTxInUndo))
    (view : CCoinsViewCache) : Option (CCoinsViewCache × Bool) := do
  guard (pindex.getBlockHash = view.hashBlock)
  guard (vtxundo.length + 1 = block.vtx.length)
  let (view, fClean) ←
    disconnectTransactions pindex.nHeight (block.vtx.zip ([] :: vtxundo)) (view, true)
  let hashPrev ← pindex.pprev
  pure (view.setBestBlock hashPrev, fClean)

/-- `DisconnectBlock`: the global state, the view and `fClean`. Where it returns
early nothing has changed. -/
def disconnectBlock (node : Node) (block : CBlock) (pindex : CBlockIndex)
    (view : CCoinsViewCache) : Option (Node × CCoinsViewCache × Bool) := do
  guard pindex.nStatus.haveUndo
  let vtxundo ← node.diskUndo pindex.getBlockHash
  let (view, fClean) ← disconnectCoins block pindex vtxundo view
  pure (node.erasePointer block pindex, view, fClean)

end Agouti
