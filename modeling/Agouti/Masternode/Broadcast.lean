import Agouti.Mempool.MemPool
import Agouti.Net.NetAddress
import Agouti.Validation.Connect
import Agouti.Validation.StakePointer

/-! # Masternode broadcasts

The way of an `mnb` message into the masternode list: `CMasternodeMan::ProcessMessage`,
`CMasternodeBroadcast::CheckAndUpdate`, `IsVinAssociatedWithPubkey` and `CheckInputsAndAdd`, with
the transaction look-up, `AcceptableInputs` and `GetInputAge` of `main.cpp`. What a call reads of
the rest of the node is given with it (`MasternodeContext`), so blocks and transactions may arrive
between any two messages.
-/

namespace Agouti

def MASTERNODE_MIN_CONFIRMATIONS_V1 : Int := 15
def MASTERNODE_MIN_CONFIRMATIONS_V2 : Int := 6
def MASTERNODE_MIN_MNP_SECONDS : Int := 10 * 60
def MASTERNODE_MIN_MNB_SECONDS : Int := 5 * 60
def MASTERNODE_EXPIRATION_SECONDS : Int := 120 * 60
def MASTERNODE_REMOVAL_SECONDS : Int := 130 * 60
def MASTERNODE_CHECK_SECONDS : Int := 5

def PROTOCOL_VERSION : Int := 70054

/-- `activeState`. -/
inductive MasternodeState
  | MASTERNODE_ENABLED
  | MASTERNODE_EXPIRED
  | MASTERNODE_REMOVE
  | MASTERNODE_VIN_SPENT
  deriving DecidableEq, Repr

/-- `CTxIn()`. -/
def CTxIn.empty : CTxIn := { prevout := .null, scriptSig := [] }

/-- A sign of life. -/
structure CMasternodePing where
  vin : CTxIn := .empty
  blockHash : Uint256 := 0
  sigTime : Int := 0
  vchSig : List UInt8 := []
  deriving DecidableEq, Repr

/-- `operator==` of `CMasternodePing`. -/
def CMasternodePing.same (a b : CMasternodePing) : Bool :=
  a.vin == b.vin && a.blockHash == b.blockHash

/-- A new address of a masternode. -/
structure CMasternodeIPUpdate where
  vin : CTxIn
  addr : CService
  sigTime : Int
  vchSig : List UInt8 := []
  deriving DecidableEq, Repr

/-- An entry of the masternode list. -/
structure CMasternode where
  vin : CTxIn
  addr : CService := {}
  pubKeyCollateralAddress : CPubKey
  pubKeyMasternode : CPubKey
  activeState : MasternodeState := .MASTERNODE_ENABLED
  sigTime : Int
  protocolVersion : Int
  lastPing : CMasternodePing := {}
  vchSignover : List UInt8 := []
  lastTimeChecked : Int := 0
  nLastIPUpdateTime : Int := 0
  deriving DecidableEq, Repr

/-- `CMasternodeBroadcast`, with its signature. -/
structure CMasternodeBroadcast extends CMasternode where
  sig : List UInt8 := []
  deriving DecidableEq, Repr

/-- The constructor of `CMasternode` from a broadcast. -/
def CMasternode.ofBroadcast (mnb : CMasternodeBroadcast) : CMasternode :=
  { mnb.toCMasternode with
    activeState := .MASTERNODE_ENABLED
    lastTimeChecked := 0
    nLastIPUpdateTime := 0 }

/-- The node's own masternode. -/
structure CActiveMasternode where
  vin : CTxIn := .empty
  pubKeyMasternode : CPubKey := .invalid
  vchSigSignover : List UInt8 := []
  deriving DecidableEq, Repr

/-- The memory pool: its transactions, and the outpoints they spend. -/
structure CTxMemPool where
  lookup : Uint256 → Option CTransaction
  mapNextTx : COutPoint → Bool

/-- What a call reads of the rest of the node. -/
structure MasternodeContext where
  /-- `!fLiteMode` and `IsBlockchainSynced()` -/
  enabled : Bool
  /-- `fMasterNode` -/
  fMasterNode : Bool
  /-- the network is the main network -/
  fMainNet : Bool
  /-- `ShutdownRequested()` -/
  fShutdown : Bool
  /-- `TRY_LOCK(cs_main)` succeeds -/
  lockMain : Bool
  /-- `GetTime()` -/
  time : Int
  /-- `GetAdjustedTime()` -/
  adjustedTime : Int
  /-- `GetMinMasternodePaymentsProto()` -/
  minPaymentsProto : Int
  node : Node
  mempool : CTxMemPool
  /-- the transaction index, with what reading a position gives -/
  readTxIndex : Uint256 → Option (Option (CTransaction × Uint256))
  mapLockedInputs : COutPoint → Option Uint256
  /-- a transaction with this fee is too cheap and of too little priority -/
  lowPriority : CTransaction → CAmount → Bool
  /-- `obfuScationPool.collateralPubKey` -/
  collateralPubKey : CScript
  /-- `VerifyMessage` of the string of a broadcast -/
  broadcastSigned : CMasternodeBroadcast → Bool
  /-- `VerifyMessage` of the string of a ping -/
  pingSigned : CPubKey → CMasternodePing → Bool
  /-- `CMasternodeIPUpdate::VerifySignature` -/
  ipUpdateSigned : CPubKey → CMasternodeIPUpdate → Bool

/-- The masternode list, the hashes of the messages seen, the newest IP updates and the masternode
of the node itself. -/
structure CMasternodeMan where
  vMasternodes : List CMasternode := []
  mapSeenMasternodeBroadcast : Uint256 → Bool := fun _ => false
  mapSeenMasternodePing : Uint256 → Bool := fun _ => false
  mapSeenMasternodeIPUpdate : Uint256 → Bool := fun _ => false
  mapLatestMasternodeIPUpdate : COutPoint → Option CMasternodeIPUpdate := fun _ => none
  activeMasternode : CActiveMasternode := {}

namespace MasternodeContext

variable [Crypto] (context : MasternodeContext)

/-- `GetTransaction(hash, txOut, hashBlock, true)`, from the block hash `0`. -/
def getTransaction (hash : Uint256) : Option (CTransaction × Uint256) :=
  match context.mempool.lookup hash with
  | some tx => some (tx, 0)
  | none =>
    match context.readTxIndex hash with
    | some read => read.bind fun found => if found.1.getHash = hash then some found else none
    | none => do
        let nHeight := (context.node.pcoinsTip.coins hash).nHeight
        guard (0 < nHeight)
        let hashBlock ← context.node.active nHeight
        let pindexSlow ← context.node.mapBlockIndex hashBlock
        let block ← context.node.readBlockFromDisk pindexSlow
        let tx ← block.findTransaction hash
        pure (tx, hashBlock)

omit [Crypto] in
/-- `CCoinsViewMemPool` over `pcoinsTip`. -/
def viewMemPool : CCoinsViewCache :=
  { context.node.pcoinsTip with
    coins := fun txid =>
      match context.mempool.lookup txid with
      | some tx => .fromTx tx MEMPOOL_HEIGHT
      | none => context.node.pcoinsTip.coins txid }

omit [Crypto] in
def getInputAge (vin : CTxIn) : Int :=
  let coins := context.viewMemPool.coins vin.prevout.hash
  if coins.isPruned then -1
  else if coins.nHeight < 0 then 0
  else context.node.height + 1 - coins.nHeight

open Verdict

variable [ChainParams]

/-- `AcceptableInputs(mempool, state, tx, false, NULL)`. -/
def acceptableInputs (tx : CTransaction) : Verdict Unit := do
  checkTransaction tx
  reject tx.containsZerocoins (doS 100 REJECT_INVALID "bad-tx-zerocoin")
  reject tx.isCoinBase (doS 100 REJECT_INVALID "coinbase")
  reject (context.mempool.lookup tx.getHash).isSome failure
  reject (tx.vin.any fun txin =>
    ((context.mapLockedInputs txin.prevout).map fun hash => hash != tx.getHash).getD false)
    (doS 0 REJECT_INVALID "tx-lock-conflict")
  reject (tx.vin.any fun txin => context.mempool.mapNextTx txin.prevout) failure
  let view := context.viewMemPool
  reject (!(view.coins tx.getHash).isPruned) failure
  reject (tx.vin.any fun txin => (view.coins txin.prevout.hash).isPruned) failure
  reject (!view.haveInputs tx) (invalid REJECT_DUPLICATE "bad-txns-inputs-spent")
  reject (decide (MAX_TX_SIGOPS_CURRENT < tx.getLegacySigOpCount + view.getP2SHSigOpCount tx))
    (doS 0 REJECT_NONSTANDARD "bad-txns-too-many-sigops")
  reject (context.lowPriority tx (view.getValueIn tx - tx.getValueOut))
    (doS 0 REJECT_INSUFFICIENTFEE "insufficient priority")
  checkInputs context.node.mapBlockIndex view tx

omit [Crypto] [ChainParams] in
/-- The transaction that spends a collateral to test it. -/
def collateralSpend (vin : CTxIn) : CTransaction :=
  { nVersion := 1, vin := [vin],
    vout := [{ nValue := 299999000000, scriptPubKey := context.collateralPubKey }], nLockTime := 0 }

omit [Crypto] in
/-- `GetMasternodeMinConfirmations`. -/
def minConfirmations : Int :=
  if nStakePointerForkHeight ≤ context.node.height then MASTERNODE_MIN_CONFIRMATIONS_V2
  else MASTERNODE_MIN_CONFIRMATIONS_V1

end MasternodeContext

namespace CMasternode

def isEnabled (mn : CMasternode) : Bool := mn.activeState == .MASTERNODE_ENABLED

def isPingedWithin (mn : CMasternode) (seconds now : Int) : Bool :=
  !mn.lastPing.same {} && decide ((now - mn.lastPing.sigTime).bmod (2 ^ 64) < seconds)

def isBroadcastedWithin (mn : CMasternode) (adjustedTime seconds : Int) : Bool :=
  decide ((adjustedTime - mn.sigTime).bmod (2 ^ 64) < seconds)

variable [Crypto]

/-- `CMasternodeBroadcast::GetHash`. -/
def getHash (mn : CMasternode) : Uint256 :=
  Hash (Serialize.leInt 8 mn.sigTime ++ Serialize.pubKey mn.pubKeyCollateralAddress)

variable [ChainParams]

def check (context : MasternodeContext) (forceCheck : Bool) (mn : CMasternode) : CMasternode :=
  if context.fShutdown then mn
  else if !forceCheck && decide (context.time - mn.lastTimeChecked < MASTERNODE_CHECK_SECONDS) then
    mn
  else
    let mn := { mn with lastTimeChecked := context.time }
    if mn.activeState = .MASTERNODE_VIN_SPENT then mn
    else if !mn.isPingedWithin MASTERNODE_REMOVAL_SECONDS context.adjustedTime then
      { mn with activeState := .MASTERNODE_REMOVE }
    else if !mn.isPingedWithin MASTERNODE_EXPIRATION_SECONDS context.adjustedTime then
      { mn with activeState := .MASTERNODE_EXPIRED }
    else if !context.lockMain then mn
    else
      match context.acceptableInputs (context.collateralSpend mn.vin) with
      | .error _ => { mn with activeState := .MASTERNODE_VIN_SPENT }
      | .ok () => { mn with activeState := .MASTERNODE_ENABLED }

end CMasternode

def CMasternodePing.getHash [Crypto] (ping : CMasternodePing) : Uint256 :=
  Hash (Serialize.txin ping.vin ++ Serialize.leInt 8 ping.sigTime)

def CMasternodeIPUpdate.getHash [Crypto] (mnip : CMasternodeIPUpdate) : Uint256 :=
  Hash (Serialize.txin mnip.vin ++ mnip.addr.serialize ++ Serialize.leInt 8 mnip.sigTime)

namespace CMasternodeMan

def isAt (vin : CTxIn) (mn : CMasternode) : Bool := mn.vin.prevout == vin.prevout

/-- `CMasternodeMan::Find(const CTxIn&)`. -/
def find (man : CMasternodeMan) (vin : CTxIn) : Option CMasternode :=
  man.vMasternodes.find? (isAt vin)

/-- A change of the entry that `Find` returns. -/
def change (man : CMasternodeMan) (vin : CTxIn) (update : CMasternode → CMasternode) :
    CMasternodeMan :=
  { man with
    vMasternodes := man.vMasternodes.replaceF fun mn =>
      if isAt vin mn then some (update mn) else none }

def remove (man : CMasternodeMan) (vin : CTxIn) : CMasternodeMan :=
  { man with vMasternodes := man.vMasternodes.eraseP fun mn => mn.vin == vin }

/-- Remove the entry of an outpoint, when there is one. -/
def removeKnown (man : CMasternodeMan) (vin : CTxIn) : CMasternodeMan :=
  match man.find vin with
  | none => man
  | some pmn => man.remove pmn.vin

def add (man : CMasternodeMan) (mn : CMasternode) : CMasternodeMan :=
  if mn.isEnabled && (man.find mn.vin).isNone then
    { man with vMasternodes := man.vMasternodes ++ [mn] }
  else man

/-- An insertion into `mapSeenMasternodeBroadcast` or an erasure. -/
def setSeen (man : CMasternodeMan) (hash : Uint256) (seen : Bool) : CMasternodeMan :=
  { man with
    mapSeenMasternodeBroadcast := Function.update man.mapSeenMasternodeBroadcast hash seen }

/-- An insertion into `mapSeenMasternodePing`. -/
def setPingSeen (man : CMasternodeMan) (hash : Uint256) : CMasternodeMan :=
  { man with mapSeenMasternodePing := Function.update man.mapSeenMasternodePing hash true }

variable [Crypto] [ChainParams]

/-- `CMasternodePing::CheckAndUpdate`. -/
def pingCheckAndUpdate (context : MasternodeContext) (man : CMasternodeMan)
    (ping : CMasternodePing) (fRequireEnabled : Bool) : CMasternodeMan × Bool :=
  if context.adjustedTime + 60 * 60 < ping.sigTime then (man, false)
  else if ping.sigTime ≤ context.adjustedTime - 60 * 60 then (man, false)
  else
    match man.find ping.vin with
    | none => (man, false)
    | some pmn =>
      if pmn.protocolVersion < context.minPaymentsProto then (man, false)
      else if fRequireEnabled && !pmn.isEnabled then (man, false)
      else if pmn.isPingedWithin (MASTERNODE_MIN_MNP_SECONDS - 60) ping.sigTime then (man, false)
      else if !context.pingSigned pmn.pubKeyMasternode ping then (man, false)
      else
        match context.node.mapBlockIndex ping.blockHash with
        | none => (man, false)
        | some pindex =>
          if pindex.nHeight < context.node.height - 24 then (man, false)
          else
            let man := man.change ping.vin fun mn =>
              CMasternode.check context true { mn with lastPing := ping }
            (man, ((man.find ping.vin).map CMasternode.isEnabled).getD false)

def checkLastPing (context : MasternodeContext) (man : CMasternodeMan)
    (mnb : CMasternodeBroadcast) : CMasternodeMan × Bool :=
  if mnb.lastPing.same {} then (man, true)
  else man.pingCheckAndUpdate context mnb.lastPing false

omit [Crypto] [ChainParams] in
def renew (mnb : CMasternodeBroadcast) (mn : CMasternode) : CMasternode :=
  { mn with
    pubKeyMasternode := mnb.pubKeyMasternode
    addr := mnb.addr
    pubKeyCollateralAddress := mnb.pubKeyCollateralAddress
    sigTime := mnb.sigTime
    protocolVersion := mnb.protocolVersion
    vchSignover := mnb.vchSignover
    lastTimeChecked := 0 }

/-- `CMasternode::UpdateFromNewBroadcast` of the entry at the outpoint of the broadcast. -/
def updateFromNewBroadcast (context : MasternodeContext) (man : CMasternodeMan)
    (mnb : CMasternodeBroadcast) : CMasternodeMan :=
  match (man.change mnb.vin (renew mnb)).checkLastPing context mnb with
  | (man, false) => man
  | (man, true) =>
    (man.change mnb.vin fun mn => { mn with lastPing := mnb.lastPing }).setPingSeen
      mnb.lastPing.getHash

/-- The checks of `CMasternodeBroadcast::CheckAndUpdate` in front of the search. -/
def broadcastValid (context : MasternodeContext) (mnb : CMasternodeBroadcast) : Bool :=
  decide (mnb.sigTime ≤ context.adjustedTime + 60 * 60) &&
    decide (context.minPaymentsProto ≤ mnb.protocolVersion) &&
    (getScriptForKeyID mnb.pubKeyCollateralAddress.getID).length == 25 &&
    (getScriptForKeyID mnb.pubKeyMasternode.getID).length == 25 &&
    mnb.vin.scriptSig == [] && context.broadcastSigned mnb &&
    (mnb.addr.port == 5151) == context.fMainNet

/-- `CMasternodeBroadcast::CheckAndUpdate`. -/
def checkAndUpdate (context : MasternodeContext) (man : CMasternodeMan)
    (mnb : CMasternodeBroadcast) : CMasternodeMan × Bool :=
  if !broadcastValid context mnb then (man, false)
  else
    match man.find mnb.vin with
    | none => (man, true)
    | some pmn =>
      if mnb.sigTime < pmn.sigTime then (man, false)
      else if !pmn.isEnabled then (man, true)
      else if pmn.pubKeyCollateralAddress.same mnb.pubKeyCollateralAddress &&
          !pmn.isBroadcastedWithin context.adjustedTime MASTERNODE_MIN_MNB_SECONDS then
        if pmn.sigTime < mnb.sigTime then
          ((man.updateFromNewBroadcast context mnb).change mnb.vin
            (CMasternode.check context false), true)
        else (man, true)
      else (man, true)

omit [ChainParams] in
/-- The sign-over of a broadcast, when the node has none and it is valid. -/
def pickUpSignOver (man : CMasternodeMan) (mnb : CMasternodeBroadcast) : CMasternodeMan :=
  let spCheck : StakePointer :=
    { StakePointer.null with
      pubKeyCollateral := mnb.pubKeyCollateralAddress
      pubKeyProofOfStake := mnb.pubKeyMasternode
      vchSigCollateralSignOver := mnb.vchSignover }
  if mnb.vchSignover != [] && man.activeMasternode.vchSigSignover == [] &&
      spCheck.verifyCollateralSignOver then
    { man with
      activeMasternode := { man.activeMasternode with vchSigSignover := mnb.vchSignover } }
  else man

omit [ChainParams] in
def isOwnKey (man : CMasternodeMan) (mnb : CMasternodeBroadcast) : Bool :=
  mnb.pubKeyMasternode.same man.activeMasternode.pubKeyMasternode

/-- The block in which the collateral got its confirmations is not younger than the
signature. Without such a block the pointer of the source is null. -/
def signedAfterConfirmation (context : MasternodeContext) (mnb : CMasternodeBroadcast) : Bool :=
  let hashBlock := ((context.getTransaction mnb.vin.prevout.hash).map Prod.snd).getD 0
  match context.node.mapBlockIndex hashBlock with
  | none => true
  | some pMNIndex =>
    let pConfIndex := (context.node.active (pMNIndex.nHeight + context.minConfirmations - 1)).bind
      context.node.mapBlockIndex
    (pConfIndex.map fun pindex => decide (pindex.getBlockTime ≤ mnb.sigTime)).getD false

/-- The end of `CheckInputsAndAdd`: the masternode is new and is added. -/
def addBroadcast (context : MasternodeContext) (man : CMasternodeMan)
    (mnb : CMasternodeBroadcast) : CMasternodeMan :=
  let man := man.add (.ofBroadcast mnb)
  if man.isOwnKey mnb && mnb.protocolVersion == PROTOCOL_VERSION then
    let man :=
      if context.fMasterNode then
        { man with activeMasternode := { man.activeMasternode with vin := mnb.vin } }
      else man
    man.pickUpSignOver mnb
  else man

/-- `CMasternodeBroadcast::CheckInputsAndAdd`. -/
def checkInputsAndAdd (context : MasternodeContext) (man : CMasternodeMan)
    (mnb : CMasternodeBroadcast) : CMasternodeMan × Bool :=
  if context.fMasterNode && mnb.vin.prevout == man.activeMasternode.vin.prevout &&
      man.isOwnKey mnb then (man.pickUpSignOver mnb, true)
  else
    if ((man.find mnb.vin).map CMasternode.isEnabled).getD false then
      let man := man.change mnb.vin fun mn =>
        if mn.vchSignover == [] then { mn with vchSignover := mnb.vchSignover } else mn
      (if context.fMasterNode && man.isOwnKey mnb then man.pickUpSignOver mnb else man, true)
    else
      let man := man.removeKnown mnb.vin
      if !context.lockMain then (man.setSeen mnb.getHash false, false)
      else
        match context.acceptableInputs (context.collateralSpend mnb.vin) with
        | .error _ => (man, false)
        | .ok () =>
          if context.getInputAge mnb.vin < context.minConfirmations then
            (man.setSeen mnb.getHash false, false)
          else if !signedAfterConfirmation context mnb then (man, false)
          else (man.addBroadcast context mnb, true)

def paysCollateral (pubkey : CPubKey) (out : CTxOut) : Bool :=
  out.nValue == 3000 * COIN && out.scriptPubKey == getScriptForKeyID pubkey.getID

/-- `CObfuScationSigner::IsVinAssociatedWithPubkey`. -/
def isVinAssociatedWithPubkey (context : MasternodeContext) (vin : CTxIn) (pubkey : CPubKey) :
    Bool :=
  match context.getTransaction vin.prevout.hash with
  | none => false
  | some (txVin, _) => txVin.vout.any (paysCollateral pubkey)

omit [Crypto] [ChainParams] in
/-- `CMasternodeIPUpdate::CheckAndUpdate`. -/
def ipUpdateCheckAndUpdate (context : MasternodeContext) (man : CMasternodeMan)
    (mnip : CMasternodeIPUpdate) : CMasternodeMan × Bool :=
  if context.adjustedTime + 60 * 60 < mnip.sigTime then (man, false)
  else
    match man.find mnip.vin with
    | none => (man, false)
    | some pmn =>
      if mnip.sigTime < pmn.nLastIPUpdateTime then (man, false)
      else if !context.ipUpdateSigned pmn.pubKeyMasternode mnip then (man, false)
      else if pmn.nLastIPUpdateTime = mnip.sigTime ∧ mnip.sigTime ≠ 0 then
        (man.change mnip.vin fun mn => { mn with addr := mnip.addr }, true)
      else
        (man.change mnip.vin fun mn =>
          { mn with
            addr := mnip.addr
            nLastIPUpdateTime := mnip.sigTime }, true)

omit [Crypto] [ChainParams] in
def applyLatestIPUpdate (context : MasternodeContext) (man : CMasternodeMan) (vin : CTxIn) :
    CMasternodeMan :=
  match man.mapLatestMasternodeIPUpdate vin.prevout with
  | none => man
  | some mnip => (man.ipUpdateCheckAndUpdate context mnip).1

/-- The end of the processing of a broadcast: one that is accepted has the newest IP update applied
again. -/
def acceptBroadcast (context : MasternodeContext) (man : CMasternodeMan)
    (mnb : CMasternodeBroadcast) : CMasternodeMan :=
  match man.checkInputsAndAdd context mnb with
  | (man, false) => man
  | (man, true) => man.applyLatestIPUpdate context mnb.vin

/-- `CMasternodeMan::ProcessMessage` for an `mnb` message. -/
def processBroadcast (man : CMasternodeMan) (context : MasternodeContext)
    (mnb : CMasternodeBroadcast) : CMasternodeMan :=
  if !context.enabled then man
  else if man.mapSeenMasternodeBroadcast mnb.getHash then man
  else
    match (man.setSeen mnb.getHash true).checkAndUpdate context mnb with
    | (man, false) => man
    | (man, true) =>
      if isVinAssociatedWithPubkey context mnb.vin mnb.pubKeyCollateralAddress then
        man.acceptBroadcast context mnb
      else man

end CMasternodeMan

end Agouti
