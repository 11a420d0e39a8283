import Agouti.Chain.Node
import Agouti.Library.SecondaryIndex
import Agouti.Library.SortedMap
import Agouti.Masternode.SwiftTX
import Agouti.Mempool.MemPool
import Agouti.Primitives.MerkleTree
import Agouti.Primitives.TransactionCodec

/-! # The transactions of a wallet

`wallet.cpp`: the transactions that a wallet keeps (`mapWallet`) and the index of the outputs that
they spend (`mapTxSpends`). A call comes with what it reads of the rest of the node
(`WalletContext`), so blocks and keys may arrive between any two calls.
-/

namespace Agouti

/-- `isminetype` and the filters of it. -/
abbrev IsMineType := BitVec 8

def ISMINE_ALL : IsMineType := 5

/-- A transaction and its place in a block. -/
structure CMerkleTx where
  tx : CachedTransaction := .null
  hashBlock : Uint256 := 0
  vMerkleBranch : List Uint256 := []
  nIndex : Int := -1
  fMerkleVerified : Bool := false
  deriving DecidableEq

/-- The amounts that a `CWalletTx` has cached: a flag and the amount that stands with it. -/
structure CachedAmounts where
  nDebitCached : Option CAmount := none
  nCreditCached : Option CAmount := none
  nImmatureCreditCached : Option CAmount := none
  nAvailableCreditCached : Option CAmount := none
  nAnonymizableCreditCached : Option CAmount := none
  nAnonymizedCreditCached : Option CAmount := none
  nDenomUnconfCreditCached : Option CAmount := none
  nDenomConfCreditCached : Option CAmount := none
  nWatchDebitCached : Option CAmount := none
  nWatchCreditCached : Option CAmount := none
  nImmatureWatchCreditCached : Option CAmount := none
  nAvailableWatchCreditCached : Option CAmount := none
  nChangeCached : Option CAmount := none
  deriving DecidableEq

/-- `CWalletTx`; the default values are those of its constructor. -/
structure CWalletTx extends CMerkleTx where
  /-- `pwallet` is not null -/
  pwallet : Bool := false
  mapValue : List (String × String) := []
  vOrderForm : List (String × String) := []
  nTimeReceived : BitVec 32 := 0
  nTimeSmart : BitVec 32 := 0
  fFromMe : BitVec 8 := 0
  strFromAccount : String := ""
  nOrderPos : Int := -1
  cached : CachedAmounts := {}
  deriving DecidableEq

/-- What a call reads of the rest of the node. -/
structure WalletContext where
  node : Node
  mempool : Mempool.CTxMemPool
  swift : SwiftState
  /-- `fLargeWorkForkFound || fLargeWorkInvalidChainFound` -/
  fLargeWork : Bool
  /-- `IsSporkActive(SPORK_2_SWIFTTX)` -/
  fSporkSwift : Bool
  fEnableSwiftTX : Bool
  nSwiftTXDepth : Int
  /-- `GetAdjustedTime()` -/
  nAdjustedTime : Int
  /-- `nOrderPos` and `nTime` of the entries that `ListAccountCreditDebit` reads -/
  acentries : List (Int × Int)
  /-- `IsMine` of an output, by the keys and scripts of the wallet -/
  isMine : CTxOut → IsMineType
  /-- `WriteToDisk()` -/
  writeToDisk : Bool

/-- How a call ends when it does not return. -/
inductive WalletError
  | valueOutOfRange
  | assertion
  | nullPointer
  deriving DecidableEq

/-- The wallet. -/
structure CWallet where
  fFileBacked : Bool
  mapWallet : SortedMap Uint256 CWalletTx
  /-- the pairs of the multimap; those of one outpoint are in the order of their insertion -/
  mapTxSpends : List (COutPoint × Uint256)
  nOrderPosNext : Int

def CWallet.empty (fFileBacked : Bool) (nOrderPosNext : Int) : CWallet :=
  ⟨fFileBacked, .empty, [], nOrderPosNext⟩

namespace CMerkleTx

variable [Crypto]

def setMerkleBranch (wtx : CMerkleTx) (block : CBlock) : CMerkleTx :=
  let nIndex := block.vtx.findIdx fun tx => tx.getHash == wtx.tx.hash
  if nIndex = block.vtx.length then
    { wtx with hashBlock := block.getHash, vMerkleBranch := [], nIndex := -1 }
  else
    { wtx with
      hashBlock := block.getHash
      vMerkleBranch := block.getMerkleBranch [] nIndex
      nIndex := nIndex }

/-- The block of the active chain that `GetDepthInMainChainINTERNAL` finds. -/
def blockInMainChain (context : WalletContext) (wtx : CMerkleTx) : Option CBlockIndex :=
  if wtx.hashBlock = 0 ∨ wtx.nIndex = -1 then none
  else
    (context.node.mapBlockIndex wtx.hashBlock).filter fun pindex =>
      context.node.contains pindex &&
        (wtx.fMerkleVerified ||
          CBlock.checkMerkleBranch wtx.tx.hash wtx.vMerkleBranch wtx.nIndex ==
            pindex.hashMerkleRoot)

def getDepthInMainChainINTERNAL (context : WalletContext) (wtx : CMerkleTx) : Int :=
  match wtx.blockInMainChain context with
  | none => 0
  | some pindex => context.node.height - pindex.nHeight + 1

/-- The entry after `GetDepthInMainChainINTERNAL`. -/
def verified (context : WalletContext) (wtx : CMerkleTx) : CMerkleTx :=
  match wtx.blockInMainChain context with
  | none => wtx
  | some _ => { wtx with fMerkleVerified := true }

def getTransactionLockSignatures (context : WalletContext) (wtx : CMerkleTx) : Int :=
  if context.fLargeWork then -2
  else if !context.fSporkSwift then -3
  else if !context.fEnableSwiftTX then -1
  else ((context.swift.mapTxLocks.lookup wtx.tx.hash).map CTransactionLock.countSignatures).getD (-1)

def getDepthInMainChain (context : WalletContext) (wtx : CMerkleTx) (enableIX : Bool) : Int :=
  let nResult := wtx.getDepthInMainChainINTERNAL context
  if nResult = 0 ∧ !context.mempool.contains wtx.tx.hash then -1
  else if enableIX ∧ nResult < 6 ∧
      SWIFTTX_SIGNATURES_REQUIRED ≤ wtx.getTransactionLockSignatures context then
    context.nSwiftTXDepth + nResult
  else nResult

end CMerkleTx

namespace CWalletTx

def markDirty (wtx : CWalletTx) : CWalletTx :=
  { wtx with cached := { nImmatureCreditCached := wtx.cached.nImmatureCreditCached } }

def bindWallet (wtx : CWalletTx) : CWalletTx := markDirty { wtx with pwallet := true }

/-- The merge in `AddToWallet`: the entry and `fUpdated`. -/
def merge (wtx wtxIn : CWalletTx) : CWalletTx × Bool :=
  let (wtx, fUpdated) :=
    if wtxIn.hashBlock ≠ 0 ∧ wtxIn.hashBlock ≠ wtx.hashBlock then
      ({ wtx with hashBlock := wtxIn.hashBlock }, true)
    else (wtx, false)
  let (wtx, fUpdated) :=
    if wtxIn.nIndex ≠ -1 ∧
        (wtxIn.vMerkleBranch ≠ wtx.vMerkleBranch ∨ wtxIn.nIndex ≠ wtx.nIndex) then
      ({ wtx with vMerkleBranch := wtxIn.vMerkleBranch, nIndex := wtxIn.nIndex }, true)
    else (wtx, fUpdated)
  if wtxIn.fFromMe ≠ 0 ∧ wtxIn.fFromMe ≠ wtx.fFromMe then
    ({ wtx with fFromMe := wtxIn.fFromMe }, true)
  else (wtx, fUpdated)

def copyMetaData (copyTo copyFrom : CWalletTx) : CWalletTx :=
  { copyTo with
    mapValue := copyFrom.mapValue
    vOrderForm := copyFrom.vOrderForm
    nTimeSmart := copyFrom.nTimeSmart
    fFromMe := copyFrom.fFromMe
    strFromAccount := copyFrom.strFromAccount }

end CWalletTx

namespace CWallet

/-- What `mapWallet[hash]` refers to; the entry is there afterwards (`touch`). -/
def entry (mapWallet : SortedMap Uint256 CWalletTx) (hash : Uint256) : CWalletTx :=
  (mapWallet.lookup hash).getD {}

/-- `mapWallet[hash]` inserts a default entry when there is none. -/
def touch (mapWallet : SortedMap Uint256 CWalletTx) (hash : Uint256) :
    SortedMap Uint256 CWalletTx :=
  mapWallet.insert hash {}

/-- The variables of the first loop of `SyncMetaData`. -/
structure Oldest where
  mapWallet : SortedMap Uint256 CWalletTx
  nMinOrderPos : Int := 2 ^ 31 - 1
  copyFrom : Option Uint256 := none

/-- The first loop of `SyncMetaData`: the position is narrowed to an `int`. -/
def Oldest.visit (oldest : Oldest) (hash : Uint256) : Oldest :=
  let n := (entry oldest.mapWallet hash).nOrderPos.bmod (2 ^ 32)
  let mapWallet := touch oldest.mapWallet hash
  if n < oldest.nMinOrderPos then ⟨mapWallet, n, some hash⟩
  else { oldest with mapWallet := mapWallet }

/-- The second loop of `SyncMetaData`. -/
def copyTo (copyFrom : Option Uint256) (mapWallet : SortedMap Uint256 CWalletTx)
    (hash : Uint256) : Except WalletError (SortedMap Uint256 CWalletTx) :=
  let mapWallet := touch mapWallet hash
  match copyFrom with
  | none => .error .nullPointer
  | some source =>
    if source = hash then .ok mapWallet
    else .ok (mapWallet.set hash ((entry mapWallet hash).copyMetaData (entry mapWallet source)))

def syncMetaData (wallet : CWallet) (range : List Uint256) : Except WalletError CWallet := do
  let oldest := range.foldl Oldest.visit { mapWallet := wallet.mapWallet }
  let mapWallet ← range.foldlM (copyTo oldest.copyFrom) oldest.mapWallet
  pure { wallet with mapWallet := mapWallet }

/-- `CWallet::AddToSpends` of an outpoint. -/
def addToSpends (wtxid : Uint256) (wallet : CWallet) (outpoint : COutPoint) :
    Except WalletError CWallet :=
  let mapTxSpends := wallet.mapTxSpends ++ [(outpoint, wtxid)]
  { wallet with mapTxSpends := mapTxSpends }.syncMetaData
    (SecondaryIndex.range mapTxSpends outpoint)

/-- `CWallet::AddToSpends` of a transaction of the wallet. -/
def addTxToSpends (wallet : CWallet) (wtxid : Uint256) : Except WalletError CWallet :=
  match wallet.mapWallet.lookup wtxid with
  | none => .error .assertion
  | some thisTx =>
    let tx := thisTx.tx.tx
    if tx.isCoinBase then .ok wallet
    else if tx.isCoinStake ∧ (tx.vin.head?.map fun txin => txin.prevout.isNull) = some true then
      .ok wallet
    else (tx.vin.map CTxIn.prevout).foldlM (addToSpends wtxid) wallet

def modify (wallet : CWallet) (hash : Uint256) (change : CWalletTx → CWalletTx) : CWallet :=
  match wallet.mapWallet.lookup hash with
  | none => wallet
  | some wtx => { wallet with mapWallet := wallet.mapWallet.set hash (change wtx) }

/-- Insert into a multimap, behind the equal keys. -/
def insertOrdered {Item : Type} (key : Int) (item : Item) :
    List (Int × Item) → List (Int × Item)
  | [] => [(key, item)]
  | first :: rest =>
    if key < first.1 then (key, item) :: first :: rest
    else first :: insertOrdered key item rest

/-- The times of `OrderedTxItems` by position, without the entry of a transaction. -/
def orderedTimes (wallet : CWallet) (context : WalletContext) (hash : Uint256) :
    List (Int × Int) :=
  let times := (wallet.mapWallet.entries.filter fun item => decide (item.1 ≠ hash)).map
    fun item =>
      (item.2.nOrderPos,
        if item.2.nTimeSmart ≠ 0 then (item.2.nTimeSmart.toNat : Int)
        else item.2.nTimeReceived.toNat)
  (times ++ context.acentries).foldl (fun ordered item => insertOrdered item.1 item.2 ordered) []

/-- The smart time that `AddToWallet` gives to a transaction of a block. -/
def smartTime (wallet : CWallet) (context : WalletContext) (hash : Uint256)
    (nTimeReceived blocktime : Int) : Int :=
  let found := (wallet.orderedTimes context hash).reverse.find? fun item =>
    decide (item.2 ≤ nTimeReceived + 300)
  let latestEntry := (found.map Prod.snd).getD 0
  let latestNow := max nTimeReceived ((found.map Prod.snd).getD nTimeReceived)
  max latestEntry (min blocktime latestNow)

/-- The new entry of `AddToWallet` with its times and position. -/
def stamp (wallet : CWallet) (context : WalletContext) (wtx : CWalletTx) : CWalletTx :=
  let nTimeReceived := BitVec.ofInt 32 context.nAdjustedTime
  { wtx with
    nTimeReceived := nTimeReceived
    nOrderPos := wallet.nOrderPosNext
    nTimeSmart :=
      if wtx.hashBlock = 0 then nTimeReceived
      else
        match context.node.mapBlockIndex wtx.hashBlock with
        | none => nTimeReceived
        | some pindex => BitVec.ofInt 32
            (wallet.smartTime context wtx.tx.hash nTimeReceived.toNat pindex.getBlockTime) }

/-- The end of `AddToWallet`: a new or changed entry is written, and its caches are dropped. -/
def finish (wallet : CWallet) (context : WalletContext) (hash : Uint256) (write : Bool) :
    CWallet × Bool :=
  if write && !context.writeToDisk then (wallet, false)
  else (wallet.modify hash CWalletTx.markDirty, true)

def addToWallet (context : WalletContext) (wallet : CWallet) (wtxIn : CWalletTx)
    (fFromLoadWallet : Bool) : Except WalletError (CWallet × Bool) :=
  let hash := wtxIn.tx.hash
  if fFromLoadWallet then do
    let wallet ← { wallet with
      mapWallet := wallet.mapWallet.set hash wtxIn.bindWallet }.addTxToSpends hash
    pure (wallet, true)
  else
    match wallet.mapWallet.lookup hash with
    | none => do
        let wtx := wallet.stamp context wtxIn.bindWallet
        let wallet ← { wallet with
          mapWallet := wallet.mapWallet.set hash wtx
          nOrderPosNext := wallet.nOrderPosNext + 1 }.addTxToSpends hash
        pure (wallet.finish context hash true)
    | some old =>
      let (wtx, fUpdated) := old.bindWallet.merge wtxIn
      pure ({ wallet with mapWallet := wallet.mapWallet.set hash wtx }.finish context hash fUpdated)

/-- `CWallet::GetDebit` of an input. -/
def getDebitIn (context : WalletContext) (wallet : CWallet) (txin : CTxIn)
    (filter : IsMineType) : CAmount :=
  match (wallet.mapWallet.lookup txin.prevout.hash).bind fun prev =>
      prev.tx.tx.vout[txin.prevout.n]? with
  | none => 0
  | some txout => if context.isMine txout &&& filter ≠ 0 then txout.nValue else 0

def eraseFromWallet (wallet : CWallet) (hash : Uint256) : CWallet :=
  if !wallet.fFileBacked then wallet
  else { wallet with mapWallet := wallet.mapWallet.erase hash }

def isSpent [Crypto] (context : WalletContext) (wallet : CWallet) (outpoint : COutPoint) : Bool :=
  (SecondaryIndex.range wallet.mapTxSpends outpoint).any fun wtxid =>
    ((wallet.mapWallet.lookup wtxid).map fun wtx =>
      decide (0 ≤ wtx.getDepthInMainChain context true)).getD false

variable [ChainParams]

def getDebit (context : WalletContext) (wallet : CWallet) (tx : CTransaction)
    (filter : IsMineType) : Except WalletError CAmount :=
  tx.vin.foldlM (fun nDebit txin =>
    let nDebit := nDebit + wallet.getDebitIn context txin filter
    if moneyRange nDebit then .ok nDebit else .error .valueOutOfRange) 0

/-- The condition `fExisted || IsMine(tx) || IsFromMe(tx)` of `AddToWalletIfInvolvingMe`. -/
def involvesMe (context : WalletContext) (wallet : CWallet) (tx : CachedTransaction) :
    Except WalletError Bool :=
  if (wallet.mapWallet.lookup tx.hash).isSome then .ok true
  else if tx.tx.vout.any fun txout => context.isMine txout != 0 then .ok true
  else (fun nDebit => decide (0 < nDebit)) <$> wallet.getDebit context tx.tx ISMINE_ALL

variable [Crypto]

def addToWalletIfInvolvingMe (context : WalletContext) (wallet : CWallet)
    (tx : CachedTransaction) (pblock : Option CBlock) (fUpdate : Bool) :
    Except WalletError (CWallet × Bool) :=
  if (wallet.mapWallet.lookup tx.hash).isSome ∧ !fUpdate then .ok (wallet, false)
  else do
    if ← wallet.involvesMe context tx then
      let wtx : CMerkleTx := { tx := tx }
      let wtx := match pblock with
        | none => wtx
        | some block => wtx.setMerkleBranch block
      wallet.addToWallet context { toCMerkleTx := wtx, pwallet := true } false
    else pure (wallet, false)

/-- One input in the loop of `SyncTransaction`. -/
def markPrevout (tx : CTransaction) (wallet : CWallet) (txin : CTxIn) : CWallet :=
  if tx.isZerocoinSpend then wallet else wallet.modify txin.prevout.hash CWalletTx.markDirty

def syncTransaction (context : WalletContext) (wallet : CWallet) (tx : CachedTransaction)
    (pblock : Option CBlock) : Except WalletError CWallet := do
  let (wallet, added) ← wallet.addToWalletIfInvolvingMe context tx pblock true
  pure (if added then tx.tx.vin.foldl (markPrevout tx.tx) wallet else wallet)

end CWallet

end Agouti
