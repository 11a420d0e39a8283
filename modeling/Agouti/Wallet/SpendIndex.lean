import Agouti.Library.Outcome
import Agouti.Wallet.Wallet

/-! # The index of the outputs that a wallet spends

`mapTxSpends` is a secondary index of `mapWallet`: it is to hold the pairs of the outpoints that the
transactions of the wallet spend. Adding a transaction keeps it so, since the entries under an
outpoint, which `SyncMetaData` looks up with an operator that inserts, are all there.
`EraseFromWallet` takes a transaction out and leaves its pairs, so the index is exact along a run
if and only if no transaction with recorded spends is erased (`spendIndex_iff`).
-/

namespace Agouti

open Outcome SecondaryIndex List Function

/-- The inputs of a transaction that `AddToSpends` records. -/
def CachedTransaction.Spends (object : CachedTransaction) (outpoint : COutPoint) : Prop :=
  object.tx.hasInputs = true ∧ outpoint ∈ object.tx.vin.map CTxIn.prevout

namespace CWallet

def transactionsOf (mapWallet : SortedMap Uint256 CWalletTx) (hash : Uint256) :
    Option CachedTransaction :=
  (mapWallet.lookup hash).map fun wtx => wtx.tx

def transactions (wallet : CWallet) : Uint256 → Option CachedTransaction :=
  transactionsOf wallet.mapWallet

variable {mapWallet : SortedMap Uint256 CWalletTx} {hash : Uint256} {wtx : CWalletTx}

theorem transactionsOf_set :
    transactionsOf (mapWallet.set hash wtx) =
      Function.update (transactionsOf mapWallet) hash (some wtx.tx) := by
  funext other
  rw [transactionsOf, SortedMap.lookup_set]
  by_cases same : other = hash
  · rw [if_pos same, same, update_self]
    rfl
  · rw [if_neg same, update_of_ne same]
    rfl

theorem transactionsOf_replace (found : transactionsOf mapWallet hash = some wtx.tx) :
    transactionsOf (mapWallet.set hash wtx) = transactionsOf mapWallet := by
  rw [transactionsOf_set, ← found, update_eq_self]

theorem transactionsOf_erase :
    transactionsOf (mapWallet.erase hash) =
      Function.update (transactionsOf mapWallet) hash none := by
  funext other
  rw [transactionsOf, SortedMap.lookup_erase]
  by_cases same : other = hash
  · rw [if_pos same, same, update_self]
    rfl
  · rw [if_neg same, update_of_ne same]
    rfl

theorem transactionsOf_entry (known : (transactionsOf mapWallet hash).isSome = true) :
    transactionsOf mapWallet hash = some (entry mapWallet hash).tx := by
  unfold transactionsOf entry at *
  cases found : mapWallet.lookup hash with
  | none =>
    rw [found] at known
    contradiction
  | some wtx => rfl

theorem touch_of_known (known : (transactionsOf mapWallet hash).isSome = true) :
    touch mapWallet hash = mapWallet := by
  rw [transactionsOf, Option.isSome_map] at known
  rw [touch, SortedMap.insert, if_pos known]

/-! ## One call -/

/-- The second wallet has the transactions and the index of the first one. -/
structure SameSpends (wallet after : CWallet) : Prop where
  transactions : after.transactions = wallet.transactions
  mapTxSpends : after.mapTxSpends = wallet.mapTxSpends
  fFileBacked : after.fFileBacked = wallet.fFileBacked

variable {wallet after last : CWallet}

theorem SameSpends.refl (wallet : CWallet) : SameSpends wallet wallet := ⟨rfl, rfl, rfl⟩

theorem SameSpends.trans (first : SameSpends wallet after) (second : SameSpends after last) :
    SameSpends wallet last where
  transactions := second.transactions.trans first.transactions
  mapTxSpends := second.mapTxSpends.trans first.mapTxSpends
  fFileBacked := second.fFileBacked.trans first.fFileBacked

theorem sameSpends_modify (wallet : CWallet) (hash : Uint256) {change : CWalletTx → CWalletTx}
    (keeps : ∀ wtx, (change wtx).tx = wtx.tx) : SameSpends wallet (wallet.modify hash change) := by
  unfold modify
  split
  · exact .refl wallet
  · rename_i wtx found
    refine ⟨transactionsOf_replace ?_, rfl, rfl⟩
    rw [transactionsOf, found, keeps]
    rfl

theorem foldl_visit {range : List Uint256} {oldest : Oldest}
    (known : ∀ hash ∈ range, (transactionsOf oldest.mapWallet hash).isSome = true) :
    (range.foldl Oldest.visit oldest).mapWallet = oldest.mapWallet := by
  induction range generalizing oldest with
  | nil => rfl
  | cons hash rest ih =>
    obtain ⟨here, later⟩ := forall_mem_cons.mp known
    have same : (oldest.visit hash).mapWallet = oldest.mapWallet := by
      unfold Oldest.visit
      dsimp only
      split
      · exact touch_of_known here
      · exact touch_of_known here
    rw [foldl_cons, ih (by rwa [same]), same]

theorem copyTo_ends {copyFrom : Option Uint256}
    (known : (transactionsOf mapWallet hash).isSome = true) :
    Ends (fun _ => True) (fun copied => transactionsOf copied = transactionsOf mapWallet)
      (copyTo copyFrom mapWallet hash) := by
  unfold copyTo
  rw [touch_of_known known]
  cases copyFrom with
  | none => exact .throw trivial
  | some source =>
    dsimp only
    split
    · exact .pure rfl
    · exact .pure (transactionsOf_replace (transactionsOf_entry known))

theorem syncMetaData_ends {range : List Uint256}
    (known : ∀ hash ∈ range, (wallet.transactions hash).isSome = true) :
    Ends (fun _ => True) (SameSpends wallet) (wallet.syncMetaData range) := by
  have visited : (range.foldl Oldest.visit { mapWallet := wallet.mapWallet }).mapWallet =
      wallet.mapWallet := foldl_visit known
  unfold syncMetaData
  dsimp only
  rw [visited]
  have copied : Ends (fun _ => True)
      (fun mapWallet => transactionsOf mapWallet = wallet.transactions)
      (range.foldlM
        (copyTo (range.foldl Oldest.visit { mapWallet := wallet.mapWallet }).copyFrom)
        wallet.mapWallet) := by
    refine Ends.foldlM (fun _ mapWallet => transactionsOf mapWallet = wallet.transactions) rfl ?_
    intro done hash mapWallet member same
    have here := known hash member
    rw [← same] at here
    exact (copyTo_ends here).mono fun copied kept => kept.trans same
  exact copied.bind fun mapWallet same => ⟨same, rfl, rfl⟩

/-- Every spend is of a wallet transaction. -/
def Indexed (wallet : CWallet) : Prop :=
  ∀ pair ∈ wallet.mapTxSpends, (wallet.transactions pair.2).isSome = true

/-- The second wallet has the transactions of the first one, and these pairs more. -/
structure Adds (pairs : List (COutPoint × Uint256)) (wallet after : CWallet) : Prop where
  transactions : after.transactions = wallet.transactions
  mapTxSpends : after.mapTxSpends = wallet.mapTxSpends ++ pairs
  fFileBacked : after.fFileBacked = wallet.fFileBacked

theorem addToSpends_ends (indexed : wallet.Indexed)
    (known : (wallet.transactions hash).isSome = true) (outpoint : COutPoint) :
    Ends (fun _ => True) (Adds [(outpoint, hash)] wallet)
      (wallet.addToSpends hash outpoint) := by
  unfold addToSpends
  dsimp only
  refine (syncMetaData_ends ?_).mono fun after same => ?_
  · intro name member
    rcases mem_append.mp (mem_range.mp member) with old | new
    · exact indexed _ old
    · rw [mem_singleton, Prod.mk.injEq] at new
      rw [new.2]
      exact known
  · exact ⟨same.transactions, same.mapTxSpends, same.fFileBacked⟩

theorem addAllToSpends_ends (indexed : wallet.Indexed)
    (known : (wallet.transactions hash).isSome = true) (outpoints : List COutPoint) :
    Ends (fun _ => True) (Adds (outpoints.map fun outpoint => (outpoint, hash)) wallet)
      (outpoints.foldlM (addToSpends hash) wallet) := by
  refine Ends.foldlM
    (fun done after => Adds (done.map fun outpoint => (outpoint, hash)) wallet after)
    ⟨rfl, (append_nil _).symm, rfl⟩ ?_
  intro done outpoint now _ adds
  have nowIndexed : now.Indexed := by
    intro pair member
    rw [adds.transactions]
    rw [adds.mapTxSpends] at member
    rcases mem_append.mp member with old | new
    · exact indexed pair old
    · obtain ⟨_, -, rfl⟩ := mem_map.mp new
      exact known
  refine (addToSpends_ends nowIndexed (by rwa [adds.transactions]) outpoint).mono
    fun next step => ⟨step.transactions.trans adds.transactions, ?_,
      step.fFileBacked.trans adds.fFileBacked⟩
  rw [step.mapTxSpends, adds.mapTxSpends, append_assoc, map_append, map_singleton]

theorem isCoinStake_null_iff (tx : CTransaction) :
    (tx.isCoinStake = true ∧ (tx.vin.head?.map fun txin => txin.prevout.isNull) = some true) ↔
      tx.isV5CoinStake = true := by
  unfold CTransaction.isCoinStake CTransaction.isV5CoinStake CTransaction.firstInputMarked
  cases tx.vin with
  | nil => simp
  | cons txin rest => cases null : txin.prevout.isNull <;> simp [null]

theorem addTxToSpends_ends (indexed : wallet.Indexed) {object : CachedTransaction}
    (found : wallet.transactions hash = some object) :
    Ends (fun _ => True)
      (fun after => ∃ pairs, Adds pairs wallet after ∧
        ∀ point name, (point, name) ∈ pairs ↔ name = hash ∧ object.Spends point)
      (wallet.addTxToSpends hash) := by
  have known : (wallet.transactions hash).isSome = true := by
    rw [found]
    rfl
  obtain ⟨wtx, held, rfl⟩ := Option.map_eq_some_iff.mp found
  have skipped (none : wtx.tx.tx.hasInputs = false) : ∃ pairs, Adds pairs wallet wallet ∧
      ∀ point name, (point, name) ∈ pairs ↔ name = hash ∧ wtx.tx.Spends point := by
    refine ⟨[], ⟨rfl, (append_nil _).symm, rfl⟩, fun point name => ?_⟩
    refine iff_of_false not_mem_nil fun spends => ?_
    rw [CachedTransaction.Spends, none] at spends
    exact Bool.false_ne_true spends.2.1
  unfold addTxToSpends
  rw [held]
  dsimp only
  split
  · rename_i coinbase
    refine Ends.pure (skipped ?_)
    rw [CTransaction.hasInputs, coinbase]
    rfl
  · rename_i spending
    split
    · rename_i staked
      refine Ends.pure (skipped ?_)
      rw [CTransaction.hasInputs, (isCoinStake_null_iff _).mp staked, Bool.not_true, Bool.and_false]
    · rename_i other
      have inputs : wtx.tx.tx.hasInputs = true := by
        rw [isCoinStake_null_iff] at other
        rw [CTransaction.hasInputs, Bool.eq_false_iff.mpr spending, Bool.eq_false_iff.mpr other]
        rfl
      refine (addAllToSpends_ends indexed known _).mono fun after adds => ⟨_, adds, ?_⟩
      intro point name
      rw [mem_map]
      constructor
      · rintro ⟨outpoint, member, same⟩
        rw [Prod.mk.injEq] at same
        exact ⟨same.2.symm, inputs, same.1 ▸ member⟩
      · rintro ⟨rfl, -, member⟩
        exact ⟨point, member, rfl⟩

/-! ## The index along the calls -/

/-- The index has the pairs of the outpoints that the transactions of the wallet spend. -/
def SpendsExact (wallet : CWallet) : Prop :=
  Exact CachedTransaction.Spends wallet.transactions wallet.mapTxSpends

theorem SpendsExact.indexed (exact : wallet.SpendsExact) : wallet.Indexed := by
  intro pair member
  obtain ⟨object, found, -⟩ := (exact pair.1 pair.2).mp member
  rw [found]
  rfl

theorem SpendsExact.same (exact : wallet.SpendsExact) (same : SameSpends wallet after) :
    after.SpendsExact := by
  unfold SpendsExact
  rw [same.transactions, same.mapTxSpends]
  exact exact

/-- What a call that adds a transaction may do: the wallet stays as it is but for metadata, or the
transaction takes the place under its hash. -/
structure AddStep (object : CachedTransaction) (wallet after : CWallet) : Prop where
  exact : after.SpendsExact
  transactions : after.transactions = wallet.transactions ∨
    after.transactions = Function.update wallet.transactions object.hash (some object)
  fFileBacked : after.fFileBacked = wallet.fFileBacked

theorem put_ends (exact : wallet.SpendsExact) (wtx : CWalletTx) (position : Int)
    (before : ∀ old, wallet.transactions wtx.tx.hash = some old → ∀ point,
      old.Spends point → wtx.tx.Spends point) :
    Ends (fun _ => True) (AddStep wtx.tx wallet)
      ({ wallet with
        mapWallet := wallet.mapWallet.set wtx.tx.hash wtx
        nOrderPosNext := position }.addTxToSpends wtx.tx.hash) := by
  have placed : transactions { wallet with
      mapWallet := wallet.mapWallet.set wtx.tx.hash wtx
      nOrderPosNext := position } =
        Function.update wallet.transactions wtx.tx.hash (some wtx.tx) := transactionsOf_set
  have indexed : Indexed { wallet with
      mapWallet := wallet.mapWallet.set wtx.tx.hash wtx
      nOrderPosNext := position } := by
    intro pair member
    rw [placed]
    by_cases same : pair.2 = wtx.tx.hash
    · rw [same, update_self]
      rfl
    · rw [update_of_ne same]
      exact exact.indexed pair member
  have found := congrFun placed wtx.tx.hash
  rw [update_self] at found
  refine (addTxToSpends_ends indexed found).mono ?_
  rintro after ⟨pairs, adds, recorded⟩
  refine ⟨?_, .inr (adds.transactions.trans placed), adds.fFileBacked⟩
  unfold SpendsExact
  rw [adds.transactions, placed, adds.mapTxSpends]
  exact Exact.put exact before recorded

theorem merge_tx (wtx wtxIn : CWalletTx) : (wtx.merge wtxIn).1.tx = wtx.tx := by
  unfold CWalletTx.merge
  dsimp only
  split <;> split <;> split <;> rfl

theorem sameSpends_finish (wallet : CWallet) (context : WalletContext) (hash : Uint256)
    (write : Bool) : SameSpends wallet (wallet.finish context hash write).1 := by
  unfold finish
  split
  · exact .refl wallet
  · exact sameSpends_modify wallet hash fun _ => rfl

theorem addToWallet_ends (exact : wallet.SpendsExact) (context : WalletContext)
    (wtxIn : CWalletTx) (fFromLoadWallet : Bool)
    (before : ∀ old, wallet.transactions wtxIn.tx.hash = some old → ∀ point,
      old.Spends point → wtxIn.tx.Spends point) :
    Ends (fun _ => True) (fun result => AddStep wtxIn.tx wallet result.1)
      (wallet.addToWallet context wtxIn fFromLoadWallet) := by
  unfold addToWallet
  dsimp only
  split
  · exact (put_ends exact wtxIn.bindWallet wallet.nOrderPosNext before).bind fun after step => step
  · split
    · refine (put_ends exact (wallet.stamp context wtxIn.bindWallet) (wallet.nOrderPosNext + 1)
        before).bind fun after step => ?_
      have ended := sameSpends_finish after context wtxIn.tx.hash true
      refine ⟨step.exact.same ended, ?_, ended.fFileBacked.trans step.fFileBacked⟩
      rw [ended.transactions]
      exact step.transactions
    · rename_i old found
      have kept : SameSpends wallet { wallet with
          mapWallet := wallet.mapWallet.set wtxIn.tx.hash (old.bindWallet.merge wtxIn).1 } := by
        refine ⟨transactionsOf_replace ?_, rfl, rfl⟩
        rw [transactionsOf, found, merge_tx]
        rfl
      have ended := kept.trans (sameSpends_finish _ context wtxIn.tx.hash
        (old.bindWallet.merge wtxIn).2)
      exact ⟨exact.same ended, .inl ended.transactions, ended.fFileBacked⟩

variable [ChainParams] [Crypto]

theorem addToWalletIfInvolvingMe_ends (exact : wallet.SpendsExact) (context : WalletContext)
    (object : CachedTransaction) (pblock : Option CBlock) (fUpdate : Bool)
    (before : ∀ old, wallet.transactions object.hash = some old → ∀ point,
      old.Spends point → object.Spends point) :
    Ends (fun _ => True) (fun result => AddStep object wallet result.1)
      (wallet.addToWalletIfInvolvingMe context object pblock fUpdate) := by
  have stays : AddStep object wallet wallet := ⟨exact, .inl rfl, rfl⟩
  have involved : Ends (fun _ => True) (fun _ => True) (wallet.involvesMe context object) := by
    cases wallet.involvesMe context object with
    | ok => exact .pure trivial
    | error => exact .throw trivial
  unfold addToWalletIfInvolvingMe
  split
  · exact .pure stays
  · refine involved.bind fun involves _ => ?_
    split
    · -- the branch of a block changes nothing of the transaction
      cases pblock with
      | none => exact addToWallet_ends exact context _ false before
      | some block =>
        have kept : ((⟨object, 0, [], -1, false⟩ : CMerkleTx).setMerkleBranch block).tx =
            object := by
          unfold CMerkleTx.setMerkleBranch
          dsimp only
          split <;> rfl
        have added := addToWallet_ends exact context
          { toCMerkleTx := (⟨object, 0, [], -1, false⟩ : CMerkleTx).setMerkleBranch block,
            pwallet := true } false (by rwa [kept])
        rw [kept] at added
        exact added
    · exact .pure stays

theorem syncTransaction_ends (exact : wallet.SpendsExact) (context : WalletContext)
    (object : CachedTransaction) (pblock : Option CBlock)
    (before : ∀ old, wallet.transactions object.hash = some old → ∀ point,
      old.Spends point → object.Spends point) :
    Ends (fun _ => True) (AddStep object wallet)
      (wallet.syncTransaction context object pblock) := by
  have marked (vin : List CTxIn) (start : CWallet) :
      SameSpends start (vin.foldl (markPrevout object.tx) start) := by
    induction vin generalizing start with
    | nil => exact .refl start
    | cons txin rest ih =>
      refine SameSpends.trans ?_ (ih _)
      unfold markPrevout
      split
      · exact .refl start
      · exact sameSpends_modify start _ fun _ => rfl
  refine (addToWalletIfInvolvingMe_ends exact context object pblock true before).bind
    fun result step => ?_
  dsimp only
  split
  · have same := marked object.tx.vin result.1
    refine ⟨step.exact.same same, ?_, same.fFileBacked.trans step.fFileBacked⟩
    rw [same.transactions]
    exact step.transactions
  · exact step

end CWallet

/-- The calls that change the transactions of a wallet, and the question for the depth of one, which
marks its branch as verified. -/
inductive WalletCall
  | addToWallet (context : WalletContext) (wtxIn : CWalletTx) (fFromLoadWallet : Bool)
  | addToWalletIfInvolvingMe (context : WalletContext) (tx : CachedTransaction)
      (pblock : Option CBlock) (fUpdate : Bool)
  | syncTransaction (context : WalletContext) (tx : CachedTransaction) (pblock : Option CBlock)
  | eraseFromWallet (hash : Uint256)
  | getDepthInMainChain (context : WalletContext) (hash : Uint256)

namespace WalletCall

def transaction : WalletCall → Option CachedTransaction
  | addToWallet _ wtxIn _ => some wtxIn.tx
  | addToWalletIfInvolvingMe _ tx _ _ => some tx
  | syncTransaction _ tx _ => some tx
  | eraseFromWallet _ => none
  | getDepthInMainChain _ _ => none

/-- The wallet that a call leaves; the exception for a value out of range comes before any change,
and after the other errors there is no wallet. -/
def leaves (wallet : CWallet) : Except WalletError CWallet → Option CWallet
  | .ok after => some after
  | .error .valueOutOfRange => some wallet
  | .error _ => none

def step [ChainParams] [Crypto] (wallet : CWallet) : WalletCall → Option CWallet
  | addToWallet context wtxIn fFromLoadWallet =>
    leaves wallet do
      let (after, _) ← wallet.addToWallet context wtxIn fFromLoadWallet
      pure after
  | addToWalletIfInvolvingMe context tx pblock fUpdate =>
    leaves wallet do
      let (after, _) ← wallet.addToWalletIfInvolvingMe context tx pblock fUpdate
      pure after
  | syncTransaction context tx pblock =>
    leaves wallet (wallet.syncTransaction context tx pblock)
  | eraseFromWallet hash => some (wallet.eraseFromWallet hash)
  | getDepthInMainChain context hash =>
    some (wallet.modify hash fun wtx =>
      { wtx with toCMerkleTx := wtx.toCMerkleTx.verified context })

def run [ChainParams] [Crypto] (wallet : CWallet) (calls : List WalletCall) : Option CWallet :=
  calls.foldlM step wallet

/-- The call does not erase a transaction with recorded spends: a transaction that it takes out of
the file is a coinbase or a coinstake of version 5, or has no inputs. -/
def Harmless (wallet : CWallet) : WalletCall → Prop
  | eraseFromWallet hash => wallet.fFileBacked = true →
      ∀ wtx, wallet.mapWallet.lookup hash = some wtx →
        wtx.tx.tx.hasInputs = false ∨ wtx.tx.tx.vin = []
  | _ => True

def CollisionFree (calls : List WalletCall) : Prop :=
  ∀ call ∈ calls, ∀ other ∈ calls, ∀ tx tx', call.transaction = some tx →
    other.transaction = some tx' → tx.hash = tx'.hash → tx.Same tx'

def AddedNotErased (fFileBacked : Bool) (calls : List WalletCall) (tx : CachedTransaction) : Prop :=
  ∃ before call after, calls = before ++ call :: after ∧ call.transaction = some tx ∧
    (fFileBacked = true → eraseFromWallet tx.hash ∉ after)

end WalletCall

/-- What the wallet keeps after calls: the pairs of the index are the recorded inputs of its
transactions, its entries are transactions that were added and not erased, and an output is spent
if and only if a transaction of the wallet spends it that is in the chain or the memory pool. -/
structure SpendIndex [Crypto] (fFileBacked : Bool) (calls : List WalletCall) (wallet : CWallet) :
    Prop where
  pairs : ∀ outpoint txid, (outpoint, txid) ∈ wallet.mapTxSpends ↔
    ∃ wtx, wallet.mapWallet.lookup txid = some wtx ∧ wtx.tx.Spends outpoint
  added : ∀ txid wtx, wallet.mapWallet.lookup txid = some wtx →
    wtx.tx.hash = txid ∧ WalletCall.AddedNotErased fFileBacked calls wtx.tx
  spent : ∀ context outpoint, wallet.isSpent context outpoint = true ↔
    ∃ txid wtx, wallet.mapWallet.lookup txid = some wtx ∧ wtx.tx.Spends outpoint ∧
      0 ≤ wtx.getDepthInMainChain context true

/-! ## The index along a run -/

theorem CachedTransaction.Same.spends {object other : CachedTransaction} (same : object.Same other)
    {outpoint : COutPoint} (spends : object.Spends outpoint) : other.Spends outpoint := by
  have mint (tx : CTransaction) : tx.isZerocoinMint =
      (tx.vout.map fun txout => (txout.nValue, txout.scriptPubKey)).any
        fun output => output.2.isZerocoinMint := by
    rw [any_map]
    rfl
  have outputs (tx : CTransaction) : tx.stakeOutputs =
      (decide (2 ≤ (tx.vout.map fun txout => (txout.nValue, txout.scriptPubKey)).length) &&
        ((tx.vout.map fun txout => (txout.nValue, txout.scriptPubKey)).head?.map
          fun output => output.1 == 0 && output.2 == []).getD false) := by
    rw [CTransaction.stakeOutputs, length_map, List.head?_map, Option.map_map]
    rfl
  have inputs : object.tx.hasInputs = other.tx.hasInputs := by
    unfold CTransaction.hasInputs CTransaction.isCoinBase CTransaction.isV5CoinStake
      CTransaction.containsZerocoins CTransaction.isZerocoinSpend CTransaction.firstInputMarked
    rw [mint, mint, outputs, outputs, same.vin, same.vout]
  unfold CachedTransaction.Spends at *
  rw [← inputs, ← same.vin]
  exact spends

theorem CachedTransaction.spends_nothing_iff (object : CachedTransaction) :
    (∀ outpoint, ¬ object.Spends outpoint) ↔
      object.tx.hasInputs = false ∨ object.tx.vin = [] := by
  constructor
  · intro nothing
    by_contra some
    rw [not_or, Bool.not_eq_false] at some
    obtain ⟨txin, member⟩ := exists_mem_of_ne_nil _ some.2
    exact nothing txin.prevout ⟨some.1, mem_map_of_mem member⟩
  · rintro (kind | empty) outpoint spends
    · rw [CachedTransaction.Spends, kind] at spends
      exact Bool.false_ne_true spends.1
    · rw [CachedTransaction.Spends, empty] at spends
      exact not_mem_nil spends.2

namespace CWallet

variable {wallet after : CWallet}

theorem transactions_eq_some {hash : Uint256} {object : CachedTransaction} :
    wallet.transactions hash = some object ↔
      ∃ wtx, wallet.mapWallet.lookup hash = some wtx ∧ wtx.tx = object :=
  Option.map_eq_some_iff

theorem spendsExact_iff : wallet.SpendsExact ↔ ∀ outpoint txid,
    (outpoint, txid) ∈ wallet.mapTxSpends ↔
      ∃ wtx, wallet.mapWallet.lookup txid = some wtx ∧ wtx.tx.Spends outpoint := by
  refine forall_congr' fun outpoint => forall_congr' fun txid => iff_congr Iff.rfl ?_
  constructor
  · rintro ⟨object, found, spends⟩
    obtain ⟨wtx, held, rfl⟩ := transactions_eq_some.mp found
    exact ⟨wtx, held, spends⟩
  · rintro ⟨wtx, held, spends⟩
    exact ⟨wtx.tx, transactions_eq_some.mpr ⟨wtx, held, rfl⟩, spends⟩

theorem isSpent_iff [Crypto] (exact : wallet.SpendsExact) (context : WalletContext)
    (outpoint : COutPoint) : wallet.isSpent context outpoint = true ↔
      ∃ txid wtx, wallet.mapWallet.lookup txid = some wtx ∧ wtx.tx.Spends outpoint ∧
        0 ≤ wtx.getDepthInMainChain context true := by
  rw [isSpent, any_eq_true]
  constructor
  · rintro ⟨txid, member, deep⟩
    obtain ⟨wtx, held, spends⟩ := (spendsExact_iff.mp exact outpoint txid).mp (mem_range.mp member)
    rw [held] at deep
    exact ⟨txid, wtx, held, spends, of_decide_eq_true deep⟩
  · rintro ⟨txid, wtx, held, spends, deep⟩
    refine ⟨txid, mem_range.mpr ((spendsExact_iff.mp exact outpoint txid).mpr
      ⟨wtx, held, spends⟩), ?_⟩
    rw [held]
    exact decide_eq_true deep

theorem transactions_eraseFromWallet (hash : Uint256) (backed : wallet.fFileBacked = true) :
    (wallet.eraseFromWallet hash).transactions =
      Function.update wallet.transactions hash none := by
  unfold eraseFromWallet
  rw [backed]
  exact transactionsOf_erase

theorem mapTxSpends_eraseFromWallet (hash : Uint256) :
    (wallet.eraseFromWallet hash).mapTxSpends = wallet.mapTxSpends ∧
      (wallet.eraseFromWallet hash).fFileBacked = wallet.fFileBacked := by
  unfold eraseFromWallet
  split <;> exact ⟨rfl, rfl⟩

theorem eraseFromWallet_exact_iff (exact : wallet.SpendsExact) (hash : Uint256) :
    (wallet.eraseFromWallet hash).SpendsExact ↔
      (WalletCall.eraseFromWallet hash).Harmless wallet := by
  cases backed : wallet.fFileBacked with
  | false =>
    have same : wallet.eraseFromWallet hash = wallet := by
      rw [eraseFromWallet, backed]
      rfl
    rw [same]
    refine iff_of_true exact fun filed => ?_
    rw [backed] at filed
    contradiction
  | true =>
    unfold SpendsExact
    rw [transactions_eraseFromWallet hash backed, (mapTxSpends_eraseFromWallet hash).1]
    cases held : wallet.mapWallet.lookup hash with
    | none =>
      have missing : wallet.transactions hash = none := by
        rw [transactions, transactionsOf, held]
        rfl
      rw [← missing, update_eq_self]
      refine iff_of_true exact fun _ wtx found => ?_
      rw [held] at found
      contradiction
    | some wtx =>
      rw [Exact.erase_iff exact (transactions_eq_some.mpr ⟨wtx, held, rfl⟩),
        wtx.tx.spends_nothing_iff]
      constructor
      · intro nothing _ other found
        rw [held, Option.some.injEq] at found
        rw [← found]
        exact nothing
      · exact fun harmless => harmless backed wtx held

end CWallet

namespace WalletCall

variable {fFileBacked : Bool} {calls : List WalletCall} {call : WalletCall}
  {tx : CachedTransaction}

theorem AddedNotErased.here (adds : call.transaction = some tx) :
    AddedNotErased fFileBacked (calls ++ [call]) tx :=
  ⟨calls, call, [], rfl, adds, fun _ => not_mem_nil⟩

theorem AddedNotErased.later (added : AddedNotErased fFileBacked calls tx)
    (kept : fFileBacked = true → call ≠ eraseFromWallet tx.hash) :
    AddedNotErased fFileBacked (calls ++ [call]) tx := by
  obtain ⟨before, adding, rest, rfl, adds, erased⟩ := added
  refine ⟨before, adding, rest ++ [call], by simp, adds, fun backed member => ?_⟩
  rcases mem_append.mp member with old | new
  · exact erased backed old
  · exact kept backed (mem_singleton.mp new).symm

/-- What every call keeps: the index is exact, and the entries are transactions that were added and
not erased. -/
structure Sound (fFileBacked : Bool) (calls : List WalletCall) (wallet : CWallet) : Prop where
  exact : wallet.SpendsExact
  backed : wallet.fFileBacked = fFileBacked
  added : ∀ hash object, wallet.transactions hash = some object →
    object.hash = hash ∧ AddedNotErased fFileBacked calls object

theorem Sound.spendIndex [Crypto] {wallet : CWallet} (sound : Sound fFileBacked calls wallet) :
    SpendIndex fFileBacked calls wallet where
  pairs := CWallet.spendsExact_iff.mp sound.exact
  added txid wtx held := sound.added txid wtx.tx (CWallet.transactions_eq_some.mpr ⟨wtx, held, rfl⟩)
  spent := CWallet.isSpent_iff sound.exact

theorem sound_empty (fFileBacked : Bool) (nOrderPosNext : Int) :
    Sound fFileBacked [] (.empty fFileBacked nOrderPosNext) where
  exact := exact_empty
  backed := rfl
  added _ _ found := nomatch found

theorem leaves_eq_some {post : CWallet → Prop} {wallet after : CWallet}
    {result : Except WalletError CWallet} (start : post wallet)
    (ends : Ends (fun _ => True) post result) (left : leaves wallet result = some after) :
    post after := by
  unfold leaves at left
  split at left
  · cases left
    exact ends
  · cases left
    exact start
  · contradiction

variable [ChainParams] [Crypto]

theorem step_addStep {wallet after : CWallet} (exact : wallet.SpendsExact)
    (adds : call.transaction = some tx)
    (before : ∀ old, wallet.transactions tx.hash = some old → ∀ point,
      old.Spends point → tx.Spends point)
    (stepped : step wallet call = some after) : CWallet.AddStep tx wallet after := by
  have stays : CWallet.AddStep tx wallet wallet := ⟨exact, .inl rfl, rfl⟩
  cases call with
  | addToWallet context wtxIn fFromLoadWallet =>
    cases adds
    refine leaves_eq_some stays ?_ stepped
    exact (CWallet.addToWallet_ends exact context wtxIn fFromLoadWallet before).bind
      fun _ added => added
  | addToWalletIfInvolvingMe context object pblock fUpdate =>
    cases adds
    refine leaves_eq_some stays ?_ stepped
    exact (CWallet.addToWalletIfInvolvingMe_ends exact context tx pblock fUpdate before).bind
      fun _ added => added
  | syncTransaction context object pblock =>
    cases adds
    exact leaves_eq_some stays
      (CWallet.syncTransaction_ends exact context tx pblock before) stepped
  | eraseFromWallet hash => nomatch adds
  | getDepthInMainChain context hash => nomatch adds

/-- One operation of the wallet. -/
theorem Sound.step {wallet after : CWallet} (sound : Sound fFileBacked calls wallet)
    (free : CollisionFree (calls ++ [call])) (harmless : call.Harmless wallet)
    (stepped : step wallet call = some after) : Sound fFileBacked (calls ++ [call]) after := by
  have adding (tx : CachedTransaction) (adds : call.transaction = some tx) :
      Sound fFileBacked (calls ++ [call]) after := by
    have before : ∀ old, wallet.transactions tx.hash = some old → ∀ point,
        old.Spends point → tx.Spends point := by
      intro old found point spends
      obtain ⟨hash, earlier, other, later, split, added, -⟩ := sound.added tx.hash old found
      have same : old.Same tx := free other (by simp [split]) call (by simp) old tx added adds hash
      exact same.spends spends
    obtain ⟨exact, transactions, backed⟩ := step_addStep sound.exact adds before stepped
    have kept (hash : Uint256) (object : CachedTransaction)
        (found : wallet.transactions hash = some object) :
        object.hash = hash ∧ AddedNotErased fFileBacked (calls ++ [call]) object := by
      obtain ⟨named, added⟩ := sound.added hash object found
      refine ⟨named, added.later fun _ erases => ?_⟩
      rw [erases] at adds
      contradiction
    refine ⟨exact, backed.trans sound.backed, fun hash object found => ?_⟩
    rcases transactions with same | placed
    · rw [same] at found
      exact kept hash object found
    · rw [placed] at found
      by_cases here : hash = tx.hash
      · rw [here, update_self, Option.some.injEq] at found
        subst found
        exact ⟨here.symm, .here adds⟩
      · rw [update_of_ne here] at found
        exact kept hash object found
  cases call with
  | addToWallet context wtxIn fFromLoadWallet => exact adding wtxIn.tx rfl
  | addToWalletIfInvolvingMe context tx pblock fUpdate => exact adding tx rfl
  | syncTransaction context tx pblock => exact adding tx rfl
  | eraseFromWallet hash =>
    cases stepped
    refine ⟨(CWallet.eraseFromWallet_exact_iff sound.exact hash).mpr harmless,
      (CWallet.mapTxSpends_eraseFromWallet hash).2.trans sound.backed, fun other object found => ?_⟩
    cases filed : wallet.fFileBacked with
    | false =>
      rw [CWallet.eraseFromWallet, filed] at found
      obtain ⟨named, added⟩ := sound.added other object found
      refine ⟨named, added.later fun backed => ?_⟩
      rw [← sound.backed, filed] at backed
      contradiction
    | true =>
      rw [CWallet.transactions_eraseFromWallet hash filed] at found
      have apart : other ≠ hash := by
        rintro rfl
        rw [update_self] at found
        contradiction
      rw [update_of_ne apart] at found
      obtain ⟨named, added⟩ := sound.added other object found
      refine ⟨named, added.later fun _ erases => apart ?_⟩
      cases erases
      exact named.symm
  | getDepthInMainChain context hash =>
    cases stepped
    have same : CWallet.SameSpends wallet (wallet.modify hash fun wtx =>
        { wtx with toCMerkleTx := wtx.toCMerkleTx.verified context }) := by
      refine CWallet.sameSpends_modify wallet hash fun wtx => ?_
      unfold CMerkleTx.verified
      dsimp only
      split <;> rfl
    refine ⟨sound.exact.same same, same.fFileBacked.trans sound.backed,
      fun other object found => ?_⟩
    rw [same.transactions] at found
    obtain ⟨named, added⟩ := sound.added other object found
    exact ⟨named, added.later fun _ erases => nomatch erases⟩

theorem run_append (start : CWallet) (calls : List WalletCall) (call : WalletCall) :
    run start (calls ++ [call]) = (run start calls).bind fun wallet => step wallet call := by
  unfold run
  rw [foldlM_append]
  cases calls.foldlM step start with
  | none => rfl
  | some wallet =>
    change (step wallet call >>= fun after => some after) = step wallet call
    cases step wallet call <;> rfl

/-- All operations. -/
theorem sound_run {fFileBacked : Bool} {nOrderPosNext : Int} {calls : List WalletCall}
    (free : CollisionFree calls)
    (harmless : ∀ done call wallet, done ++ [call] <+: calls →
      run (.empty fFileBacked nOrderPosNext) done = some wallet → call.Harmless wallet)
    (done : List WalletCall) (within : done <+: calls) (wallet : CWallet)
    (reached : run (.empty fFileBacked nOrderPosNext) done = some wallet) :
    Sound fFileBacked done wallet := by
  induction done using List.reverseRecOn generalizing wallet with
  | nil =>
    cases reached
    exact sound_empty fFileBacked nOrderPosNext
  | append_singleton done call ih =>
    rw [run_append] at reached
    obtain ⟨earlier, before, stepped⟩ := Option.bind_eq_some_iff.mp reached
    refine (ih ((prefix_append done [call]).trans within) earlier before).step ?_
      (harmless done call earlier within before) stepped
    intro first firstIn second secondIn
    exact free first (within.subset firstIn) second (within.subset secondIn)

end WalletCall

open WalletCall in
/-- **The spend index of a wallet.** Along every run from an empty wallet, after every call that
returns, the index is exact, the wallet has only transactions that were added and not erased, and
`IsSpent` tells the spends of its transactions in the chain or the memory pool, if and only if no
call erases a transaction with recorded spends. -/
theorem spendIndex_iff [ChainParams] [Crypto] (fFileBacked : Bool) (nOrderPosNext : Int)
    (calls : List WalletCall) (free : WalletCall.CollisionFree calls) :
    (∀ done wallet, done <+: calls →
      run (.empty fFileBacked nOrderPosNext) done = some wallet →
        SpendIndex fFileBacked done wallet) ↔
    ∀ done call wallet, done ++ [call] <+: calls →
      run (.empty fFileBacked nOrderPosNext) done = some wallet → call.Harmless wallet := by
  constructor
  · intro index done call wallet within reached
    cases call with
    | eraseFromWallet hash =>
      have before := index done wallet ((prefix_append done _).trans within) reached
      have after := index _ (wallet.eraseFromWallet hash) within (by
        rw [run_append, reached]
        rfl)
      exact (CWallet.eraseFromWallet_exact_iff (CWallet.spendsExact_iff.mpr before.pairs)
        hash).mp (CWallet.spendsExact_iff.mpr after.pairs)
    | addToWallet => exact trivial
    | addToWalletIfInvolvingMe => exact trivial
    | syncTransaction => exact trivial
    | getDepthInMainChain => exact trivial
  · intro harmless done wallet within reached
    exact (sound_run free harmless done within wallet reached).spendIndex

/-! ## A payment that is erased -/

section

local instance ErasedPayment.params : ChainParams := mainParams
local instance ErasedPayment.instCrypto : Crypto := checksumCrypto

namespace ErasedPayment

def outpoint : COutPoint := ⟨7, 0⟩

def payment (nValue : CAmount) : CachedTransaction :=
  .ofMutable ⟨1, [{ prevout := outpoint, scriptSig := [] }],
    [{ nValue := nValue, scriptPubKey := [] }], 0⟩

/-- A node with no block, whose wallet has the key of every output. -/
def context : WalletContext where
  node :=
    { mapBlockIndex := fun _ => none, vChain := [], diskBlocks := fun _ => none,
      diskUndo := fun _ => none, pcoinsTip := ⟨fun _ => {}, 0⟩, mapProofOfStake := [],
      setStakeSeen := [], mapUsedStakePointers := fun _ => none,
      setBlockIndexCandidates := [], mapBlocksUnlinked := [], nBlockSequenceId := 1 }
  mempool := .empty
  swift := {}
  fLargeWork := false
  fSporkSwift := true
  fEnableSwiftTX := true
  nSwiftTXDepth := 5
  nAdjustedTime := 1700000000
  acentries := []
  isMine := fun _ => 4
  writeToDisk := true

/-- A payment is added and erased, and a payment of the same output is added. -/
def calls : List WalletCall :=
  [.syncTransaction context (payment 1) none, .eraseFromWallet (payment 1).hash,
    .syncTransaction context (payment 2) none]

theorem collisionFree_calls : WalletCall.CollisionFree calls := by
  have apart : ∀ tx ∈ calls.filterMap WalletCall.transaction,
      ∀ tx' ∈ calls.filterMap WalletCall.transaction, tx.hash = tx'.hash → tx = tx' := by
    decide +kernel
  intro call member other otherMember tx tx' adds otherAdds same
  have equal := apart tx (mem_filterMap.mpr ⟨call, member, adds⟩) tx'
    (mem_filterMap.mpr ⟨other, otherMember, otherAdds⟩) same
  subst equal
  exact ⟨rfl, rfl, rfl, rfl, rfl⟩

/-- Without the erasure the index is exact. -/
theorem spendIndex_iff_payments :
    ∃ wallet, WalletCall.run (.empty true 0)
        [.syncTransaction context (payment 1) none, .syncTransaction context (payment 2) none] =
          some wallet ∧
      SpendIndex true
        [.syncTransaction context (payment 1) none, .syncTransaction context (payment 2) none]
        wallet := by
  have returns : (WalletCall.run (.empty true 0)
      [.syncTransaction context (payment 1) none,
        .syncTransaction context (payment 2) none]).isSome = true := by
    decide +kernel
  obtain ⟨wallet, reached⟩ := Option.isSome_iff_exists.mp returns
  refine ⟨wallet, reached, (spendIndex_iff true 0 _ ?_).mpr ?_ _ wallet prefix_rfl reached⟩
  · have within (call : WalletCall) (member : call ∈ [.syncTransaction context (payment 1) none,
        .syncTransaction context (payment 2) none]) : call ∈ calls := by
      rcases mem_cons.mp member with rfl | last
      · exact mem_cons_self
      · exact mem_cons_of_mem _ (mem_cons_of_mem _ last)
    intro call member other otherMember
    exact collisionFree_calls call (within call member) other (within other otherMember)
  · intro done call wallet within _
    have member := within.subset (mem_append_right done (mem_singleton_self call))
    rcases mem_cons.mp member with rfl | last
    · exact trivial
    · rw [mem_singleton] at last
      rw [last]
      exact trivial

theorem not_spendIndex_of_stale {calls : List WalletCall} {wallet : CWallet} {txid : Uint256}
    (stale : (outpoint, txid) ∈ wallet.mapTxSpends)
    (missing : wallet.mapWallet.lookup txid = none) : ¬ SpendIndex true calls wallet := by
  intro index
  obtain ⟨wtx, held, -⟩ := (index.pairs outpoint txid).mp stale
  rw [missing] at held
  contradiction

theorem erased : ((WalletCall.run (.empty true 0) (calls.take 2)).map fun wallet =>
    (wallet.mapTxSpends, wallet.mapWallet.lookup (payment 1).hash)) =
      some ([(outpoint, (payment 1).hash)], none) := by
  decide +kernel

theorem inserted : ((WalletCall.run (.empty true 0)
    (calls ++ [.syncTransaction context (payment 1) none])).map fun wallet =>
      wallet.transactions (payment 1).hash) = some (some .null) := by
  decide +kernel

/-- After the erasure the pair of the payment is still in the index. The next payment of the output
inserts an entry without inputs under its hash, which is there for good: when the erased payment
arrives again, it is not stored. -/
theorem spendIndex_broken :
    WalletCall.CollisionFree calls ∧
    (∃ wallet, WalletCall.run (.empty true 0) (calls.take 2) = some wallet ∧
      (outpoint, (payment 1).hash) ∈ wallet.mapTxSpends ∧
      wallet.mapWallet.lookup (payment 1).hash = none ∧
      ¬ SpendIndex true (calls.take 2) wallet) ∧
    ∃ wallet, WalletCall.run (.empty true 0)
        (calls ++ [.syncTransaction context (payment 1) none]) = some wallet ∧
      wallet.transactions (payment 1).hash = some .null := by
  refine ⟨collisionFree_calls, ?_, Option.map_eq_some_iff.mp inserted⟩
  obtain ⟨wallet, reached, holds⟩ := Option.map_eq_some_iff.mp erased
  have stale : (outpoint, (payment 1).hash) ∈ wallet.mapTxSpends := by
    rw [show wallet.mapTxSpends = _ from congrArg Prod.fst holds]
    exact mem_singleton_self _
  have missing := congrArg Prod.snd holds
  exact ⟨wallet, reached, stale, missing, not_spendIndex_of_stale stale missing⟩

end ErasedPayment

end

end Agouti
