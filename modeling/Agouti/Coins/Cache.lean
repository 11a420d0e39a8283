import Agouti.Coins.Coins
import Mathlib.Data.List.AList

/-! # Stacks of coin caches

`CCoinsViewCache` of `coins.cpp` with its entries and flags, over another cache or over the coin
database (`CCoinsView`). Validation reads a view as a total map; here a view is what the node keeps:
each level has the entries it fetched or changed, and hands its changes to the level below when it
is flushed.
-/

namespace Agouti

open Function

/-- `CCoinsCacheEntry`, with a field for each flag. -/
structure CCoinsCacheEntry where
  coins : CCoins := {}
  dirty : Bool := false
  fresh : Bool := false
  deriving DecidableEq, Repr

abbrev CCoinsMap := AList fun _ : Uint256 => CCoinsCacheEntry

/-- `CCoinsViewDB`. Only entries with an unspent output can be serialized, and reading one
ends with `Cleanup`. -/
structure CCoinsViewDB where
  coins : Uint256 → Option CCoins
  stored : ∀ txid entry, coins txid = some entry →
    entry.isPruned = false ∧ entry.cleanup = entry
  hashBlock : Uint256

namespace CCoinsViewDB

def batchWriteCoins (store : CCoinsViewDB) (hash : Uint256) (coins : CCoins) : CCoinsViewDB where
  coins := Function.update store.coins hash (if coins.isPruned then none else some coins.cleanup)
  stored txid entry found := by
    by_cases here : txid = hash
    · subst here
      rw [update_self] at found
      split at found
      · contradiction
      · rename_i live
        obtain rfl := Option.some.inj found
        refine ⟨?_, CCoins.cleanup_cleanup coins⟩
        rw [CCoins.isPruned_cleanup]
        simpa using live
    · rw [update_of_ne here] at found
      exact store.stored txid entry found
  hashBlock := store.hashBlock

/-- The loop of `CCoinsViewDB::BatchWrite`. -/
def writeCoins : List (Sigma fun _ : Uint256 => CCoinsCacheEntry) → CCoinsViewDB → CCoinsViewDB
  | [], store => store
  | ⟨txid, entry⟩ :: rest, store =>
    writeCoins rest (if entry.dirty then store.batchWriteCoins txid entry.coins else store)

def batchWrite (store : CCoinsViewDB) (mapCoins : CCoinsMap) (hashBlock : Uint256) :
    CCoinsViewDB :=
  let store := writeCoins mapCoins.entries store
  if hashBlock = 0 then store else { store with hashBlock := hashBlock }

end CCoinsViewDB

/-- A coin view: the database, or a `CCoinsViewCache` over its `base`. -/
inductive CCoinsView
  | db (store : CCoinsViewDB)
  | cache (base : CCoinsView) (cacheCoins : CCoinsMap) (hashBlock : Uint256)

namespace CCoinsView

/-- `GetCoins`: the entry, when there is one. A cache keeps what it fetched from its base
(`FetchCoins`), as fresh when that is spent. -/
def getCoins : CCoinsView → Uint256 → CCoinsView × Option CCoins
  | .db store, txid => (.db store, store.coins txid)
  | .cache base cacheCoins hashBlock, txid =>
    match cacheCoins.lookup txid with
    | some entry => (.cache base cacheCoins hashBlock, some entry.coins)
    | none =>
      match base.getCoins txid with
      | (base, none) => (.cache base cacheCoins hashBlock, none)
      | (base, some tmp) =>
        (.cache base (cacheCoins.insert txid { coins := tmp, fresh := tmp.isPruned })
          hashBlock, some tmp)

def haveCoins (view : CCoinsView) (txid : Uint256) : CCoinsView × Bool :=
  match view with
  | .db store => (.db store, (store.coins txid).isSome)
  | .cache base cacheCoins hashBlock =>
    let (view, found) := (CCoinsView.cache base cacheCoins hashBlock).getCoins txid
    (view, (found.map fun coins => coins.vout != []).getD false)

/-- The entry that `ModifyCoins` inserts or finds, before it is marked as dirty. -/
def modifierEntry (base : CCoinsView) (cacheCoins : CCoinsMap) (txid : Uint256) :
    CCoinsView × CCoinsCacheEntry :=
  match cacheCoins.lookup txid with
  | some entry => (base, entry)
  | none =>
    match base.getCoins txid with
    | (base, none) => (base, { fresh := true })
    | (base, some coins) => (base, { coins := coins, fresh := coins.isPruned })

/-- `~CCoinsModifier`, for the entry that the modifier leaves. -/
def releaseEntry (cacheCoins : CCoinsMap) (txid : Uint256) (entry : CCoinsCacheEntry) :
    CCoinsMap :=
  let entry := { entry with coins := entry.coins.cleanup }
  if entry.fresh && entry.coins.isPruned then cacheCoins.erase txid
  else cacheCoins.insert txid entry

/-- `ModifyCoins` with what the caller makes of the coins until the modifier is released. The
database has no modifiers. -/
def modifyCoins (view : CCoinsView) (txid : Uint256) (change : CCoins → CCoins) : CCoinsView :=
  match view with
  | .db store => .db store
  | .cache base cacheCoins hashBlock =>
    let (base, entry) := modifierEntry base cacheCoins txid
    let entry := { entry with coins := change entry.coins, dirty := true }
    .cache base (releaseEntry cacheCoins txid entry) hashBlock

def setBestBlock (view : CCoinsView) (hashBlockIn : Uint256) : CCoinsView :=
  match view with
  | .db store => .db store
  | .cache base cacheCoins _ => .cache base cacheCoins hashBlockIn

/-- The body of the loop of `CCoinsViewCache::BatchWrite`; nothing when the assertion fails. -/
def mergeEntry (cacheCoins : CCoinsMap) (txid : Uint256) (entry : CCoinsCacheEntry) :
    Option CCoinsMap :=
  if !entry.dirty then some cacheCoins
  else
    match cacheCoins.lookup txid with
    | none =>
      if entry.coins.isPruned then some cacheCoins
      else if entry.fresh then
        some (cacheCoins.insert txid { coins := entry.coins, dirty := true, fresh := true })
      else none
    | some us =>
      if us.fresh && entry.coins.isPruned then some (cacheCoins.erase txid)
      else some (cacheCoins.insert txid { us with coins := entry.coins, dirty := true })

/-- The loop of `CCoinsViewCache::BatchWrite`. -/
def mergeCoins : List (Sigma fun _ : Uint256 => CCoinsCacheEntry) → CCoinsMap → Option CCoinsMap
  | [], cacheCoins => some cacheCoins
  | ⟨txid, entry⟩ :: rest, cacheCoins =>
    (mergeEntry cacheCoins txid entry).bind (mergeCoins rest)

def batchWrite (view : CCoinsView) (mapCoins : CCoinsMap) (hashBlockIn : Uint256) :
    Option CCoinsView :=
  match view with
  | .db store => some (.db (store.batchWrite mapCoins hashBlockIn))
  | .cache base cacheCoins _ =>
    (mergeCoins mapCoins.entries cacheCoins).map fun cacheCoins =>
      .cache base cacheCoins hashBlockIn

/-- `Flush`; nothing when an assertion fails. -/
def flush : CCoinsView → Option CCoinsView
  | .db store => some (.db store)
  | .cache base cacheCoins hashBlock =>
    (base.batchWrite cacheCoins hashBlock).map fun base => .cache base ∅ hashBlock

end CCoinsView

end Agouti
