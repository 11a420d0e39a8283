import Agouti.Library.SortedMap
import Agouti.Net.NetAddress

/-! # The address manager

`CAddrInfo` and `CAddrMan` of `addrman.cpp`: the entries under their numbers, the numbers under the
addresses, the numbers in random order, and the slots of the tables of tried and of new entries. An
assertion that fails, or a counter that overflows, ends an operation without a result.
-/

namespace Agouti

open Serialize Function

def ADDRMAN_TRIED_BUCKET_COUNT : Nat := 256
def ADDRMAN_NEW_BUCKET_COUNT : Nat := 1024
def ADDRMAN_BUCKET_SIZE : Nat := 64
def ADDRMAN_TRIED_BUCKETS_PER_GROUP : Nat := 8
def ADDRMAN_NEW_BUCKETS_PER_SOURCE_GROUP : Nat := 64
def ADDRMAN_NEW_BUCKETS_PER_ADDRESS : Int := 8
def ADDRMAN_HORIZON_DAYS : Int := 30
def ADDRMAN_RETRIES : Int := 3
def ADDRMAN_MAX_FAILURES : Int := 10
def ADDRMAN_MIN_FAIL_DAYS : Int := 7
def ADDRMAN_GETADDR_MAX_PCT : Nat := 23
def ADDRMAN_GETADDR_MAX : Nat := 2500

def NODE_NETWORK : Nat := 1

/-- The greatest `int`. -/
def INT_MAX : Int := 2 ^ 31 - 1

/-- An address and its services. -/
structure CAddress extends CService where
  nServices : Nat := NODE_NETWORK
  nTime : Nat := 100000000
  nLastTry : Int := 0
  deriving DecidableEq, Repr

/-- An entry of the address manager. -/
structure CAddrInfo extends CAddress where
  source : CNetAddr := 0
  nLastSuccess : Int := 0
  nAttempts : Int := 0
  nRefCount : Int := 0
  fInTried : Bool := false
  nRandomPos : Int := -1
  deriving DecidableEq, Repr

/-- The constructor of `CAddrInfo` from an address and its source. -/
def CAddrInfo.ofAddress (addr : CAddress) (source : CNetAddr) : CAddrInfo :=
  { addr with
    nLastTry := 0
    source := source }

def Uint256.getLow64 (value : Uint256) : Nat := value.toNat % 2 ^ 64

/-- The conversion to `unsigned int`. -/
def toUInt32 (n : Int) : Nat := (n % 2 ^ 32).toNat

/-- `GetRandInt`, from a random number. -/
def getRandInt (nRand nMax : Nat) : Nat := nRand % nMax

namespace CAddrInfo

section

variable [Crypto] (info : CAddrInfo) (nKey : Uint256)

def getTriedBucket : Nat :=
  let hash1 := (Hash (uint256 nKey ++ bytes info.getKey)).getLow64
  let hash2 := (Hash (uint256 nKey ++ bytes info.ip.getGroup ++
    le 8 (hash1 % ADDRMAN_TRIED_BUCKETS_PER_GROUP))).getLow64
  hash2 % ADDRMAN_TRIED_BUCKET_COUNT

def getNewBucket (src : CNetAddr) : Nat :=
  let vchSourceGroupKey := src.getGroup
  let hash1 := (Hash (uint256 nKey ++ bytes info.ip.getGroup ++
    bytes vchSourceGroupKey)).getLow64
  let hash2 := (Hash (uint256 nKey ++ bytes vchSourceGroupKey ++
    le 8 (hash1 % ADDRMAN_NEW_BUCKETS_PER_SOURCE_GROUP))).getLow64
  hash2 % ADDRMAN_NEW_BUCKET_COUNT

def getBucketPosition (fNew : Bool) (nBucket : Nat) : Nat :=
  let hash1 := (Hash (uint256 nKey ++ ascii (if fNew then "N" else "K") ++
    le 4 nBucket ++ bytes info.getKey)).getLow64
  hash1 % ADDRMAN_BUCKET_SIZE

end

def isTerrible (info : CAddrInfo) (nNow : Int) : Bool :=
  if info.nLastTry ≠ 0 ∧ nNow - 60 ≤ info.nLastTry then false
  else if nNow + 10 * 60 < info.nTime then true
  else if info.nTime = 0 ∨ ADDRMAN_HORIZON_DAYS * 24 * 60 * 60 < nNow - info.nTime then true
  else if info.nLastSuccess = 0 ∧ ADDRMAN_RETRIES ≤ info.nAttempts then true
  else if ADDRMAN_MIN_FAIL_DAYS * 24 * 60 * 60 < nNow - info.nLastSuccess ∧
      ADDRMAN_MAX_FAILURES ≤ info.nAttempts then true
  else false

end CAddrInfo

/-- A slot: a bucket and a position in it. -/
abbrev Slot := Nat × Nat

/-- `CAddrMan`. A slot without an entry holds -1. -/
structure CAddrMan where
  nKey : Uint256
  nIdCount : Int
  mapInfo : SortedMap Int CAddrInfo
  mapAddr : CNetAddr → Option Int
  vRandom : List Int
  nTried : Int
  vvTried : Slot → Int
  nNew : Int
  vvNew : Slot → Int

namespace CAddrMan

/-- `CAddrMan::Clear`, with the key drawn. The entries and their addresses stay. -/
def clear (man : CAddrMan) (nKey : Uint256) : CAddrMan :=
  { man with
    nKey := nKey
    nIdCount := 0
    vRandom := []
    nTried := 0
    vvTried := fun _ => -1
    nNew := 0
    vvNew := fun _ => -1 }

/-- The constructor of `CAddrMan`. -/
def create (nKey : Uint256) : CAddrMan :=
  clear
    { nKey := 0
      nIdCount := 0
      mapInfo := .empty
      mapAddr := fun _ => none
      vRandom := []
      nTried := 0
      vvTried := fun _ => 0
      nNew := 0
      vvNew := fun _ => 0 } nKey

/-- What `mapInfo[nId]` reads. -/
def entry (man : CAddrMan) (nId : Int) : CAddrInfo := (man.mapInfo.lookup nId).getD {}

/-- What `mapInfo[nId]` is assigned. -/
def put (man : CAddrMan) (nId : Int) (info : CAddrInfo) : CAddrMan :=
  { man with mapInfo := man.mapInfo.set nId info }

/-- `CAddrMan::Find`, with the number and the entry. -/
def find (man : CAddrMan) (addr : CNetAddr) : Option (Int × CAddrInfo) := do
  let nId ← man.mapAddr addr
  let info ← man.mapInfo.lookup nId
  pure (nId, info)

/-- An entry under the next number. -/
def created (man : CAddrMan) (addr : CAddress) (addrSource : CNetAddr) : CAddrMan :=
  let nId := man.nIdCount
  let info := CAddrInfo.ofAddress addr addrSource
  { man.put nId { info with nRandomPos := man.vRandom.length } with
    nIdCount := nId + 1
    mapAddr := update man.mapAddr addr.ip (some nId)
    vRandom := man.vRandom ++ [nId] }

/-- `CAddrMan::Create`, with the number. -/
def createEntry (man : CAddrMan) (addr : CAddress) (addrSource : CNetAddr) :
    Option (CAddrMan × Int) :=
  if man.nIdCount < INT_MAX then some (man.created addr addrSource, man.nIdCount) else none

/-- `CAddrMan::SwapRandom`. A negative position is, as an unsigned number, one behind the end. -/
def swapRandom (man : CAddrMan) (nRndPos1 nRndPos2 : Int) : Option CAddrMan := do
  if nRndPos1 = nRndPos2 then return man
  guard (0 ≤ nRndPos1 ∧ 0 ≤ nRndPos2)
  let nId1 ← man.vRandom[nRndPos1.toNat]?
  let nId2 ← man.vRandom[nRndPos2.toNat]?
  let info1 ← man.mapInfo.lookup nId1
  guard (man.mapInfo.lookup nId2).isSome
  let man := man.put nId1 { info1 with nRandomPos := nRndPos2 }
  let man := man.put nId2 { man.entry nId2 with nRandomPos := nRndPos1 }
  return { man with
    vRandom := (man.vRandom.set nRndPos1.toNat nId2).set nRndPos2.toNat nId1 }

def delete (man : CAddrMan) (nId : Int) : Option CAddrMan := do
  let info ← man.mapInfo.lookup nId
  guard (info.fInTried = false)
  guard (info.nRefCount = 0)
  let man ← man.swapRandom info.nRandomPos ((man.vRandom.length : Int) - 1)
  return { man with
    vRandom := man.vRandom.dropLast
    mapAddr := update man.mapAddr info.ip none
    mapInfo := man.mapInfo.erase nId
    nNew := man.nNew - 1 }

def clearNew (man : CAddrMan) (slot : Slot) : Option CAddrMan := do
  if man.vvNew slot = -1 then return man
  let nIdDelete := man.vvNew slot
  let infoDelete := man.entry nIdDelete
  guard (0 < infoDelete.nRefCount)
  let man := man.put nIdDelete { infoDelete with nRefCount := infoDelete.nRefCount - 1 }
  let man := { man with vvNew := update man.vvNew slot (-1) }
  if infoDelete.nRefCount - 1 = 0 then man.delete nIdDelete else return man

variable [Crypto]

def triedSlot (nKey : Uint256) (info : CAddrInfo) : Slot :=
  let nKBucket := info.getTriedBucket nKey
  (nKBucket, info.getBucketPosition nKey false nKBucket)

def newSlot (nKey : Uint256) (info : CAddrInfo) (nUBucket : Nat) : Slot :=
  (nUBucket, info.getBucketPosition nKey true nUBucket)

def removeFrom (nId : Int) (man : CAddrMan) (bucket : Nat) : CAddrMan :=
  let info := man.entry nId
  let slot := newSlot man.nKey info bucket
  if man.vvNew slot = nId then
    { man.put nId { info with nRefCount := info.nRefCount - 1 } with
      vvNew := update man.vvNew slot (-1) }
  else man

def removeFromAll (man : CAddrMan) (nId : Int) : CAddrMan :=
  (List.range ADDRMAN_NEW_BUCKET_COUNT).foldl (removeFrom nId) man

omit [Crypto] in
def leaveTried (man : CAddrMan) (nId : Int) (infoOld : CAddrInfo) (kSlot : Slot) : CAddrMan :=
  { man.put nId { infoOld with fInTried := false } with
    vvTried := update man.vvTried kSlot (-1)
    nTried := man.nTried - 1 }

omit [Crypto] in
/-- An entry comes, with one reference, into a slot of the new table. -/
def enterNew (man : CAddrMan) (nId : Int) (uSlot : Slot) : CAddrMan :=
  { man.put nId { man.entry nId with nRefCount := 1 } with
    vvNew := update man.vvNew uSlot nId
    nNew := man.nNew + 1 }

omit [Crypto] in
def enterTried (man : CAddrMan) (nId : Int) (kSlot : Slot) : CAddrMan :=
  { man.put nId { man.entry nId with fInTried := true } with
    vvTried := update man.vvTried kSlot nId
    nTried := man.nTried + 1 }

/-- The tried entry in a slot goes back to the new ones. -/
def evict (man : CAddrMan) (kSlot : Slot) : Option CAddrMan := do
  let nIdEvict := man.vvTried kSlot
  let infoOld ← man.mapInfo.lookup nIdEvict
  let uSlot := newSlot man.nKey infoOld (infoOld.getNewBucket man.nKey infoOld.source)
  let cleared ← (man.leaveTried nIdEvict infoOld kSlot).clearNew uSlot
  guard (cleared.vvNew uSlot = -1)
  return cleared.enterNew nIdEvict uSlot

/-- The end of `CAddrMan::MakeTried`: the entry moves to its slot of the tried table, which is made
free before. -/
def moveToTried (man : CAddrMan) (nId : Int) : Option CAddrMan := do
  guard ((man.entry nId).nRefCount = 0)
  let kSlot := triedSlot man.nKey (man.entry nId)
  let emptied ← if man.vvTried kSlot = -1 then some man else man.evict kSlot
  guard (emptied.vvTried kSlot = -1)
  return emptied.enterTried nId kSlot

/-- `CAddrMan::MakeTried` of the entry of a number. -/
def makeTried (man : CAddrMan) (nId : Int) : Option CAddrMan :=
  let removed := man.removeFromAll nId
  moveToTried { removed with nNew := removed.nNew - 1 } nId

def good_ (man : CAddrMan) (addr : CService) (nTime : Int) (nRand : Nat) : Option CAddrMan :=
  match man.find addr.ip with
  | none => some man
  | some (nId, info) =>
    if info.toCService ≠ addr then some man
    else
      let man := man.put nId
        { info with
          nLastSuccess := nTime
          nLastTry := nTime
          nAttempts := 0 }
      if info.fInTried then some man
      else
        let nRnd := getRandInt nRand ADDRMAN_NEW_BUCKET_COUNT
        let inBucket := fun n =>
          decide (man.vvNew (newSlot man.nKey info ((n + nRnd) % ADDRMAN_NEW_BUCKET_COUNT)) = nId)
        match (List.range ADDRMAN_NEW_BUCKET_COUNT).find? inBucket with
        | none => some man
        | some _ => man.makeTried nId

/-- The end of `CAddrMan::Add_`: the entry gets a reference in the bucket that a source leads to,
when that is free or its entry gives way. -/
def addReference (man : CAddrMan) (nId : Int) (source : CNetAddr) (nNow : Int) :
    Option CAddrMan := do
  let info := man.entry nId
  let slot := newSlot man.nKey info (info.getNewBucket man.nKey source)
  if man.vvNew slot = nId then return man
  let infoExisting := man.entry (man.vvNew slot)
  let man := if man.vvNew slot = -1 then man else man.put (man.vvNew slot) infoExisting
  let fInsert := man.vvNew slot = -1 ∨ infoExisting.isTerrible nNow = true ∨
    1 < infoExisting.nRefCount ∧ info.nRefCount = 0
  if fInsert then
    let man ← man.clearNew slot
    let info := man.entry nId
    return { man.put nId { info with nRefCount := info.nRefCount + 1 } with
      vvNew := update man.vvNew slot nId }
  else if info.nRefCount = 0 then man.delete nId
  else return man

/-- What `CAddrMan::Add_` brings up to date in an entry that it finds. -/
def refresh (addr : CAddress) (nTimePenalty nNow : Int) (info : CAddrInfo) : CAddrInfo :=
  let fCurrentlyOnline := decide (nNow - addr.nTime < 24 * 60 * 60)
  let nUpdateInterval : Int := if fCurrentlyOnline then 60 * 60 else 24 * 60 * 60
  let nTime :=
    if addr.nTime ≠ 0 ∧
        (info.nTime = 0 ∨ (info.nTime : Int) < addr.nTime - nUpdateInterval - nTimePenalty) then
      toUInt32 (max 0 (addr.nTime - nTimePenalty))
    else info.nTime
  { info with
    nTime := nTime
    nServices := info.nServices ||| addr.nServices }

/-- `CAddrMan::Add_`. The two times are those of its calls of `GetAdjustedTime`. -/
def add_ (man : CAddrMan) (addr : CAddress) (source : CNetAddr) (nTimePenalty : Int)
    (nNow nLater : Int) (nRand : Nat) : Option (CAddrMan × Bool) :=
  if !addr.ip.isRoutable then some (man, false)
  else
    match man.find addr.ip with
    | some (nId, info) =>
      let info := refresh addr nTimePenalty nNow info
      let man := man.put nId info
      if addr.nTime = 0 ∨ info.nTime ≠ 0 ∧ addr.nTime ≤ info.nTime then some (man, false)
      else if info.fInTried then some (man, false)
      else if info.nRefCount = ADDRMAN_NEW_BUCKETS_PER_ADDRESS then some (man, false)
      else
        let nFactor := 2 ^ info.nRefCount.toNat
        if 1 < nFactor ∧ getRandInt nRand nFactor ≠ 0 then some (man, false)
        else (man.addReference nId source nLater).map fun man => (man, false)
    | none => do
        let (man, nId) ← man.createEntry addr source
        let info := man.entry nId
        let man :=
          { man.put nId
              { info with nTime := toUInt32 (max 0 ((info.nTime : Int) - nTimePenalty)) } with
            nNew := man.nNew + 1 }
        (man.addReference nId source nLater).map fun man => (man, true)

omit [Crypto]

def attempt_ (man : CAddrMan) (addr : CService) (nTime : Int) : Option CAddrMan :=
  match man.find addr.ip with
  | none => some man
  | some (nId, info) =>
    if info.toCService ≠ addr then some man
    else if info.nAttempts < INT_MAX then
      some (man.put nId
        { info with
          nLastTry := nTime
          nAttempts := info.nAttempts + 1 })
    else none

def connected_ (man : CAddrMan) (addr : CService) (nTime : Int) : CAddrMan :=
  match man.find addr.ip with
  | none => man
  | some (nId, info) =>
    if info.toCService ≠ addr then man
    else if 20 * 60 < nTime - info.nTime then man.put nId { info with nTime := toUInt32 nTime }
    else man

/-- What one round of the loops of `Select_` draws: a bucket, a position, and whether the entry there
is taken. -/
structure SelectDraw where
  nBucket : Nat
  nPos : Nat
  taken : Bool

/-- A loop of `Select_` over a table, for as many rounds as are drawn; without a result when none of
them has ended it. -/
def selectFrom (man : CAddrMan) (table : Slot → Int) (nBuckets : Nat) :
    List SelectDraw → Option (Option CAddress)
  | [] => some none
  | draw :: draws =>
    let slot := (getRandInt draw.nBucket nBuckets, getRandInt draw.nPos ADDRMAN_BUCKET_SIZE)
    if table slot = -1 then man.selectFrom table nBuckets draws
    else
      match man.mapInfo.lookup (table slot) with
      | none => none
      | some info =>
        if draw.taken then some (some info.toCAddress)
        else man.selectFrom table nBuckets draws

def select_ (man : CAddrMan) (nRand : Nat) (draws : List SelectDraw) :
    Option (Option CAddress) :=
  if man.vRandom.length = 0 then some (some {})
  else if 0 < man.nTried ∧ (man.nNew = 0 ∨ getRandInt nRand 2 = 0) then
    man.selectFrom man.vvTried ADDRMAN_TRIED_BUCKET_COUNT draws
  else man.selectFrom man.vvNew ADDRMAN_NEW_BUCKET_COUNT draws

/-- The loop of `CAddrMan::GetAddr_`, from a position on. -/
def getAddrLoop (nRands : Nat → Nat) (nNow : Nat → Int) (nNodes : Nat) :
    Nat → Nat → CAddrMan → List CAddress → Option (CAddrMan × List CAddress)
  | 0, _, man, vAddr => some (man, vAddr)
  | remaining + 1, n, man, vAddr =>
    if nNodes ≤ vAddr.length then some (man, vAddr)
    else do
      let nRndPos := getRandInt (nRands n) (man.vRandom.length - n) + n
      let man ← man.swapRandom n nRndPos
      let nId ← man.vRandom[n]?
      let ai ← man.mapInfo.lookup nId
      let vAddr := if ai.isTerrible (nNow n) then vAddr else vAddr ++ [ai.toCAddress]
      getAddrLoop nRands nNow nNodes remaining (n + 1) man vAddr

def getAddr_ (man : CAddrMan) (nRands : Nat → Nat) (nNow : Nat → Int) :
    Option (CAddrMan × List CAddress) :=
  let nNodes := min (ADDRMAN_GETADDR_MAX_PCT * man.vRandom.length / 100) ADDRMAN_GETADDR_MAX
  getAddrLoop nRands nNow nNodes man.vRandom.length 0 man []

end CAddrMan

end Agouti
