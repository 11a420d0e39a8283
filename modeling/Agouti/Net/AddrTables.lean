import Agouti.Library.DenseIndex
import Agouti.Library.SlotTable
import Agouti.Net.AddrMan
import Mathlib.Data.Finset.Prod

/-! # The tables of the address manager

What `Check_` asks of the tables, in parts: the indices of the entries by address and by random
position (`Indexed`), the slots of the tried and of the new entries (`TriedTabled`, `NewTabled`), and
the two counters (`Counted`). Inside an operation some entries may be without slots, and the counter
of new entries may lag behind; each part says what of an entry it depends on.
-/

namespace Agouti

namespace CAddrMan

open SlotTable DenseIndex

def triedSlots : Finset Slot :=
  Finset.range ADDRMAN_TRIED_BUCKET_COUNT ×ˢ Finset.range ADDRMAN_BUCKET_SIZE

def newSlots : Finset Slot :=
  Finset.range ADDRMAN_NEW_BUCKET_COUNT ×ˢ Finset.range ADDRMAN_BUCKET_SIZE

theorem mem_triedSlots {slot : Slot} : slot ∈ triedSlots ↔
    slot.1 < ADDRMAN_TRIED_BUCKET_COUNT ∧ slot.2 < ADDRMAN_BUCKET_SIZE := by
  rw [triedSlots, Finset.mem_product, Finset.mem_range, Finset.mem_range]

theorem mem_newSlots {slot : Slot} : slot ∈ newSlots ↔
    slot.1 < ADDRMAN_NEW_BUCKET_COUNT ∧ slot.2 < ADDRMAN_BUCKET_SIZE := by
  rw [newSlots, Finset.mem_product, Finset.mem_range, Finset.mem_range]

attribute [irreducible] triedSlots newSlots

def position (man : CAddrMan) (nId : Int) : Option Int :=
  (man.mapInfo.lookup nId).map CAddrInfo.nRandomPos

def holders (man : CAddrMan) (nId : Int) : Finset Slot := held newSlots man.vvNew nId

/-- The addresses and the random positions are inverse to the entries, and every entry has been
numbered. -/
structure Indexed (man : CAddrMan) : Prop where
  addresses : ∀ addr nId, man.mapAddr addr = some nId ↔
    ∃ info, man.mapInfo.lookup nId = some info ∧ info.ip = addr
  random : Indexes man.vRandom man.position
  size : man.vRandom.length = man.mapInfo.size
  numbered : ∀ nId info, man.mapInfo.lookup nId = some info → 0 ≤ nId ∧ nId < man.nIdCount
  started : 0 ≤ man.nIdCount

def countTried (info : CAddrInfo) : Nat := if info.fInTried then 1 else 0

def countNew (info : CAddrInfo) : Nat := if info.fInTried then 0 else 1

/-- The counters, where that of the new entries may lag behind. -/
structure Counted (lag : Int) (man : CAddrMan) : Prop where
  tried : man.nTried = man.mapInfo.total countTried
  new : man.nNew + lag = man.mapInfo.total countNew

section

variable [Crypto]

/-- The tried table holds the tried entries, each in its slot. -/
structure TriedTabled (man : CAddrMan) : Prop where
  entries : ∀ nId info, man.mapInfo.lookup nId = some info → info.fInTried = true →
    info.nRefCount = 0 ∧ man.vvTried (triedSlot man.nKey info) = nId
  own : ∀ slot ∈ triedSlots, man.vvTried slot ≠ -1 →
    ∃ info, man.mapInfo.lookup (man.vvTried slot) = some info ∧ info.fInTried = true ∧
      triedSlot man.nKey info = slot

/-- Every new entry has as many references as there are new slots that hold it, each at its own
position, and these are at most eight and at least one, unless the entry is loose. -/
structure NewTabled (loose : Int → Prop) (man : CAddrMan) : Prop where
  entries : ∀ nId info, man.mapInfo.lookup nId = some info → info.fInTried = false →
    info.nRefCount = (man.holders nId).card ∧ info.nRefCount ≤ ADDRMAN_NEW_BUCKETS_PER_ADDRESS ∧
      (info.nRefCount = 0 ↔ loose nId)
  own : ∀ slot ∈ newSlots, man.vvNew slot ≠ -1 →
    ∃ info, man.mapInfo.lookup (man.vvNew slot) = some info ∧ info.fInTried = false ∧
      newSlot man.nKey info slot.1 = slot

/-- The invariants of `Check_` between two calls. It also looks at the times of the entries and at the
key, which are as the callers give them. -/
structure Consistent (man : CAddrMan) : Prop where
  indexed : man.Indexed
  tried : man.TriedTabled
  new : man.NewTabled fun _ => False
  counted : man.Counted 0

end

/-! ## What the invariants depend on -/

def place (info : CAddrInfo) : CNetAddr × Int := (info.ip, info.nRandomPos)

/-- The address with its port, the references and the table. -/
def core (info : CAddrInfo) : CService × Int × Bool :=
  (info.toCService, info.nRefCount, info.fInTried)

def rest (info : CAddrInfo) : CAddrInfo := { info with nRandomPos := -1 }

/-- Two managers with entries of the same numbers that agree in a part. -/
def Same {Part : Type} (part : CAddrInfo → Part) (first second : CAddrMan) : Prop :=
  ∀ nId, (second.mapInfo.lookup nId).map part = (first.mapInfo.lookup nId).map part

section

variable {first second third : CAddrMan} {Part Less : Type} {part : CAddrInfo → Part}

theorem Same.refl (part : CAddrInfo → Part) (man : CAddrMan) : Same part man man := fun _ => rfl

theorem Same.symm (same : Same part first second) : Same part second first :=
  fun nId => (same nId).symm

theorem Same.of_part (same : Same part first second) {less : CAddrInfo → Less}
    (read : Part → Less) (reads : ∀ info, read (part info) = less info) :
    Same less first second := by
  intro nId
  have whole : read ∘ part = less := funext reads
  rw [← whole, ← Option.map_map, ← Option.map_map, same nId]

theorem Same.cores (same : Same rest first second) : Same core first second :=
  same.of_part core fun _ => rfl

variable {info other : CAddrInfo}

theorem Same.find (same : Same part first second) {nId : Int}
    (found : second.mapInfo.lookup nId = some info) :
    ∃ old, first.mapInfo.lookup nId = some old ∧ part old = part info := by
  have here := same nId
  rw [found, Option.map_some] at here
  exact Option.map_eq_some_iff.mp here.symm

theorem Same.total {weight : CAddrInfo → Nat} (same : Same weight first second) :
    second.mapInfo.total weight = first.mapInfo.total weight :=
  SortedMap.total_congr weight same

theorem Same.size (same : Same part first second) :
    second.mapInfo.size = first.mapInfo.size := by
  rw [SortedMap.size_eq_total, SortedMap.size_eq_total]
  have alike : Same (fun _ => 1) first second := same.of_part (fun _ => 1) fun _ => rfl
  exact alike.total

theorem Same.counted (same : Same CAddrInfo.fInTried first second) {lag : Int}
    (counted : Counted lag first) (tried : second.nTried = first.nTried)
    (new : second.nNew = first.nNew) : Counted lag second := by
  have triedTotal : second.mapInfo.total countTried = first.mapInfo.total countTried :=
    (same.of_part (fun inTried => if inTried then 1 else 0)
    fun _ => rfl).total
  have newTotal : second.mapInfo.total countNew = first.mapInfo.total countNew :=
    (same.of_part (fun inTried => if inTried then 0 else 1)
    fun _ => rfl).total
  exact ⟨by rw [tried, triedTotal, counted.tried], by rw [new, newTotal, counted.new]⟩

theorem Same.indexed (same : Same place first second) (indexed : first.Indexed)
    (addresses : second.mapAddr = first.mapAddr) (order : second.vRandom = first.vRandom)
    (count : second.nIdCount = first.nIdCount) : second.Indexed := by
  have positions : second.position = first.position := by
    funext nId
    exact same.of_part Prod.snd (fun _ => rfl) nId
  have back : Same place second first := same.symm
  refine ⟨?_, ?_, ?_, ?_, by rw [count]; exact indexed.started⟩
  · intro addr nId
    rw [addresses, indexed.addresses]
    constructor
    · rintro ⟨info, found, rfl⟩
      obtain ⟨other, there, parts⟩ := back.find found
      exact ⟨other, there, congrArg Prod.fst parts⟩
    · rintro ⟨info, found, rfl⟩
      obtain ⟨other, there, parts⟩ := same.find found
      exact ⟨other, there, congrArg Prod.fst parts⟩
  · rw [order, positions]
    exact indexed.random
  · rw [order, same.size]
    exact indexed.size
  · intro nId info found
    obtain ⟨other, there, _⟩ := same.find found
    rw [count]
    exact indexed.numbered nId other there

variable [Crypto]

theorem triedSlot_congr (nKey : Uint256) (same : info.toCService = other.toCService) :
    triedSlot nKey info = triedSlot nKey other := by
  unfold triedSlot CAddrInfo.getTriedBucket CAddrInfo.getBucketPosition
  rw [same]

theorem newSlot_congr (nKey : Uint256) (same : info.toCService = other.toCService)
    (nUBucket : Nat) :
    newSlot nKey info nUBucket = newSlot nKey other nUBucket := by
  unfold newSlot CAddrInfo.getBucketPosition
  rw [same]

theorem triedSlot_mem (nKey : Uint256) (info : CAddrInfo) : triedSlot nKey info ∈ triedSlots := by
  have bucket : info.getTriedBucket nKey < ADDRMAN_TRIED_BUCKET_COUNT :=
    Nat.mod_lt _ (by decide)
  have inside : ∀ nBucket, info.getBucketPosition nKey false nBucket < ADDRMAN_BUCKET_SIZE :=
    fun nBucket => Nat.mod_lt _ (by decide)
  exact mem_triedSlots.mpr ⟨bucket, inside _⟩

theorem newSlot_mem (nKey : Uint256) (info : CAddrInfo) {nUBucket : Nat}
    (bucket : nUBucket < ADDRMAN_NEW_BUCKET_COUNT) : newSlot nKey info nUBucket ∈ newSlots := by
  have inside : info.getBucketPosition nKey true nUBucket < ADDRMAN_BUCKET_SIZE :=
    Nat.mod_lt _ (by decide)
  exact mem_newSlots.mpr ⟨bucket, inside⟩

theorem getNewBucket_lt (nKey : Uint256) (info : CAddrInfo) (src : CNetAddr) :
    info.getNewBucket nKey src < ADDRMAN_NEW_BUCKET_COUNT := Nat.mod_lt _ (by decide)

omit [Crypto] in
theorem core_parts (same : core info = core other) :
    info.toCService = other.toCService ∧ info.nRefCount = other.nRefCount ∧
      info.fInTried = other.fInTried := by
  simpa [core] using same

omit [Crypto] in
theorem rest_parts (same : rest info = rest other) :
    info.toCService = other.toCService ∧ info.nRefCount = other.nRefCount ∧
      info.fInTried = other.fInTried := by
  have cores : core (rest info) = core (rest other) := congrArg core same
  exact core_parts cores

theorem Same.tried (same : Same core first second) (tabled : first.TriedTabled)
    (key : second.nKey = first.nKey) (table : second.vvTried = first.vvTried) :
    second.TriedTabled := by
  constructor
  · intro nId info found inTried
    obtain ⟨other, there, parts⟩ := same.find found
    obtain ⟨service, refs, kind⟩ := core_parts parts
    have held := tabled.entries nId other there (kind.trans inTried)
    rw [key, table, ← triedSlot_congr first.nKey service, ← refs]
    exact held
  · intro slot inside occupied
    rw [table] at occupied ⊢
    obtain ⟨info, found, inTried, own⟩ := tabled.own slot inside occupied
    obtain ⟨other, there, parts⟩ := same.symm.find found
    obtain ⟨service, _, kind⟩ := core_parts parts
    exact ⟨other, there, kind.trans inTried, by rw [key, triedSlot_congr _ service, own]⟩

theorem Same.new (same : Same core first second) {loose : Int → Prop}
    (tabled : first.NewTabled loose) (key : second.nKey = first.nKey)
    (table : second.vvNew = first.vvNew) : second.NewTabled loose := by
  constructor
  · intro nId info found isNew
    obtain ⟨other, there, parts⟩ := same.find found
    obtain ⟨_, refs, kind⟩ := core_parts parts
    have counted := tabled.entries nId other there (kind.trans isNew)
    rw [refs] at counted
    unfold holders at counted ⊢
    rw [table]
    exact counted
  · intro slot inside occupied
    rw [table] at occupied ⊢
    obtain ⟨info, found, isNew, own⟩ := tabled.own slot inside occupied
    obtain ⟨other, there, parts⟩ := same.symm.find found
    obtain ⟨service, _, kind⟩ := core_parts parts
    exact ⟨other, there, kind.trans isNew, by rw [key, newSlot_congr _ service, own]⟩

end

end CAddrMan

end Agouti
