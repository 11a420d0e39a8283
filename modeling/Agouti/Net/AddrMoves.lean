import Agouti.Net.AddrSlots

/-! # The moves of the address manager

`ClearNew`, `MakeTried` and the end of `Add_`. Between the writes of a move some entries are without
slots, and the counter of new entries lags behind (`Between`); each move says how these change, and
that no assertion of it fails.
-/

namespace Agouti

open List Function

namespace CAddrMan

open SlotTable

def leaveNew (man : CAddrMan) (nId : Int) (info : CAddrInfo) (slot : Slot) : CAddrMan :=
  { man.put nId { info with nRefCount := info.nRefCount - 1 } with
    vvNew := Function.update man.vvNew slot (-1) }

/-- A new slot has become free, and the entries that were not in it have stayed. -/
structure Freed (man : CAddrMan) (slot : Slot) (after : CAddrMan) : Prop where
  key : after.nKey = man.nKey
  table : after.vvNew = Function.update man.vvNew slot (-1)
  tried : after.vvTried = man.vvTried
  others : ∀ nId, man.vvNew slot ≠ nId →
    (after.mapInfo.lookup nId).map rest = (man.mapInfo.lookup nId).map rest

section

variable {man after : CAddrMan} {nId : Int} {info : CAddrInfo} {slot : Slot}

theorem lookup_leaveNew (man : CAddrMan) (nId : Int) (info : CAddrInfo) (slot : Slot)
    (other : Int) : (man.leaveNew nId info slot).mapInfo.lookup other =
      if other = nId then some { info with nRefCount := info.nRefCount - 1 }
      else man.mapInfo.lookup other :=
  lookup_put man nId _ other

theorem clearNew_occupied (occupied : man.vvNew slot ≠ -1)
    (found : man.mapInfo.lookup (man.vvNew slot) = some info) (positive : 0 < info.nRefCount) :
    man.clearNew slot =
      if info.nRefCount - 1 = 0 then
        (man.leaveNew (man.vvNew slot) info slot).delete (man.vvNew slot)
      else some (man.leaveNew (man.vvNew slot) info slot) := by
  have held : man.entry (man.vvNew slot) = info := entry_eq found
  rw [CAddrMan.clearNew, if_neg occupied]
  dsimp only
  rw [held]
  simp only [guard, positive, if_true, Option.bind_eq_bind, Option.bind_some, Option.pure_def]
  rfl

theorem Freed.free (freed : Freed man slot after) : after.vvNew slot = -1 := by
  rw [freed.table, update_self]

theorem Freed.find (freed : Freed man slot after) (elsewhere : man.vvNew slot ≠ nId)
    (found : man.mapInfo.lookup nId = some info) :
    ∃ kept, after.mapInfo.lookup nId = some kept ∧ rest kept = rest info := by
  have same := freed.others nId elsewhere
  rw [found, Option.map_some] at same
  exact Option.map_eq_some_iff.mp same

theorem freed_leaveNew (man : CAddrMan) (info : CAddrInfo) (slot : Slot) :
    Freed man slot (man.leaveNew (man.vvNew slot) info slot) where
  key := rfl
  table := rfl
  tried := rfl
  others nId elsewhere := by rw [lookup_leaveNew, if_neg (Ne.symm elsewhere)]

end

variable [Crypto]

/-- The invariants inside an operation: the loose new entries have no reference, and the counter of
the new entries lags behind. -/
structure Between (loose : Int → Prop) (lag : Int) (man : CAddrMan) : Prop where
  indexed : man.Indexed
  tried : man.TriedTabled
  new : man.NewTabled loose
  counted : man.Counted lag

theorem Between.consistent {man : CAddrMan} (between : Between (fun _ => False) 0 man) :
    man.Consistent := ⟨between.indexed, between.tried, between.new, between.counted⟩

theorem Consistent.between {man : CAddrMan} (consistent : man.Consistent) :
    Between (fun _ => False) 0 man :=
  ⟨consistent.indexed, consistent.tried, consistent.new, consistent.counted⟩

variable {man after : CAddrMan} {loose : Int → Prop} {lag : Int} {nId : Int} {info : CAddrInfo}
  {slot : Slot}

section

variable (between : Between loose lag man)

include between

theorem Between.congr {other : Int → Prop}
    (same : ∀ nId info, man.mapInfo.lookup nId = some info → info.fInTried = false →
      (loose nId ↔ other nId)) : Between other lag man :=
  ⟨between.indexed, between.tried, between.new.congr same, between.counted⟩

/-- Entries that keep their addresses, references and tables keep the invariants. -/
theorem Between.of_put {old : CAddrInfo}
    (found : man.mapInfo.lookup nId = some old) (cores : core info = core old)
    (places : place info = place old) : Between loose lag (man.put nId info) where
  indexed := (Same.of_put found places rfl).indexed between.indexed rfl rfl rfl
  tried := (Same.of_put found cores rfl).tried between.tried rfl rfl
  new := (Same.of_put found cores rfl).new between.new rfl rfl
  counted := (Same.of_put found (core_parts cores).2.2 rfl).counted between.counted rfl rfl

theorem Between.recount {later nNew : Int}
    (sum : nNew + later = man.nNew + lag) :
    Between loose later { man with nNew := nNew } where
  indexed := ⟨between.indexed.addresses, between.indexed.random, between.indexed.size,
    between.indexed.numbered, between.indexed.started⟩
  tried := ⟨between.tried.entries, between.tried.own⟩
  new := ⟨between.new.entries, between.new.own⟩
  counted := ⟨between.counted.tried, sum.trans between.counted.new⟩

/-! ## Emptying a slot of the new table -/

theorem Between.ofRefs
    (found : man.mapInfo.lookup nId = some info) (isNew : info.fInTried = false) (refs : Int)
    {vvNew : Slot → Int} {left : Int → Prop}
    (new : { man.put nId { info with nRefCount := refs } with vvNew := vvNew
      : CAddrMan }.NewTabled left) :
    Between left lag { man.put nId { info with nRefCount := refs } with vvNew := vvNew } := by
  let changed : CAddrInfo := { info with nRefCount := refs }
  have places : Same place man
      { man.put nId { info with nRefCount := refs } with vvNew := vvNew } :=
    Same.of_put found (show place changed = place info from rfl) rfl
  have tables : Same CAddrInfo.fInTried man
      { man.put nId { info with nRefCount := refs } with vvNew := vvNew } :=
    Same.of_put found (show changed.fInTried = info.fInTried from rfl) rfl
  exact ⟨places.indexed between.indexed rfl rfl rfl,
    between.tried.of_new found isNew (show changed.fInTried = false from isNew) rfl rfl rfl, new,
    tables.counted between.counted rfl rfl⟩

theorem Between.leaveNew
    (found : man.mapInfo.lookup nId = some info) (isNew : info.fInTried = false)
    (inside : slot ∈ newSlots) (here : man.vvNew slot = nId) :
    Between (fun other => loose other ∨ other = nId ∧ info.nRefCount = 1) lag
      (man.leaveNew nId info slot) :=
  between.ofRefs found isNew _
    (between.new.release between.indexed found isNew inside here rfl rfl rfl)

theorem Between.delete
    (found : man.mapInfo.lookup nId = some info) (isNew : info.fInTried = false)
    (refs : info.nRefCount = 0) :
    ∃ after, man.delete nId = some after ∧
      Between (fun other => loose other ∧ other ≠ nId) lag after ∧
      after.nKey = man.nKey ∧ after.vvNew = man.vvNew ∧ after.vvTried = man.vvTried ∧
      ∀ other, (after.mapInfo.lookup other).map rest =
        if other = nId then none else (man.mapInfo.lookup other).map rest := by
  obtain ⟨mapInfo, mapAddr, vRandom, deleted, indexed, gone⟩ :=
    between.indexed.delete found isNew refs
  refine ⟨_, deleted, ⟨indexed, ?_, ?_, ?_⟩, rfl, rfl, rfl, gone⟩
  · exact between.tried.forget found isNew gone rfl rfl
  · exact between.new.forget found isNew refs gone rfl rfl
  · exact between.counted.forget found isNew gone rfl rfl

end

theorem NewTabled.referenced (tabled : man.NewTabled loose)
    (found : man.mapInfo.lookup nId = some info) (isNew : info.fInTried = false)
    (inside : slot ∈ newSlots) (here : man.vvNew slot = nId) : 0 < info.nRefCount := by
  have positive : 0 < (man.holders nId).card :=
    Finset.card_pos.mpr ⟨slot, mem_held.mpr ⟨inside, here⟩⟩
  have refs := (tabled.entries nId info found isNew).1
  omega

theorem Between.clearNew (between : Between loose lag man) (inside : slot ∈ newSlots) :
    ∃ after, man.clearNew slot = some after ∧ Between loose lag after ∧ Freed man slot after := by
  by_cases free : man.vvNew slot = -1
  · refine ⟨man, ?_, between, rfl, ?_, rfl, fun _ _ => rfl⟩
    · rw [CAddrMan.clearNew, if_pos free]
      rfl
    · rw [← free, update_eq_self]
  · obtain ⟨info, found, isNew, -⟩ := between.new.own slot inside free
    have positive := between.new.referenced found isNew inside rfl
    have released := between.leaveNew found isNew inside rfl
    have freed := freed_leaveNew man info slot
    rw [clearNew_occupied free found positive]
    by_cases last : info.nRefCount - 1 = 0
    · -- the slot held the last reference, so the entry goes
      have there : (man.leaveNew (man.vvNew slot) info slot).mapInfo.lookup (man.vvNew slot) =
          some { info with nRefCount := info.nRefCount - 1 } := by
        rw [lookup_leaveNew, if_pos rfl]
      obtain ⟨after, deleted, forgotten, key, table, tried, gone⟩ :=
        released.delete there isNew last
      rw [if_pos last]
      refine ⟨after, deleted, forgotten.congr fun other held stays _ => ?_,
        key, table, tried, fun nId elsewhere => ?_⟩
      · have different : other ≠ man.vvNew slot := by
          rintro rfl
          have lost := gone (man.vvNew slot)
          rw [stays, if_pos rfl] at lost
          contradiction
        constructor
        · rintro ⟨isLoose | ⟨same, -⟩, -⟩
          · exact isLoose
          · exact absurd same different
        · exact fun isLoose => ⟨.inl isLoose, different⟩
      · rw [gone, if_neg (Ne.symm elsewhere)]
        exact freed.others nId elsewhere
    · rw [if_neg last]
      refine ⟨_, rfl, released.congr fun other held _ _ => ?_, freed⟩
      constructor
      · rintro (isLoose | ⟨-, one⟩)
        · exact isLoose
        · omega
      · exact .inl

/-! ## The end of `Add_` -/

omit [Crypto] in
def joinNew (man : CAddrMan) (nId : Int) (info : CAddrInfo) (slot : Slot) : CAddrMan :=
  { man.put nId { info with nRefCount := info.nRefCount + 1 } with
    vvNew := Function.update man.vvNew slot nId }

theorem Between.joinNew (between : Between loose lag man)
    (found : man.mapInfo.lookup nId = some info) (isNew : info.fInTried = false)
    (room : info.nRefCount < ADDRMAN_NEW_BUCKETS_PER_ADDRESS) (inside : slot ∈ newSlots)
    (own : newSlot man.nKey info slot.1 = slot) (free : man.vvNew slot = -1) :
    Between (fun other => loose other ∧ other ≠ nId) lag (man.joinNew nId info slot) :=
  between.ofRefs found isNew _
    (between.new.acquire between.indexed found isNew room inside own free rfl rfl rfl)

def sourceSlot (man : CAddrMan) (info : CAddrInfo) (source : CNetAddr) : Slot :=
  newSlot man.nKey info (info.getNewBucket man.nKey source)

theorem sourceSlot_mem (man : CAddrMan) (info : CAddrInfo) (source : CNetAddr) :
    man.sourceSlot info source ∈ newSlots := newSlot_mem _ _ (getNewBucket_lt _ _ _)

/-- The slot is free, or its entry gives way. -/
def givesWay (man : CAddrMan) (info : CAddrInfo) (slot : Slot) (nNow : Int) : Prop :=
  man.vvNew slot = -1 ∨ (man.entry (man.vvNew slot)).isTerrible nNow = true ∨
    1 < (man.entry (man.vvNew slot)).nRefCount ∧ info.nRefCount = 0

instance (man : CAddrMan) (info : CAddrInfo) (slot : Slot) (nNow : Int) :
    Decidable (man.givesWay info slot nNow) := inferInstanceAs (Decidable (_ ∨ _ ∨ _))

theorem addReference_eq (found : man.mapInfo.lookup nId = some info) (source : CNetAddr)
    (nNow : Int) (here : man.vvNew (man.sourceSlot info source) ≠ nId)
    (held : man.vvNew (man.sourceSlot info source) ≠ -1 →
      ∃ other, man.mapInfo.lookup (man.vvNew (man.sourceSlot info source)) = some other) :
    man.addReference nId source nNow =
      if man.givesWay info (man.sourceSlot info source) nNow then
        (man.clearNew (man.sourceSlot info source)).map fun cleared =>
          cleared.joinNew nId (cleared.entry nId) (man.sourceSlot info source)
      else if info.nRefCount = 0 then man.delete nId
      else some man := by
  have entered : man.entry nId = info := entry_eq found
  have stays : (if man.vvNew (man.sourceSlot info source) = -1 then man
      else man.put (man.vvNew (man.sourceSlot info source))
        (man.entry (man.vvNew (man.sourceSlot info source)))) = man := by
    by_cases free : man.vvNew (man.sourceSlot info source) = -1
    · rw [if_pos free]
    · obtain ⟨other, there⟩ := held free
      rw [if_neg free, entry_eq there, put_self there]
  unfold addReference
  dsimp only
  unfold sourceSlot at here stays ⊢
  rw [entered, if_neg here, stays]
  by_cases gives : man.givesWay info
      (newSlot man.nKey info (info.getNewBucket man.nKey source)) nNow
  · rw [if_pos gives]
    refine (if_pos gives).trans ?_
    cases man.clearNew (newSlot man.nKey info (info.getNewBucket man.nKey source)) <;> rfl
  · rw [if_neg gives]
    exact if_neg gives

theorem Between.addReference
    (between : Between (fun other => other = nId ∧ info.nRefCount = 0) lag man)
    (found : man.mapInfo.lookup nId = some info) (isNew : info.fInTried = false)
    (room : info.nRefCount < ADDRMAN_NEW_BUCKETS_PER_ADDRESS) (source : CNetAddr) (nNow : Int) :
    ∃ after, man.addReference nId source nNow = some after ∧
      Between (fun _ => False) lag after := by
  have inside := sourceSlot_mem man info source
  have settled (referenced : info.nRefCount ≠ 0) : Between (fun _ => False) lag man :=
    between.congr fun other held there _ => by
      constructor
      · rintro ⟨-, none⟩
        exact referenced none
      · exact False.elim
  by_cases here : man.vvNew (man.sourceSlot info source) = nId
  · have positive := between.new.referenced found isNew inside here
    refine ⟨man, ?_, settled (by omega)⟩
    unfold CAddrMan.addReference
    dsimp only
    unfold sourceSlot at here
    rw [entry_eq found, if_pos here]
    rfl
  · rw [addReference_eq found source nNow here fun occupied => by
      obtain ⟨other, there, -⟩ := between.new.own _ inside occupied
      exact ⟨other, there⟩]
    split
    · obtain ⟨cleared, emptied, cleaned, freed⟩ := between.clearNew inside
      obtain ⟨kept, there, same⟩ := freed.find here found
      obtain ⟨service, refs, kind⟩ := rest_parts same
      rw [emptied, Option.map_some, entry_eq there]
      refine ⟨_, rfl, ?_⟩
      have own : newSlot cleared.nKey kept (man.sourceSlot info source).1 =
          man.sourceSlot info source := by
        rw [freed.key, newSlot_congr man.nKey service]
        rfl
      refine (cleaned.joinNew there (kind.trans isNew) (by omega) inside own
        freed.free).congr fun other held _ _ => ?_
      constructor
      · rintro ⟨⟨same, -⟩, different⟩
        exact different same
      · exact False.elim
    · split
      · rename_i none
        obtain ⟨after, deleted, forgotten, -⟩ := between.delete found isNew none
        refine ⟨after, deleted, forgotten.congr fun other held _ _ => ?_⟩
        constructor
        · rintro ⟨⟨same, -⟩, different⟩
          exact different same
        · exact False.elim
      · rename_i referenced
        exact ⟨man, rfl, settled referenced⟩

/-! ## `MakeTried` -/

/-- The entry of a number, in none of these buckets, when `MakeTried` has gone through them. -/
structure OutOf (nId : Int) (info : CAddrInfo) (lag : Int) (buckets : List Nat)
    (man after : CAddrMan) : Prop where
  key : after.nKey = man.nKey
  tried : after.vvTried = man.vvTried
  entry : ∃ held, after.mapInfo.lookup nId = some held ∧ held.toCService = info.toCService ∧
    held.fInTried = false ∧ Between (fun other => other = nId ∧ held.nRefCount = 0) lag after
  out : ∀ bucket ∈ buckets, after.vvNew (newSlot man.nKey info bucket) ≠ nId

theorem OutOf.removeFrom {start : CAddrMan} {buckets : List Nat}
    (out : OutOf nId info lag buckets start man) {bucket : Nat}
    (within : bucket < ADDRMAN_NEW_BUCKET_COUNT) :
    OutOf nId info lag (buckets ++ [bucket]) start (man.removeFrom nId bucket) := by
  obtain ⟨held, found, service, isNew, between⟩ := out.entry
  have inside := newSlot_mem man.nKey held within
  have slots : newSlot man.nKey held bucket = newSlot start.nKey info bucket := by
    rw [out.key, newSlot_congr start.nKey service]
  by_cases here : man.vvNew (newSlot man.nKey held bucket) = nId
  · have removed : CAddrMan.removeFrom nId man bucket =
        man.leaveNew nId held (newSlot man.nKey held bucket) := by
      unfold CAddrMan.removeFrom
      dsimp only
      rw [entry_eq found, if_pos here]
      rfl
    have positive := between.new.referenced found isNew inside here
    rw [removed]
    refine ⟨out.key, out.tried, ⟨{ held with nRefCount := held.nRefCount - 1 }, ?_, service, isNew,
      (between.leaveNew found isNew inside here).congr fun other otherHeld _ _ => ?_⟩, ?_⟩
    · rw [lookup_leaveNew, if_pos rfl]
    · dsimp only
      constructor
      · rintro (⟨same, none⟩ | ⟨same, one⟩)
        · omega
        · exact ⟨same, by omega⟩
      · rintro ⟨same, none⟩
        exact .inr ⟨same, by omega⟩
    · intro other member
      change Function.update man.vvNew (newSlot man.nKey held bucket) (-1) _ ≠ nId
      by_cases same : newSlot start.nKey info other = newSlot man.nKey held bucket
      · rw [same, update_self]
        exact between.indexed.ne_free found
      · rw [update_of_ne same]
        rcases mem_append.mp member with before | last
        · exact out.out other before
        · rw [mem_singleton] at last
          rw [last, slots] at same
          exact absurd rfl same
  · have stays : CAddrMan.removeFrom nId man bucket = man := by
      unfold CAddrMan.removeFrom
      dsimp only
      rw [entry_eq found, if_neg here]
    rw [stays]
    refine ⟨out.key, out.tried, out.entry, fun other member => ?_⟩
    rcases mem_append.mp member with before | last
    · exact out.out other before
    · rw [mem_singleton] at last
      rw [last, ← slots]
      exact here

theorem Between.removeFromAll (between : Between (fun _ => False) lag man)
    (found : man.mapInfo.lookup nId = some info) (isNew : info.fInTried = false) :
    (man.removeFromAll nId).nKey = man.nKey ∧ (man.removeFromAll nId).vvTried = man.vvTried ∧
      ∃ held, (man.removeFromAll nId).mapInfo.lookup nId = some held ∧
        held.toCService = info.toCService ∧ held.fInTried = false ∧ held.nRefCount = 0 ∧
        Between (fun other => other = nId) lag (man.removeFromAll nId) := by
  have start : OutOf nId info lag [] man man := by
    refine ⟨rfl, rfl, ⟨info, found, rfl, isNew, between.congr fun other held there otherNew => ?_⟩,
      fun _ member => nomatch member⟩
    have tight := (between.new.entries other held there otherNew).2.2
    constructor
    · exact False.elim
    · rintro ⟨rfl, none⟩
      rw [found, Option.some.injEq] at there
      exact tight.mp (there ▸ none)
  have done : ∀ buckets : List Nat, (∀ bucket ∈ buckets, bucket < ADDRMAN_NEW_BUCKET_COUNT) →
      OutOf nId info lag buckets man (buckets.foldl (CAddrMan.removeFrom nId) man) := by
    intro buckets
    induction buckets using List.reverseRecOn with
    | nil => exact fun _ => start
    | append_singleton buckets bucket ih =>
      intro within
      rw [foldl_append]
      exact (ih fun other member => within other (mem_append_left _ member)).removeFrom
        (within bucket (mem_append_right _ (mem_singleton_self _)))
  have all : OutOf nId info lag (List.range ADDRMAN_NEW_BUCKET_COUNT) man (man.removeFromAll nId) :=
    done _ fun bucket => List.mem_range.mp
  generalize man.removeFromAll nId = after at all ⊢
  obtain ⟨held, there, service, heldNew, inBetween⟩ := all.entry
  have unheld : after.holders nId = ∅ := by
    apply held_eq_empty_iff.mpr
    intro slot inside here
    obtain ⟨other, otherThere, -, own⟩ := inBetween.new.own slot inside
      (here.trans_ne (inBetween.indexed.ne_free there).symm)
    rw [here, there, Option.some.injEq] at otherThere
    refine all.out slot.1 (List.mem_range.mpr (mem_newSlots.mp inside).1) ?_
    rw [← newSlot_congr man.nKey service, ← all.key, otherThere, own]
    exact here
  have none : held.nRefCount = 0 := by
    have counted := (inBetween.new.entries nId held there heldNew).1
    rw [unheld] at counted
    exact counted
  exact ⟨all.key, all.tried, held, there, service, heldNew, none,
    inBetween.congr fun other _ _ _ => and_iff_left none⟩

theorem Between.leaveTried (between : Between loose lag man)
    (found : man.mapInfo.lookup nId = some info) (inTried : info.fInTried = true) :
    Between (fun other => loose other ∨ other = nId) (lag + 1)
      (man.leaveTried nId info (triedSlot man.nKey info)) := by
  let demoted : CAddrInfo := { info with fInTried := false }
  have refs := (between.tried.entries nId info found inTried).1
  have places : Same place man (man.leaveTried nId info (triedSlot man.nKey info)) :=
    Same.of_put found (show place demoted = place info from rfl) rfl
  exact ⟨places.indexed between.indexed rfl rfl rfl, between.tried.demote found inTried rfl rfl rfl,
    between.new.demote between.indexed found inTried refs rfl rfl rfl,
    between.counted.demote found inTried (show demoted.fInTried = false from rfl) rfl rfl rfl⟩

theorem Between.enterNew (between : Between loose (lag + 1) man)
    (found : man.mapInfo.lookup nId = some info) (isNew : info.fInTried = false)
    (refs : info.nRefCount = 0) (inside : slot ∈ newSlots)
    (own : newSlot man.nKey info slot.1 = slot) (free : man.vvNew slot = -1) :
    Between (fun other => loose other ∧ other ≠ nId) lag (man.enterNew nId slot) := by
  have joined := between.joinNew found isNew
    (refs.trans_lt (by decide : (0 : Int) < ADDRMAN_NEW_BUCKETS_PER_ADDRESS)) inside own free
  have same : man.enterNew nId slot =
      { man.joinNew nId info slot with nNew := (man.joinNew nId info slot).nNew + 1 } := by
    unfold CAddrMan.enterNew CAddrMan.joinNew
    rw [entry_eq found, refs]
    rfl
  rw [same]
  exact joined.recount (by omega)

theorem Between.enterTried (between : Between loose (lag + 1) man)
    (found : man.mapInfo.lookup nId = some info) (isNew : info.fInTried = false)
    (refs : info.nRefCount = 0) (free : man.vvTried (triedSlot man.nKey info) = -1) :
    Between (fun other => loose other ∧ other ≠ nId) lag
      (man.enterTried nId (triedSlot man.nKey info)) := by
  let promoted : CAddrInfo := { info with fInTried := true }
  have map : (man.enterTried nId (triedSlot man.nKey info)).mapInfo =
      (man.put nId promoted).mapInfo := by
    unfold CAddrMan.enterTried
    rw [entry_eq found]
  have places : Same place man (man.enterTried nId (triedSlot man.nKey info)) :=
    Same.of_put found (show place promoted = place info from rfl) map
  exact ⟨places.indexed between.indexed rfl rfl rfl,
    between.tried.promote between.indexed found isNew refs free map rfl rfl,
    between.new.promote found isNew refs map rfl rfl,
    between.counted.promote found isNew (show promoted.fInTried = true from rfl) map rfl rfl⟩

/-- The tried entry in a slot gives way and is a new one again. An entry without references that
stands by is not touched. -/
theorem Between.evict (between : Between (fun other => other = nId) (lag + 1) man)
    (found : man.mapInfo.lookup nId = some info) (isNew : info.fInTried = false)
    (refs : info.nRefCount = 0) {kSlot : Slot} (inside : kSlot ∈ triedSlots)
    (occupied : man.vvTried kSlot ≠ -1) :
    ∃ after, man.evict kSlot = some after ∧ Between (fun other => other = nId) (lag + 1) after ∧
      after.nKey = man.nKey ∧ after.vvTried kSlot = -1 ∧
      ∃ held, after.mapInfo.lookup nId = some held ∧ rest held = rest info := by
  obtain ⟨infoOld, there, inTried, own⟩ := between.tried.own kSlot inside occupied
  have different : man.vvTried kSlot ≠ nId := by
    intro same
    rw [same, found, Option.some.injEq] at there
    rw [← there, isNew] at inTried
    contradiction
  have refsOld := (between.tried.entries _ infoOld there inTried).1
  have left := between.leaveTried there inTried
  rw [own] at left
  have uInside := sourceSlot_mem man infoOld infoOld.source
  obtain ⟨cleared, emptied, cleaned, freed⟩ := left.clearNew uInside
  -- neither entry was in the slot that is emptied
  have oldElsewhere : man.vvNew (man.sourceSlot infoOld infoOld.source) ≠ man.vvTried kSlot :=
    held_eq_empty_iff.mp (between.new.holders_tried there inTried
      (between.indexed.ne_free there)) _ uInside
  have newElsewhere : man.vvNew (man.sourceSlot infoOld infoOld.source) ≠ nId := fun here => by
    have positive := between.new.referenced found isNew uInside here
    omega
  have demoted : (man.leaveTried (man.vvTried kSlot) infoOld kSlot).mapInfo.lookup
      (man.vvTried kSlot) = some { infoOld with fInTried := false } := by
    rw [CAddrMan.leaveTried, lookup_put, if_pos rfl]
  have standing : (man.leaveTried (man.vvTried kSlot) infoOld kSlot).mapInfo.lookup nId =
      some info := by
    rw [CAddrMan.leaveTried, lookup_put, if_neg (Ne.symm different), found]
  obtain ⟨old, oldThere, oldSame⟩ := freed.find oldElsewhere demoted
  obtain ⟨kept, keptThere, keptSame⟩ := freed.find newElsewhere standing
  obtain ⟨service, oldRefs, oldKind⟩ := rest_parts oldSame
  have key : cleared.nKey = man.nKey := freed.key
  have slotOwn : newSlot cleared.nKey old (man.sourceSlot infoOld infoOld.source).1 =
      man.sourceSlot infoOld infoOld.source := by
    rw [key, newSlot_congr man.nKey service]
    rfl
  have entered := cleaned.enterNew oldThere oldKind (oldRefs.trans refsOld) uInside slotOwn
    freed.free
  refine ⟨cleared.enterNew (man.vvTried kSlot) (man.sourceSlot infoOld infoOld.source), ?_,
    entered.congr fun other held _ _ => ?_, key, ?_, kept, ?_, keptSame⟩
  · have free := freed.free
    unfold sourceSlot at emptied free ⊢
    unfold CAddrMan.evict
    dsimp only
    rw [there]
    simp only [Option.bind_eq_bind, Option.bind_some, emptied, free, guard, if_true,
      Option.pure_def]
  · constructor
    · rintro ⟨same | same, apart⟩
      · exact same
      · exact absurd same apart
    · rintro rfl
      exact ⟨.inl rfl, Ne.symm different⟩
  · change cleared.vvTried kSlot = -1
    rw [freed.tried]
    exact update_self ..
  · unfold CAddrMan.enterNew
    rw [lookup_put, if_neg (Ne.symm different), keptThere]

theorem Between.moveToTried (between : Between (fun other => other = nId) (lag + 1) man)
    (found : man.mapInfo.lookup nId = some info) (isNew : info.fInTried = false)
    (refs : info.nRefCount = 0) :
    ∃ after, man.moveToTried nId = some after ∧ Between (fun _ => False) lag after := by
  have inside := triedSlot_mem man.nKey info
  have loosened {other : Int} : other = nId ∧ other ≠ nId ↔ False := by
    constructor
    · exact fun both => both.2 both.1
    · exact False.elim
  unfold CAddrMan.moveToTried
  dsimp only
  rw [entry_eq found]
  by_cases free : man.vvTried (triedSlot man.nKey info) = -1
  · refine ⟨man.enterTried nId (triedSlot man.nKey info), ?_,
      (between.enterTried found isNew refs free).congr fun _ _ _ _ => loosened⟩
    simp only [guard, refs, free, if_true, Option.bind_eq_bind, Option.bind_some, Option.pure_def]
  · obtain ⟨emptied, evicted, stands, key, cleared, held, there, same⟩ :=
      between.evict found isNew refs inside free
    obtain ⟨service, heldRefs, kind⟩ := rest_parts same
    have slots : triedSlot emptied.nKey held = triedSlot man.nKey info := by
      rw [key, triedSlot_congr man.nKey service]
    have entered := stands.enterTried there (kind.trans isNew) (heldRefs.trans refs)
      (by rw [slots]; exact cleared)
    rw [slots] at entered
    refine ⟨emptied.enterTried nId (triedSlot man.nKey info), ?_,
      entered.congr fun _ _ _ _ => loosened⟩
    simp only [guard, refs, free, if_true, if_false, evicted, cleared, Option.bind_eq_bind,
      Option.bind_some, Option.pure_def]

theorem Between.makeTried (between : Between (fun _ => False) lag man)
    (found : man.mapInfo.lookup nId = some info) (isNew : info.fInTried = false) :
    ∃ after, man.makeTried nId = some after ∧ Between (fun _ => False) lag after := by
  obtain ⟨-, -, held, there, -, heldNew, refs, removed⟩ := between.removeFromAll found isNew
  unfold CAddrMan.makeTried
  dsimp only
  generalize man.removeFromAll nId = out at removed there ⊢
  have lags : Between (fun other => other = nId) (lag + 1) { out with nNew := out.nNew - 1 } :=
    removed.recount (by omega)
  exact lags.moveToTried there heldNew refs

end CAddrMan

end Agouti
