import Agouti.Net.AddrIndex

/-! # The slots of the address manager

Writing one slot together with its entry keeps the tables in order: an entry leaves a slot of the
new table (`NewTabled.release`) or comes into a free one (`NewTabled.acquire`), it leaves its tried
slot (`TriedTabled.demote`) or comes into it (`TriedTabled.promote`), and an entry without slots is
deleted (`NewTabled.forget`).
-/

namespace Agouti

open Function Option

namespace CAddrMan

open SlotTable

section

variable {man : CAddrMan} {nId : Int} {info : CAddrInfo} {lag : Int}

/-! ## The counters -/

theorem total_put (weight : CAddrInfo → Nat) {old : CAddrInfo}
    (found : man.mapInfo.lookup nId = some old) :
    (man.put nId info).mapInfo.total weight + weight old =
      man.mapInfo.total weight + weight info := by
  have sum := SortedMap.total_set weight man.mapInfo nId info
  rw [found, map_some, getD_some] at sum
  exact sum

theorem Counted.demote (counted : Counted lag man) {old : CAddrInfo}
    (found : man.mapInfo.lookup nId = some old) (was : old.fInTried = true)
    (is : info.fInTried = false) {after : CAddrMan}
    (map : after.mapInfo = (man.put nId info).mapInfo) (tried : after.nTried = man.nTried - 1)
    (new : after.nNew = man.nNew) : Counted (lag + 1) after := by
  have triedTotal : (man.put nId info).mapInfo.total countTried + countTried old =
      man.mapInfo.total countTried + countTried info := total_put countTried found
  have newTotal : (man.put nId info).mapInfo.total countNew + countNew old =
      man.mapInfo.total countNew + countNew info := total_put countNew found
  have oldTried := counted.tried
  have oldNew := counted.new
  have weighs : countTried old = 1 ∧ countTried info = 0 ∧ countNew old = 0 ∧
      countNew info = 1 := by
    simp [countTried, countNew, was, is]
  constructor
  · rw [map, tried]
    omega
  · rw [map, new]
    omega

theorem Counted.promote (counted : Counted (lag + 1) man) {old : CAddrInfo}
    (found : man.mapInfo.lookup nId = some old) (was : old.fInTried = false)
    (is : info.fInTried = true) {after : CAddrMan}
    (map : after.mapInfo = (man.put nId info).mapInfo) (tried : after.nTried = man.nTried + 1)
    (new : after.nNew = man.nNew) : Counted lag after := by
  have triedTotal : (man.put nId info).mapInfo.total countTried + countTried old =
      man.mapInfo.total countTried + countTried info := total_put countTried found
  have newTotal : (man.put nId info).mapInfo.total countNew + countNew old =
      man.mapInfo.total countNew + countNew info := total_put countNew found
  have oldTried := counted.tried
  have oldNew := counted.new
  have weighs : countTried old = 0 ∧ countTried info = 1 ∧ countNew old = 1 ∧
      countNew info = 0 := by
    simp [countTried, countNew, was, is]
  constructor
  · rw [map, tried]
    omega
  · rw [map, new]
    omega

theorem Counted.forget (counted : Counted lag man) (found : man.mapInfo.lookup nId = some info)
    (isNew : info.fInTried = false) {after : CAddrMan}
    (gone : ∀ other, (after.mapInfo.lookup other).map rest =
      if other = nId then none else (man.mapInfo.lookup other).map rest)
    (tried : after.nTried = man.nTried) (new : after.nNew = man.nNew - 1) :
    Counted lag after := by
  have same : ∀ weight : CAddrInfo → Nat, (∀ info, weight (rest info) = weight info) →
      after.mapInfo.total weight + weight info = man.mapInfo.total weight := by
    intro weight reads
    have erased := SortedMap.total_erase weight found
    have equal : after.mapInfo.total weight = (man.mapInfo.erase nId).total weight := by
      apply SortedMap.total_congr
      intro other
      have whole : weight ∘ rest = weight := funext reads
      rw [← whole, ← Option.map_map, ← Option.map_map, gone, SortedMap.lookup_erase]
      split
      · rfl
      · rfl
    omega
  have triedTotal := same countTried fun _ => rfl
  have newTotal := same countNew fun _ => rfl
  have weighs : countTried info = 0 ∧ countNew info = 1 := by
    simp [countTried, countNew, isNew]
  obtain ⟨oldTried, oldNew⟩ := counted
  constructor
  · rw [tried]
    omega
  · rw [new]
    omega

theorem lookup_put_apart {other : Int} {otherInfo : CAddrInfo}
    (there : man.mapInfo.lookup other = some otherInfo) (apart : other ≠ nId) :
    (man.put nId info).mapInfo.lookup other = some otherInfo := by
  rw [lookup_put, if_neg apart]
  exact there

theorem ne_of_kind {old otherInfo : CAddrInfo} {other : Int}
    (found : man.mapInfo.lookup nId = some old)
    (there : man.mapInfo.lookup other = some otherInfo)
    (kinds : otherInfo.fInTried ≠ old.fInTried) : other ≠ nId := by
  rintro rfl
  rw [found] at there
  cases there
  exact kinds rfl

/-! ## The slots -/

theorem Indexed.ne_free (indexed : man.Indexed) (found : man.mapInfo.lookup nId = some info) :
    (-1 : Int) ≠ nId := by
  have nonneg := (indexed.numbered nId info found).1
  omega

variable [Crypto] {loose : Int → Prop} {slot : Slot} {old : CAddrInfo} {after : CAddrMan}

theorem TriedTabled.of_new (tabled : man.TriedTabled)
    (found : man.mapInfo.lookup nId = some old) (was : old.fInTried = false)
    (is : info.fInTried = false) (map : after.mapInfo = (man.put nId info).mapInfo)
    (key : after.nKey = man.nKey) (table : after.vvTried = man.vvTried) : after.TriedTabled := by
  constructor
  · intro other otherInfo there inTried
    rw [map, lookup_put] at there
    split at there
    · cases there
      rw [is] at inTried
      cases inTried
    · rw [key, table]
      exact tabled.entries other otherInfo there inTried
  · intro kSlot within occupied
    rw [table] at occupied ⊢
    obtain ⟨otherInfo, there, inTried, own⟩ := tabled.own kSlot within occupied
    have apart := ne_of_kind found there (by rw [was, inTried]; decide)
    exact ⟨otherInfo, map ▸ lookup_put_apart there apart, inTried, by rw [key, own]⟩

theorem NewTabled.congr (tabled : man.NewTabled loose) {other : Int → Prop}
    (same : ∀ nId info, man.mapInfo.lookup nId = some info → info.fInTried = false →
      (loose nId ↔ other nId)) : man.NewTabled other := by
  refine ⟨?_, tabled.own⟩
  intro nId info found isNew
  obtain ⟨refs, most, free⟩ := tabled.entries nId info found isNew
  exact ⟨refs, most, free.trans (same nId info found isNew)⟩

theorem NewTabled.release (tabled : man.NewTabled loose) (indexed : man.Indexed)
    (found : man.mapInfo.lookup nId = some info) (isNew : info.fInTried = false)
    (inside : slot ∈ newSlots) (here : man.vvNew slot = nId)
    (map : after.mapInfo =
      (man.put nId { info with nRefCount := info.nRefCount - 1 }).mapInfo)
    (key : after.nKey = man.nKey) (table : after.vvNew = Function.update man.vvNew slot (-1)) :
    after.NewTabled fun other => loose other ∨ other = nId ∧ info.nRefCount = 1 := by
  obtain ⟨refs, most, free⟩ := tabled.entries nId info found isNew
  have fewer : (held newSlots (Function.update man.vvNew slot (-1)) nId).card + 1 =
      (man.holders nId).card := card_held_old inside here (indexed.ne_free found)
  constructor
  · intro other otherInfo there otherNew
    rw [map, lookup_put] at there
    unfold holders
    rw [table]
    split at there
    · rename_i same
      subst same
      cases there
      have positive : info.nRefCount ≠ 0 := by omega
      have notLoose : ¬ loose other := fun isLoose => positive (free.mpr isLoose)
      refine ⟨by dsimp only; omega, by dsimp only; omega, ?_⟩
      dsimp only
      constructor
      · intro none
        exact .inr ⟨rfl, by omega⟩
      · rintro (isLoose | ⟨_, one⟩)
        · exact absurd isLoose notLoose
        · omega
    · rename_i different
      obtain ⟨otherRefs, otherMost, otherFree⟩ := tabled.entries other otherInfo there otherNew
      rw [held_other (fun same => different (same.symm.trans here)) (indexed.ne_free there)]
      refine ⟨otherRefs, otherMost, otherFree.trans ?_⟩
      simp [different]
  · intro uSlot within occupied
    rw [table] at occupied ⊢
    by_cases own : uSlot = slot
    · rw [own, update_self] at occupied
      exact absurd rfl occupied
    · rw [update_of_ne own] at occupied ⊢
      obtain ⟨otherInfo, there, otherNew, position⟩ := tabled.own uSlot within occupied
      rw [map, lookup_put, key]
      split
      · rename_i same
        rw [same, found] at there
        cases there
        exact ⟨_, rfl, isNew, position⟩
      · exact ⟨otherInfo, there, otherNew, position⟩

theorem NewTabled.acquire (tabled : man.NewTabled loose) (indexed : man.Indexed)
    (found : man.mapInfo.lookup nId = some info) (isNew : info.fInTried = false)
    (room : info.nRefCount < ADDRMAN_NEW_BUCKETS_PER_ADDRESS) (inside : slot ∈ newSlots)
    (own : newSlot man.nKey info slot.1 = slot) (free : man.vvNew slot = -1)
    (map : after.mapInfo =
      (man.put nId { info with nRefCount := info.nRefCount + 1 }).mapInfo)
    (key : after.nKey = man.nKey) (table : after.vvNew = Function.update man.vvNew slot nId) :
    after.NewTabled fun other => loose other ∧ other ≠ nId := by
  obtain ⟨refs, -, -⟩ := tabled.entries nId info found isNew
  have notHere : man.vvNew slot ≠ nId := free.trans_ne (indexed.ne_free found)
  have more : (held newSlots (Function.update man.vvNew slot nId) nId).card =
      (man.holders nId).card + 1 := card_held_new inside notHere
  constructor
  · intro other otherInfo there otherNew
    rw [map, lookup_put] at there
    unfold holders
    rw [table]
    split at there
    · rename_i same
      subst same
      cases there
      refine ⟨by dsimp only; omega, by dsimp only; omega, ?_⟩
      dsimp only
      constructor
      · intro none
        omega
      · rintro ⟨_, different⟩
        exact absurd rfl different
    · rename_i different
      obtain ⟨otherRefs, otherMost, otherFree⟩ := tabled.entries other otherInfo there otherNew
      rw [held_other (free.trans_ne (indexed.ne_free there)) (Ne.symm different)]
      exact ⟨otherRefs, otherMost, otherFree.trans (iff_self_and.mpr fun _ => different)⟩
  · intro uSlot within occupied
    rw [table] at occupied ⊢
    by_cases same : uSlot = slot
    · subst same
      rw [update_self, map, lookup_put, if_pos rfl, key]
      exact ⟨_, rfl, isNew, own⟩
    · rw [update_of_ne same] at occupied ⊢
      obtain ⟨otherInfo, there, otherNew, position⟩ := tabled.own uSlot within occupied
      rw [map, lookup_put, key]
      split
      · rename_i here
        rw [here, found] at there
        cases there
        exact ⟨_, rfl, isNew, position⟩
      · exact ⟨otherInfo, there, otherNew, position⟩

theorem NewTabled.holders_tried (tabled : man.NewTabled loose)
    (found : man.mapInfo.lookup nId = some info) (inTried : info.fInTried = true)
    (free : (-1 : Int) ≠ nId) : man.holders nId = ∅ := by
  apply held_eq_empty_iff.mpr
  intro slot inside here
  obtain ⟨otherInfo, there, isNew, _⟩ := tabled.own slot inside (here.trans_ne free.symm)
  rw [here, found] at there
  cases there
  rw [inTried] at isNew
  cases isNew

theorem NewTabled.holders_unreferenced (tabled : man.NewTabled loose)
    (found : man.mapInfo.lookup nId = some info) (isNew : info.fInTried = false)
    (refs : info.nRefCount = 0) : man.holders nId = ∅ := by
  have counted := (tabled.entries nId info found isNew).1
  rw [refs] at counted
  exact Finset.card_eq_zero.mp (by omega)

theorem TriedTabled.demote (tabled : man.TriedTabled)
    (found : man.mapInfo.lookup nId = some info) (inTried : info.fInTried = true)
    (map : after.mapInfo = (man.put nId { info with fInTried := false }).mapInfo)
    (key : after.nKey = man.nKey)
    (table : after.vvTried = Function.update man.vvTried (triedSlot man.nKey info) (-1)) :
    after.TriedTabled := by
  constructor
  · intro other otherInfo there otherTried
    rw [map, lookup_put] at there
    split at there
    · cases there
      cases otherTried
    · rename_i different
      obtain ⟨refs, here⟩ := tabled.entries other otherInfo there otherTried
      have own := (tabled.entries nId info found inTried).2
      refine ⟨refs, ?_⟩
      rw [key, table, update_of_ne, here]
      intro same
      rw [← same, here] at own
      exact different own
  · intro kSlot within occupied
    rw [table] at occupied ⊢
    by_cases same : kSlot = triedSlot man.nKey info
    · rw [same, update_self] at occupied
      exact absurd rfl occupied
    · rw [update_of_ne same] at occupied ⊢
      obtain ⟨otherInfo, there, otherTried, own⟩ := tabled.own kSlot within occupied
      refine ⟨otherInfo, map ▸ lookup_put_apart there ?_, otherTried, by rw [key, own]⟩
      intro here
      rw [here, found] at there
      cases there
      exact same own.symm

theorem NewTabled.demote (tabled : man.NewTabled loose) (indexed : man.Indexed)
    (found : man.mapInfo.lookup nId = some info) (inTried : info.fInTried = true)
    (refs : info.nRefCount = 0)
    (map : after.mapInfo = (man.put nId { info with fInTried := false }).mapInfo)
    (key : after.nKey = man.nKey) (table : after.vvNew = man.vvNew) :
    after.NewTabled fun other => loose other ∨ other = nId := by
  have none := tabled.holders_tried found inTried (indexed.ne_free found)
  constructor
  · intro other otherInfo there otherNew
    rw [map, lookup_put] at there
    unfold holders at none ⊢
    rw [table]
    split at there
    · rename_i same
      subst same
      cases there
      rw [none]
      dsimp only
      rw [refs]
      exact ⟨rfl, by decide, iff_of_true rfl (.inr rfl)⟩
    · rename_i different
      obtain ⟨otherRefs, otherMost, otherFree⟩ := tabled.entries other otherInfo there otherNew
      refine ⟨otherRefs, otherMost, otherFree.trans ?_⟩
      simp [different]
  · intro uSlot within occupied
    rw [table] at occupied ⊢
    obtain ⟨otherInfo, there, otherNew, position⟩ := tabled.own uSlot within occupied
    have apart := ne_of_kind found there (by rw [inTried, otherNew]; decide)
    exact ⟨otherInfo, map ▸ lookup_put_apart there apart, otherNew, by rw [key, position]⟩

theorem TriedTabled.promote (tabled : man.TriedTabled) (indexed : man.Indexed)
    (found : man.mapInfo.lookup nId = some info) (isNew : info.fInTried = false)
    (refs : info.nRefCount = 0) (free : man.vvTried (triedSlot man.nKey info) = -1)
    (map : after.mapInfo = (man.put nId { info with fInTried := true }).mapInfo)
    (key : after.nKey = man.nKey)
    (table : after.vvTried = Function.update man.vvTried (triedSlot man.nKey info) nId) :
    after.TriedTabled := by
  constructor
  · intro other otherInfo there otherTried
    rw [map, lookup_put] at there
    rw [key, table]
    split at there
    · rename_i same
      cases there
      exact ⟨refs, (update_self ..).trans same.symm⟩
    · obtain ⟨otherRefs, here⟩ := tabled.entries other otherInfo there otherTried
      refine ⟨otherRefs, ?_⟩
      rw [update_of_ne, here]
      intro same
      rw [same, free] at here
      exact indexed.ne_free there here
  · intro kSlot within occupied
    rw [table] at occupied ⊢
    by_cases same : kSlot = triedSlot man.nKey info
    · rw [same, update_self, map, lookup_put, if_pos rfl, key]
      exact ⟨_, rfl, rfl, rfl⟩
    · rw [update_of_ne same] at occupied ⊢
      obtain ⟨otherInfo, there, otherTried, own⟩ := tabled.own kSlot within occupied
      have apart := ne_of_kind found there (by rw [isNew, otherTried]; decide)
      exact ⟨otherInfo, map ▸ lookup_put_apart there apart, otherTried, by rw [key, own]⟩

theorem NewTabled.promote (tabled : man.NewTabled loose)
    (found : man.mapInfo.lookup nId = some info) (isNew : info.fInTried = false)
    (refs : info.nRefCount = 0)
    (map : after.mapInfo = (man.put nId { info with fInTried := true }).mapInfo)
    (key : after.nKey = man.nKey) (table : after.vvNew = man.vvNew) :
    after.NewTabled fun other => loose other ∧ other ≠ nId := by
  have none := tabled.holders_unreferenced found isNew refs
  constructor
  · intro other otherInfo there otherNew
    rw [map, lookup_put] at there
    unfold holders
    rw [table]
    split at there
    · cases there
      cases otherNew
    · rename_i different
      obtain ⟨otherRefs, otherMost, otherFree⟩ := tabled.entries other otherInfo there otherNew
      exact ⟨otherRefs, otherMost, otherFree.trans (iff_self_and.mpr fun _ => different)⟩
  · intro uSlot within occupied
    rw [table] at occupied ⊢
    obtain ⟨otherInfo, there, otherNew, position⟩ := tabled.own uSlot within occupied
    have apart := held_eq_empty_iff.mp none uSlot within
    exact ⟨otherInfo, map ▸ lookup_put_apart there apart, otherNew, by rw [key, position]⟩

/-! ## Deletions -/

theorem TriedTabled.forget (tabled : man.TriedTabled)
    (found : man.mapInfo.lookup nId = some info) (isNew : info.fInTried = false)
    (gone : ∀ other, (after.mapInfo.lookup other).map rest =
      if other = nId then none else (man.mapInfo.lookup other).map rest)
    (key : after.nKey = man.nKey) (table : after.vvTried = man.vvTried) : after.TriedTabled := by
  constructor
  · intro other otherInfo there inTried
    have here := gone other
    rw [there, map_some] at here
    split at here
    · cases here
    · obtain ⟨old, was, parts⟩ := map_eq_some_iff.mp here.symm
      obtain ⟨service, refs, kind⟩ := rest_parts parts
      have kept := tabled.entries other old was (kind.trans inTried)
      rw [key, table, ← triedSlot_congr man.nKey service]
      exact ⟨refs.symm.trans kept.1, kept.2⟩
  · intro kSlot within occupied
    rw [table] at occupied ⊢
    obtain ⟨old, was, inTried, own⟩ := tabled.own kSlot within occupied
    have here := gone (man.vvTried kSlot)
    rw [was, if_neg] at here
    · obtain ⟨otherInfo, there, parts⟩ := map_eq_some_iff.mp here
      obtain ⟨service, _, kind⟩ := rest_parts parts
      exact ⟨otherInfo, there, kind.trans inTried, by rw [key, triedSlot_congr _ service, own]⟩
    · intro same
      rw [same, found] at was
      cases was
      rw [isNew] at inTried
      cases inTried

theorem NewTabled.forget (tabled : man.NewTabled loose)
    (found : man.mapInfo.lookup nId = some info) (isNew : info.fInTried = false)
    (refs : info.nRefCount = 0)
    (gone : ∀ other, (after.mapInfo.lookup other).map rest =
      if other = nId then none else (man.mapInfo.lookup other).map rest)
    (key : after.nKey = man.nKey) (table : after.vvNew = man.vvNew) :
    after.NewTabled fun other => loose other ∧ other ≠ nId := by
  have none := tabled.holders_unreferenced found isNew refs
  constructor
  · intro other otherInfo there otherNew
    have here := gone other
    rw [there, map_some] at here
    split at here
    · cases here
    · rename_i different
      obtain ⟨old, was, parts⟩ := map_eq_some_iff.mp here.symm
      obtain ⟨service, otherRefs, kind⟩ := rest_parts parts
      obtain ⟨kept, most, free⟩ := tabled.entries other old was (kind.trans otherNew)
      unfold holders at kept ⊢
      rw [table, ← otherRefs]
      exact ⟨kept, most, free.trans (iff_self_and.mpr fun _ => different)⟩
  · intro uSlot within occupied
    rw [table] at occupied ⊢
    obtain ⟨old, was, otherNew, position⟩ := tabled.own uSlot within occupied
    have here := gone (man.vvNew uSlot)
    rw [was, if_neg] at here
    · obtain ⟨otherInfo, there, parts⟩ := map_eq_some_iff.mp here
      obtain ⟨service, _, kind⟩ := rest_parts parts
      exact ⟨otherInfo, there, kind.trans otherNew, by rw [key, newSlot_congr _ service, position]⟩
    · exact held_eq_empty_iff.mp none uSlot within

end

end CAddrMan

end Agouti
