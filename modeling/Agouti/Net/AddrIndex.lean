import Agouti.Net.AddrTables

/-! # The indices of the address manager

`SwapRandom` and `Delete`: under the invariants no assertion of theirs fails, and the indices of the
entries by address and by random position stay exact.
-/

namespace Agouti

open List Function

namespace CAddrMan

open SlotTable DenseIndex

variable {man : CAddrMan}

/-! ## Single entries -/

section

variable {nId : Int} {info old : CAddrInfo}

theorem lookup_put (man : CAddrMan) (nId : Int) (info : CAddrInfo) (other : Int) :
    (man.put nId info).mapInfo.lookup other =
      if other = nId then some info else man.mapInfo.lookup other :=
  SortedMap.lookup_set _ _ _ _

theorem entry_eq (found : man.mapInfo.lookup nId = some info) : man.entry nId = info := by
  rw [entry, found]
  rfl

theorem Same.of_put {Part : Type} {part : CAddrInfo → Part}
    (found : man.mapInfo.lookup nId = some old) (agrees : part info = part old)
    {after : CAddrMan} (map : after.mapInfo = (man.put nId info).mapInfo) :
    Same part man after := by
  intro other
  rw [map, lookup_put]
  split
  · rename_i here
    rw [here, found, Option.map_some, Option.map_some, agrees]
  · rfl

theorem put_self (found : man.mapInfo.lookup nId = some info) : man.put nId info = man := by
  have map : man.mapInfo.set nId info = man.mapInfo := by
    apply SortedMap.ext_lookup
    intro other
    rw [SortedMap.lookup_set]
    split
    · rename_i here
      rw [here, found]
    · rfl
  unfold put
  rw [map]

end

/-! ## The random order -/

theorem Same.addresses {first second : CAddrMan} (same : Same rest first second)
    (indexed : first.Indexed) (addresses : second.mapAddr = first.mapAddr) (addr : CNetAddr)
    (nId : Int) : second.mapAddr addr = some nId ↔
      ∃ info, second.mapInfo.lookup nId = some info ∧ info.ip = addr := by
  have ips : Same (fun info => info.ip) first second :=
    same.of_part (fun part => part.ip) fun _ => rfl
  rw [addresses, indexed.addresses]
  constructor
  · rintro ⟨info, found, rfl⟩
    obtain ⟨other, there, own⟩ := ips.symm.find found
    exact ⟨other, there, own⟩
  · rintro ⟨info, found, rfl⟩
    obtain ⟨other, there, own⟩ := ips.find found
    exact ⟨other, there, own⟩

theorem Indexed.at (indexed : man.Indexed) {place : Nat} (inside : place < man.vRandom.length) :
    ∃ nId info, man.vRandom[place]? = some nId ∧ man.mapInfo.lookup nId = some info ∧
      info.nRandomPos = place := by
  have there := List.getElem?_eq_getElem inside
  obtain ⟨info, found, own⟩ := Option.map_eq_some_iff.mp (indexed.random.position_eq there)
  exact ⟨_, info, there, found, own⟩

theorem Indexed.place_of (indexed : man.Indexed) {nId : Int} {info : CAddrInfo}
    (found : man.mapInfo.lookup nId = some info) :
    ∃ place : Nat, info.nRandomPos = place ∧ man.vRandom[place]? = some nId ∧
      place < man.vRandom.length := by
  have position : man.position nId = some info.nRandomPos := by
    rw [CAddrMan.position, found]
    rfl
  obtain ⟨place, own, there⟩ := (indexed.random nId info.nRandomPos).mp position
  exact ⟨place, own, there, (List.getElem?_eq_some_iff.mp there).1⟩

theorem Indexed.swapRandom (indexed : man.Indexed) {p q : Nat} (insideP : p < man.vRandom.length)
    (insideQ : q < man.vRandom.length) :
    ∃ mapInfo vRandom, man.swapRandom p q =
        some { man with
          mapInfo := mapInfo
          vRandom := vRandom } ∧
      Indexed
        { man with
          mapInfo := mapInfo
          vRandom := vRandom } ∧
      Same rest man
        { man with
          mapInfo := mapInfo
          vRandom := vRandom } ∧
      vRandom[q]? = man.vRandom[p]? ∧ vRandom.length = man.vRandom.length := by
  by_cases apart : p = q
  · subst apart
    refine ⟨man.mapInfo, man.vRandom, ?_, indexed, Same.refl rest man, rfl, rfl⟩
    rw [CAddrMan.swapRandom, if_pos rfl]
    rfl
  · obtain ⟨a, infoA, atP, foundA, _⟩ := indexed.at insideP
    obtain ⟨b, infoB, atQ, foundB, _⟩ := indexed.at insideQ
    have different : b ≠ a := fun same => apart (indexed.random.unique atP (same ▸ atQ))
    have second : (man.put a { infoA with nRandomPos := q }).entry b = infoB := by
      rw [entry, lookup_put, if_neg different, foundB]
      rfl
    have numbers : ((p : Int) = q) = False := by
      rw [eq_iff_iff, iff_false]
      omega
    have result : man.swapRandom p q = some
        { (man.put a { infoA with nRandomPos := q }).put b { infoB with nRandomPos := p } with
          vRandom := (man.vRandom.set p b).set q a } := by
      simp only [CAddrMan.swapRandom, numbers, if_false, Int.toNat_natCast, atP, atQ, foundA,
        foundB, second, Option.isSome_some, Int.natCast_nonneg, and_self, guard, if_true,
        Option.bind_eq_bind, Option.bind_some, Option.pure_def]
      rfl
    have lookups : ∀ other, (((man.mapInfo.set a { infoA with nRandomPos := q }).set b
        { infoB with nRandomPos := p }).lookup other) =
          if other = b then some { infoB with nRandomPos := p }
          else if other = a then some { infoA with nRandomPos := q }
          else man.mapInfo.lookup other := by
      intro other
      rw [SortedMap.lookup_set, SortedMap.lookup_set]
    have same : Same rest man
        { man with
          mapInfo := (man.mapInfo.set a { infoA with nRandomPos := q }).set b
            { infoB with nRandomPos := p }
          vRandom := (man.vRandom.set p b).set q a } := by
      intro other
      rw [lookups]
      split
      · rename_i here
        rw [here, foundB]
        rfl
      · split
        · rename_i here
          rw [here, foundA]
          rfl
        · rfl
    refine ⟨_, _, result, ⟨same.addresses indexed rfl, ?_, ?_, ?_, indexed.started⟩, same, ?_, ?_⟩
    · have positions : position
          { man with
            mapInfo := (man.mapInfo.set a { infoA with nRandomPos := q }).set b
              { infoB with nRandomPos := p }
            vRandom := (man.vRandom.set p b).set q a } =
          Function.update (Function.update man.position a (some (q : Int))) b (some (p : Int)) := by
        funext other
        rw [position, lookups, update_apply, update_apply]
        split
        · rfl
        · split
          · rfl
          · rfl
      have random := indexed.random.swap atP atQ apart
      rw [← positions] at random
      exact random
    · have lengths : ((man.vRandom.set p b).set q a).length = man.vRandom.length := by
        rw [length_set, length_set]
      exact lengths.trans (indexed.size.trans same.size.symm)
    · intro nId info found
      obtain ⟨other, there, _⟩ := same.find found
      exact indexed.numbered nId other there
    · rw [atP, List.getElem?_set_self]
      rw [length_set]
      exact insideQ
    · rw [length_set, length_set]

theorem Indexed.delete (indexed : man.Indexed) {nId : Int} {info : CAddrInfo}
    (found : man.mapInfo.lookup nId = some info) (isNew : info.fInTried = false)
    (loose : info.nRefCount = 0) :
    ∃ mapInfo mapAddr vRandom, man.delete nId =
        some { man with
          mapInfo := mapInfo
          mapAddr := mapAddr
          vRandom := vRandom
          nNew := man.nNew - 1 } ∧
      Indexed
        { man with
          mapInfo := mapInfo
          mapAddr := mapAddr
          vRandom := vRandom
          nNew := man.nNew - 1 } ∧
      ∀ other, (mapInfo.lookup other).map rest =
        if other = nId then none else (man.mapInfo.lookup other).map rest := by
  obtain ⟨place, own, there, inside⟩ := indexed.place_of found
  have nonempty : man.vRandom.length - 1 < man.vRandom.length := by omega
  obtain ⟨mapInfo, vRandom, swapped, after, same, last, length⟩ :=
    indexed.swapRandom inside nonempty
  have lastPlace : (man.vRandom.length : Int) - 1 = ((man.vRandom.length - 1 : Nat) : Int) := by
    omega
  have result : man.delete nId = some
      { man with
        mapInfo := mapInfo.erase nId
        mapAddr := Function.update man.mapAddr info.ip none
        vRandom := vRandom.dropLast
        nNew := man.nNew - 1 } := by
    simp only [CAddrMan.delete, found, isNew, loose, own, lastPlace, swapped, guard, if_true,
      Option.bind_eq_bind, Option.bind_some, Option.pure_def]
  refine ⟨_, _, _, result, ⟨?_, ?_, ?_, ?_, indexed.started⟩, ?_⟩
  · intro addr other
    show Function.update man.mapAddr info.ip none addr = some other ↔
      ∃ held, (mapInfo.erase nId).lookup other = some held ∧ held.ip = addr
    by_cases ownAddr : addr = info.ip
    · subst ownAddr
      rw [update_self]
      constructor
      · exact fun contra => nomatch contra
      · rintro ⟨held, left, ip⟩
        rw [SortedMap.lookup_erase] at left
        split at left
        · cases left
        · rename_i different
          have first := (after.addresses info.ip other).mpr ⟨held, left, ip⟩
          have second := (indexed.addresses info.ip nId).mpr ⟨info, found, rfl⟩
          exact absurd (Option.some.inj (first.symm.trans second)) different
    · rw [update_of_ne ownAddr]
      refine (after.addresses addr other).trans ?_
      apply exists_congr
      intro held
      apply and_congr_left
      intro ip
      rw [SortedMap.lookup_erase]
      split
      · rename_i here
        subst here
        constructor
        · intro left
          have first := (after.addresses addr other).mpr ⟨held, left, ip⟩
          obtain ⟨old, was, ipOld⟩ := (indexed.addresses addr other).mp first
          rw [found] at was
          cases was
          exact absurd ipOld.symm ownAddr
        · exact fun contra => nomatch contra
      · rfl
  · have random := after.random
    have atLast : vRandom[vRandom.length - 1]? = some nId := by
      rw [length, last, there]
    have positions : position
        { man with
          mapInfo := mapInfo.erase nId
          mapAddr := Function.update man.mapAddr info.ip none
          vRandom := vRandom.dropLast
          nNew := man.nNew - 1 } =
        Function.update (position { man with mapInfo := mapInfo, vRandom := vRandom }) nId
          none := by
      funext other
      rw [position, update_apply]
      show ((mapInfo.erase nId).lookup other).map _ = _
      rw [SortedMap.lookup_erase]
      split
      · rfl
      · rfl
    show Indexes vRandom.dropLast _
    rw [positions]
    exact random.pop atLast
  · obtain ⟨held, stays, _⟩ := same.symm.find found
    have erased : (mapInfo.erase nId).size + 1 = mapInfo.size := SortedMap.size_erase stays
    have size : vRandom.length = mapInfo.size := after.size
    show vRandom.dropLast.length = (mapInfo.erase nId).size
    rw [length_dropLast]
    omega
  · intro other held left
    change (mapInfo.erase nId).lookup other = some held at left
    rw [SortedMap.lookup_erase] at left
    split at left
    · cases left
    · exact after.numbered other held left
  · intro other
    rw [SortedMap.lookup_erase]
    split
    · rfl
    · exact same other

end CAddrMan

end Agouti
