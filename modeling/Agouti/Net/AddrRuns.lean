import Agouti.Net.AddrMoves

/-! # Runs of the address manager

The calls of `CAddrMan` in any order. Each keeps what `Check_` asks of the tables, and none of their
assertions fails, exactly while the numbers of the entries and the attempts at an address fit into
an `int` (`addrMan_consistent`). Enough addresses that have not come before use the numbers up
(`newcomers_overflow`).
-/

namespace Agouti

open List Function Option

namespace CAddrMan

open DenseIndex SlotTable

variable {man : CAddrMan} {nId : Int} {info : CAddrInfo}

theorem find_eq_some {addr : CNetAddr} (found : man.find addr = some (nId, info)) :
    man.mapInfo.lookup nId = some info := by
  unfold find at found
  obtain ⟨other, _, rest⟩ := bind_eq_some_iff.mp found
  obtain ⟨held, there, same⟩ := bind_eq_some_iff.mp rest
  cases same
  exact there

theorem Indexed.address_none (indexed : man.Indexed) {addr : CNetAddr}
    (missing : man.find addr = none) : man.mapAddr addr = none := by
  cases known : man.mapAddr addr with
  | none => rfl
  | some nId =>
    obtain ⟨info, there, -⟩ := (indexed.addresses addr nId).mp known
    unfold find at missing
    simp only [known, there, bind_eq_bind, bind_some, Option.pure_def] at missing
    contradiction

theorem Indexed.fresh (indexed : man.Indexed) : man.mapInfo.lookup man.nIdCount = none := by
  cases found : man.mapInfo.lookup man.nIdCount with
  | none => rfl
  | some info =>
    have below := (indexed.numbered _ info found).2
    omega

theorem total_create (weight : CAddrInfo → Nat) (fresh : man.mapInfo.lookup nId = none)
    (info : CAddrInfo) :
    (man.put nId info).mapInfo.total weight = man.mapInfo.total weight + weight info := by
  have sum := SortedMap.total_set weight man.mapInfo nId info
  rw [fresh, map_none, getD_none, Nat.add_zero] at sum
  exact sum

theorem Indexed.created (indexed : man.Indexed) (addr : CAddress) (addrSource : CNetAddr)
    (missing : man.find addr.ip = none) : (man.created addr addrSource).Indexed := by
  have fresh := indexed.fresh
  have unknown := indexed.address_none missing
  have lookups (other : Int) : (man.created addr addrSource).mapInfo.lookup other =
      if other = man.nIdCount then
        some { CAddrInfo.ofAddress addr addrSource with nRandomPos := man.vRandom.length }
      else man.mapInfo.lookup other := lookup_put man man.nIdCount _ other
  refine ⟨fun ip other => ?_, ?_, ?_, fun other info found => ?_, ?_⟩
  · rw [lookups]
    change Function.update man.mapAddr addr.ip (some man.nIdCount) ip = some other ↔ _
    by_cases own : ip = addr.ip
    · subst own
      rw [update_self, some.injEq]
      by_cases same : other = man.nIdCount
      · rw [if_pos same]
        exact iff_of_true same.symm ⟨_, rfl, rfl⟩
      · rw [if_neg same, ← indexed.addresses, unknown]
        exact iff_of_false (Ne.symm same) (nomatch ·)
    · rw [update_of_ne own, indexed.addresses]
      by_cases same : other = man.nIdCount
      · rw [if_pos same, same, fresh]
        refine iff_of_false (fun ⟨_, found, _⟩ => nomatch found) ?_
        rintro ⟨info, found, ip⟩
        cases found
        exact own ip.symm
      · rw [if_neg same]
  · have position : man.position man.nIdCount = none := by
      rw [CAddrMan.position, fresh]
      rfl
    have positions : (man.created addr addrSource).position =
        Function.update man.position man.nIdCount (some (man.vRandom.length : Int)) := by
      funext other
      rw [CAddrMan.position, lookups, update_apply]
      split
      · rfl
      · rfl
    rw [positions]
    exact indexed.random.push position
  · have size := total_create (fun _ => 1) fresh
      { CAddrInfo.ofAddress addr addrSource with nRandomPos := man.vRandom.length }
    rw [← SortedMap.size_eq_total, ← SortedMap.size_eq_total] at size
    change (man.vRandom ++ [man.nIdCount]).length = _
    rw [length_append, length_singleton, indexed.size]
    exact size.symm
  · rw [lookups] at found
    change 0 ≤ other ∧ other < man.nIdCount + 1
    have started := indexed.started
    split at found
    · omega
    · have numbered := indexed.numbered other info found
      omega
  · have started := indexed.started
    change 0 ≤ man.nIdCount + 1
    omega

/-- No number has been given and no address has come. -/
structure Sheds (man after : CAddrMan) : Prop where
  count : after.nIdCount = man.nIdCount
  unknown : ∀ addr, man.mapAddr addr = none → after.mapAddr addr = none

section

variable {man after : CAddrMan} {nId : Int} {slot : Slot}

theorem Sheds.of_swapRandom {nRndPos1 nRndPos2 : Int}
    (swapped : man.swapRandom nRndPos1 nRndPos2 = some after) : Sheds man after := by
  unfold swapRandom at swapped
  split at swapped
  · obtain rfl := some.inj swapped
    exact ⟨rfl, fun _ => id⟩
  · obtain ⟨_, -, swapped⟩ := bind_eq_some_iff.mp swapped
    obtain ⟨_, -, swapped⟩ := bind_eq_some_iff.mp swapped
    obtain ⟨_, -, swapped⟩ := bind_eq_some_iff.mp swapped
    obtain ⟨_, -, swapped⟩ := bind_eq_some_iff.mp swapped
    obtain ⟨_, -, swapped⟩ := bind_eq_some_iff.mp swapped
    obtain rfl := some.inj swapped
    exact ⟨rfl, fun _ => id⟩

theorem Sheds.of_delete (deleted : man.delete nId = some after) : Sheds man after := by
  obtain ⟨_, -, deleted⟩ := bind_eq_some_iff.mp deleted
  obtain ⟨_, -, deleted⟩ := bind_eq_some_iff.mp deleted
  obtain ⟨_, -, deleted⟩ := bind_eq_some_iff.mp deleted
  obtain ⟨swapped, before, deleted⟩ := bind_eq_some_iff.mp deleted
  obtain rfl := some.inj deleted
  have sheds := Sheds.of_swapRandom before
  refine ⟨sheds.count, fun addr unknown => ?_⟩
  have still := sheds.unknown addr unknown
  simp only [update_apply, still, ite_self]

theorem Sheds.of_clearNew (cleared : man.clearNew slot = some after) : Sheds man after := by
  unfold clearNew at cleared
  split at cleared
  · obtain rfl := some.inj cleared
    exact ⟨rfl, fun _ => id⟩
  · obtain ⟨_, -, cleared⟩ := bind_eq_some_iff.mp cleared
    split at cleared
    · have sheds := Sheds.of_delete cleared
      exact ⟨sheds.count, sheds.unknown⟩
    · obtain rfl := some.inj cleared
      exact ⟨rfl, fun _ => id⟩

theorem Sheds.of_addReference [Crypto] {source : CNetAddr} {nNow : Int}
    (added : man.addReference nId source nNow = some after) : Sheds man after := by
  unfold addReference at added
  dsimp only at added
  generalize newSlot man.nKey (man.entry nId) ((man.entry nId).getNewBucket man.nKey source) = slot
    at added
  split at added
  · obtain rfl := some.inj added
    exact ⟨rfl, fun _ => id⟩
  · -- writing the entry of the slot back changes nothing that counts here
    generalize written : (if man.vvNew slot = -1 then man
      else man.put (man.vvNew slot) (man.entry (man.vvNew slot))) = copy at added
    have same : Sheds man copy := by
      subst written
      split <;> exact ⟨rfl, fun _ => id⟩
    have onward (sheds : Sheds copy after) : Sheds man after :=
      ⟨sheds.count.trans same.count, fun addr unknown =>
        sheds.unknown addr (same.unknown addr unknown)⟩
    split at added
    · obtain ⟨cleared, freed, added⟩ := bind_eq_some_iff.mp added
      obtain rfl := some.inj added
      have sheds := Sheds.of_clearNew freed
      exact onward ⟨sheds.count, sheds.unknown⟩
    · split at added
      · exact onward (Sheds.of_delete added)
      · obtain rfl := some.inj added
        exact same

end

variable [Crypto] {loose : Int → Prop} {lag : Int}

theorem Between.created (between : Between (fun _ => False) lag man) (addr : CAddress)
    (addrSource : CNetAddr) (missing : man.find addr.ip = none) :
    Between (fun other => other = man.nIdCount) (lag + 1) (man.created addr addrSource) := by
  have fresh := between.indexed.fresh
  have lookups (other : Int) : (man.created addr addrSource).mapInfo.lookup other =
      if other = man.nIdCount then
        some { CAddrInfo.ofAddress addr addrSource with nRandomPos := man.vRandom.length }
      else man.mapInfo.lookup other := lookup_put man man.nIdCount _ other
  have older {other : Int} {held : CAddrInfo} (found : man.mapInfo.lookup other = some held) :
      (man.created addr addrSource).mapInfo.lookup other = some held := by
    rw [lookups, if_neg, found]
    rintro rfl
    rw [fresh] at found
    contradiction
  refine ⟨between.indexed.created addr addrSource missing, ⟨?_, ?_⟩, ⟨?_, ?_⟩, ?_, ?_⟩
  · intro other held found inTried
    rw [lookups] at found
    split at found
    · cases found
      contradiction
    · exact between.tried.entries other held found inTried
  · intro slot inside occupied
    obtain ⟨held, found, inTried, own⟩ := between.tried.own slot inside occupied
    exact ⟨held, older found, inTried, own⟩
  · intro other held found isNew
    rw [lookups] at found
    split at found
    · rename_i same
      cases found
      have unheld : (man.created addr addrSource).holders other = ∅ := by
        apply held_eq_empty_iff.mpr
        intro slot inside here
        have free : (-1 : Int) ≠ man.nIdCount := by
          have started := between.indexed.started
          omega
        obtain ⟨old, there, -⟩ := between.new.own slot inside
          ((here.trans same).trans_ne free.symm)
        rw [show man.vvNew slot = man.nIdCount from here.trans same, fresh] at there
        contradiction
      rw [unheld]
      exact ⟨rfl, show (0 : Int) ≤ ADDRMAN_NEW_BUCKETS_PER_ADDRESS by decide, iff_of_true rfl same⟩
    · rename_i different
      obtain ⟨refs, most, tight⟩ := between.new.entries other held found isNew
      exact ⟨refs, most, tight.trans (iff_of_false not_false different)⟩
  · intro slot inside occupied
    obtain ⟨held, found, isNew, own⟩ := between.new.own slot inside occupied
    exact ⟨held, older found, isNew, own⟩
  · have sum := total_create countTried fresh
      { CAddrInfo.ofAddress addr addrSource with nRandomPos := man.vRandom.length }
    have counted := between.counted.tried
    change man.nTried = ((man.put man.nIdCount _).mapInfo.total countTried : Nat)
    rw [sum, counted]
    rfl
  · have sum := total_create countNew fresh
      { CAddrInfo.ofAddress addr addrSource with nRandomPos := man.vRandom.length }
    have counted := between.counted.new
    change man.nNew + (lag + 1) = ((man.put man.nIdCount _).mapInfo.total countNew : Nat)
    rw [sum, ← Int.add_assoc, counted]
    rfl

/-! ## The calls -/

theorem Consistent.put (consistent : man.Consistent) {old : CAddrInfo}
    (found : man.mapInfo.lookup nId = some old) (cores : core info = core old)
    (places : place info = place old) : (man.put nId info).Consistent :=
  (consistent.between.of_put found cores places).consistent

/-- An attempt at an address can be counted. -/
def Countable (man : CAddrMan) (addr : CService) : Prop :=
  ∀ nId info, man.find addr.ip = some (nId, info) → info.toCService = addr →
    info.nAttempts < INT_MAX

theorem Consistent.attempt_ (consistent : man.Consistent) (addr : CService) (nTime : Int)
    (countable : man.Countable addr) :
    ∃ after, man.attempt_ addr nTime = some after ∧ after.Consistent := by
  unfold CAddrMan.attempt_
  split
  · exact ⟨man, rfl, consistent⟩
  · rename_i nId info found
    split
    · exact ⟨man, rfl, consistent⟩
    · rename_i own
      rw [if_pos (countable nId info found (not_not.mp own))]
      exact ⟨_, rfl, consistent.put (find_eq_some found) rfl rfl⟩

theorem Consistent.connected_ (consistent : man.Consistent) (addr : CService) (nTime : Int) :
    (man.connected_ addr nTime).Consistent := by
  unfold CAddrMan.connected_
  split
  · exact consistent
  · rename_i nId info found
    split
    · exact consistent
    · split
      · exact consistent.put (find_eq_some found) rfl rfl
      · exact consistent

theorem Consistent.good_ (consistent : man.Consistent) (addr : CService) (nTime : Int)
    (nRand : Nat) : ∃ after, man.good_ addr nTime nRand = some after ∧ after.Consistent := by
  unfold CAddrMan.good_
  split
  · exact ⟨man, rfl, consistent⟩
  · rename_i nId info found
    have there := find_eq_some found
    split
    · exact ⟨man, rfl, consistent⟩
    · let seen : CAddrInfo :=
        { info with
          nLastSuccess := nTime
          nLastTry := nTime
          nAttempts := 0 }
      have updated : (man.put nId seen).Consistent := consistent.put there rfl rfl
      dsimp only
      split
      · exact ⟨_, rfl, updated⟩
      · rename_i isNew
        split
        · exact ⟨_, rfl, updated⟩
        · have seenThere : (man.put nId seen).mapInfo.lookup nId = some seen := by
            rw [lookup_put, if_pos rfl]
          obtain ⟨after, made, between⟩ := updated.between.makeTried seenThere
            (Bool.eq_false_iff.mpr isNew)
          exact ⟨after, made, between.consistent⟩

def age (man : CAddrMan) (nId nTimePenalty : Int) : CAddrMan :=
  { man.put nId { man.entry nId with
      nTime := toUInt32 (max 0 (((man.entry nId).nTime : Int) - nTimePenalty)) } with
    nNew := man.nNew + 1 }

theorem add_missing (addr : CAddress) (source : CNetAddr) (nTimePenalty nNow nLater : Int)
    (nRand : Nat) (routable : addr.ip.isRoutable = true) (missing : man.find addr.ip = none) :
    man.add_ addr source nTimePenalty nNow nLater nRand =
      if man.nIdCount < INT_MAX then
        (((man.created addr source).age man.nIdCount nTimePenalty).addReference man.nIdCount
          source nLater).map fun man => (man, true)
      else none := by
  unfold CAddrMan.add_ CAddrMan.createEntry
  rw [routable, missing]
  by_cases room : man.nIdCount < INT_MAX
  · simp only [if_pos room]
    rfl
  · simp only [if_neg room]
    rfl

/-- The entry that the address needs can be numbered. -/
def Numberable (man : CAddrMan) (addr : CAddress) : Prop :=
  addr.ip.isRoutable = true → man.find addr.ip = none → man.nIdCount < INT_MAX

theorem Between.age (between : Between (fun other => other = nId) (lag + 1) man)
    (found : man.mapInfo.lookup nId = some info) (nTimePenalty : Int) :
    ∃ aged, (man.age nId nTimePenalty).mapInfo.lookup nId = some aged ∧ core aged = core info ∧
      Between (fun other => other = nId) lag (man.age nId nTimePenalty) := by
  let aged : CAddrInfo :=
    { info with nTime := toUInt32 (max 0 ((info.nTime : Int) - nTimePenalty)) }
  have same : man.age nId nTimePenalty = { man.put nId aged with nNew := man.nNew + 1 } := by
    unfold CAddrMan.age
    rw [entry_eq found]
  rw [same]
  refine ⟨aged, ?_, rfl, ?_⟩
  · exact (lookup_put man nId aged nId).trans (if_pos rfl)
  · exact (between.of_put found (show core aged = core info from rfl) rfl).recount
      (show man.nNew + 1 + lag = man.nNew + (lag + 1) by omega)

theorem Consistent.add_ (consistent : man.Consistent) (addr : CAddress) (source : CNetAddr)
    (nTimePenalty nNow nLater : Int) (nRand : Nat) (numberable : man.Numberable addr) :
    ∃ after added, man.add_ addr source nTimePenalty nNow nLater nRand = some (after, added) ∧
      after.Consistent := by
  cases routable : addr.ip.isRoutable with
  | false =>
    refine ⟨man, false, ?_, consistent⟩
    unfold CAddrMan.add_
    rw [routable]
    rfl
  | true =>
    cases known : man.find addr.ip with
    | none =>
      let born : CAddrInfo :=
        { CAddrInfo.ofAddress addr source with nRandomPos := man.vRandom.length }
      have there : (man.created addr source).mapInfo.lookup man.nIdCount = some born :=
        (lookup_put man man.nIdCount born man.nIdCount).trans (if_pos rfl)
      have created : Between (fun other => other = man.nIdCount) (0 + 1)
          (man.created addr source) := consistent.between.created addr source known
      obtain ⟨aged, agedThere, cores, loosened⟩ := created.age there nTimePenalty
      obtain ⟨-, refs, isNew⟩ := core_parts cores
      have none : aged.nRefCount = 0 := refs
      have between := loosened.congr fun other _ _ _ =>
        (and_iff_left none).symm
      obtain ⟨after, added, settled⟩ := between.addReference agedThere isNew
        (none.trans_lt (show (0 : Int) < ADDRMAN_NEW_BUCKETS_PER_ADDRESS by decide)) source nLater
      refine ⟨after, true, ?_, settled.consistent⟩
      rw [add_missing addr source nTimePenalty nNow nLater nRand routable known,
        if_pos (numberable routable known), added]
      rfl
    | some pair =>
      obtain ⟨nId, info⟩ := pair
      have there := find_eq_some known
      have updated : (man.put nId (refresh addr nTimePenalty nNow info)).Consistent :=
        consistent.put there rfl rfl
      have refreshed : (man.put nId (refresh addr nTimePenalty nNow info)).mapInfo.lookup nId =
          some (refresh addr nTimePenalty nNow info) := by
        rw [lookup_put, if_pos rfl]
      unfold CAddrMan.add_
      rw [routable, known]
      dsimp only
      rw [if_neg (by decide)]
      split
      · exact ⟨_, false, rfl, updated⟩
      · split
        · exact ⟨_, false, rfl, updated⟩
        · rename_i isNew
          split
          · exact ⟨_, false, rfl, updated⟩
          · rename_i notFull
            split
            · exact ⟨_, false, rfl, updated⟩
            · have new := Bool.eq_false_iff.mpr isNew
              obtain ⟨-, most, tight⟩ := updated.new.entries nId _ refreshed new
              have between : Between (fun other => other = nId ∧
                  (refresh addr nTimePenalty nNow info).nRefCount = 0) 0
                  (man.put nId (refresh addr nTimePenalty nNow info)) :=
                updated.between.congr fun other held _ _ => by
                  constructor
                  · exact False.elim
                  · exact fun both => tight.mp both.2
              obtain ⟨after, added, settled⟩ := between.addReference refreshed new
                (lt_of_le_of_ne most notFull) source nLater
              exact ⟨after, false, by rw [added]; rfl, settled.consistent⟩

omit [Crypto] in
theorem selectFrom_returns (table : Slot → Int) (nBuckets : Nat) (positive : 0 < nBuckets)
    (held : ∀ slot : Slot, slot.1 < nBuckets → slot.2 < ADDRMAN_BUCKET_SIZE → table slot ≠ -1 →
      ∃ info, man.mapInfo.lookup (table slot) = some info) (draws : List SelectDraw) :
    ∃ selected, man.selectFrom table nBuckets draws = some selected := by
  induction draws with
  | nil => exact ⟨none, rfl⟩
  | cons draw draws ih =>
    unfold selectFrom
    dsimp only
    split
    · exact ih
    · rename_i occupied
      obtain ⟨info, there⟩ := held _ (Nat.mod_lt _ positive) (Nat.mod_lt _ (by decide)) occupied
      rw [there]
      dsimp only
      split
      · exact ⟨_, rfl⟩
      · exact ih

theorem Consistent.select_ (consistent : man.Consistent) (nRand : Nat)
    (draws : List SelectDraw) : ∃ selected, man.select_ nRand draws = some selected := by
  unfold CAddrMan.select_
  split
  · exact ⟨_, rfl⟩
  · split
    · refine selectFrom_returns _ _ (by decide) (fun slot bucket position occupied => ?_) draws
      obtain ⟨info, there, -⟩ :=
        consistent.tried.own slot (mem_triedSlots.mpr ⟨bucket, position⟩) occupied
      exact ⟨info, there⟩
    · refine selectFrom_returns _ _ (by decide) (fun slot bucket position occupied => ?_) draws
      obtain ⟨info, there, -⟩ :=
        consistent.new.own slot (mem_newSlots.mpr ⟨bucket, position⟩) occupied
      exact ⟨info, there⟩

theorem Consistent.getAddrLoop (nRands : Nat → Nat) (nNow : Nat → Int) (nNodes remaining : Nat) :
    ∀ (n : Nat) (man : CAddrMan) (vAddr : List CAddress), man.Consistent →
      n + remaining = man.vRandom.length →
      ∃ after selected, CAddrMan.getAddrLoop nRands nNow nNodes remaining n man vAddr =
        some (after, selected) ∧ after.Consistent := by
  induction remaining with
  | zero => exact fun n man vAddr consistent _ => ⟨man, vAddr, rfl, consistent⟩
  | succ remaining ih =>
    intro n man vAddr consistent length
    unfold CAddrMan.getAddrLoop
    split
    · exact ⟨man, vAddr, rfl, consistent⟩
    · have insideN : n < man.vRandom.length := by omega
      have insideP : getRandInt (nRands n) (man.vRandom.length - n) + n <
          man.vRandom.length := by
        have below : getRandInt (nRands n) (man.vRandom.length - n) < man.vRandom.length - n :=
          Nat.mod_lt _ (by omega)
        omega
      obtain ⟨mapInfo, vRandom, swapped, indexed, same, -, lengths⟩ :=
        consistent.indexed.swapRandom insideN insideP
      have kept : Consistent { man with mapInfo := mapInfo, vRandom := vRandom } :=
        ⟨indexed, same.cores.tried consistent.tried rfl rfl,
          same.cores.new consistent.new rfl rfl,
          (same.of_part CAddrInfo.fInTried fun _ => rfl).counted consistent.counted rfl rfl⟩
      obtain ⟨nId, info, place, there, -⟩ :=
        indexed.at (show n < vRandom.length by rw [lengths]; exact insideN)
      have further := ih (n + 1) { man with mapInfo := mapInfo, vRandom := vRandom }
        (if info.isTerrible (nNow n) then vAddr else vAddr ++ [info.toCAddress]) kept
        (show n + 1 + remaining = vRandom.length by rw [lengths]; omega)
      simp only [bind_eq_bind]
      rw [swapped]
      simp only [bind_some]
      rw [place]
      simp only [bind_some]
      rw [there]
      exact further

theorem Consistent.getAddr_ (consistent : man.Consistent) (nRands : Nat → Nat)
    (nNow : Nat → Int) :
    ∃ after selected, man.getAddr_ nRands nNow = some (after, selected) ∧ after.Consistent :=
  Consistent.getAddrLoop nRands nNow _ _ 0 man [] consistent (Nat.zero_add _)

theorem consistent_create (nKey : Uint256) : (create nKey).Consistent where
  indexed :=
    { addresses := fun _ _ => iff_of_false (nomatch ·) fun ⟨_, found, _⟩ => nomatch found
      random := indexes_nil
      size := rfl
      numbered := fun _ _ found => nomatch found
      started := le_rfl }
  tried := ⟨fun _ _ found => (nomatch found), fun _ _ occupied => absurd rfl occupied⟩
  new := ⟨fun _ _ found => (nomatch found), fun _ _ occupied => absurd rfl occupied⟩
  counted := ⟨rfl, rfl⟩

end CAddrMan

/-! ## Runs -/

/-- A call of the address manager, with the times that it reads and the random numbers that it
draws. -/
inductive AddrCall
  | add (addr : CAddress) (source : CNetAddr) (nTimePenalty nNow nLater : Int) (nRand : Nat)
  | good (addr : CService) (nTime : Int) (nRand : Nat)
  | attempt (addr : CService) (nTime : Int)
  | connected (addr : CService) (nTime : Int)
  | select (nRand : Nat) (draws : List CAddrMan.SelectDraw)
  | getAddr (nRands : Nat → Nat) (nNow : Nat → Int)

namespace AddrCall

variable [Crypto]

/-- The manager after a call; without a result when an assertion fails or a counter overflows. -/
def step (man : CAddrMan) : AddrCall → Option CAddrMan
  | add addr source nTimePenalty nNow nLater nRand =>
    (man.add_ addr source nTimePenalty nNow nLater nRand).map Prod.fst
  | good addr nTime nRand => man.good_ addr nTime nRand
  | attempt addr nTime => man.attempt_ addr nTime
  | connected addr nTime => some (man.connected_ addr nTime)
  | select nRand draws => (man.select_ nRand draws).map fun _ => man
  | getAddr nRands nNow => (man.getAddr_ nRands nNow).map Prod.fst

def run (man : CAddrMan) (calls : List AddrCall) : Option CAddrMan := calls.foldlM step man

/-- No counter overflows in the call. -/
def Fits (man : CAddrMan) : AddrCall → Prop
  | add addr _ _ _ _ _ => man.Numberable addr
  | attempt addr _ => man.Countable addr
  | _ => True

/-- No counter overflows in any of the calls. -/
def RunFits : CAddrMan → List AddrCall → Prop
  | _, [] => True
  | man, call :: calls => call.Fits man ∧ ∀ after, call.step man = some after → RunFits after calls

variable {man : CAddrMan}

theorem fits_of_step {call : AddrCall} {after : CAddrMan} (stepped : call.step man = some after) :
    call.Fits man := by
  cases call with
  | add addr source nTimePenalty nNow nLater nRand =>
    intro routable missing
    by_contra full
    rw [step, CAddrMan.add_missing _ _ _ _ _ _ routable missing, if_neg full] at stepped
    contradiction
  | attempt addr nTime =>
    intro nId info found own
    by_contra full
    unfold step CAddrMan.attempt_ at stepped
    simp only [found, ne_eq, own, not_true, if_false, if_neg full] at stepped
    contradiction
  | good | connected | select | getAddr => trivial

theorem step_consistent (consistent : man.Consistent) {call : AddrCall} (fits : call.Fits man) :
    ∃ after, call.step man = some after ∧ after.Consistent := by
  cases call with
  | add addr source nTimePenalty nNow nLater nRand =>
    obtain ⟨after, added, returned, kept⟩ :=
      consistent.add_ addr source nTimePenalty nNow nLater nRand fits
    exact ⟨after, by rw [step, returned]; rfl, kept⟩
  | good addr nTime nRand => exact consistent.good_ addr nTime nRand
  | attempt addr nTime => exact consistent.attempt_ addr nTime fits
  | connected addr nTime => exact ⟨_, rfl, consistent.connected_ addr nTime⟩
  | select nRand draws =>
    obtain ⟨selected, returned⟩ := consistent.select_ nRand draws
    exact ⟨man, by rw [step, returned]; rfl, consistent⟩
  | getAddr nRands nNow =>
    obtain ⟨after, selected, returned, kept⟩ := consistent.getAddr_ nRands nNow
    exact ⟨after, by rw [step, returned]; rfl, kept⟩

theorem run_consistent (consistent : man.Consistent) (calls : List AddrCall) :
    (∃ after, run man calls = some after ∧ after.Consistent) ↔ RunFits man calls := by
  induction calls generalizing man with
  | nil => exact iff_of_true ⟨man, rfl, consistent⟩ trivial
  | cons call calls ih =>
    rw [run, foldlM_cons]
    constructor
    · rintro ⟨after, ran, last⟩
      obtain ⟨next, stepped, rest⟩ := bind_eq_some_iff.mp ran
      have fits := fits_of_step stepped
      refine ⟨fits, fun other again => ?_⟩
      obtain ⟨same, once, kept⟩ := step_consistent consistent fits
      obtain rfl := some.inj (stepped.symm.trans again)
      obtain rfl := some.inj (stepped.symm.trans once)
      exact (ih kept).mp ⟨after, rest, last⟩
    · rintro ⟨fits, rest⟩
      obtain ⟨next, stepped, kept⟩ := step_consistent consistent fits
      obtain ⟨after, ran, last⟩ := (ih kept).mpr (rest next stepped)
      refine ⟨after, ?_, last⟩
      rw [stepped]
      exact ran

end AddrCall

/-- **The tables of the address manager.** From a new manager with any key and after any calls in any
order, no assertion has failed and the tables are as `Check_` asks exactly when no counter has
overflowed. -/
theorem addrMan_consistent [Crypto] (nKey : Uint256) (calls : List AddrCall) :
    (∃ man, AddrCall.run (.create nKey) calls = some man ∧ man.Consistent) ↔
      AddrCall.RunFits (.create nKey) calls :=
  AddrCall.run_consistent (CAddrMan.consistent_create nKey) calls

/-! ## Using the numbers up -/

/-- No kind of unroutable address starts with the byte 42. -/
theorem CNetAddr.isRoutable_of_first {addr : CNetAddr} {others : List UInt8}
    (first : addr.bytes = 42 :: others) : addr.isRoutable = true := by
  have apart (byte : UInt8) (rest : List UInt8) (other : (byte == 42) = false) :
      addr.startsWith (byte :: rest) = false := by
    rw [CNetAddr.startsWith, first, isPrefixOf_cons_cons, other, Bool.false_and]
  have nonzero : addr ≠ 0#128 := by
    rintro rfl
    exact absurd (List.cons.inj (first.symm.trans (show CNetAddr.bytes 0 =
      List.replicate 16 0 by decide))).1 (by decide)
  have version : addr.isIPv4 = false := apart _ _ rfl
  have mapped : addr.startsWith (CNetAddr.pchIPv4.drop 3) = false := apart _ _ rfl
  have top : addr.getByte 15 = 42 := congrArg (List.getD · 0 0) first
  have unicast : addr.isRFC4193 = false := by
    rw [CNetAddr.isRFC4193, top]
    decide
  simp [CNetAddr.isRoutable, CNetAddr.isValid, CNetAddr.isRFC3849, CNetAddr.isRFC1918,
    CNetAddr.isRFC2544, CNetAddr.isRFC3927, CNetAddr.isRFC4862, CNetAddr.isRFC6598,
    CNetAddr.isRFC5737, CNetAddr.isRFC4843, CNetAddr.isLocal, version, mapped, nonzero, unicast,
    apart]

/-- Addresses of one network, as many as there are numbers. -/
def newcomerIp (i : Nat) : CNetAddr := BitVec.ofNat 128 (42 + i * 2 ^ 96)

theorem newcomerIp_routable (i : Nat) : (newcomerIp i).isRoutable = true := by
  obtain ⟨others, bytes⟩ : ∃ others, (newcomerIp i).bytes =
      UInt8.ofNat (newcomerIp i).toNat :: others := ⟨_, rfl⟩
  have first : UInt8.ofNat (newcomerIp i).toNat = 42 := by
    apply UInt8.toNat.inj
    rw [newcomerIp, BitVec.toNat_ofNat, UInt8.toNat_ofNat']
    change (42 + i * 2 ^ 96) % 2 ^ 128 % 2 ^ 8 = 42
    omega
  exact CNetAddr.isRoutable_of_first (first ▸ bytes)

theorem newcomerIp_inj {i j : Nat} (insideI : (i : Int) ≤ INT_MAX) (insideJ : (j : Int) ≤ INT_MAX)
    (same : newcomerIp i = newcomerIp j) : i = j := by
  have numbers := congrArg BitVec.toNat same
  rw [newcomerIp, newcomerIp, BitVec.toNat_ofNat, BitVec.toNat_ofNat] at numbers
  unfold INT_MAX at insideI insideJ
  omega

attribute [irreducible] newcomerIp

def newcomer (i : Nat) : CAddress := { ip := newcomerIp i }

def addNewcomer (i : Nat) : AddrCall := .add (newcomer i) 0 0 0 0 0

section

variable [Crypto] {nKey : Uint256} {man : CAddrMan}

omit [Crypto] in
theorem created_unknown {addr : CAddress} {other : CNetAddr} (apart : other ≠ addr.ip)
    (unknown : man.mapAddr other = none) (addrSource : CNetAddr) (nId nTimePenalty : Int) :
    ((man.created addr addrSource).age nId nTimePenalty).mapAddr other = none :=
  (update_of_ne apart _ _).trans unknown

theorem AddrCall.run_concat (man : CAddrMan) (calls : List AddrCall) (call : AddrCall) :
    AddrCall.run man (calls ++ [call]) = (AddrCall.run man calls).bind fun after =>
      call.step after := by
  rw [AddrCall.run, foldlM_append]
  simp only [foldlM_cons, foldlM_nil, bind_pure]
  rfl

theorem step_addNewcomer {k : Nat} (unknown : man.mapAddr (newcomerIp k) = none) :
    (addNewcomer k).step man = if man.nIdCount < INT_MAX then
        ((man.created (newcomer k) 0).age man.nIdCount 0).addReference man.nIdCount 0 0
      else none := by
  have missing : man.find (newcomer k).ip = none := by
    rw [CAddrMan.find, show man.mapAddr (newcomer k).ip = none from unknown]
    rfl
  have added := CAddrMan.add_missing (newcomer k) 0 0 0 0 0 (newcomerIp_routable k) missing
  rw [addNewcomer, AddrCall.step, added]
  split
  · rw [Option.map_map]
    exact Option.map_id'
  · rfl

theorem run_newcomers {k : Nat} (room : (k : Int) ≤ INT_MAX) :
    ∃ man, AddrCall.run (.create nKey) ((List.range k).map addNewcomer) = some man ∧
      man.Consistent ∧ man.nIdCount = k ∧
      ∀ i, k ≤ i → (i : Int) ≤ INT_MAX → man.mapAddr (newcomerIp i) = none := by
  induction k with
  | zero => exact ⟨_, rfl, CAddrMan.consistent_create nKey, rfl, fun _ _ _ => rfl⟩
  | succ k ih =>
    obtain ⟨man, ran, consistent, count, unknown⟩ := ih (by omega)
    have below : man.nIdCount < INT_MAX := by omega
    obtain ⟨after, stepped, kept⟩ :=
      AddrCall.step_consistent consistent (show (addNewcomer k).Fits man from fun _ _ => below)
    refine ⟨after, ?_, kept, ?_⟩
    · rw [range_succ, map_append, map_singleton, AddrCall.run_concat, ran,
        bind_some, stepped]
    · rw [step_addNewcomer (unknown k le_rfl (by omega)), if_pos below] at stepped
      have sheds := CAddrMan.Sheds.of_addReference stepped
      refine ⟨sheds.count.trans (congrArg (· + 1) count), fun i later inside =>
        sheds.unknown _ ?_⟩
      have apart : newcomerIp i ≠ newcomerIp k := fun same => by
        have := newcomerIp_inj inside (by omega) same
        omega
      exact created_unknown apart (unknown i (by omega) inside) _ _ _

theorem newcomers_overflow {k : Nat} (last : (k : Int) = INT_MAX) :
    AddrCall.run (.create nKey) ((List.range (k + 1)).map addNewcomer) = none := by
  obtain ⟨man, ran, -, count, unknown⟩ := run_newcomers (k := k) last.le
  have stopped : (addNewcomer k).step man = none := by
    rw [step_addNewcomer (unknown k le_rfl last.le), if_neg (by omega)]
  rw [range_succ, map_append, map_singleton, AddrCall.run_concat, ran,
    bind_some, stopped]

end

local instance addrCrypto : Crypto := checksumCrypto

/-- The number of the last address does not fit into an `int`. -/
theorem addrMan_overflows :
    AddrCall.run (.create 0) ((List.range (2 ^ 31)).map addNewcomer) = none :=
  newcomers_overflow (by decide : ((2147483647 : Nat) : Int) = INT_MAX)

end Agouti
