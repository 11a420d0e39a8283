import Agouti.Coins.CacheStack
import Agouti.Coins.View

/-! # Runs on a stack of coin caches

The calls on a stack whose backing views change only by flushes (`CoinsCall`), what they do to
the maps of its levels (`MapStep`), and the condition under which a flush hands on all changes
(`FlushFits`). A flush is right exactly under that condition (`flush_iff`), and a run in which
every flush meets it answers every query as the maps do (`coinsStack_refines`).
-/

namespace Agouti

open List Function Option

open CCoins (Alike)

namespace CCoinsView

/-- Every entry that a flush hands on as a change, and that is not fresh, still has its entry
in the cache below; or it is spent, and so is what lies under that cache. -/
def FlushFits : CCoinsView → Prop
  | .cache (.cache base held _) cacheCoins _ =>
    ∀ txid entry, cacheCoins.lookup txid = some entry → entry.dirty = true →
    entry.fresh = false → held.lookup txid = none →
    entry.coins.isPruned = true ∧ (base.coins txid).isPruned = true
  | _ => True

/-- The coins behind an entry of a cache, or behind its absence. -/
def shown (base : CCoins) (entry : Option CCoinsCacheEntry) : CCoins :=
  (entry.map CCoinsCacheEntry.coins).getD base

theorem coins_cache (base : CCoinsView) (cacheCoins : CCoinsMap) (hashBlock txid : Uint256) :
    (CCoinsView.cache base cacheCoins hashBlock).coins txid =
      shown (base.coins txid) (cacheCoins.lookup txid) := by
  cases present : cacheCoins.lookup txid with
  | none => exact coins_cache_of_none present
  | some entry => exact coins_cache_of_some present

theorem merged_spec {base : CoinMap} {txid : Uint256} {us : Option CCoinsCacheEntry}
    {entry : CCoinsCacheEntry} {map : CoinMap} (below : map txid = shown (base txid) us)
    (fits : EntryFits map txid entry)
    (fitsUs : ∀ held, us = some held → EntryFits base txid held)
    (hands : entry.dirty = true → entry.fresh = false → us = none →
      entry.coins.isPruned = true ∧ (base txid).isPruned = true) :
    ∃ result, merged us entry = some result ∧
      (∀ held, result = some held → EntryFits base txid held) ∧
      (shown (base txid) result).Alike entry.coins := by
  unfold merged
  cases dirty : entry.dirty with
  | false =>
    refine ⟨us, rfl, fitsUs, ?_⟩
    rw [← below]
    exact (fits.kept dirty).symm
  | true =>
    simp only [Bool.not_true, Bool.false_eq_true, ↓reduceIte]
    cases us with
    | none =>
      have same : map txid = base txid := below
      cases spent : entry.coins.isPruned with
      | true =>
        refine ⟨none, rfl, fun held none => by contradiction, .inr ⟨?_, spent⟩⟩
        cases fresh : entry.fresh with
        | false => exact (hands dirty fresh rfl).2
        | true =>
          have under := fits.fresh fresh
          rw [same] at under
          exact under
      | false =>
        cases fresh : entry.fresh with
        | false =>
          have handed := (hands dirty fresh rfl).1
          rw [spent] at handed
          contradiction
        | true =>
          refine ⟨_, rfl, fun held here => ?_, .refl _⟩
          obtain rfl := some.inj here
          refine ⟨fits.clean, fun _ => ?_, fun kept => by contradiction⟩
          rw [← same]
          exact fits.fresh fresh
    | some held =>
      have old := fitsUs held rfl
      by_cases erased : (held.fresh && entry.coins.isPruned) = true
      · simp only [erased, ↓reduceIte]
        rw [Bool.and_eq_true] at erased
        exact ⟨none, rfl, fun held none => by contradiction,
          .inr ⟨old.fresh erased.1, erased.2⟩⟩
      · simp only [erased, Bool.false_eq_true, ↓reduceIte]
        refine ⟨_, rfl, fun new here => ?_, .refl _⟩
        obtain rfl := some.inj here
        exact ⟨fits.clean, old.fresh, fun kept => by contradiction⟩

theorem writeCoins_coins {entries : List (Sigma fun _ : Uint256 => CCoinsCacheEntry)}
    (distinct : entries.NodupKeys) (store : CCoinsViewDB) (txid : Uint256) :
    (CCoinsViewDB.writeCoins entries store).coins txid =
      match entries.dlookup txid with
      | none => store.coins txid
      | some entry =>
        if entry.dirty then if entry.coins.isPruned then none else some entry.coins.cleanup
        else store.coins txid := by
  induction entries generalizing store with
  | nil => rfl
  | cons first rest ih =>
    obtain ⟨other, entry⟩ := first
    obtain ⟨apart, others⟩ := nodupKeys_cons.mp distinct
    rw [CCoinsViewDB.writeCoins, ih others]
    by_cases here : txid = other
    · subst here
      rw [dlookup_cons_eq, dlookup_eq_none.mpr apart]
      cases dirty : entry.dirty with
      | false => simp only [dirty, Bool.false_eq_true, ↓reduceIte]
      | true =>
        simp only [dirty, ↓reduceIte, CCoinsViewDB.batchWriteCoins, update_self]
    · rw [dlookup_cons_ne rest ⟨other, entry⟩ here]
      have same : (if entry.dirty then store.batchWriteCoins other entry.coins
          else store).coins txid = store.coins txid := by
        split
        · exact update_of_ne here _ _
        · rfl
      rw [same]

theorem batchWrite_spec {base : CCoinsView} {cacheCoins : CCoinsMap} {hashBlock : Uint256}
    (consistent : (CCoinsView.cache base cacheCoins hashBlock).Consistent)
    (fits : (CCoinsView.cache base cacheCoins hashBlock).FlushFits) :
    ∃ after, base.batchWrite cacheCoins hashBlock = some after ∧ after.Consistent ∧
      (∀ txid, (after.coins txid).Alike
        ((CCoinsView.cache base cacheCoins hashBlock).coins txid)) ∧
      after.levels.tail = base.levels.tail := by
  cases base with
  | db store =>
    refine ⟨_, rfl, trivial, fun txid => ?_, rfl⟩
    have written : (store.batchWrite cacheCoins hashBlock).coins txid =
        (CCoinsViewDB.writeCoins cacheCoins.entries store).coins txid := by
      unfold CCoinsViewDB.batchWrite
      split <;> rfl
    have found : cacheCoins.entries.dlookup txid = cacheCoins.lookup txid := rfl
    rw [coins_cache]
    simp only [coins]
    rw [written, writeCoins_coins cacheCoins.nodupKeys, found]
    cases present : cacheCoins.lookup txid with
    | none => exact .refl _
    | some entry =>
      have held := consistent.2 txid entry present
      simp only [shown, map_some, getD_some]
      cases dirty : entry.dirty with
      | false => exact (held.kept dirty).symm
      | true =>
        cases spent : entry.coins.isPruned with
        | true => exact .inr ⟨rfl, spent⟩
        | false =>
          simp only [↓reduceIte, Bool.false_eq_true, getD_some, held.clean]
          exact .refl _
  | cache base held other =>
    have round : ∀ txid entry, cacheCoins.lookup txid = some entry → ∃ result,
        merged (held.lookup txid) entry = some result ∧
          (∀ held, result = some held → EntryFits base.coins txid held) ∧
          (shown (base.coins txid) result).Alike entry.coins :=
      fun txid entry present => merged_spec (coins_cache base held other txid)
        (consistent.2 txid entry present) (consistent.1.2 txid)
        fun dirty fresh absent => fits txid entry present dirty fresh absent
    have loop := mergeCoins_spec cacheCoins.nodupKeys held
    rw [batchWrite]
    cases ended : mergeCoins cacheCoins.entries held with
    | none =>
      rw [ended] at loop
      obtain ⟨txid, failed⟩ := loop
      rw [mergedLookup, show cacheCoins.entries.dlookup txid = cacheCoins.lookup txid from rfl]
        at failed
      cases present : cacheCoins.lookup txid with
      | none => simp [present] at failed
      | some entry =>
        obtain ⟨result, merges, _⟩ := round txid entry present
        simp [present, merges] at failed
    | some entries =>
      rw [ended] at loop
      have each : ∀ txid, mergedLookup cacheCoins.entries held txid =
          some (entries.lookup txid) := loop
      have place : ∀ txid,
          (∀ entry, entries.lookup txid = some entry → EntryFits base.coins txid entry) ∧
          (shown (base.coins txid) (entries.lookup txid)).Alike
            ((CCoinsView.cache (.cache base held other) cacheCoins hashBlock).coins txid) := by
        intro txid
        have here := each txid
        rw [mergedLookup,
          show cacheCoins.entries.dlookup txid = cacheCoins.lookup txid from rfl] at here
        rw [coins_cache]
        cases present : cacheCoins.lookup txid with
        | none =>
          simp only [present, some.injEq] at here
          rw [← here, coins_cache]
          exact ⟨consistent.1.2 txid, .refl _⟩
        | some entry =>
          obtain ⟨result, merges, fit, same⟩ := round txid entry present
          simp only [present, merges, some.injEq] at here
          subst here
          exact ⟨fit, same⟩
      refine ⟨_, rfl, ⟨consistent.1.1, fun txid => (place txid).1⟩, fun txid => ?_, rfl⟩
      rw [coins_cache base entries hashBlock]
      exact (place txid).2

/-- **When a flush is right.** The assertion of `BatchWrite` holds and the level below gets the
map of the cache exactly where the flush fits. -/
theorem flush_iff {base : CCoinsView} {cacheCoins : CCoinsMap} {hashBlock : Uint256}
    (consistent : (CCoinsView.cache base cacheCoins hashBlock).Consistent) :
    (∃ after, base.batchWrite cacheCoins hashBlock = some after ∧ ∀ txid,
        (after.coins txid).Alike ((CCoinsView.cache base cacheCoins hashBlock).coins txid)) ↔
      (CCoinsView.cache base cacheCoins hashBlock).FlushFits := by
  constructor
  · rintro ⟨after, wrote, same⟩
    cases base with
    | db store => trivial
    | cache base held other =>
      intro txid entry present dirty fresh absent
      have loop := mergeCoins_spec cacheCoins.nodupKeys held
      obtain ⟨entries, ended, rfl⟩ := map_eq_some_iff.mp wrote
      rw [ended] at loop
      have here : mergedLookup cacheCoins.entries held txid = some (entries.lookup txid) :=
        loop txid
      rw [mergedLookup, show cacheCoins.entries.dlookup txid = cacheCoins.lookup txid from rfl]
        at here
      simp only [present, merged, dirty, Bool.not_true, Bool.false_eq_true, ↓reduceIte, absent,
        fresh] at here
      cases spent : entry.coins.isPruned with
      | false => simp [spent] at here
      | true =>
        simp only [spent, ↓reduceIte, some.injEq] at here
        have alike := same txid
        rw [coins_cache, coins_cache, ← here, present] at alike
        exact ⟨rfl, alike.isPruned_eq.trans spent⟩
  · intro fits
    obtain ⟨after, wrote, _, same, _⟩ := batchWrite_spec consistent fits
    exact ⟨after, wrote, same⟩

end CCoinsView

/-- The calls on a stack of caches. Levels count from the top, and only the top is modified. -/
inductive CoinsCall
  | getCoins (depth : Nat) (txid : Uint256)
  | haveCoins (depth : Nat) (txid : Uint256)
  | modifyCoins (txid : Uint256) (change : CCoins → CCoins)
  | setBestBlock (depth : Nat) (hashBlock : Uint256)
  | flush (depth : Nat)

/-- The maps after a flush: the level below has the map of the flushed one. -/
def flushed : Nat → List CoinMap → List CoinMap
  | 0, top :: _ :: rest => top :: top :: rest
  | depth + 1, top :: rest => top :: flushed depth rest
  | _, maps => maps

/-- What a call does to the maps. A modification sees the coins of the top, where spent ones are
all alike; the backing view alone has no modifications. -/
inductive MapStep : List CoinMap → CoinsCall → List CoinMap → Prop
  | getCoins (maps : List CoinMap) (depth : Nat) (txid : Uint256) :
      MapStep maps (.getCoins depth txid) maps
  | haveCoins (maps : List CoinMap) (depth : Nat) (txid : Uint256) :
      MapStep maps (.haveCoins depth txid) maps
  | setBestBlock (maps : List CoinMap) (depth : Nat) (hashBlock : Uint256) :
      MapStep maps (.setBestBlock depth hashBlock) maps
  | modifyCoins (top base : CoinMap) (rest : List CoinMap) (txid : Uint256)
      (change : CCoins → CCoins) {seen : CCoins} (same : seen.Alike (top txid)) :
      MapStep (top :: base :: rest) (.modifyCoins txid change)
        (Function.update top txid (change seen).cleanup :: base :: rest)
  | modifyNone (store : CoinMap) (txid : Uint256) (change : CCoins → CCoins) :
      MapStep [store] (.modifyCoins txid change) [store]
  | flush (maps : List CoinMap) (depth : Nat) : MapStep maps (.flush depth) (flushed depth maps)

namespace CCoinsView

def atLevel (operation : CCoinsView → Option CCoinsView) :
    Nat → CCoinsView → Option CCoinsView
  | 0, view => operation view
  | _ + 1, .db store => some (.db store)
  | depth + 1, .cache base cacheCoins hashBlock =>
    (atLevel operation depth base).map fun base => .cache base cacheCoins hashBlock

def call (view : CCoinsView) : CoinsCall → Option CCoinsView
  | .getCoins depth txid => atLevel (fun view => some (view.getCoins txid).1) depth view
  | .haveCoins depth txid => atLevel (fun view => some (view.haveCoins txid).1) depth view
  | .modifyCoins txid change => some (view.modifyCoins txid change)
  | .setBestBlock depth hashBlock =>
    atLevel (fun view => some (view.setBestBlock hashBlock)) depth view
  | .flush depth => atLevel flush depth view

def CallFits (view : CCoinsView) : CoinsCall → Prop
  | .flush depth => ∀ cache, view.level depth = some cache → cache.FlushFits
  | _ => True

def empty (store : CCoinsViewDB) : Nat → CCoinsView
  | 0 => .db store
  | height + 1 => .cache (empty store height) ∅ 0

def MapsAlike : List CoinMap → List CoinMap → Prop :=
  List.Forall₂ fun first second => ∀ txid, (first txid).Alike (second txid)

theorem mapsAlike_refl (maps : List CoinMap) : MapsAlike maps maps :=
  List.forall₂_same.mpr fun _ _ _ => .refl _

theorem MapsAlike.trans {first second third : List CoinMap} (left : MapsAlike first second)
    (right : MapsAlike second third) : MapsAlike first third := by
  induction left generalizing third with
  | nil => exact right
  | cons same _ ih =>
    cases right with
    | cons next others => exact .cons (fun txid => (same txid).trans (next txid)) (ih others)

theorem MapsAlike.flushed {first second : List CoinMap} (same : MapsAlike first second)
    (depth : Nat) : MapsAlike (flushed depth first) (flushed depth second) := by
  induction depth generalizing first second with
  | zero =>
    cases same with
    | nil => exact .nil
    | cons top rest =>
      cases rest with
      | nil => exact .cons top .nil
      | cons _ others => exact .cons top (.cons top others)
  | succ depth ih =>
    cases same with
    | nil => exact .nil
    | cons top rest => exact .cons top (ih rest)

theorem levels_eq (view : CCoinsView) : view.levels = view.coins :: view.levels.tail := by
  cases view <;> rfl

variable {view : CCoinsView} {maps : List CoinMap}

theorem atLevel_fetched {operation : CCoinsView → Option CCoinsView}
    (fetches : ∀ view, view.Consistent → ∃ after, operation view = some after ∧
      Fetched view after) (depth : Nat) (consistent : view.Consistent) :
    ∃ after, atLevel operation depth view = some after ∧ Fetched view after := by
  induction depth generalizing view with
  | zero => exact fetches view consistent
  | succ depth ih =>
    cases view with
    | db store => exact ⟨_, rfl, .refl consistent⟩
    | cache base cacheCoins hashBlock =>
      obtain ⟨after, done, fetched⟩ := ih consistent.1
      refine ⟨.cache after cacheCoins hashBlock, ?_, fetched.cached consistent⟩
      rw [atLevel, done, map_some]

theorem setBestBlock_fetched (consistent : view.Consistent)
    (hashBlock : Uint256) : Fetched view (view.setBestBlock hashBlock) := by
  cases view with
  | db store => exact .refl consistent
  | cache base cacheCoins old => exact ⟨consistent, rfl, rfl⟩

theorem atLevel_flush (depth : Nat) (consistent : view.Consistent)
    (fits : ∀ cache, view.level depth = some cache → cache.FlushFits) :
    ∃ after, atLevel flush depth view = some after ∧ after.Consistent ∧
      (∀ txid, (after.coins txid).Alike (view.coins txid)) ∧
      MapsAlike after.levels (flushed depth view.levels) := by
  induction depth generalizing view with
  | zero =>
    cases view with
    | db store => exact ⟨_, rfl, trivial, fun _ => .refl _, mapsAlike_refl _⟩
    | cache base cacheCoins hashBlock =>
      obtain ⟨after, wrote, still, same, below⟩ := batchWrite_spec consistent (fits _ rfl)
      have cleared : (CCoinsView.cache after ∅ hashBlock).coins = after.coins := by
        funext txid
        exact coins_cache_of_none (AList.lookup_empty txid)
      refine ⟨.cache after ∅ hashBlock, ?_, ⟨still, fun txid entry found => ?_⟩, ?_,
        ?_⟩
      · rw [atLevel, flush, wrote, map_some]
      · rw [AList.lookup_empty] at found
        contradiction
      · rw [cleared]
        exact same
      · rw [levels, levels, levels_eq after, levels_eq base, below, cleared]
        exact .cons same (.cons same (mapsAlike_refl _))
  | succ depth ih =>
    cases view with
    | db store =>
      refine ⟨_, rfl, trivial, fun _ => .refl _, ?_⟩
      cases depth with
      | zero => exact mapsAlike_refl _
      | succ depth => exact mapsAlike_refl _
    | cache base cacheCoins hashBlock =>
      obtain ⟨after, done, still, same, below⟩ := ih consistent.1 fits
      have top : ∀ txid, ((CCoinsView.cache after cacheCoins hashBlock).coins txid).Alike
          ((CCoinsView.cache base cacheCoins hashBlock).coins txid) := by
        intro txid
        rw [coins_cache, coins_cache]
        cases cacheCoins.lookup txid with
        | none => exact same txid
        | some entry => exact .refl _
      refine ⟨.cache after cacheCoins hashBlock, ?_,
        ⟨still, fun txid entry found =>
          (consistent.2 txid entry found).of_alike (same txid)⟩, top, .cons top below⟩
      rw [atLevel, done, map_some]

/-- A stack and the maps it refines. -/
structure Represents (view : CCoinsView) (maps : List CoinMap) : Prop where
  consistent : view.Consistent
  levels : MapsAlike view.levels maps

theorem Represents.fetched {after : CCoinsView} (represents : Represents view maps)
    (fetched : Fetched view after) : Represents after maps :=
  ⟨fetched.consistent, fetched.levels ▸ represents.levels⟩

theorem call_simulates (view : CCoinsView) (maps : List CoinMap) (operation : CoinsCall)
    (represents : Represents view maps) (fits : view.CallFits operation) :
    ∃ after mapsAfter, view.call operation = some after ∧ MapStep maps operation mapsAfter ∧
      Represents after mapsAfter := by
  have consistent := represents.consistent
  cases operation with
  | getCoins depth txid =>
    obtain ⟨after, done, fetched⟩ := atLevel_fetched
      (fun view consistent => ⟨_, rfl, (getCoins_fetched consistent txid).1⟩) depth consistent
    exact ⟨after, maps, done, .getCoins .., represents.fetched fetched⟩
  | haveCoins depth txid =>
    obtain ⟨after, done, fetched⟩ := atLevel_fetched
      (fun view consistent => ⟨_, rfl, (haveCoins_fetched consistent txid).1⟩) depth
      consistent
    exact ⟨after, maps, done, .haveCoins .., represents.fetched fetched⟩
  | setBestBlock depth hashBlock =>
    obtain ⟨after, done, fetched⟩ := atLevel_fetched
      (fun view consistent => ⟨_, rfl, setBestBlock_fetched consistent hashBlock⟩) depth
      consistent
    exact ⟨after, maps, done, .setBestBlock .., represents.fetched fetched⟩
  | modifyCoins txid change =>
    cases view with
    | db store =>
      have levels := represents.levels
      cases levels with
      | cons same rest =>
        cases rest
        exact ⟨_, _, rfl, .modifyNone .., represents⟩
    | cache base cacheCoins hashBlock =>
      obtain ⟨after, entries, done, fetched, still, same⟩ :=
        modifyCoins_spec consistent txid change
      have levels := represents.levels
      rw [CCoinsView.levels, levels_eq base] at levels
      cases levels with
      | cons top rest =>
        cases rest with
        | cons below others =>
          refine ⟨_, _, congrArg some done, .modifyCoins _ _ _ _ _ (top txid), still,
            ?_⟩
          rw [CCoinsView.levels, fetched.levels, levels_eq base]
          refine .cons (fun other => ?_) (.cons below others)
          apply (same other).trans
          by_cases here : other = txid
          · subst here
            rw [update_self, update_self]
            exact .refl _
          · rw [update_of_ne here, update_of_ne here]
            exact top other
  | flush depth =>
    obtain ⟨after, done, still, _, levels⟩ := atLevel_flush depth consistent fits
    exact ⟨after, _, done, .flush .., still, levels.trans (represents.levels.flushed depth)⟩

/-- Every query answers as the maps do, and every fresh entry stands over a spent or missing
one. -/
structure Answers (view : CCoinsView) (maps : List CoinMap) : Prop where
  queries : ∀ depth here, view.level depth = some here → ∃ map, maps[depth]? = some map ∧
    ∀ txid, ((here.getCoins txid).2.getD {}).Alike (map txid) ∧
      (here.haveCoins txid).2 = !(map txid).isPruned
  fresh : ∀ depth base cacheCoins hashBlock,
    view.level depth = some (.cache base cacheCoins hashBlock) → ∀ txid entry,
    cacheCoins.lookup txid = some entry → entry.fresh = true →
    ((base.getCoins txid).2.getD {}).isPruned = true

theorem Represents.below {here : CCoinsView} {depth : Nat} (represents : Represents view maps)
    (found : view.level depth = some here) :
    Represents here (maps.drop depth) := by
  induction depth generalizing view maps with
  | zero =>
    obtain rfl := some.inj found
    exact represents
  | succ depth ih =>
    cases view with
    | db store => contradiction
    | cache base cacheCoins hashBlock =>
      obtain ⟨consistent, levels⟩ := represents
      cases levels with
      | cons _ rest => exact ih ⟨consistent.1, rest⟩ found

theorem Represents.answers (represents : Represents view maps) : Answers view maps := by
  refine ⟨fun depth here found => ?_, fun depth base cacheCoins hashBlock found => ?_⟩
  · obtain ⟨consistent, levels⟩ := represents.below found
    rw [levels_eq here] at levels
    cases there : maps.drop depth with
    | nil =>
      rw [there] at levels
      cases levels
    | cons map rest =>
      rw [there] at levels
      cases levels with
      | cons same _ =>
        refine ⟨map, ?_, fun txid => ⟨?_, ?_⟩⟩
        · rw [← List.head?_drop, there]
          rfl
        · rw [(getCoins_fetched consistent txid).2]
          exact same txid
        · rw [(haveCoins_fetched consistent txid).2, (same txid).isPruned_eq]
  · intro txid entry present fresh
    obtain ⟨⟨consistent, fits⟩, _⟩ := represents.below found
    rw [(getCoins_fetched consistent txid).2]
    exact (fits txid entry present).fresh fresh

theorem empty_represents (store : CCoinsViewDB) (height : Nat) :
    Represents (empty store height)
      (List.replicate (height + 1) (CCoinsView.db store).coins) := by
  have same : ∀ height, (empty store height).coins = (CCoinsView.db store).coins := by
    intro height
    induction height with
    | zero => rfl
    | succ height ih =>
      funext txid
      rw [empty, coins_cache_of_none (AList.lookup_empty txid), ih]
  induction height with
  | zero => exact ⟨trivial, mapsAlike_refl _⟩
  | succ height ih =>
    refine ⟨⟨ih.consistent, fun txid entry found => ?_⟩, ?_⟩
    · rw [AList.lookup_empty] at found
      contradiction
    · rw [replicate_succ, levels_eq, same (height + 1)]
      exact .cons (fun _ => .refl _) ih.levels

end CCoinsView

open CCoinsView (call CallFits Answers empty)

/-- **A stack of caches refines maps of coins.** In every run of calls on a stack of any height
whose flushes all fit, no assertion fails, and in the state it reaches every query answers as
the maps after the same calls. -/
theorem coinsStack_refines (store : CCoinsViewDB) (height : Nat) (calls : List CoinsCall)
    (fits : Simulation.AllFit call CallFits (empty store height) calls) :
    ∃ view maps, Simulation.run call (empty store height) calls = some view ∧
      Simulation.SpecRun MapStep (List.replicate (height + 1) (CCoinsView.db store).coins) calls
        maps ∧
      Answers view maps := by
  obtain ⟨view, maps, ran, specRan, represents⟩ := Simulation.simulates_run
    CCoinsView.call_simulates (CCoinsView.empty_represents store height) fits
  exact ⟨view, maps, ran, specRan, represents.answers⟩

namespace FlushBelow

/-! Two caches over a database with one coin. -/

def coin : CCoins := { vout := [{ nValue := 1, scriptPubKey := [0x51] }], nHeight := 7 }

def store : CCoinsViewDB where
  coins txid := if txid = 7 then some coin else none
  stored txid entry found := by
    obtain ⟨_, same⟩ := ite_none_right_eq_some.mp found
    obtain rfl := some.inj same
    exact ⟨rfl, rfl⟩
  hashBlock := 1

/-- The top changes the coin, and both caches are flushed, the lower one first. -/
def calls (change : CCoins → CCoins) : List CoinsCall :=
  [.modifyCoins 7 change, .flush 1, .flush 0]

def added : List CoinsCall := [.modifyCoins 8 fun _ => coin, .flush 0]

end FlushBelow

/-- With the lower cache flushed first, the flush of a changed coin fails the assertion, and the
flush of a spent coin loses the spend. -/
theorem flushedBelow_fails :
    (Simulation.run call (empty FlushBelow.store 2)
        (FlushBelow.calls fun coins => { coins with nVersion := 2 })).isNone = true ∧
      ((Simulation.run call (empty FlushBelow.store 2) (FlushBelow.calls fun _ => {})).map
        fun view => (view.getCoins 7).2) = some (some FlushBelow.coin) ∧
      ∃ maps, Simulation.SpecRun MapStep
          (List.replicate 3 (CCoinsView.db FlushBelow.store).coins)
          (FlushBelow.calls fun _ => {}) maps ∧
        ∀ map, maps.head? = some map → (map 7).isPruned = true := by
  refine ⟨by decide +kernel, by decide +kernel, _, .cons (.modifyCoins _ _ _ _ _ (.refl _))
    (.cons (.flush _ _) (.cons (.flush _ _) (.nil _))), fun map top => ?_⟩
  obtain rfl := some.inj top
  rw [update_self]
  rfl

theorem coinsStack_refines_added :
    ∃ view maps, Simulation.run call (empty FlushBelow.store 2) FlushBelow.added = some view ∧
      Simulation.SpecRun MapStep (List.replicate 3 (CCoinsView.db FlushBelow.store).coins)
        FlushBelow.added maps ∧
      Answers view maps := by
  apply coinsStack_refines
  refine ⟨trivial, fun next stepped => ⟨fun cache found => ?_, fun _ _ => trivial⟩⟩
  obtain rfl := some.inj stepped
  obtain rfl := some.inj found
  -- the entry of the new coin is fresh
  intro txid entry present _ fresh _
  have entries : (AList.insert 8 { coins := FlushBelow.coin, dirty := true, fresh := true }
      (∅ : CCoinsMap)).lookup txid = some entry := present
  by_cases here : txid = 8
  · subst here
    rw [AList.lookup_insert, some.injEq] at entries
    subst entries
    contradiction
  · rw [AList.lookup_insert_ne here, AList.lookup_empty] at entries
    contradiction

end Agouti
