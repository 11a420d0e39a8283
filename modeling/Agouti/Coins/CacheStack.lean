import Agouti.Coins.Cache
import Agouti.Library.Simulation

/-! # A stack of coin caches refines maps of coins

Every level of a stack stands for a map of coins (`CCoinsView.coins`), in which a missing entry and
a spent one are alike. A fresh entry stands over a spent or missing one, and an entry that is not
dirty is what the level below has (`EntryFits`). `Flush` relies on more than that: an entry that is
dirty and not fresh must still have its entry in the cache below, which it was fetched through
(`FlushFits`).
-/

namespace Agouti

open List Function Option

namespace CCoins

/-- The same coins, or both spent: the equality of `CCoins`. -/
def Alike (a b : CCoins) : Prop := a = b ∨ (a.isPruned = true ∧ b.isPruned = true)

namespace Alike

variable {a b c : CCoins}

theorem refl (a : CCoins) : a.Alike a := .inl rfl

theorem symm (same : a.Alike b) : b.Alike a := by
  rcases same with rfl | ⟨first, second⟩
  · exact .refl _
  · exact .inr ⟨second, first⟩

theorem trans (first : a.Alike b) (second : b.Alike c) : a.Alike c := by
  rcases first with rfl | ⟨spent, middle⟩
  · exact second
  · rcases second with rfl | ⟨_, last⟩
    · exact .inr ⟨spent, middle⟩
    · exact .inr ⟨spent, last⟩

theorem isPruned_eq (same : a.Alike b) : a.isPruned = b.isPruned := by
  rcases same with rfl | ⟨first, second⟩
  · rfl
  · rw [first, second]

end Alike

theorem vout_ne_nil_iff {coins : CCoins} (clean : coins.cleanup = coins) :
    (coins.vout != []) = !coins.isPruned := by
  have empty := @cleanup_length_eq_zero coins
  rw [clean, length_eq_zero_iff] at empty
  cases pruned : coins.isPruned with
  | true => simp [empty.mpr pruned]
  | false =>
    simp only [Bool.not_false, bne_iff_ne, ne_eq]
    intro none
    rw [empty.mp none] at pruned
    contradiction

end CCoins

open CCoins (Alike)

abbrev CoinMap := Uint256 → CCoins

namespace CCoinsView

def coins : CCoinsView → CoinMap
  | .db store => fun txid => (store.coins txid).getD {}
  | .cache base cacheCoins _ => fun txid =>
    match cacheCoins.lookup txid with
    | some entry => entry.coins
    | none => base.coins txid

/-- The maps of a stack, from the top to the backing view. -/
def levels : CCoinsView → List CoinMap
  | .db store => [(CCoinsView.db store).coins]
  | .cache base cacheCoins hashBlock =>
    (CCoinsView.cache base cacheCoins hashBlock).coins :: base.levels

/-- The view below `depth` caches. -/
def level : Nat → CCoinsView → Option CCoinsView
  | 0, view => some view
  | _ + 1, .db _ => none
  | depth + 1, .cache base _ _ => base.level depth

/-- The entry differs from the coins behind the cache only as its flags say. -/
structure EntryFits (base : CoinMap) (txid : Uint256) (entry : CCoinsCacheEntry) : Prop where
  clean : entry.coins.cleanup = entry.coins
  fresh : entry.fresh = true → (base txid).isPruned = true
  kept : entry.dirty = false → entry.coins.Alike (base txid)

/-- Every entry of a cache fits what is behind it. -/
def Consistent : CCoinsView → Prop
  | .db _ => True
  | .cache base cacheCoins _ => Consistent base ∧
      ∀ txid entry, cacheCoins.lookup txid = some entry → EntryFits base.coins txid entry

variable {base view : CCoinsView} {cacheCoins : CCoinsMap} {hashBlock : Uint256}

theorem coins_cache_of_some {txid : Uint256} {entry : CCoinsCacheEntry}
    (found : cacheCoins.lookup txid = some entry) :
    (CCoinsView.cache base cacheCoins hashBlock).coins txid = entry.coins := by
  simp only [coins, found]

theorem coins_cache_of_none {txid : Uint256} (absent : cacheCoins.lookup txid = none) :
    (CCoinsView.cache base cacheCoins hashBlock).coins txid = base.coins txid := by
  simp only [coins, absent]

theorem coins_cache_congr {other : CCoinsView} (same : other.coins = base.coins)
    (cacheCoins : CCoinsMap) (first second : Uint256) :
    (CCoinsView.cache other cacheCoins first).coins =
      (CCoinsView.cache base cacheCoins second).coins := by
  funext txid
  simp only [coins, same]

theorem EntryFits.of_alike {base other : CoinMap} {txid : Uint256} {entry : CCoinsCacheEntry}
    (fits : EntryFits base txid entry) (same : (other txid).Alike (base txid)) :
    EntryFits other txid entry := by
  refine ⟨fits.clean, fun fresh => ?_, fun kept => (fits.kept kept).trans same.symm⟩
  rw [same.isPruned_eq]
  exact fits.fresh fresh

theorem Consistent.clean (consistent : view.Consistent) (txid : Uint256) :
    (view.coins txid).cleanup = view.coins txid := by
  induction view with
  | db store =>
    simp only [coins]
    cases found : store.coins txid with
    | none => rfl
    | some entry => exact (store.stored txid entry found).2
  | cache base cacheCoins hashBlock ih =>
    cases found : cacheCoins.lookup txid with
    | none =>
      rw [coins_cache_of_none found]
      exact ih consistent.1
    | some entry =>
      rw [coins_cache_of_some found]
      exact (consistent.2 txid entry found).clean

/-- What a query does: it answers as the map and leaves the maps of the stack. -/
structure Fetched (view after : CCoinsView) : Prop where
  consistent : after.Consistent
  coins : after.coins = view.coins
  levels : after.levels = view.levels

theorem Fetched.refl (consistent : view.Consistent) : Fetched view view :=
  ⟨consistent, rfl, rfl⟩

theorem Fetched.cached {after : CCoinsView} (fetched : Fetched base after)
    (consistent : (CCoinsView.cache base cacheCoins hashBlock).Consistent) :
    Fetched (.cache base cacheCoins hashBlock) (.cache after cacheCoins hashBlock) := by
  have same := coins_cache_congr fetched.coins cacheCoins hashBlock hashBlock
  refine ⟨⟨fetched.consistent, ?_⟩, same, ?_⟩
  · rw [fetched.coins]
    exact consistent.2
  · rw [CCoinsView.levels, CCoinsView.levels, same, fetched.levels]

theorem Fetched.insert {base : CCoinsView} {cacheCoins : CCoinsMap} {hashBlock txid : Uint256}
    (consistent : (CCoinsView.cache base cacheCoins hashBlock).Consistent)
    (absent : cacheCoins.lookup txid = none) {tmp : CCoins} (found : tmp = base.coins txid) :
    Fetched (.cache base cacheCoins hashBlock)
      (.cache base (cacheCoins.insert txid { coins := tmp, fresh := tmp.isPruned }) hashBlock) := by
  have same : (CCoinsView.cache base (cacheCoins.insert txid
      { coins := tmp, fresh := tmp.isPruned }) hashBlock).coins =
        (CCoinsView.cache base cacheCoins hashBlock).coins := by
    funext other
    by_cases here : other = txid
    · subst here
      rw [coins_cache_of_some (AList.lookup_insert _), coins_cache_of_none absent, found]
    · simp only [CCoinsView.coins, AList.lookup_insert_ne here]
  refine ⟨⟨consistent.1, fun other entry there => ?_⟩, same, ?_⟩
  · by_cases here : other = txid
    · subst here
      rw [AList.lookup_insert, some.injEq] at there
      subst there
      refine ⟨?_, fun spent => ?_, fun _ => ?_⟩
      · rw [found]
        exact consistent.1.clean other
      · rw [← found]
        exact spent
      · rw [← found]
        exact .refl tmp
    · rw [AList.lookup_insert_ne here] at there
      exact consistent.2 other entry there
  · rw [CCoinsView.levels, CCoinsView.levels, same]

theorem Fetched.trans {middle after : CCoinsView} (first : Fetched view middle)
    (second : Fetched middle after) : Fetched view after :=
  ⟨second.consistent, second.coins.trans first.coins, second.levels.trans first.levels⟩

theorem getCoins_fetched (consistent : view.Consistent) (txid : Uint256) :
    Fetched view (view.getCoins txid).1 ∧ (view.getCoins txid).2.getD {} = view.coins txid := by
  induction view with
  | db store => exact ⟨.refl consistent, rfl⟩
  | cache base cacheCoins hashBlock ih =>
    rw [getCoins]
    cases present : cacheCoins.lookup txid with
    | some entry =>
      rw [coins_cache_of_some present]
      exact ⟨.refl consistent, rfl⟩
    | none =>
      obtain ⟨fetched, answer⟩ := ih consistent.1
      rw [coins_cache_of_none present]
      cases asked : base.getCoins txid with
      | mk after found =>
        rw [asked] at fetched answer
        have cached := fetched.cached consistent
        cases found with
        | none => exact ⟨cached, answer⟩
        | some tmp =>
          have there : tmp = after.coins txid := by
            rw [fetched.coins]
            exact answer
          exact ⟨cached.trans (.insert cached.consistent present there), answer⟩

theorem haveCoins_fetched (consistent : view.Consistent) (txid : Uint256) :
    Fetched view (view.haveCoins txid).1 ∧
      (view.haveCoins txid).2 = !(view.coins txid).isPruned := by
  cases view with
  | db store =>
    refine ⟨.refl consistent, ?_⟩
    simp only [haveCoins, coins]
    cases found : store.coins txid with
    | none => rfl
    | some entry => simp [(store.stored txid entry found).1]
  | cache base cacheCoins hashBlock =>
    obtain ⟨fetched, answer⟩ := getCoins_fetched consistent txid
    refine ⟨fetched, ?_⟩
    have clean := consistent.clean txid
    rw [← answer] at clean ⊢
    simp only [haveCoins]
    generalize ((CCoinsView.cache base cacheCoins hashBlock).getCoins txid).2 = result at clean
    cases result with
    | none => rfl
    | some found => exact CCoins.vout_ne_nil_iff clean

theorem modifierEntry_fetched (consistent : (CCoinsView.cache base cacheCoins hashBlock).Consistent)
    (txid : Uint256) :
    Fetched base (modifierEntry base cacheCoins txid).1 ∧
      (modifierEntry base cacheCoins txid).2.coins =
        (CCoinsView.cache base cacheCoins hashBlock).coins txid ∧
      ((modifierEntry base cacheCoins txid).2.fresh = true →
        (base.coins txid).isPruned = true) := by
  rw [modifierEntry]
  cases present : cacheCoins.lookup txid with
  | some entry =>
    rw [coins_cache_of_some present]
    exact ⟨.refl consistent.1, rfl, (consistent.2 txid entry present).fresh⟩
  | none =>
    obtain ⟨fetched, answer⟩ := getCoins_fetched consistent.1 txid
    rw [coins_cache_of_none present]
    cases asked : base.getCoins txid with
    | mk after found =>
      rw [asked] at fetched answer
      cases found with
      | none =>
        refine ⟨fetched, answer, fun _ => ?_⟩
        rw [← answer]
        rfl
      | some tmp =>
        refine ⟨fetched, answer, fun spent => ?_⟩
        rw [← answer]
        exact spent

/-- What a modification does: the caller sees the coins of the map, and what the caller makes
of them is the new value of the map. -/
theorem modifyCoins_spec (consistent : (CCoinsView.cache base cacheCoins hashBlock).Consistent)
    (txid : Uint256) (change : CCoins → CCoins) :
    ∃ after entries, (CCoinsView.cache base cacheCoins hashBlock).modifyCoins txid change =
        .cache after entries hashBlock ∧ Fetched base after ∧
      (CCoinsView.cache after entries hashBlock).Consistent ∧
      ∀ other, ((CCoinsView.cache after entries hashBlock).coins other).Alike
        (Function.update (CCoinsView.cache base cacheCoins hashBlock).coins txid
          (change ((CCoinsView.cache base cacheCoins hashBlock).coins txid)).cleanup other) := by
  obtain ⟨fetched, shown, fresh⟩ := modifierEntry_fetched consistent txid
  refine ⟨(modifierEntry base cacheCoins txid).1, releaseEntry cacheCoins txid
    { (modifierEntry base cacheCoins txid).2 with
      coins := change (modifierEntry base cacheCoins txid).2.coins, dirty := true },
    rfl, fetched, ?_⟩
  generalize (modifierEntry base cacheCoins txid).1 = after at fetched
  generalize (modifierEntry base cacheCoins txid).2 = entry at shown fresh
  rw [← shown, releaseEntry]
  have cached := fetched.cached consistent
  have away : ∀ other, other ≠ txid → ∀ entries : CCoinsMap,
      entries.lookup other = cacheCoins.lookup other →
      (CCoinsView.cache after entries hashBlock).coins other =
        (CCoinsView.cache base cacheCoins hashBlock).coins other := by
    intro other _ entries same
    rw [← cached.coins]
    simp only [coins, same]
  split
  · -- a fresh entry that is spent leaves nothing behind
    rename_i erased
    simp only [Bool.and_eq_true, CCoins.isPruned_cleanup] at erased
    refine ⟨⟨fetched.consistent, fun other found there => ?_⟩, fun other => ?_⟩
    · have here : other ≠ txid := by
        rintro rfl
        simp at there
      rw [AList.lookup_erase_ne here] at there
      exact cached.consistent.2 other found there
    · by_cases here : other = txid
      · subst here
        rw [coins_cache_of_none (AList.lookup_erase ..), fetched.coins, update_self]
        exact .inr ⟨fresh erased.1, by rw [CCoins.isPruned_cleanup]; exact erased.2⟩
      · rw [update_of_ne here, away other here _ (AList.lookup_erase_ne here)]
        exact .refl _
  · refine ⟨⟨fetched.consistent, fun other found there => ?_⟩, fun other => ?_⟩
    · by_cases here : other = txid
      · subst here
        rw [AList.lookup_insert, some.injEq] at there
        subst there
        refine ⟨CCoins.cleanup_cleanup _, fun spent => ?_, fun clean => by contradiction⟩
        rw [fetched.coins]
        exact fresh spent
      · rw [AList.lookup_insert_ne here] at there
        exact cached.consistent.2 other found there
    · by_cases here : other = txid
      · subst here
        rw [coins_cache_of_some (AList.lookup_insert _), update_self]
        exact .refl _
      · rw [update_of_ne here, away other here _ (AList.lookup_insert_ne here)]
        exact .refl _

/-- What the loop of `BatchWrite` makes of the entry of one transaction, from the one of the
cache above: nothing when the assertion fails. -/
def merged (us : Option CCoinsCacheEntry) (entry : CCoinsCacheEntry) :
    Option (Option CCoinsCacheEntry) :=
  if !entry.dirty then some us
  else
    match us with
    | none =>
      if entry.coins.isPruned then some none
      else if entry.fresh then some (some { coins := entry.coins, dirty := true, fresh := true })
      else none
    | some us =>
      if us.fresh && entry.coins.isPruned then some none
      else some (some { us with coins := entry.coins, dirty := true })

theorem mergeEntry_spec (cacheCoins : CCoinsMap) (txid : Uint256) (entry : CCoinsCacheEntry) :
    match merged (cacheCoins.lookup txid) entry with
    | none => mergeEntry cacheCoins txid entry = none
    | some result => ∃ after, mergeEntry cacheCoins txid entry = some after ∧
        after.lookup txid = result ∧
        ∀ other, other ≠ txid → after.lookup other = cacheCoins.lookup other := by
  unfold merged mergeEntry
  cases dirty : entry.dirty with
  | false => exact ⟨cacheCoins, rfl, rfl, fun _ _ => rfl⟩
  | true =>
    simp only [Bool.not_true, Bool.false_eq_true, ↓reduceIte]
    cases present : cacheCoins.lookup txid with
    | none =>
      simp only
      by_cases spent : entry.coins.isPruned = true
      · simp only [spent, ↓reduceIte]
        exact ⟨cacheCoins, rfl, present, fun _ _ => rfl⟩
      · simp only [spent, Bool.false_eq_true, ↓reduceIte]
        cases fresh : entry.fresh with
        | false => rfl
        | true =>
          exact ⟨_, rfl, AList.lookup_insert _, fun _ here => AList.lookup_insert_ne here⟩
    | some us =>
      simp only
      by_cases erased : (us.fresh && entry.coins.isPruned) = true
      · simp only [erased, ↓reduceIte]
        exact ⟨_, rfl, AList.lookup_erase .., fun _ here => AList.lookup_erase_ne here⟩
      · simp only [erased, Bool.false_eq_true, ↓reduceIte]
        exact ⟨_, rfl, AList.lookup_insert _, fun _ here => AList.lookup_insert_ne here⟩

/-- The entry of a transaction after the loop. -/
def mergedLookup (entries : List (Sigma fun _ : Uint256 => CCoinsCacheEntry))
    (cacheCoins : CCoinsMap) (txid : Uint256) : Option (Option CCoinsCacheEntry) :=
  match entries.dlookup txid with
  | none => some (cacheCoins.lookup txid)
  | some entry => merged (cacheCoins.lookup txid) entry

theorem mergeCoins_spec {entries : List (Sigma fun _ : Uint256 => CCoinsCacheEntry)}
    (distinct : entries.NodupKeys) (cacheCoins : CCoinsMap) :
    match mergeCoins entries cacheCoins with
    | none => ∃ txid, mergedLookup entries cacheCoins txid = none
    | some after => ∀ txid, mergedLookup entries cacheCoins txid = some (after.lookup txid) := by
  induction entries generalizing cacheCoins with
  | nil => exact fun txid => rfl
  | cons first rest ih =>
    obtain ⟨txid, entry⟩ := first
    obtain ⟨apart, others⟩ := nodupKeys_cons.mp distinct
    have step := mergeEntry_spec cacheCoins txid entry
    rw [mergeCoins]
    cases result : merged (cacheCoins.lookup txid) entry with
    | none =>
      simp only [result] at step
      rw [step, bind_none]
      refine ⟨txid, ?_⟩
      rw [mergedLookup, dlookup_cons_eq]
      exact result
    | some us =>
      simp only [result] at step
      obtain ⟨middle, stepped, here, away⟩ := step
      rw [stepped, bind_some]
      -- the rest of the list has other transactions
      have absent : rest.dlookup txid = none := dlookup_eq_none.mpr apart
      have same : ∀ other, mergedLookup (⟨txid, entry⟩ :: rest) cacheCoins other =
          mergedLookup rest middle other := by
        intro other
        rw [mergedLookup, mergedLookup]
        by_cases equal : other = txid
        · subst equal
          rw [dlookup_cons_eq, absent]
          simp only [here, result]
        · rw [dlookup_cons_ne rest ⟨txid, entry⟩ equal, away other equal]
      have loop := ih others middle
      cases ended : mergeCoins rest middle with
      | none =>
        rw [ended] at loop
        obtain ⟨other, failed⟩ := loop
        exact ⟨other, (same other).trans failed⟩
      | some after =>
        rw [ended] at loop
        exact fun other => (same other).trans (loop other)

end CCoinsView

end Agouti
