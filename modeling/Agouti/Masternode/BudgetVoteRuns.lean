import Agouti.Masternode.BudgetVotes

/-! # Whether a vote on a budget is lost

A vote that arrives before its item waits in a map with one place for each item, so a second
waiting vote for the item takes the place of the first one, and a vote that arrives while the
node is not synchronized is dropped. Either is remembered as seen and not looked at again. In
a run without these two (`VoteStore.VoteFits`) every vote is entered or waits
(`VoteStore.Keeps`), and `CheckOrphanVotes` enters the waiting votes whose items are known
(`votesEntered_of_run`).
-/

namespace Agouti

open List Function Option

section

variable [Crypto]

namespace VoteStore

open BudgetVote

variable {Item Vote : Type} [BudgetVote Vote]

/-- The store does not tell the votes apart. -/
structure Same (vote other : Vote) : Prop where
  getHash : BudgetVote.getHash vote = BudgetVote.getHash other
  itemHash : BudgetVote.itemHash vote = BudgetVote.itemHash other
  voteKey : VoteStore.voteKey vote = VoteStore.voteKey other

/-- Different votes have different hashes, and those for one item different masternodes. -/
structure Apart (votes : List Vote) : Prop where
  hashes : ∀ vote ∈ votes, ∀ other ∈ votes, getHash vote = getHash other → Same vote other
  masternodes : ∀ vote ∈ votes, ∀ other ∈ votes, itemHash vote = itemHash other →
    voteKey vote = voteKey other → Same vote other

/-- The vote is counted in the `mapVotes` of its item. -/
def Entered (store : VoteStore Item Vote) (vote : Vote) : Prop :=
  ∃ entry old, store.mapItems (itemHash vote) = some entry ∧
    entry.mapVotes (voteKey vote) = some old ∧ getHash old = getHash vote

/-- The vote waits for its item. -/
def Waits (store : VoteStore Item Vote) (vote : Vote) : Prop :=
  ∃ old, store.mapOrphanVotes.lookup (itemHash vote) = some old ∧ getHash old = getHash vote

/-- What the store keeps of the votes. -/
structure Keeps (votes arrived : List Vote) (time : Int) (store : VoteStore Item Vote) :
    Prop where
  entries : ∀ hash entry key old, store.mapItems hash = some entry →
    entry.mapVotes key = some old →
    ∃ vote ∈ votes, getHash old = getHash vote ∧ itemHash vote = hash ∧ voteKey vote = key
  orphans : ∀ hash old, store.mapOrphanVotes.lookup hash = some old →
    itemHash old = hash ∧ nTime old ≤ time + 60 * 60 ∧ ∃ vote ∈ votes, Same old vote
  seen : ∀ hash old, store.mapSeenVotes hash = some old → ∃ vote ∈ votes, getHash vote = hash
  held : ∀ vote ∈ arrived, store.Entered vote ∨ store.Waits vote

/-- The vote passes the checks on arrival. -/
structure VoteValid (context : BudgetContext Item Vote) (vote : Vote) : Prop where
  enabled : context.enabled = true
  signature : signatureValid context true (setValid true vote) = true
  timely : nTime vote ≤ context.time + 60 * 60

/-- The vote is not lost when it arrives: if its item is not known, the node is synchronized
and no other vote waits for the item. -/
def VoteFits (context : BudgetContext Item Vote) (store : VoteStore Item Vote) (vote : Vote) :
    Prop :=
  store.mapItems (itemHash vote) = none →
    context.synced = true ∧ ∀ old, store.mapOrphanVotes.lookup (itemHash vote) = some old →
      getHash old = getHash vote

variable {store : VoteStore Item Vote} {votes arrived : List Vote} {time : Int}
  {context : BudgetContext Item Vote} {vote other : Vote}

theorem Same.symm (same : Same vote other) : Same other vote :=
  ⟨same.getHash.symm, same.itemHash.symm, same.voteKey.symm⟩

theorem setValid_same (fValid : Bool) (vote : Vote) : Same (setValid fValid vote) vote :=
  ⟨setValid_getHash _ _, setValid_itemHash _ _, by rw [voteKey, setValid_vin, voteKey]⟩

theorem apart_pair (hashes : getHash vote ≠ getHash other) (keys : voteKey vote ≠ voteKey other) :
    Apart [vote, other] := by
  constructor
  · intro first here last there same
    simp only [mem_cons, not_mem_nil, or_false] at here there
    rcases here with rfl | rfl <;> rcases there with rfl | rfl
    · exact ⟨rfl, rfl, rfl⟩
    · exact absurd same hashes
    · exact absurd same.symm hashes
    · exact ⟨rfl, rfl, rfl⟩
  · intro first here last there _ same
    simp only [mem_cons, not_mem_nil, or_false] at here there
    rcases here with rfl | rfl <;> rcases there with rfl | rfl
    · exact ⟨rfl, rfl, rfl⟩
    · exact absurd same keys
    · exact absurd same.symm keys
    · exact ⟨rfl, rfl, rfl⟩

theorem Apart.tail (apart : Apart (vote :: votes)) : Apart votes where
  hashes first here last there := apart.hashes first (.tail _ here) last (.tail _ there)
  masternodes first here last there := apart.masternodes first (.tail _ here) last (.tail _ there)

theorem entered_iff : store.Entered vote ↔
    ((store.mapItems (itemHash vote)).bind fun entry =>
      (entry.mapVotes (voteKey vote)).map getHash) = some (getHash vote) := by
  simp only [Entered, bind_eq_some_iff, map_eq_some_iff]
  constructor
  · rintro ⟨entry, old, found, voted, same⟩
    exact ⟨entry, found, old, voted, same⟩
  · rintro ⟨entry, found, old, voted, same⟩
    exact ⟨entry, old, found, voted, same⟩

theorem Entered.congr (entered : store.Entered vote) (same : Same vote other) :
    store.Entered other := by
  obtain ⟨entry, old, found, voted, hash⟩ := entered
  exact ⟨entry, old, by rw [← same.itemHash]; exact found, by rw [← same.voteKey]; exact voted,
    hash.trans same.getHash⟩

theorem Waits.congr (waits : store.Waits vote) (same : Same vote other) : store.Waits other := by
  obtain ⟨old, found, hash⟩ := waits
  exact ⟨old, by rw [← same.itemHash]; exact found, hash.trans same.getHash⟩

theorem Keeps.of_frame (keeps : store.Keeps votes arrived time) {after : VoteStore Item Vote}
    (entries : ∀ hash entry key old, after.mapItems hash = some entry →
      entry.mapVotes key = some old → ∃ before earlier, store.mapItems hash = some before ∧
        before.mapVotes key = some earlier ∧ getHash earlier = getHash old)
    (kept : ∀ vote ∈ arrived, store.Entered vote → after.Entered vote)
    (orphans : after.mapOrphanVotes = store.mapOrphanVotes)
    (seen : ∀ hash old, after.mapSeenVotes hash = some old →
      store.mapSeenVotes hash = some old) : after.Keeps votes arrived time where
  entries hash entry key old found voted := by
    obtain ⟨before, earlier, there, counted, same⟩ := entries hash entry key old found voted
    rw [← same]
    exact keeps.entries hash before key earlier there counted
  orphans := by
    rw [orphans]
    exact keeps.orphans
  seen hash old found := keeps.seen hash old (seen hash old found)
  held vote member := by
    rcases keeps.held vote member with entered | ⟨old, found, same⟩
    · exact .inl (kept vote member entered)
    · exact .inr ⟨old, by rw [orphans]; exact found, same⟩

variable {now : Int}

section

variable (keeps : store.Keeps votes arrived time)

include keeps

theorem Keeps.later (later : time ≤ now) :
    store.Keeps votes arrived now where
  entries := keeps.entries
  orphans hash old found := by
    obtain ⟨item, timely, source⟩ := keeps.orphans hash old found
    exact ⟨item, by omega, source⟩
  seen := keeps.seen
  held := keeps.held

theorem Keeps.cons
    (held : store.Entered vote ∨ store.Waits vote) : store.Keeps votes (vote :: arrived) time where
  entries := keeps.entries
  orphans := keeps.orphans
  seen := keeps.seen
  held other member := by
    rcases mem_cons.mp member with rfl | member
    · exact held
    · exact keeps.held other member

theorem Keeps.mono (vote : Vote) :
    store.Keeps (vote :: votes) arrived time where
  entries hash entry key old found voted := by
    obtain ⟨source, member, rest⟩ := keeps.entries hash entry key old found voted
    exact ⟨source, .tail _ member, rest⟩
  orphans hash old found := by
    obtain ⟨item, timely, source, member, same⟩ := keeps.orphans hash old found
    exact ⟨item, timely, source, .tail _ member, same⟩
  seen hash old found := by
    obtain ⟨source, member, same⟩ := keeps.seen hash old found
    exact ⟨source, .tail _ member, same⟩
  held := keeps.held

theorem Keeps.clearSeen :
    store.clearSeen.Keeps votes arrived time :=
  ⟨keeps.entries, keeps.orphans, fun _ _ found => by contradiction, keeps.held⟩

theorem Keeps.cleanItems :
    (store.cleanItems context).Keeps votes arrived time := by
  apply keeps.of_frame
  · intro hash entry key old found voted
    obtain ⟨before, there, rfl⟩ := map_eq_some_iff.mp found
    obtain ⟨earlier, counted, rfl⟩ := map_eq_some_iff.mp voted
    exact ⟨before, earlier, there, counted, (setValid_getHash _ _).symm⟩
  · rintro other _ ⟨entry, old, found, voted, same⟩
    refine ⟨_, _, map_eq_some_iff.mpr ⟨entry, found, rfl⟩,
      map_eq_some_iff.mpr ⟨old, voted, rfl⟩, ?_⟩
    rw [setValid_getHash]
    exact same
  · rfl
  · exact fun _ _ found => found

end

section

variable [BudgetItem Item]

section

variable (keeps : store.Keeps votes arrived time)

include keeps

theorem Keeps.addItem (item : Item) :
    (store.addItem context item).1.Keeps votes arrived time := by
  unfold VoteStore.addItem
  split
  · exact keeps
  · split
    · exact keeps
    · rename_i absent
      rw [not_isSome_iff_eq_none] at absent
      apply keeps.of_frame
      · intro hash entry key old found voted
        by_cases here : hash = BudgetItem.getHash item
        · subst here
          simp only [update_self, some.injEq] at found
          subst found
          contradiction
        · simp only [update_of_ne here] at found
          exact ⟨entry, old, found, voted, rfl⟩
      · rintro other _ ⟨entry, old, found, voted, same⟩
        have here : itemHash other ≠ BudgetItem.getHash item := by
          intro here
          rw [here, absent] at found
          contradiction
        exact ⟨entry, old, by simp only [update_of_ne here]; exact found, voted, same⟩
      · rfl
      · exact fun _ _ found => found

theorem Keeps.insertSeenItem (item : Item) :
    (store.insertSeenItem item).Keeps votes arrived time := by
  unfold VoteStore.insertSeenItem
  split
  · exact keeps
  · exact ⟨keeps.entries, keeps.orphans, keeps.seen, keeps.held⟩

theorem Keeps.submitItem (item : Item) :
    (store.submitItem context item).Keeps votes arrived time :=
  (keeps.insertSeenItem item).addItem item

theorem Keeps.processItem (item : Item) :
    (store.processItem context item).1.Keeps votes arrived time := by
  unfold VoteStore.processItem
  split
  · exact keeps
  · split
    · exact keeps
    · simp only
      split
      · split
        · exact ⟨keeps.entries, keeps.orphans, keeps.seen, keeps.held⟩
        · exact keeps
      · split
        · exact keeps.insertSeenItem item
        · exact (keeps.insertSeenItem item).addItem item

theorem Keeps.addImmatureItem (item : Item) :
    (store.addImmatureItem context item).Keeps votes arrived time := by
  unfold VoteStore.addImmatureItem
  split
  · exact ⟨keeps.entries, keeps.orphans, keeps.seen, keeps.held⟩
  · split
    · exact keeps
    · exact keeps.addItem item

theorem Keeps.newBlock :
    (store.newBlock context).Keeps votes arrived time := by
  have cleaned : (store.cleanItems context).Keeps votes arrived time := keeps.cleanItems
  unfold VoteStore.newBlock
  have loop : ∀ (items : List Item) (start : VoteStore Item Vote), start.Keeps votes arrived time →
      (items.foldl (VoteStore.addImmatureItem context) start).Keeps votes arrived time := by
    intro items
    induction items with
    | nil => exact fun _ start => start
    | cons item rest ih => exact fun _ start => ih _ (start.addImmatureItem item)
  exact loop _ _ ⟨cleaned.entries, cleaned.orphans, cleaned.seen, cleaned.held⟩

end

end

theorem updateItem_present {entry : BudgetEntry Item Vote} (pfrom synced : Bool)
    (present : store.mapItems (itemHash vote) = some entry) :
    store.updateItem time pfrom synced vote =
        ({ store with
          mapItems := Function.update store.mapItems (itemHash vote) (some { entry with
            mapVotes := Function.update entry.mapVotes (voteKey vote) (some vote) }) }, .ok ()) ∨
      (∃ error, store.updateItem time pfrom synced vote = (store, .error error)) ∧
        ((∃ old, entry.mapVotes (voteKey vote) = some old) ∨
          time + 60 * 60 < nTime vote) := by
  unfold updateItem addOrUpdateVote
  simp only [present]
  split
  · rename_i error failed
    refine .inr ⟨⟨error, rfl⟩, ?_⟩
    cases voted : entry.mapVotes (voteKey vote) with
    | some old => exact .inl ⟨old, rfl⟩
    | none =>
      rw [voted, bind_none] at failed
      simp only at failed
      split at failed
      · exact .inr ‹_›
      · contradiction
  · rename_i mapVotes done
    left
    split at done
    · contradiction
    · split at done
      · contradiction
      · obtain rfl := Except.ok.inj done
        rfl

theorem Keeps.enter (keeps : store.Keeps votes arrived time) (apart : Apart votes)
    (inside : arrived ⊆ votes) (member : other ∈ votes) (same : Same vote other)
    {entry : BudgetEntry Item Vote}
    (present : store.mapItems (itemHash vote) = some entry) {after : VoteStore Item Vote}
    (entered : after = { store with
      mapItems := Function.update store.mapItems (itemHash vote) (some { entry with
        mapVotes := Function.update entry.mapVotes (voteKey vote) (some vote) }) }) :
    after.Keeps votes arrived time ∧ after.Entered vote ∧
      ∀ third ∈ votes, store.Entered third → after.Entered third := by
  subst entered
  have kept : ∀ third ∈ votes, store.Entered third →
      ({ store with
        mapItems := Function.update store.mapItems (itemHash vote) (some { entry with
          mapVotes := Function.update entry.mapVotes (voteKey vote) (some vote) }) }
        : VoteStore Item Vote).Entered third := by
    rintro third there ⟨before, old, found, voted, hash⟩
    by_cases here : itemHash third = itemHash vote
    · rw [here, present, some.injEq] at found
      subst found
      by_cases key : voteKey third = voteKey vote
      · have one := apart.masternodes other member third there
          (same.itemHash.symm.trans here.symm) (same.voteKey.symm.trans key.symm)
        refine ⟨_, vote, by rw [here]; exact update_self .., ?_,
          same.getHash.trans one.getHash⟩
        simp only [key, update_self]
      · refine ⟨_, old, by rw [here]; exact update_self .., ?_, hash⟩
        simp only [update_of_ne key]
        exact voted
    · exact ⟨before, old, by simp only [update_of_ne here]; exact found, voted, hash⟩
  refine ⟨⟨?_, keeps.orphans, keeps.seen, fun third there => ?_⟩, ?_, kept⟩
  · intro hash found key old place voted
    by_cases here : hash = itemHash vote
    · subst here
      simp only [update_self, some.injEq] at place
      subst place
      by_cases own : key = voteKey vote
      · subst own
        simp only [update_self, some.injEq] at voted
        subst voted
        exact ⟨other, member, same.getHash, same.itemHash.symm, same.voteKey.symm⟩
      · simp only [update_of_ne own] at voted
        exact keeps.entries _ entry key old present voted
    · simp only [update_of_ne here] at place
      exact keeps.entries hash found key old place voted
  · rcases keeps.held third there with entered | waits
    · exact .inl (kept third (inside there) entered)
    · exact .inr waits
  · exact ⟨_, vote, update_self .., update_self .., rfl⟩

theorem Keeps.updateItem (keeps : store.Keeps votes arrived time) (apart : Apart votes)
    (inside : arrived ⊆ votes) (member : other ∈ votes) (same : Same vote other)
    (pfrom synced : Bool) (timely : nTime vote ≤ now + 60 * 60)
    (present : (store.mapItems (itemHash vote)).isSome) :
    (store.updateItem now pfrom synced vote).1.Keeps votes arrived time ∧
      (store.updateItem now pfrom synced vote).1.Entered vote ∧
      ∀ third ∈ votes, store.Entered third →
        (store.updateItem now pfrom synced vote).1.Entered third := by
  obtain ⟨entry, present⟩ := isSome_iff_exists.mp present
  rcases updateItem_present pfrom synced present with
    entered | ⟨⟨error, failed⟩, ⟨old, voted⟩ | ahead⟩
  · rw [entered]
    exact keeps.enter apart inside member same present rfl
  · rw [failed]
    refine ⟨keeps, ?_, fun _ _ => id⟩
    -- the vote that stands there is one of the list, so it is this one
    obtain ⟨source, there, hash, item, key⟩ := keeps.entries _ entry _ old present voted
    have one := apart.masternodes source there other member (item.trans same.itemHash)
      (key.trans same.voteKey)
    exact ⟨entry, old, present, voted, hash.trans (one.getHash.trans same.getHash.symm)⟩
  · omega

/-! ## The waiting votes -/

/-- What one pass of `CheckOrphanVotes` does with a waiting vote. -/
structure Replayed (votes arrived : List Vote) (time : Int) (hash : Uint256) (old : Vote)
    (store after : VoteStore Item Vote) : Prop where
  keeps : after.Keeps votes arrived time
  kept : ∀ vote ∈ votes, store.Entered vote → after.Entered vote
  entered : (store.mapItems hash).isSome → after.Entered old
  items : ∀ other, (after.mapItems other).isSome = (store.mapItems other).isSome
  others : ∀ other, other ≠ hash →
    after.mapOrphanVotes.lookup other = store.mapOrphanVotes.lookup other

theorem Keeps.eraseOrphan (keeps : store.Keeps votes arrived time) (apart : Apart votes)
    (inside : arrived ⊆ votes) {hash : Uint256} {old : Vote}
    (found : store.mapOrphanVotes.lookup hash = some old)
    (entered : store.Entered old) :
    { store with mapOrphanVotes := store.mapOrphanVotes.erase hash
      : VoteStore Item Vote }.Keeps votes arrived time := by
  refine ⟨keeps.entries, fun other there left => ?_, keeps.seen, fun vote member => ?_⟩
  · by_cases here : other = hash
    · rw [here, AList.lookup_erase] at left
      contradiction
    · rw [AList.lookup_erase_ne here] at left
      exact keeps.orphans other there left
  · rcases keeps.held vote member with counted | ⟨waiting, place, same⟩
    · exact .inl counted
    · by_cases here : itemHash vote = hash
      · left
        rw [here, found, some.injEq] at place
        subst place
        obtain ⟨_, _, source, there, one⟩ := keeps.orphans hash old found
        exact (entered.congr one).congr
          (apart.hashes source there vote (inside member) (one.getHash.symm.trans same))
      · exact .inr ⟨waiting, (AList.lookup_erase_ne here).trans place, same⟩

theorem Keeps.checkOrphanVote (keeps : store.Keeps votes arrived time) (apart : Apart votes)
    (inside : arrived ⊆ votes) (later : time ≤ now) {hash : Uint256} {old : Vote}
    (found : store.mapOrphanVotes.lookup hash = some old) :
    Replayed votes arrived time hash old store (store.checkOrphanVote now ⟨hash, old⟩) := by
  obtain ⟨rfl, timely, source, member, same⟩ := keeps.orphans hash old found
  cases present : store.mapItems (itemHash old) with
  | none =>
    have stays : store.checkOrphanVote now ⟨itemHash old, old⟩ = store := by
      unfold VoteStore.checkOrphanVote VoteStore.updateItem
      simp only [present, Bool.false_eq_true, if_false]
    rw [stays]
    refine ⟨keeps, fun _ _ => id, fun known => ?_, fun _ => rfl, fun _ _ => rfl⟩
    rw [present] at known
    contradiction
  | some entry =>
    rcases @updateItem_present _ _ _ _ store now old entry false false present with
      entered | ⟨⟨error, failed⟩, _⟩
    · obtain ⟨keepsNext, here, kept⟩ := keeps.enter apart inside member same present rfl
      have goes : store.checkOrphanVote now ⟨itemHash old, old⟩ =
          { (store.updateItem now false false old).1 with
            mapOrphanVotes := store.mapOrphanVotes.erase (itemHash old) } := by
        unfold VoteStore.checkOrphanVote
        simp only [entered]
      rw [goes]
      simp only [entered]
      refine ⟨keepsNext.eraseOrphan apart inside found here, kept, fun _ => here, fun other => ?_,
        fun other away => AList.lookup_erase_ne away⟩
      by_cases place : other = itemHash old
      · rw [place, present]
        simp only [update_self, isSome_some]
      · exact congrArg Option.isSome (update_of_ne place ..)
    · obtain ⟨_, here, _⟩ := keeps.updateItem apart inside member same false false
        (show nTime old ≤ now + 60 * 60 by omega) (by rw [present]; rfl)
      have stays : store.checkOrphanVote now ⟨itemHash old, old⟩ = store := by
        unfold VoteStore.checkOrphanVote
        simp only [failed]
      rw [stays]
      rw [failed] at here
      exact ⟨keeps, fun _ _ => id, fun _ => here, fun _ => rfl, fun _ _ => rfl⟩

theorem Keeps.checkOrphanVotes_loop (apart : Apart votes) (inside : arrived ⊆ votes)
    (later : time ≤ now) {orphans : List (Sigma fun _ : Uint256 => Vote)}
    (nodup : orphans.NodupKeys) (keeps : store.Keeps votes arrived time)
    (waiting : ∀ orphan ∈ orphans, store.mapOrphanVotes.lookup orphan.1 = some orphan.2) :
    (orphans.foldl (VoteStore.checkOrphanVote now) store).Keeps votes arrived time ∧
      (∀ vote ∈ votes, store.Entered vote →
        (orphans.foldl (VoteStore.checkOrphanVote now) store).Entered vote) ∧
      ∀ orphan ∈ orphans, (store.mapItems orphan.1).isSome →
        (orphans.foldl (VoteStore.checkOrphanVote now) store).Entered orphan.2 := by
  induction orphans generalizing store with
  | nil => exact ⟨keeps, fun _ _ => id, fun _ member => absurd member not_mem_nil⟩
  | cons orphan rest ih =>
    rw [nodupKeys_cons] at nodup
    obtain ⟨fresh, nodup⟩ := nodup
    have first := keeps.checkOrphanVote apart inside later (waiting orphan mem_cons_self)
    obtain ⟨keepsLast, kept, entered⟩ := ih nodup first.keeps fun other member => by
      rw [first.others]
      · exact waiting other (mem_cons_of_mem _ member)
      · intro same
        exact fresh (same ▸ mem_keys_of_mem member)
    rw [foldl_cons]
    refine ⟨keepsLast,
      fun vote member counted => kept vote member (first.kept vote member counted),
      fun other member known => ?_⟩
    rcases mem_cons.mp member with rfl | member
    · obtain ⟨_, _, source, there, same⟩ :=
        keeps.orphans other.1 other.2 (waiting other mem_cons_self)
      exact (kept source there ((first.entered known).congr same)).congr same.symm
    · exact entered other member (by rw [first.items]; exact known)

/-- **`CheckOrphanVotes` enters what waits.** Every vote whose item is known is entered. -/
theorem Keeps.checkOrphanVotes (keeps : store.Keeps votes arrived time) (apart : Apart votes)
    (inside : arrived ⊆ votes) (later : time ≤ now) :
    (store.checkOrphanVotes now).Keeps votes arrived time ∧
      ∀ vote ∈ arrived, (store.mapItems (itemHash vote)).isSome →
        (store.checkOrphanVotes now).Entered vote := by
  obtain ⟨keepsLast, kept, entered⟩ := keeps.checkOrphanVotes_loop apart inside later
    store.mapOrphanVotes.nodupKeys fun orphan member => AList.mem_lookup_iff.mpr member
  refine ⟨keepsLast, fun vote member known => ?_⟩
  rcases keeps.held vote member with counted | ⟨old, found, hash⟩
  · exact kept vote (inside member) counted
  · have replayed := entered ⟨itemHash vote, old⟩ (AList.mem_lookup_iff.mp found) known
    obtain ⟨_, _, source, there, same⟩ := keeps.orphans _ old found
    exact (replayed.congr same).congr
      (apart.hashes source there vote (inside member) (same.getHash.symm.trans hash))

/-! ## The arrival of a vote -/

omit [Crypto] in
theorem insertSeenVote_frame (store : VoteStore Item Vote) (vote : Vote) :
    (store.insertSeenVote vote).mapItems = store.mapItems ∧
      (store.insertSeenVote vote).mapOrphanVotes = store.mapOrphanVotes := by
  unfold VoteStore.insertSeenVote
  split <;> exact ⟨rfl, rfl⟩

theorem Keeps.insertSeenVote (keeps : store.Keeps votes arrived time) (member : other ∈ votes)
    (same : getHash vote = getHash other) :
    (store.insertSeenVote vote).Keeps votes arrived time := by
  unfold VoteStore.insertSeenVote
  split
  · exact keeps
  · refine ⟨keeps.entries, keeps.orphans, fun hash old found => ?_, keeps.held⟩
    by_cases here : hash = getHash vote
    · exact ⟨other, member, same.symm.trans here.symm⟩
    · simp only [update_of_ne here] at found
      exact keeps.seen hash old found

theorem Keeps.insertOrphan (keeps : store.Keeps votes arrived time) (member : other ∈ votes)
    (same : Same vote other) (timely : nTime vote ≤ time + 60 * 60)
    (free : ∀ old, store.mapOrphanVotes.lookup (itemHash vote) = some old →
      getHash old = getHash vote) :
    { store with mapOrphanVotes := store.mapOrphanVotes.insert (itemHash vote) vote
      : VoteStore Item Vote }.Keeps votes (other :: arrived) time := by
  refine ⟨keeps.entries, fun hash old found => ?_, keeps.seen, fun third there => ?_⟩
  · by_cases here : hash = itemHash vote
    · subst here
      rw [AList.lookup_insert, some.injEq] at found
      subst found
      exact ⟨rfl, timely, other, member, same⟩
    · rw [AList.lookup_insert_ne here] at found
      exact keeps.orphans hash old found
  · rcases mem_cons.mp there with rfl | there
    · right
      apply Waits.congr _ same
      exact ⟨vote, AList.lookup_insert _, rfl⟩
    · rcases keeps.held third there with entered | ⟨old, found, hash⟩
      · exact .inl entered
      · by_cases here : itemHash third = itemHash vote
        · rw [here] at found
          refine .inr ⟨vote, by rw [here]; exact AList.lookup_insert _, ?_⟩
          exact (free old found).symm.trans hash
        · exact .inr ⟨old, (AList.lookup_insert_ne here).trans found, hash⟩

theorem Keeps.arrive (keeps : store.Keeps votes arrived time) (apart : Apart votes)
    (inside : arrived ⊆ votes) (member : other ∈ votes) (same : Same vote other) {synced : Bool}
    (timely : nTime vote ≤ time + 60 * 60)
    (fits : store.mapItems (itemHash vote) = none → synced = true ∧
      ∀ old, store.mapOrphanVotes.lookup (itemHash vote) = some old →
        getHash old = getHash vote) :
    (store.updateItem time true synced vote).1.Keeps votes (other :: arrived) time := by
  cases present : store.mapItems (itemHash vote) with
  | some entry =>
    obtain ⟨after, entered, _⟩ := keeps.updateItem apart inside member same true synced timely
      (by rw [present]; rfl)
    exact after.cons (.inl (entered.congr same))
  | none =>
    obtain ⟨rfl, free⟩ := fits present
    unfold VoteStore.updateItem
    simp only [present, Bool.not_true, Bool.false_eq_true, if_false, if_true]
    exact keeps.insertOrphan member same timely free

theorem Keeps.processVote (keeps : store.Keeps votes votes time) (apart : Apart (vote :: votes))
    (later : time ≤ context.time) (valid : VoteValid context vote)
    (fits : VoteFits context store vote) :
    (store.processVote context vote).Keeps (vote :: votes) (vote :: votes) context.time := by
  have now := (keeps.later later).mono vote
  have same := setValid_same true vote
  have known : context.knowsMasternode (vin (setValid true vote)) = true := by
    have signature := valid.signature
    unfold signatureValid at signature
    simp only [Bool.and_eq_true] at signature
    exact signature.1
  unfold VoteStore.processVote
  simp only [valid.enabled, valid.signature, known, Bool.not_true, Bool.false_eq_true, if_false]
  split
  · rename_i seen
    obtain ⟨old, seen⟩ := isSome_iff_exists.mp seen
    obtain ⟨source, member, hash⟩ := keeps.seen _ old seen
    have one := apart.hashes source (.tail _ member) vote mem_cons_self
      (hash.trans same.getHash)
    apply now.cons
    rcases keeps.held source member with entered | waits
    · exact .inl (entered.congr one)
    · exact .inr (waits.congr one)
  · obtain ⟨sameItems, sameOrphans⟩ := insertSeenVote_frame store (setValid true vote)
    apply (now.insertSeenVote mem_cons_self same.getHash).arrive apart
      (subset_cons_self _ _) mem_cons_self same
    · rw [setValid_nTime]
      exact valid.timely
    · rw [sameItems, sameOrphans, same.itemHash, same.getHash]
      exact fits

theorem Keeps.castVote (keeps : store.Keeps votes votes time)
    (later : time ≤ context.time)
    (apart : (store.updateItem context.time false context.synced vote).2.isOk = true →
      Apart (vote :: votes)) :
    (store.castVote context vote).Keeps
      (if (store.updateItem context.time false context.synced vote).2.isOk then vote :: votes
        else votes)
      (if (store.updateItem context.time false context.synced vote).2.isOk then vote :: votes
        else votes) context.time := by
  have now := keeps.later later
  unfold VoteStore.castVote
  cases present : store.mapItems (itemHash vote) with
  | none =>
    have stays : store.updateItem context.time false context.synced vote =
        (store, .error .notFound) := by
      unfold VoteStore.updateItem
      simp only [present, Bool.false_eq_true, if_false]
    simp only [stays]
    exact now
  | some entry =>
    rcases @updateItem_present _ _ _ _ store context.time vote entry false context.synced
      present with entered | ⟨⟨error, failed⟩, _⟩
    · have apart := apart (by rw [entered]; rfl)
      obtain ⟨after, here, _⟩ := (now.mono vote).enter apart (subset_cons_self _ _)
        mem_cons_self ⟨rfl, rfl, rfl⟩ present rfl
      simp only [entered]
      exact (after.cons (.inl here)).insertSeenVote mem_cons_self rfl
    · simp only [failed]
      exact now

end VoteStore

open VoteStore (Apart VoteValid VoteFits)

/-! ## Runs of the budget manager -/

/-- What changes the maps: the messages of peers, new blocks, and the items and votes of this
node. -/
inductive BudgetCall where
  | mprop (context : ProposalContext) (proposal : CBudgetProposalBroadcast)
  | mvote (context : ProposalContext) (vote : CBudgetVote)
  | fbs (context : FinalizedContext) (budget : CFinalizedBudgetBroadcast)
  | fbvote (context : FinalizedContext) (vote : CFinalizedBudgetVote)
  | newBlock (context : ProposalContext) (finalized : FinalizedContext) (clears : Bool)
  | submitProposal (context : ProposalContext) (proposal : CBudgetProposalBroadcast)
  | submitFinalBudget (context : FinalizedContext) (budget : CFinalizedBudgetBroadcast)
  | castVote (context : ProposalContext) (vote : CBudgetVote)
  | castFinalizedVote (context : FinalizedContext) (vote : CFinalizedBudgetVote)

namespace BudgetCall

def run (budget : CBudgetManager) : BudgetCall → CBudgetManager
  | mprop context proposal => budget.processMprop context proposal
  | mvote context vote => budget.processMvote context vote
  | fbs context finalized => budget.processFbs context finalized
  | fbvote context vote => budget.processFbvote context vote
  | newBlock context finalized clears => budget.newBlock context finalized clears
  | submitProposal context proposal =>
    { budget with proposals := budget.proposals.submitItem context proposal }
  | submitFinalBudget context finalized =>
    { budget with budgets := budget.budgets.submitItem context finalized }
  | castVote context vote => { budget with proposals := budget.proposals.castVote context vote }
  | castFinalizedVote context vote =>
    { budget with budgets := budget.budgets.castVote context vote }

def time : BudgetCall → Int
  | mprop context _ | mvote context _ | newBlock context _ _ | submitProposal context _
  | castVote context _ => context.time
  | fbs context _ | fbvote context _ | submitFinalBudget context _
  | castFinalizedVote context _ => context.time

def mvotes (budget : CBudgetManager) (votes : List CBudgetVote) :
    BudgetCall → List CBudgetVote
  | mvote _ vote => vote :: votes
  | castVote context vote =>
    if (budget.proposals.updateItem context.time false context.synced vote).2.isOk then
      vote :: votes
    else votes
  | _ => votes

def fbvotes (budget : CBudgetManager) (votes : List CFinalizedBudgetVote) :
    BudgetCall → List CFinalizedBudgetVote
  | fbvote _ vote => vote :: votes
  | castFinalizedVote context vote =>
    if (budget.budgets.updateItem context.time false context.synced vote).2.isOk then
      vote :: votes
    else votes
  | _ => votes

/-- A vote that arrives is valid, and it is not lost. -/
def Fits (budget : CBudgetManager) : BudgetCall → Prop
  | mvote context vote => VoteValid context vote ∧ VoteFits context budget.proposals vote
  | fbvote context vote => VoteValid context vote ∧ VoteFits context budget.budgets vote
  | _ => True

end BudgetCall

/-- The managers that calls reach from the empty maps with a clock that goes forward, the calls
all fitting, and the votes that have arrived. -/
inductive BudgetRun :
    CBudgetManager → Int → List CBudgetVote → List CFinalizedBudgetVote → Prop
  | start (time : Int) : BudgetRun {} time [] []
  | call {budget : CBudgetManager} {time : Int} {mvotes : List CBudgetVote}
      {fbvotes : List CFinalizedBudgetVote} (run : BudgetRun budget time mvotes fbvotes)
      (call : BudgetCall) (later : time ≤ call.time) (fits : call.Fits budget) :
      BudgetRun (call.run budget) call.time (call.mvotes budget mvotes)
        (call.fbvotes budget fbvotes)

def CBudgetManager.Keeps (budget : CBudgetManager) (mvotes : List CBudgetVote)
    (fbvotes : List CFinalizedBudgetVote) (time : Int) : Prop :=
  budget.proposals.Keeps mvotes mvotes time ∧ budget.budgets.Keeps fbvotes fbvotes time

section

variable {budget : CBudgetManager} {mvotes : List CBudgetVote}
  {fbvotes : List CFinalizedBudgetVote} {time : Int}

theorem CBudgetManager.Keeps.checkOrphanVotes (keeps : budget.Keeps mvotes fbvotes time)
    (apart : Apart mvotes) (apartFinalized : Apart fbvotes) {now : Int} (later : time ≤ now) :
    (budget.checkOrphanVotes now).Keeps mvotes fbvotes time :=
  ⟨(keeps.1.checkOrphanVotes apart (List.Subset.refl _) later).1,
    (keeps.2.checkOrphanVotes apartFinalized (List.Subset.refl _) later).1⟩

variable {call : BudgetCall}

theorem BudgetCall.apart_of_mvotes (apart : Apart (call.mvotes budget mvotes)) : Apart mvotes := by
  unfold BudgetCall.mvotes at apart
  split at apart
  · exact apart.tail
  · split at apart
    · exact apart.tail
    · exact apart
  · exact apart

theorem BudgetCall.apart_of_fbvotes
    (apart : Apart (call.fbvotes budget fbvotes)) : Apart fbvotes := by
  unfold BudgetCall.fbvotes at apart
  split at apart
  · exact apart.tail
  · split at apart
    · exact apart.tail
    · exact apart
  · exact apart

theorem BudgetCall.run_keeps (keeps : budget.Keeps mvotes fbvotes time) (later : time ≤ call.time)
    (fits : call.Fits budget) (apart : Apart (call.mvotes budget mvotes))
    (apartFinalized : Apart (call.fbvotes budget fbvotes)) :
    (call.run budget).Keeps (call.mvotes budget mvotes) (call.fbvotes budget fbvotes)
      call.time := by
  have now : budget.Keeps mvotes fbvotes call.time := ⟨keeps.1.later later, keeps.2.later later⟩
  cases call with
  | mprop context proposal =>
    have added : (⟨(budget.proposals.processItem context proposal).1, budget.budgets⟩ :
        CBudgetManager).Keeps mvotes fbvotes context.time := ⟨now.1.processItem proposal, now.2⟩
    unfold BudgetCall.run CBudgetManager.processMprop
    simp only
    split
    · exact added.checkOrphanVotes apart apartFinalized le_rfl
    · exact added
  | fbs context finalized =>
    have added : (⟨budget.proposals, (budget.budgets.processItem context finalized).1⟩ :
        CBudgetManager).Keeps mvotes fbvotes context.time := ⟨now.1, now.2.processItem finalized⟩
    unfold BudgetCall.run CBudgetManager.processFbs
    simp only
    split
    · exact added.checkOrphanVotes apart apartFinalized le_rfl
    · exact added
  | mvote context vote => exact ⟨keeps.1.processVote apart later fits.1 fits.2, now.2⟩
  | fbvote context vote => exact ⟨now.1, keeps.2.processVote apartFinalized later fits.1 fits.2⟩
  | newBlock context finalized clears =>
    unfold BudgetCall.run CBudgetManager.newBlock
    cases clears with
    | true => exact ⟨now.1.clearSeen.newBlock, now.2.clearSeen.newBlock⟩
    | false => exact ⟨now.1.newBlock, now.2.newBlock⟩
  | submitProposal context proposal => exact ⟨now.1.submitItem proposal, now.2⟩
  | submitFinalBudget context finalized => exact ⟨now.1, now.2.submitItem finalized⟩
  | castVote context vote =>
    refine ⟨keeps.1.castVote later fun entered => ?_, now.2⟩
    simp only [BudgetCall.mvotes, entered, if_true] at apart
    exact apart
  | castFinalizedVote context vote =>
    refine ⟨now.1, keeps.2.castVote later fun entered => ?_⟩
    simp only [BudgetCall.fbvotes, entered, if_true] at apartFinalized
    exact apartFinalized

theorem BudgetRun.keeps (run : BudgetRun budget time mvotes fbvotes) (apart : Apart mvotes)
    (apartFinalized : Apart fbvotes) : budget.Keeps mvotes fbvotes time := by
  induction run with
  | start time =>
    refine ⟨⟨?_, ?_, ?_, ?_⟩, ⟨?_, ?_, ?_, ?_⟩⟩ <;> intros <;> contradiction
  | call run call later fits ih =>
    exact call.run_keeps (ih (call.apart_of_mvotes apart)
      (call.apart_of_fbvotes apartFinalized)) later fits apart apartFinalized

end

/-- **No vote is lost.** In every run whose calls all fit, in any order, with at most one vote of
a masternode for an item, `CheckOrphanVotes` leaves every vote whose item has arrived in the
`mapVotes` of the item. -/
theorem votesEntered_of_run {budget : CBudgetManager} {mvotes : List CBudgetVote}
    {fbvotes : List CFinalizedBudgetVote} {time now : Int}
    (run : BudgetRun budget time mvotes fbvotes) (apart : Apart mvotes)
    (apartFinalized : Apart fbvotes) (later : time ≤ now) :
    (∀ vote ∈ mvotes, (budget.proposals.mapItems vote.nProposalHash).isSome →
        (budget.checkOrphanVotes now).proposals.Entered vote) ∧
      ∀ vote ∈ fbvotes, (budget.budgets.mapItems vote.nBudgetHash).isSome →
        (budget.checkOrphanVotes now).budgets.Entered vote := by
  obtain ⟨keeps, keepsFinalized⟩ := run.keeps apart apartFinalized
  exact ⟨(keeps.checkOrphanVotes apart (List.Subset.refl _) later).2,
    (keepsFinalized.checkOrphanVotes apartFinalized (List.Subset.refl _) later).2⟩

end

namespace WaitingVotes

/-! A synchronized node that accepts every proposal and knows every masternode. -/

def context : ProposalContext where
  enabled := true
  synced := true
  time := 1400070200
  isBudgetCollateralValid _ := (true, 6)
  isValid _ := true
  knowsMasternode _ := true
  verifies _ := true

def proposal : CBudgetProposalBroadcast :=
  { strProposalName := [0x61], strURL := [0x62], nBlockStart := 100, nBlockEnd := 200, nAmount := 5,
    address := [0x51], nFeeTXHash := 3 }

def vote [Crypto] (masternode : Uint256) : CBudgetVote :=
  { vin := { prevout := ⟨masternode, 0⟩, scriptSig := [] },
    nProposalHash := BudgetItem.getHash proposal, nVote := 1, nTime := 1400070200, vchSig := [] }

def lost [Crypto] : List BudgetCall :=
  [.mvote context (vote 1), .mvote context (vote 2), .mprop context proposal,
    .mvote context (vote 1), .mvote context (vote 2)]

def kept [Crypto] : List BudgetCall :=
  [.mvote context (vote 1), .mprop context proposal, .mvote context (vote 2)]

end WaitingVotes

section

local instance WaitingVotes.instCrypto : Crypto := checksumCrypto

open WaitingVotes
open VoteStore (Apart VoteValid apart_pair entered_iff)

theorem WaitingVotes.valid (masternode : Uint256) : VoteValid context (vote masternode) :=
  ⟨rfl, rfl, by change (1400070200 : Int) ≤ 1400070200 + 60 * 60; omega⟩

theorem WaitingVotes.apart : Apart [vote 2, vote 1] := by
  apply apart_pair <;> decide +kernel

/-- Two votes wait for one proposal; only the second one is counted, also after both are sent
again. -/
theorem waitingVotes_lost :
    let budget := (lost.foldl BudgetCall.run {}).checkOrphanVotes 1400070200
    VoteValid context (vote 1) ∧ VoteValid context (vote 2) ∧ Apart [vote 2, vote 1] ∧
      (budget.proposals.mapItems (BudgetItem.getHash proposal)).isSome = true ∧
      ¬budget.proposals.Entered (vote 1) ∧ budget.proposals.Entered (vote 2) := by
  refine ⟨WaitingVotes.valid 1, WaitingVotes.valid 2, WaitingVotes.apart, by decide +kernel, ?_, ?_⟩
  · rw [entered_iff]
    decide +kernel
  · rw [entered_iff]
    decide +kernel

/-- One vote waits for the proposal and one comes after it. -/
theorem votesEntered_of_run_kept :
    ((kept.foldl BudgetCall.run {}).checkOrphanVotes 1400070200).proposals.Entered (vote 2) ∧
      ((kept.foldl BudgetCall.run {}).checkOrphanVotes 1400070200).proposals.Entered (vote 1) := by
  have run : BudgetRun (kept.foldl BudgetCall.run {}) 1400070200 [vote 2, vote 1] [] := by
    apply BudgetRun.call (.call (.call (.start 1400070200) (.mvote context (vote 1)) le_rfl ?_)
      (.mprop context proposal) le_rfl trivial) (.mvote context (vote 2)) le_rfl
    · refine ⟨WaitingVotes.valid 2, fun absent => ?_⟩
      have known : ((([.mvote context (vote 1), .mprop context proposal] : List BudgetCall).foldl
          BudgetCall.run {}).proposals.mapItems (BudgetItem.getHash proposal)).isSome = true := by
        decide +kernel
      exact absurd absent (isSome_iff_ne_none.mp known)
    · exact ⟨WaitingVotes.valid 1, fun _ => ⟨rfl, fun _ found => by contradiction⟩⟩
  obtain ⟨entered, _⟩ := votesEntered_of_run run WaitingVotes.apart
    ⟨fun _ member => absurd member not_mem_nil,
      fun _ member => absurd member not_mem_nil⟩ le_rfl
  have known : ((kept.foldl BudgetCall.run {}).proposals.mapItems
      (BudgetItem.getHash proposal)).isSome = true := by
    decide +kernel
  have named : ∀ masternode, (vote masternode).nProposalHash = BudgetItem.getHash proposal :=
    fun _ => rfl
  constructor
  · apply entered (vote 2) mem_cons_self
    rw [named]
    exact known
  · apply entered (vote 1) (mem_cons_of_mem _ mem_cons_self)
    rw [named]
    exact known

end

end Agouti
