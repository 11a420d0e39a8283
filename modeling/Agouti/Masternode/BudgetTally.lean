import Agouti.Library.Spaced
import Agouti.Masternode.BudgetVotes

/-! # The tally of a proposal or a finalized budget

`AddOrUpdateVote` keeps one vote of each masternode and takes another one only when
it is `BUDGET_VOTE_UPDATE_MIN` seconds later in a 64-bit difference, so the votes of a
masternode meet a register with spaced updates (`mapVotes_eq_settle`).

**Arrival order (`tally_agrees`).** Two nodes that process the same votes in any two
orders have the same tally exactly when the newest vote of every masternode is at
least that distance later than its other votes, and less than `2 ^ 63` seconds; the
tally then holds each masternode's newest vote.
-/

namespace Agouti

open BudgetVote VoteStore List Function

section

variable [Crypto] {Vote : Type} [BudgetVote Vote]

/-- One call of `AddOrUpdateVote`, at a time of the clock. -/
def countVote (mapVotes : Uint256 → Option Vote) (call : Int × Vote) : Uint256 → Option Vote :=
  match addOrUpdateVote call.1 mapVotes call.2 with
  | .ok mapVotes => mapVotes
  | .error _ => mapVotes

/-- The `mapVotes` of a new item after calls of `AddOrUpdateVote`. -/
def tally (calls : List (Int × Vote)) : Uint256 → Option Vote := calls.foldl countVote fun _ => none

/-- The calls process these votes, none of them with a time too far ahead. -/
structure Processes (votes : List Vote) (calls : List (Int × Vote)) : Prop where
  order : (calls.map Prod.snd).Perm votes
  acceptable : ∀ call ∈ calls, nTime call.2 ≤ call.1 + 60 * 60

/-- A vote of its masternode that is not older than the others. -/
structure NewestVote (votes : List Vote) (vote : Vote) : Prop where
  mem : vote ∈ votes
  latest : ∀ other ∈ votes, voteKey other = voteKey vote → nTime other ≤ nTime vote

/-- A vote may replace an old one. A difference from `2 ^ 63` on is negative in the code. -/
def MayReplace (old vote : Vote) : Prop :=
  nTime old ≤ nTime vote ∧ BUDGET_VOTE_UPDATE_MIN ≤ (nTime vote - nTime old).bmod (2 ^ 64)

instance : DecidableRel fun old vote : Vote => MayReplace old vote := fun _ _ =>
  inferInstanceAs (Decidable (_ ∧ _))

/-- Every masternode's newest vote may replace its other votes. -/
def VotesSpaced (votes : List Vote) : Prop :=
  ∀ newest, NewestVote votes newest → ∀ other ∈ votes, voteKey other = voteKey newest →
    other ≠ newest → MayReplace other newest

def votesOf (key : Uint256) (votes : List Vote) : List Vote :=
  votes.filter fun vote => voteKey vote == key

variable {votes : List Vote}

theorem mem_votesOf {key : Uint256} {vote : Vote} :
    vote ∈ votesOf key votes ↔ vote ∈ votes ∧ voteKey vote = key := by
  rw [votesOf, mem_filter, beq_iff_eq]

theorem countVote_apply (mapVotes : Uint256 → Option Vote) (call : Int × Vote)
    (acceptable : nTime call.2 ≤ call.1 + 60 * 60) (key : Uint256) :
    countVote mapVotes call key =
      if voteKey call.2 = key then
        Spaced.offer MayReplace (mapVotes key) call.2
      else mapVotes key := by
  have clock : ¬call.1 + 60 * 60 < nTime call.2 := by omega
  unfold countVote addOrUpdateVote
  simp only
  cases current : mapVotes (voteKey call.2) with
  | none =>
    simp only [Option.bind_none, if_neg clock]
    by_cases own : voteKey call.2 = key
    · rw [if_pos own, ← own, current, update_self]
      rfl
    · rw [if_neg own, update_of_ne (Ne.symm own)]
  | some old =>
    simp only [Option.bind_some]
    by_cases spaced : MayReplace old call.2
    · simp only [if_neg (not_lt.mpr spaced.1), if_neg (not_lt.mpr spaced.2), if_neg clock]
      by_cases own : voteKey call.2 = key
      · rw [if_pos own, ← own, current, update_self]
        exact (if_pos spaced).symm
      · rw [if_neg own, update_of_ne (Ne.symm own)]
    · have refused : ∃ error, (if nTime call.2 < nTime old then some VoteError.older
          else if (nTime call.2 - nTime old).bmod (2 ^ 64) < BUDGET_VOTE_UPDATE_MIN then
            some .tooSoon
          else none) = some error := by
        by_cases older : nTime call.2 < nTime old
        · exact ⟨_, if_pos older⟩
        · have soon := not_le.mp fun late => spaced ⟨not_lt.mp older, late⟩
          exact ⟨.tooSoon, by rw [if_neg older, if_pos soon]⟩
      obtain ⟨error, refused⟩ := refused
      rw [refused]
      change mapVotes key = _
      by_cases own : voteKey call.2 = key
      · rw [if_pos own, ← own, current]
        exact (if_neg spaced).symm
      · rw [if_neg own]

/-- **The tally is a register for each masternode.** -/
theorem mapVotes_eq_settle (calls : List (Int × Vote))
    (acceptable : ∀ call ∈ calls, nTime call.2 ≤ call.1 + 60 * 60) (key : Uint256) :
    tally calls key =
      Spaced.settle MayReplace (votesOf key (calls.map Prod.snd)) := by
  induction calls using List.reverseRecOn with
  | nil => rfl
  | append_singleton calls call ih =>
    have before := ih fun other member => acceptable other (mem_append_left _ member)
    have last := acceptable call (mem_append_right _ mem_cons_self)
    have counted : tally (calls ++ [call]) = countVote (tally calls) call := by
      rw [tally, foldl_append]
      rfl
    rw [counted, countVote_apply _ _ last, before, votesOf, votesOf, map_append,
      filter_append]
    by_cases own : voteKey call.2 = key
    · rw [if_pos own, ← Spaced.settle_concat]
      simp [own]
    · rw [if_neg own]
      simp [own]

theorem newest_votesOf {vote : Vote} {key : Uint256} :
    Spaced.Newest nTime (votesOf key votes) vote ↔ NewestVote votes vote ∧ voteKey vote = key := by
  constructor
  · intro newest
    obtain ⟨member, own⟩ := mem_votesOf.mp newest.mem
    refine ⟨⟨member, fun other otherMember same => ?_⟩, own⟩
    exact newest.latest other (mem_votesOf.mpr ⟨otherMember, same.trans own⟩)
  · intro ⟨newest, own⟩
    refine ⟨mem_votesOf.mpr ⟨newest.mem, own⟩, fun other member => ?_⟩
    obtain ⟨otherMember, same⟩ := mem_votesOf.mp member
    exact newest.latest other otherMember (same.trans own.symm)

theorem votesSpaced_iff :
    VotesSpaced votes ↔
      ∀ key, Spaced.Clear nTime MayReplace (votesOf key votes) := by
  constructor
  · intro spaced key newest isNewest other member apart
    obtain ⟨newestVote, own⟩ := newest_votesOf.mp isNewest
    obtain ⟨otherMember, same⟩ := mem_votesOf.mp member
    exact spaced newest newestVote other otherMember (same.trans own.symm) apart
  · intro clear newest newestVote other member same apart
    exact clear (voteKey newest) newest (newest_votesOf.mpr ⟨newestVote, rfl⟩) other
      (mem_votesOf.mpr ⟨member, same⟩) apart

omit [Crypto] in
theorem MayReplace.forward (old vote : Vote) (updates : MayReplace old vote) :
    nTime old < nTime vote := by
  refine updates.1.lt_of_ne fun same => ?_
  have late := updates.2
  rw [same, Int.sub_self] at late
  exact absurd late (by decide)

theorem Processes.votesOf_perm {calls : List (Int × Vote)} (processes : Processes votes calls)
    (key : Uint256) :
    (votesOf key (calls.map Prod.snd)).Perm (votesOf key votes) := processes.order.filter _

theorem tally_newest (spaced : VotesSpaced votes) {calls : List (Int × Vote)}
    (processes : Processes votes calls) (key : Uint256) (vote : Vote) :
    tally calls key = some vote ↔ NewestVote votes vote ∧ voteKey vote = key := by
  have clear := votesSpaced_iff.mp spaced key
  rw [mapVotes_eq_settle calls processes.acceptable,
    Spaced.settle_perm MayReplace.forward clear (processes.votesOf_perm key), ← newest_votesOf]
  constructor
  · intro settled
    have nonempty : votesOf key votes ≠ [] := ne_nil_of_mem (Spaced.settle_mem settled)
    obtain ⟨newest, isNewest⟩ := Spaced.exists_newest nTime nonempty
    rw [Spaced.settle_newest MayReplace.forward clear isNewest] at settled
    rwa [← Option.some.inj settled]
  · intro newest
    exact Spaced.settle_newest MayReplace.forward clear newest

theorem processes_of_order {order : List Vote} {key : Uint256}
    (permuted : order.Perm (votesOf key votes)) :
    ∃ calls : List (Int × Vote), Processes votes calls ∧
      votesOf key (calls.map Prod.snd) = order := by
  let others := votes.filter fun vote => !(voteKey vote == key)
  have same : ((order ++ others).map fun vote => (nTime vote, vote)).map Prod.snd =
      order ++ others := by
    rw [map_map]
    exact map_id _
  refine ⟨(order ++ others).map fun vote => (nTime vote, vote), ⟨?_, ?_⟩, ?_⟩
  · rw [same]
    exact (permuted.append_right others).trans
      (filter_append_perm (fun vote => voteKey vote == key) votes)
  · intro call member
    obtain ⟨vote, _, rfl⟩ := mem_map.mp member
    simp only
    omega
  · have mine : order.filter (fun vote => voteKey vote == key) = order := by
      rw [filter_eq_self]
      intro vote member
      exact beq_iff_eq.mpr (mem_votesOf.mp (permuted.mem_iff.mp member)).2
    have none : others.filter (fun vote => voteKey vote == key) = [] := by
      rw [filter_filter, filter_eq_nil_iff]
      intro vote _
      simp
    rw [same, votesOf, filter_append, mine, none, append_nil]

/-- **The tally depends on the order of arrival exactly when votes come too close.**
All orders of a set of votes lead to one tally if and only if every masternode's newest
vote is later than its other votes by a 64-bit difference of at least the minimum; the tally
then holds the newest vote of each masternode, and of no one else. -/
theorem tally_agrees [DecidableEq Vote] (votes : List Vote) (distinct : votes.Nodup) :
    ((∀ first second : List (Int × Vote), Processes votes first → Processes votes second →
        tally first = tally second) ↔ VotesSpaced votes) ∧
      (VotesSpaced votes → ∀ calls : List (Int × Vote), Processes votes calls →
        ∀ key vote, tally calls key = some vote ↔
          NewestVote votes vote ∧ voteKey vote = key) := by
  refine ⟨⟨fun agree => ?_, fun spaced first second one two => ?_⟩,
    fun spaced calls processes => tally_newest spaced processes⟩
  · rw [votesSpaced_iff]
    intro key
    have once : (votesOf key votes).Nodup := distinct.filter _
    rw [← Spaced.agree_iff MayReplace.forward once]
    intro first second one two
    obtain ⟨firstCalls, firstProcesses, firstOrder⟩ := processes_of_order one
    obtain ⟨secondCalls, secondProcesses, secondOrder⟩ := processes_of_order two
    have equal := congrFun (agree firstCalls secondCalls firstProcesses secondProcesses) key
    rwa [mapVotes_eq_settle _ firstProcesses.acceptable,
      mapVotes_eq_settle _ secondProcesses.acceptable, firstOrder, secondOrder] at equal
  · funext key
    have clear := votesSpaced_iff.mp spaced key
    rw [mapVotes_eq_settle _ one.acceptable, mapVotes_eq_settle _ two.acceptable,
      Spaced.settle_perm MayReplace.forward clear (one.votesOf_perm key),
      Spaced.settle_perm MayReplace.forward clear (two.votesOf_perm key)]

end

namespace Ballots

def ballot (nVote nTime : Int) : CBudgetVote where
  vin := { prevout := ⟨1, 0⟩, scriptSig := [] }
  nProposalHash := 7
  nVote := nVote
  nTime := nTime
  vchSig := []

local instance instCrypto : Crypto := checksumCrypto

/-- Two votes half an hour apart are settled by the order in which they arrive. -/
theorem tally_of_close_votes :
    ¬∀ (votes : List CBudgetVote) (first second : List (Int × CBudgetVote)), votes.Nodup →
      Processes votes first → Processes votes second → tally first = tally second := by
  intro agree
  have equal := agree [ballot 1 0, ballot 2 1800] [(1800, ballot 1 0), (1800, ballot 2 1800)]
    [(1800, ballot 2 1800), (1800, ballot 1 0)] (by decide) ⟨List.Perm.refl _, by decide⟩
    ⟨List.Perm.swap _ _ _, by decide⟩
  have held := congrFun equal (voteKey (ballot 1 0))
  revert held
  decide +kernel

/-- Of two votes an hour apart the newer one counts, though it arrives first. -/
theorem tally_agrees_hour :
    tally [(3600, ballot 2 3600), (3600, ballot 1 0)] (voteKey (ballot 1 0)) =
      some (ballot 2 3600) := by
  have spaced : VotesSpaced [ballot 1 0, ballot 2 3600] := by
    intro newest isNewest other member own apart
    have latest := isNewest.latest (ballot 2 3600)
    rcases mem_pair.mp isNewest.mem with first | second
    · rw [first] at latest
      exact absurd (latest (by decide) rfl) (by decide)
    · rw [second] at apart ⊢
      rcases mem_pair.mp member with older | same
      · rw [older]
        decide
      · exact absurd same apart
  have processes : Processes [ballot 1 0, ballot 2 3600]
      [(3600, ballot 2 3600), (3600, ballot 1 0)] := ⟨List.Perm.swap _ _ _, by decide⟩
  have newest : NewestVote [ballot 1 0, ballot 2 3600] (ballot 2 3600) := ⟨by decide, by decide⟩
  exact ((tally_agrees [ballot 1 0, ballot 2 3600] (by decide)).2 spaced _ processes _ _).mpr
    ⟨newest, rfl⟩

end Ballots

end Agouti
