import Mathlib.Data.List.Induction
import Mathlib.Order.Lattice

/-! # The leader of a list

A scan keeps the entry with the highest score so far, and moves on to an eligible entry whose
score is strictly higher. It ends at the first eligible entry with the highest score, if that
score is above the one the scan started from (`scan_cases`).
-/

namespace Leader

variable {Entry Score : Type} [LinearOrder Score] (score : Entry → Score)
  (eligible : Entry → Bool)

/-- One step of the scan, from the highest score so far and its entry. -/
def step (best : Score × Option Entry) (entry : Entry) : Score × Option Entry :=
  if best.1 < score entry ∧ eligible entry = true then (score entry, some entry) else best

/-- The scan of a list. -/
def scan (start : Score) (entries : List Entry) : Score × Option Entry :=
  entries.foldl (step score eligible) (start, none)

/-- The first eligible entry with the highest score. -/
structure Leads (entries : List Entry) (leader : Entry) : Prop where
  place : ∃ before after, entries = before ++ leader :: after ∧
    ∀ other ∈ before, eligible other = true → score other < score leader
  may : eligible leader = true
  highest : ∀ other ∈ entries, eligible other = true → score other ≤ score leader

variable {score} {eligible}

variable {entries : List Entry}

theorem Leads.mem {leader : Entry}
    (leads : Leads score eligible entries leader) : leader ∈ entries := by
  obtain ⟨before, after, rfl, _⟩ := leads.place
  exact List.mem_append_right before List.mem_cons_self

theorem Leads.unique {first second : Entry} (left : Leads score eligible entries first)
    (right : Leads score eligible entries second) :
    first = second := by
  have same : score first = score second :=
    le_antisymm (right.highest first left.mem left.may)
      (left.highest second right.mem right.may)
  obtain ⟨before, after, list, lower⟩ := left.place
  obtain ⟨others, rest, list', lower'⟩ := right.place
  rw [list] at list'
  rcases List.append_eq_append_iff.mp list' with ⟨between, longer, tail⟩ | ⟨between, longer, tail⟩
  · cases between with
    | nil => exact (List.cons.inj tail).1
    | cons entry between =>
      -- the first leader stands before the second one
      obtain ⟨rfl, _⟩ := List.cons.inj tail
      have strict := lower' first (by rw [longer]; simp) left.may
      exact absurd same strict.ne
  · cases between with
    | nil => exact (List.cons.inj tail).1.symm
    | cons entry between =>
      obtain ⟨rfl, _⟩ := List.cons.inj tail
      have strict := lower second (by rw [longer]; simp) right.may
      exact absurd same.symm strict.ne

theorem Leads.snoc {leader entry : Entry} (leads : Leads score eligible entries leader)
    (stays : ¬ (score leader < score entry ∧ eligible entry = true)) :
    Leads score eligible (entries ++ [entry]) leader := by
  obtain ⟨before, after, list, lower⟩ := leads.place
  refine ⟨⟨before, after ++ [entry], ?_, lower⟩, leads.may, ?_⟩
  · rw [list, List.append_assoc, List.cons_append]
  · intro other member may
    rcases List.mem_append.mp member with earlier | last
    · exact leads.highest other earlier may
    · obtain rfl := List.mem_singleton.mp last
      by_contra higher
      exact stays ⟨not_le.mp higher, may⟩

/-- An eligible entry above all eligible ones before it leads. -/
theorem leads_last {entry : Entry} (may : eligible entry = true)
    (above : ∀ other ∈ entries, eligible other = true → score other < score entry) :
    Leads score eligible (entries ++ [entry]) entry := by
  refine ⟨⟨entries, [], rfl, above⟩, may, ?_⟩
  intro other member other_may
  rcases List.mem_append.mp member with earlier | last
  · exact (above other earlier other_may).le
  · obtain rfl := List.mem_singleton.mp last
    exact le_rfl

/-- **Where the scan ends**: where it started when no eligible entry is above, else at the
leader. -/
theorem scan_cases (start : Score) (entries : List Entry) :
    (scan score eligible start entries = (start, none) ∧
        ∀ entry ∈ entries, eligible entry = true → score entry ≤ start) ∨
      ∃ leader, scan score eligible start entries = (score leader, some leader) ∧
        start < score leader ∧ Leads score eligible entries leader := by
  induction entries using List.reverseRecOn with
  | nil => exact .inl ⟨rfl, fun entry absent => absurd absent List.not_mem_nil⟩
  | append_singleton entries entry ih =>
    have last : scan score eligible start (entries ++ [entry]) =
        step score eligible (scan score eligible start entries) entry := by
      rw [scan, List.foldl_append]
      rfl
    rw [last]
    rcases ih with ⟨before, bounded⟩ | ⟨leader, before, above, leads⟩
    · rw [before]
      by_cases better : start < score entry ∧ eligible entry = true
      · refine .inr ⟨entry, if_pos better, better.1, leads_last better.2 ?_⟩
        intro other member may
        exact lt_of_le_of_lt (bounded other member may) better.1
      · refine .inl ⟨if_neg better, ?_⟩
        intro other member may
        rcases List.mem_append.mp member with earlier | here
        · exact bounded other earlier may
        · obtain rfl := List.mem_singleton.mp here
          by_contra higher
          exact better ⟨not_le.mp higher, may⟩
    · rw [before]
      by_cases better : score leader < score entry ∧ eligible entry = true
      · refine .inr ⟨entry, if_pos better, lt_trans above better.1, leads_last better.2 ?_⟩
        intro other member may
        exact lt_of_le_of_lt (leads.highest other member may) better.1
      · exact .inr ⟨leader, if_neg better, above, leads.snoc better⟩

/-- The highest score does not depend on which entries are kept with it. -/
theorem scan_fst (start : Score) (entries : List Entry) :
    (scan score eligible start entries).1 = entries.foldl (fun best entry =>
      if best < score entry ∧ eligible entry = true then score entry else best) start := by
  have general : ∀ best : Score × Option Entry,
      (entries.foldl (step score eligible) best).1 = entries.foldl (fun best entry =>
        if best < score entry ∧ eligible entry = true then score entry else best) best.1 := by
    induction entries with
    | nil => exact fun best => rfl
    | cons entry rest ih =>
      intro best
      rw [List.foldl_cons, List.foldl_cons, ih]
      congr 1
      unfold step
      split
      · rfl
      · rfl
  exact general (start, none)

end Leader
