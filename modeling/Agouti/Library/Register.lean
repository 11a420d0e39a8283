import Mathlib.Data.List.Basic

/-! # A register beside a growing and shrinking list

A list of entries, each with at most one key, grows and shrinks at its end, and a map beside it
records for a key the value of the entry that used it. The register is exact for a window when it
holds the keys of the last `window` entries, holds nothing that the list does not, and no key is
used twice within the window (`Register.Exact`).
-/

namespace Agouti

open List Function Option

/-- A list of entries with the map of the keys they use. -/
structure Register (Key Value : Type) where
  chain : List (Option (Key × Value))
  used : Key → Option Value

namespace Register

variable {Key Value : Type}

/-- The register describes the last `window` entries of its list. -/
structure Exact (window : Nat) (register : Register Key Value) : Prop where
  recorded : ∀ i key value, register.chain.length ≤ i + window →
    register.chain[i]? = some (some (key, value)) → register.used key = some value
  genuine : ∀ key value, register.used key = some value → some (key, value) ∈ register.chain
  distinct : ∀ i j key first second, i < j → j ≤ i + window →
    register.chain[i]? = some (some (key, first)) →
      register.chain[j]? ≠ some (some (key, second))

variable {window : Nat} {register : Register Key Value}

variable {used : Key → Option Value} {entry : Option (Key × Value)}

/-- The map may be replaced by one that agrees with it outside the keys of the last
entries and holds the values of those. -/
theorem Exact.rerecord (exact : Exact window register) (count : Nat)
    (held : ∀ key value, some (key, value) ∈ register.chain.drop count → used key = some value)
    (kept : ∀ key, (∀ value, some (key, value) ∉ register.chain.drop count) →
      used key = register.used key) :
    Exact window ⟨register.chain, used⟩ := by
  refine ⟨fun i key value inside found => ?_, fun key value recorded => ?_, exact.distinct⟩
  · simp only at inside found ⊢
    by_cases absent : ∀ other, some (key, other) ∉ register.chain.drop count
    · rw [kept key absent]
      exact exact.recorded i key value inside found
    · push Not at absent
      obtain ⟨other, member⟩ := absent
      obtain ⟨j, again⟩ := List.getElem?_of_mem member
      rw [List.getElem?_drop] at again
      have bound := (List.getElem?_eq_some_iff.mp again).1
      rcases Nat.lt_trichotomy i (count + j) with before | same | after
      · exact absurd again
          (exact.distinct i (count + j) key value other before (by omega) found)
      · rw [same, again] at found
        rw [held key other member]
        simpa using found
      · refine held key value (mem_of_getElem? (i := i - count) ?_)
        rw [List.getElem?_drop, ← found]
        congr 1
        omega
  · simp only at recorded ⊢
    by_cases absent : ∀ other, some (key, other) ∉ register.chain.drop count
    · rw [kept key absent] at recorded
      exact exact.genuine key value recorded
    · push Not at absent
      obtain ⟨other, member⟩ := absent
      have same := held key other member
      rw [recorded] at same
      rw [some.inj same]
      exact mem_of_mem_drop member

variable [DecidableEq Key]

/-- Record an entry. -/
def record (used : Key → Option Value) : Option (Key × Value) → Key → Option Value
  | some (key, value) => Function.update used key (some value)
  | none => used

/-- Forget the key of an entry. -/
def forget (used : Key → Option Value) : Option (Key × Value) → Key → Option Value
  | some (key, _) => Function.update used key none
  | none => used

/-- The key of an entry is free. -/
def Fresh (used : Key → Option Value) (entry : Option (Key × Value)) : Prop :=
  ∀ key value, entry = some (key, value) → used key = none

theorem record_of_entry {key : Key} {value : Value}
    (here : entry = some (key, value)) : record used entry key = some value := by
  subst here
  exact update_self key (some value) used

theorem record_of_other {key : Key}
    (other : ∀ value, entry ≠ some (key, value)) : record used entry key = used key := by
  cases entry with
  | none => rfl
  | some pair =>
    obtain ⟨taken, value⟩ := pair
    have apart : key ≠ taken := fun same => other value (by rw [same])
    exact update_of_ne apart (some value) used

theorem forget_of_entry {key : Key} {value : Value}
    (here : entry = some (key, value)) : forget used entry key = none := by
  subst here
  exact update_self key none used

theorem forget_of_other {key : Key}
    (other : ∀ value, entry ≠ some (key, value)) : forget used entry key = used key := by
  cases entry with
  | none => rfl
  | some pair =>
    obtain ⟨taken, value⟩ := pair
    have apart : key ≠ taken := fun same => other value (by rw [same])
    exact update_of_ne apart none used

/-- Append an entry and record it. -/
def push (register : Register Key Value) (entry : Option (Key × Value)) : Register Key Value :=
  ⟨register.chain ++ [entry], record register.used entry⟩

/-- Drop the last entry and forget its key. -/
def pop (register : Register Key Value) : Register Key Value :=
  ⟨register.chain.dropLast, forget register.used (register.chain.getLast?.getD none)⟩

/-- Record entries, the last one of the list first. -/
def recordAll (used : Key → Option Value) : List (Option (Key × Value)) → Key → Option Value
  | [] => used
  | entry :: rest => record (recordAll used rest) entry

/-- Clear the map and record the last `window` entries, the newest first. -/
def refill (window : Nat) (register : Register Key Value) : Register Key Value :=
  ⟨register.chain, recordAll (fun _ => none)
    (register.chain.drop (register.chain.length - window))⟩

/-- A position of an extended list is an old position or the new one. -/
theorem getElem?_snoc {Entry : Type} {chain : List Entry} {entry found : Entry} {i : Nat}
    (lookup : (chain ++ [entry])[i]? = some found) :
    (i < chain.length ∧ chain[i]? = some found) ∨ (i = chain.length ∧ found = entry) := by
  by_cases inside : i < chain.length
  · rw [List.getElem?_append_left inside] at lookup
    exact .inl ⟨inside, lookup⟩
  · have bound := (List.getElem?_eq_some_iff.mp lookup).1
    rw [length_append, length_singleton] at bound
    have last : i = chain.length := by omega
    rw [last, List.getElem?_concat_length] at lookup
    exact .inr ⟨last, (some.inj lookup).symm⟩

theorem Exact.push (exact : Exact window register)
    (fresh : Fresh register.used entry) : Exact window (register.push entry) where
  recorded i key value inside found := by
    simp only [Register.push, length_append, length_singleton] at inside found ⊢
    rcases getElem?_snoc found with ⟨_, found⟩ | ⟨_, same⟩
    · have old := exact.recorded i key value (by omega) found
      rw [record_of_other, old]
      intro other same
      rw [fresh key other same] at old
      contradiction
    · exact record_of_entry same.symm
  genuine key value held := by
    simp only [Register.push, mem_append, mem_singleton] at held ⊢
    by_cases here : ∃ taken, entry = some (key, taken)
    · obtain ⟨taken, same⟩ := here
      rw [record_of_entry same] at held
      exact .inr (by rw [same, some.inj held])
    · rw [record_of_other fun taken same => here ⟨taken, same⟩] at held
      exact .inl (exact.genuine key value held)
  distinct i j key first second before near found again := by
    simp only [Register.push] at found again
    rcases getElem?_snoc again with ⟨inside, again⟩ | ⟨last, same⟩
    · rcases getElem?_snoc found with ⟨_, found⟩ | ⟨end_, _⟩
      · exact exact.distinct i j key first second before near found again
      · omega
    · rcases getElem?_snoc found with ⟨_, found⟩ | ⟨end_, _⟩
      · have old := exact.recorded i key first (by omega) found
        rw [fresh key second same.symm] at old
        contradiction
      · omega

/-- Popping is possible while the entry that comes back into the window, if there
is one, is recorded. -/
theorem Exact.pop (exact : Exact window register) {front : List (Option (Key × Value))}
    {last : Option (Key × Value)} (chain : register.chain = front ++ [last])
    (returns : ∀ i key value, i < front.length → i + window = front.length →
      register.chain[i]? = some (some (key, value)) → register.used key = some value) :
    Exact window register.pop := by
  have front_eq : register.pop.chain = front := by simp [Register.pop, chain]
  have used_eq : register.pop.used = forget register.used last := by simp [Register.pop, chain]
  have lift : ∀ {i : Nat} {entry : Option (Key × Value)}, front[i]? = some entry →
      register.chain[i]? = some entry := by
    intro i entry found
    rw [chain, List.getElem?_append_left (List.getElem?_eq_some_iff.mp found).1]
    exact found
  have top : register.chain[front.length]? = some last := by
    rw [chain, List.getElem?_concat_length]
  refine ⟨fun i key value inside found => ?_, fun key value held => ?_,
    fun i j key first second before near found again => ?_⟩
  · rw [front_eq] at inside found
    have bound := (List.getElem?_eq_some_iff.mp found).1
    rw [used_eq, forget_of_other]
    · by_cases back : i + window = front.length
      · exact returns i key value bound back (lift found)
      · refine exact.recorded i key value ?_ (lift found)
        rw [chain, length_append, length_singleton]
        omega
    · intro other same
      rw [same] at top
      exact exact.distinct i front.length key value other bound inside (lift found) top
  · rw [used_eq] at held
    rw [front_eq]
    by_cases here : ∃ taken, last = some (key, taken)
    · obtain ⟨taken, same⟩ := here
      rw [forget_of_entry same] at held
      contradiction
    · rw [forget_of_other fun taken same => here ⟨taken, same⟩] at held
      have member := exact.genuine key value held
      rw [chain, mem_append, mem_singleton] at member
      exact member.resolve_right fun same => here ⟨value, same.symm⟩
  · rw [front_eq] at found again
    exact exact.distinct i j key first second before near (lift found) (lift again)

theorem recordAll_append (used : Key → Option Value) (first second : List (Option (Key × Value))) :
    recordAll used (first ++ second) = recordAll (recordAll used second) first := by
  induction first with
  | nil => rfl
  | cons entry rest ih =>
    rw [cons_append, recordAll, recordAll, ih]

theorem recordAll_none {entries : List (Option (Key × Value))}
    (none : ∀ entry ∈ entries, entry = none) : recordAll used entries = used := by
  induction entries with
  | nil => rfl
  | cons entry rest ih =>
    rw [recordAll, ih fun other member => none other (mem_cons_of_mem entry member),
      none entry mem_cons_self]
    rfl

/-- Recording entries without a repeated key records them all and nothing else. -/
theorem recordAll_spec (used : Key → Option Value) {entries : List (Option (Key × Value))}
    (apart : ∀ (i j : Nat) key first second, i < j → entries[i]? = some (some (key, first)) →
      entries[j]? ≠ some (some (key, second))) :
    (∀ key value, some (key, value) ∈ entries → recordAll used entries key = some value) ∧
      ∀ key, (∀ value, some (key, value) ∉ entries) → recordAll used entries key = used key := by
  induction entries with
  | nil => exact ⟨fun key value member => absurd member not_mem_nil, fun key _ => rfl⟩
  | cons entry rest ih =>
    obtain ⟨held, kept⟩ := ih fun i j key first second before found =>
      apart (i + 1) (j + 1) key first second (Nat.succ_lt_succ before) found
    refine ⟨fun key value member => ?_, fun key absent => ?_⟩
    · rcases mem_cons.mp member with same | member
      · exact record_of_entry same.symm
      · rw [recordAll, record_of_other, held key value member]
        intro other same
        obtain ⟨j, found⟩ := List.getElem?_of_mem member
        exact apart 0 (j + 1) key other value (Nat.succ_pos j) (by simpa using same) found
    · rw [recordAll, record_of_other, kept key]
      · exact fun value member => absent value (mem_cons_of_mem entry member)
      · intro value same
        exact absent value (by rw [same]; exact mem_cons_self)

/-- Refilling needs only that no key was used twice within the window. -/
theorem Exact.refill (exact : Exact window register) : Exact window (register.refill window) := by
  have apart : ∀ (i j : Nat) key first second, i < j →
      (register.chain.drop (register.chain.length - window))[i]? = some (some (key, first)) →
      (register.chain.drop (register.chain.length - window))[j]? ≠ some (some (key, second)) := by
    intro i j key first second before found again
    have bound := (List.getElem?_eq_some_iff.mp again).1
    rw [length_drop] at bound
    rw [List.getElem?_drop] at found again
    exact exact.distinct _ _ key first second (by omega) (by omega) found again
  obtain ⟨held, kept⟩ := recordAll_spec (fun _ => none) apart
  refine ⟨fun i key value inside found => held key value ?_, fun key value recorded => ?_,
    exact.distinct⟩
  · refine mem_of_getElem? (i := i - (register.chain.length - window)) ?_
    rw [List.getElem?_drop]
    simp only [Register.refill] at inside found
    rw [← found]
    congr 1
    omega
  · by_cases absent : ∀ other, some (key, other) ∉
        register.chain.drop (register.chain.length - window)
    · simp only [Register.refill] at recorded
      rw [kept key absent] at recorded
      contradiction
    · push Not at absent
      obtain ⟨other, member⟩ := absent
      have same := held key other member
      simp only [Register.refill] at recorded ⊢
      rw [recorded] at same
      rw [some.inj same]
      exact mem_of_mem_drop member

end Register

end Agouti
