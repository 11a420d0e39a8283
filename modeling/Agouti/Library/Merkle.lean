import Mathlib.Data.Nat.Bitwise
import Mathlib.Data.Nat.Log
import Mathlib.Data.Set.Function

/-! # Binary hash trees whose odd levels double their last node

A level of the tree is hashed pairwise into the next one, an odd last node with
itself (`pairs`, `level`), until one node is left (`root`). The siblings on the way
from a leaf (`branch`) lead back to the root (`check_branch`). Since `P ++ [x]` and
`P ++ [x, x]` have one next level, different leaves can have one root; where the node
function is injective on the pairs that are hashed and no leaf is a node, this
happens only when a level of even length ends in two equal nodes in one of the trees
(`eq_or_mutated`).
-/

namespace Agouti

open List

namespace Merkle

variable {α : Type}

/-- Neighbours in pairs, an odd last one with itself. -/
def pairs : List α → List (α × α)
  | [] => []
  | [last] => [(last, last)]
  | left :: right :: rest => (left, right) :: pairs rest

/-- The next level of the tree. -/
def level (node : α → α → α) (hashes : List α) : List α :=
  (pairs hashes).map fun pair => node pair.1 pair.2

/-- The last two entries of a list of even length are equal. -/
def doubled [DecidableEq α] : List α → Bool
  | [] => false
  | [_] => false
  | [left, right] => decide (left = right)
  | _ :: _ :: next :: rest => doubled (next :: rest)

theorem length_pairs (hashes : List α) : (pairs hashes).length = (hashes.length + 1) / 2 := by
  induction hashes using pairs.induct with
  | case1 => simp [pairs]
  | case2 last => simp [pairs]
  | case3 left right rest ih =>
    rw [pairs, length_cons, ih, length_cons, length_cons]
    omega

theorem length_level (node : α → α → α) (hashes : List α) :
    (level node hashes).length = (hashes.length + 1) / 2 := by
  rw [level, length_map, length_pairs]

theorem level_shorter (node : α → α → α) (left right : α) (rest : List α) :
    (level node (left :: right :: rest)).length < (left :: right :: rest).length := by
  rw [length_level, length_cons, length_cons]
  omega

/-- The last node, or `none` for the tree without leaves. -/
def root (node : α → α → α) : List α → Option α
  | [] => none
  | [last] => some last
  | left :: right :: rest => root node (level node (left :: right :: rest))
termination_by hashes => hashes.length
decreasing_by exact level_shorter node left right rest

/-- Some level of even length ends in two equal nodes. -/
def mutated [DecidableEq α] (node : α → α → α) : List α → Bool
  | [] => false
  | [_] => false
  | left :: right :: rest =>
    doubled (left :: right :: rest) || mutated node (level node (left :: right :: rest))
termination_by hashes => hashes.length
decreasing_by exact level_shorter node left right rest

theorem root_isSome (node : α → α → α) {hashes : List α} (nonempty : hashes ≠ []) :
    ∃ hash, root node hashes = some hash := by
  induction hashes using root.induct node with
  | case1 => contradiction
  | case2 last => exact ⟨last, by rw [root]⟩
  | case3 left right rest ih =>
    rw [root]
    refine ih ?_
    cases rest <;> simp [level, pairs]

/-- All pairs that are hashed. -/
def hashed (node : α → α → α) : List α → List (α × α)
  | [] => []
  | [_] => []
  | left :: right :: rest =>
    pairs (left :: right :: rest) ++ hashed node (level node (left :: right :: rest))
termination_by hashes => hashes.length
decreasing_by exact level_shorter node left right rest

/-- All nodes, level after level. -/
def nodes (node : α → α → α) : List α → List α
  | [] => []
  | [last] => [last]
  | left :: right :: rest =>
    (left :: right :: rest) ++ nodes node (level node (left :: right :: rest))
termination_by hashes => hashes.length
decreasing_by exact level_shorter node left right rest

/-- The neighbour with which the node at an index is hashed. -/
def sibling (hashes : List α) (index : Nat) : Option α :=
  hashes[min (index ^^^ 1) (hashes.length - 1)]?

/-- The siblings on the way from a leaf to the root. -/
def branch (node : α → α → α) : List α → Nat → List α
  | [], _ => []
  | [_], _ => []
  | left :: right :: rest, index =>
    (sibling (left :: right :: rest) index).toList ++
      branch node (level node (left :: right :: rest)) (index / 2)
termination_by hashes => hashes.length
decreasing_by exact level_shorter node left right rest

/-- A leaf hashed with siblings, on the side that its index says. -/
def check (node : α → α → α) (hash : α) : List α → Nat → α
  | [], _ => hash
  | other :: siblings, index =>
    check node (if index % 2 = 1 then node other hash else node hash other) siblings (index / 2)

/-- A list is doubled when its length is even and its last two entries are equal. -/
theorem doubled_iff [DecidableEq α] (hashes : List α) :
    doubled hashes = true ↔
      ∃ index, index % 2 = 0 ∧ index + 2 = hashes.length ∧ hashes[index]? = hashes[index + 1]? := by
  induction hashes using doubled.induct with
  | case1 => simp [doubled]
  | case2 last => simp [doubled]
  | case3 left right =>
    rw [doubled, decide_eq_true_eq]
    constructor
    · intro same
      exact ⟨0, rfl, rfl, congrArg some same⟩
    · intro ⟨index, _, last, same⟩
      have first : index = 0 := by
        rw [length_cons, length_singleton] at last
        omega
      rw [first] at same
      exact Option.some.inj same
  | case4 left right next rest ih =>
    rw [doubled, ih]
    constructor
    · intro ⟨index, even, last, same⟩
      refine ⟨index + 2, by omega, ?_, same⟩
      simp only [length_cons] at last ⊢
      omega
    · intro ⟨index, even, last, same⟩
      simp only [length_cons] at last
      obtain ⟨earlier, rfl⟩ : ∃ earlier, index = earlier + 2 := ⟨index - 2, by omega⟩
      exact ⟨earlier, by omega, by rw [length_cons]; omega, same⟩

/-! ## Branches -/

/-- The pair at an index: the entries at twice the index, the second one only when there
is one. -/
theorem pairs_getElem? (hashes : List α) (index : Nat) :
    (pairs hashes)[index]? =
      hashes[2 * index]?.map fun left => (left, (hashes[2 * index + 1]?).getD left) := by
  induction hashes using pairs.induct generalizing index with
  | case1 => simp [pairs]
  | case2 last =>
    cases index with
    | zero => rfl
    | succ index => simp [pairs]
  | case3 left right rest ih =>
    cases index with
    | zero => rfl
    | succ index =>
      have next : 2 * (index + 1) = 2 * index + 1 + 1 := by omega
      rw [pairs, List.getElem?_cons_succ, ih, next]
      simp only [List.getElem?_cons_succ]

theorem sibling_level (node : α → α → α) {hashes : List α} {index : Nat} {hash : α}
    (found : hashes[index]? = some hash) :
    ∃ other, sibling hashes index = some other ∧
      (level node hashes)[index / 2]? =
        some (if index % 2 = 1 then node other hash else node hash other) := by
  have inside : index < hashes.length := (List.getElem?_eq_some_iff.mp found).1
  have half : (index ^^^ 1) / 2 = index / 2 := by
    rw [Nat.xor_div_two]
    exact Nat.xor_zero _
  have bit : (index ^^^ 1) % 2 = (index + 1) % 2 := Nat.xor_mod_two_eq
  rw [level, List.getElem?_map, pairs_getElem?, sibling]
  rcases Nat.mod_two_eq_zero_or_one index with even | odd
  · have start : 2 * (index / 2) = index := by omega
    have next : index ^^^ 1 = index + 1 := by omega
    rw [start, found, next, even]
    by_cases last : index + 1 < hashes.length
    · rw [Nat.min_eq_left (by omega), List.getElem?_eq_getElem last]
      exact ⟨_, rfl, rfl⟩
    · rw [Nat.min_eq_right (by omega), show hashes.length - 1 = index by omega, found,
        List.getElem?_eq_none (by omega)]
      exact ⟨hash, rfl, rfl⟩
  · have before : 2 * (index / 2) = index - 1 := by omega
    have previous : index ^^^ 1 = index - 1 := by omega
    rw [before, previous, Nat.min_eq_left (by omega), odd, Nat.sub_add_cancel (by omega), found,
      List.getElem?_eq_getElem (by omega : index - 1 < hashes.length)]
    exact ⟨_, rfl, rfl⟩

/-- **Branches lead to the root.** -/
theorem check_branch (node : α → α → α) (hashes : List α) (index : Nat) (hash : α)
    (found : hashes[index]? = some hash) :
    root node hashes = some (check node hash (branch node hashes index) index) := by
  induction hashes using root.induct node generalizing index hash with
  | case1 => contradiction
  | case2 last =>
    have first : index = 0 := by
      have inside := (List.getElem?_eq_some_iff.mp found).1
      rw [length_singleton] at inside
      omega
    rw [first] at found
    rw [root, branch, check, Option.some.inj found]
  | case3 left right rest ih =>
    obtain ⟨other, beside, above⟩ := sibling_level node found
    rw [root, branch, beside]
    exact ih (index / 2) _ above

/-! ## Leaves of one root -/

variable {first second : List α}

/-- Two lists with the same pairs are equal, unless one of them repeats its last entry. -/
theorem eq_of_pairs [DecidableEq α] (same : pairs first = pairs second)
    (clean : doubled first = false) (spotless : doubled second = false) : first = second := by
  induction first using pairs.induct generalizing second with
  | case1 =>
    have empty := congrArg List.length same
    rw [length_pairs, length_pairs, length_nil] at empty
    exact (eq_nil_of_length_eq_zero (by omega)).symm
  | case2 last =>
    match second with
    | [] => contradiction
    | [other] =>
      have entries := head_eq_of_cons_eq same
      rw [(Prod.mk.inj entries).1]
    | [left, right] =>
      have entries := Prod.mk.inj (head_eq_of_cons_eq same)
      rw [doubled, ← entries.1, ← entries.2] at spotless
      simp at spotless
    | left :: right :: next :: [] => simp [pairs] at same
    | left :: right :: next :: more :: rest => simp [pairs] at same
  | case3 left right rest ih =>
    match second with
    | [] => contradiction
    | [other] =>
      cases rest with
      | nil =>
        have entries := Prod.mk.inj (head_eq_of_cons_eq same)
        rw [doubled, entries.1, entries.2] at clean
        simp at clean
      | cons next rest =>
        cases rest with
        | nil => simp [pairs] at same
        | cons more rest => simp [pairs] at same
    | left' :: right' :: rest' =>
      have entries := Prod.mk.inj (head_eq_of_cons_eq same)
      have tails : pairs rest = pairs rest' := tail_eq_of_cons_eq same
      have later : doubled rest = false := by
        cases rest with
        | nil => rfl
        | cons next rest => exact clean
      have last : doubled rest' = false := by
        cases rest' with
        | nil => rfl
        | cons next rest' => exact spotless
      rw [entries.1, entries.2, ih tails later last]

theorem height_level (node : α → α → α) (left right : α) (rest : List α) :
    Nat.clog 2 (left :: right :: rest).length =
      Nat.clog 2 (level node (left :: right :: rest)).length + 1 := by
  have two : 2 ≤ (left :: right :: rest).length := by
    rw [length_cons, length_cons]
    omega
  rw [length_level, Nat.clog_of_two_le (by decide) two]
  rfl

variable {node : α → α → α} {hashing : Set (α × α)}

/-- A function that is injective on the entries of two lists. -/
theorem eq_of_map_eq {β γ : Type} {f : β → γ} {set : Set β} (injective : Set.InjOn f set)
    {first second : List β} (left : ∀ x ∈ first, x ∈ set) (right : ∀ x ∈ second, x ∈ set)
    (same : first.map f = second.map f) : first = second := by
  induction first generalizing second with
  | nil => exact (map_eq_nil_iff.mp same.symm).symm
  | cons x first ih =>
    cases second with
    | nil => contradiction
    | cons y second =>
      rw [map_cons, map_cons, List.cons.injEq] at same
      rw [injective (left x mem_cons_self) (right y mem_cons_self) same.1,
        ih (fun z member => left z (mem_cons_of_mem x member))
          (fun z member => right z (mem_cons_of_mem y member)) same.2]

section

variable (injective : Set.InjOn (fun pair : α × α => node pair.1 pair.2) hashing)

include injective

/-- Two trees of one height and one root have the same leaves. -/
theorem eq_of_root [DecidableEq α]
    (nonempty : first ≠ [])
    (other : second ≠ []) (height : Nat.clog 2 first.length = Nat.clog 2 second.length)
    (left : ∀ pair ∈ hashed node first, pair ∈ hashing)
    (right : ∀ pair ∈ hashed node second, pair ∈ hashing)
    (same : root node first = root node second) (clean : mutated node first = false)
    (spotless : mutated node second = false) :
    first = second := by
  induction first using root.induct node generalizing second with
  | case1 => contradiction
  | case2 last =>
    match second with
    | [] => contradiction
    | [leaf] =>
      rw [root, root] at same
      rw [Option.some.inj same]
    | left' :: right' :: rest' =>
      rw [height_level node] at height
      simp at height
  | case3 one two rest ih =>
    match second with
    | [] => contradiction
    | [leaf] =>
      rw [height_level node] at height
      simp at height
    | one' :: two' :: rest' =>
      rw [hashed] at left right
      rw [mutated, Bool.or_eq_false_iff] at clean spotless
      rw [height_level node, height_level node, Nat.add_right_cancel_iff] at height
      rw [root, root] at same
      have above : level node (one :: two :: rest) = level node (one' :: two' :: rest') := by
        refine ih ?_ ?_ height ?_ ?_ same clean.2 spotless.2
        · cases rest <;> simp [level, pairs]
        · cases rest' <;> simp [level, pairs]
        · intro pair member
          exact left pair (mem_append_right _ member)
        · intro pair member
          exact right pair (mem_append_right _ member)
      refine eq_of_pairs (eq_of_map_eq injective ?_ ?_ above) clean.1 spotless.1
      · intro pair member
        exact left pair (mem_append_left _ member)
      · intro pair member
        exact right pair (mem_append_left _ member)

/-- The leaves of the lower of two trees with one root are nodes of the higher one. -/
theorem node_of_lower [DecidableEq α]
    (nonempty : first ≠ [])
    (lower : Nat.clog 2 first.length < Nat.clog 2 second.length)
    (left : ∀ pair ∈ hashed node first, pair ∈ hashing)
    (right : ∀ pair ∈ hashed node second, pair ∈ hashing)
    (same : root node first = root node second) (clean : mutated node first = false)
    (spotless : mutated node second = false) :
    ∀ leaf ∈ first, ∃ pair ∈ hashed node second, leaf = node pair.1 pair.2 := by
  induction second using root.induct node with
  | case1 => simp at lower
  | case2 last => simp at lower
  | case3 one two rest ih =>
    rw [height_level node] at lower
    rw [hashed] at right ⊢
    rw [mutated, Bool.or_eq_false_iff] at spotless
    rw [root.eq_3] at same
    have upper : ∀ pair ∈ hashed node (level node (one :: two :: rest)), pair ∈ hashing :=
      fun pair member => right pair (mem_append_right _ member)
    intro leaf member
    rcases Nat.lt_or_eq_of_le (Nat.le_of_lt_succ lower) with further | equal
    · obtain ⟨pair, above, made⟩ := ih further upper same spotless.2 leaf member
      exact ⟨pair, mem_append_right _ above, made⟩
    · have leaves : first = level node (one :: two :: rest) := by
        refine eq_of_root injective nonempty ?_ equal left upper same clean spotless.2
        cases rest <;> simp [level, pairs]
      rw [leaves, level, mem_map] at member
      obtain ⟨pair, below, made⟩ := member
      exact ⟨pair, mem_append_left _ below, made.symm⟩

/-- **Equal leaves or a mutated tree.** Where no leaf is a node, two trees with one root
have the same leaves unless one of them is mutated. -/
theorem eq_or_mutated [DecidableEq α]
    (nonempty : first ≠ [])
    (other : second ≠ []) (left : ∀ pair ∈ hashed node first, pair ∈ hashing)
    (right : ∀ pair ∈ hashed node second, pair ∈ hashing)
    (apart : ∀ leaf, leaf ∈ first ∨ leaf ∈ second → ∀ pair ∈ hashing, leaf ≠ node pair.1 pair.2)
    (same : root node first = root node second) :
    first = second ∨ mutated node first = true ∨ mutated node second = true := by
  cases clean : mutated node first with
  | true => exact .inr (.inl rfl)
  | false =>
    cases spotless : mutated node second with
    | true => exact .inr (.inr rfl)
    | false =>
      refine .inl ?_
      rcases Nat.lt_trichotomy (Nat.clog 2 first.length) (Nat.clog 2 second.length) with
        lower | equal | higher
      · obtain ⟨leaf, member⟩ := exists_mem_of_ne_nil first nonempty
        obtain ⟨pair, hashed, made⟩ :=
          node_of_lower injective nonempty lower left right same clean spotless leaf member
        exact absurd made (apart leaf (.inl member) pair (right pair hashed))
      · exact eq_of_root injective nonempty other equal left right same clean spotless
      · obtain ⟨leaf, member⟩ := exists_mem_of_ne_nil second other
        obtain ⟨pair, hashed, made⟩ :=
          node_of_lower injective other higher right left same.symm spotless clean leaf member
        exact absurd made (apart leaf (.inr member) pair (left pair hashed))

end

end Merkle

end Agouti
