import Agouti.Library.Merkle
import Mathlib.Tactic.Ring

/-! # Partial hash trees

The nodes of a hash tree row by row (`row`), and trees of which only some branches are
opened (`PartialTree`): a closed node is a hash, an opened node has one or two children, and
an opened leaf is marked. A tree is written as a bit for each node and a hash for each closed
node and each leaf, parents first (`bits`, `hashes`). Where the node function is
injective on the pairs that are hashed, a tree with the value of a node of another tree has the
leaves of that tree, each at the position for which its own one stands (`matched_eq`).
-/

namespace Agouti

open List Function

namespace Merkle

variable {α : Type}

/-! ## Rows -/

/-- The nodes of a row; row 0 has the leaves. -/
def row (node : α → α → α) (leaves : List α) : Nat → List α
  | 0 => leaves
  | height + 1 => level node (row node leaves height)

/-- The number of nodes of a row above `count` leaves. -/
def width (count height : Nat) : Nat := (count + 2 ^ height - 1) / 2 ^ height

theorem width_zero (count : Nat) : width count 0 = count := by simp [width]

theorem width_succ (count height : Nat) :
    width count (height + 1) = (width count height + 1) / 2 := by
  have positive : 0 < 2 ^ height := Nat.two_pow_pos height
  unfold width
  rw [← Nat.add_div_right _ positive, Nat.div_div_eq_div_mul, ← pow_succ]
  congr 1
  rw [pow_succ]
  omega

theorem length_row (node : α → α → α) (leaves : List α) (height : Nat) :
    (row node leaves height).length = width leaves.length height := by
  induction height with
  | zero => rw [row, width_zero]
  | succ height ih => rw [row, length_level, ih, width_succ]

theorem row_add (node : α → α → α) (leaves : List α) (height above : Nat) :
    row node (row node leaves above) height = row node leaves (height + above) := by
  induction height with
  | zero => rw [row, Nat.zero_add]
  | succ height ih => rw [row, ih, Nat.add_right_comm, row]

theorem row_succ (node : α → α → α) (leaves : List α) (height pos : Nat) :
    (row node leaves (height + 1))[pos]? = (row node leaves height)[2 * pos]?.map fun left =>
      node left (((row node leaves height)[2 * pos + 1]?).getD left) := by
  rw [row, level, List.getElem?_map, pairs_getElem?, Option.map_map]
  rfl

theorem root_eq_row (node : α → α → α) (leaves : List α) (nonempty : leaves ≠ []) :
    root node leaves = (row node leaves (Nat.clog 2 leaves.length))[0]? := by
  induction leaves using root.induct node with
  | case1 => contradiction
  | case2 last => rw [root, length_singleton, Nat.clog_one_right, row, List.getElem?_cons_zero]
  | case3 left right rest ih =>
    rw [root, ih (by cases rest <;> simp [level, pairs]), height_level node, ← row_add]
    rfl

theorem pairs_row_hashed (node : α → α → α) (leaves : List α) {height : Nat}
    (below : height < Nat.clog 2 leaves.length) :
    ∀ pair ∈ pairs (row node leaves height), pair ∈ hashed node leaves := by
  induction leaves using root.induct node generalizing height with
  | case1 => simp at below
  | case2 last => simp at below
  | case3 left right rest ih =>
    intro pair member
    rw [height_level node] at below
    rw [hashed]
    cases height with
    | zero => exact mem_append_left _ member
    | succ height =>
      have base : row node (left :: right :: rest) (height + 1) =
          row node (level node (left :: right :: rest)) height :=
        (row_add node (left :: right :: rest) height 1).symm
      rw [base] at member
      exact mem_append_right _ (ih (by omega) pair member)

end Merkle

/-- A hash tree of which some branches are opened. -/
inductive PartialTree (α : Type) where
  /-- a node with nothing opened below it -/
  | closed (hash : α)
  /-- a marked leaf -/
  | leaf (hash : α)
  /-- an opened node without a right child -/
  | single (child : PartialTree α)
  /-- an opened node with two children -/
  | both (left right : PartialTree α)

namespace PartialTree

open Merkle

variable {α : Type}

/-- A bit for each node: whether it is opened. -/
def bits : PartialTree α → List Bool
  | closed _ => [false]
  | leaf _ => [true]
  | single child => true :: child.bits
  | both left right => true :: (left.bits ++ right.bits)

/-- The hashes of the closed nodes and of the leaves. -/
def hashes : PartialTree α → List α
  | closed hash => [hash]
  | leaf hash => [hash]
  | single child => child.hashes
  | both left right => left.hashes ++ right.hashes

/-- The hash of the root. -/
def value (node : α → α → α) : PartialTree α → α
  | closed hash => hash
  | leaf hash => hash
  | single child => node (child.value node) (child.value node)
  | both left right => node (left.value node) (right.value node)

/-- The marked leaves. -/
def matched : PartialTree α → List α
  | closed _ => []
  | leaf hash => [hash]
  | single child => child.matched
  | both left right => left.matched ++ right.matched

/-- The positions of the marked leaves below a node at a height. -/
def marked : Nat → PartialTree α → List Nat
  | _, closed _ => []
  | _, leaf _ => [0]
  | height, single child => child.marked (height - 1)
  | height, both left right =>
    left.marked (height - 1) ++ (right.marked (height - 1)).map (2 ^ (height - 1) + ·)

/-- The pairs that are hashed for the root. -/
def hashed (node : α → α → α) : PartialTree α → List (α × α)
  | closed _ => []
  | leaf _ => []
  | single child => child.hashed node ++ [(child.value node, child.value node)]
  | both left right =>
    left.hashed node ++ right.hashed node ++ [(left.value node, right.value node)]

/-- The tree is one below the node at a height and a position in a tree of `count` leaves. -/
def Shaped (count : Nat) : Nat → Nat → PartialTree α → Prop
  | _, _, closed _ => True
  | 0, _, leaf _ => True
  | height + 1, pos, single child =>
    ¬ 2 * pos + 1 < width count height ∧ child.Shaped count height (2 * pos)
  | height + 1, pos, both left right =>
    2 * pos + 1 < width count height ∧ left.Shaped count height (2 * pos) ∧
      right.Shaped count height (2 * pos + 1)
  | _, _, _ => False

/-! ## Counts -/

/-- The entries below a node. -/
def segment {β : Type} (values : List β) (height pos : Nat) : List β :=
  (values.drop (pos * 2 ^ height)).take (2 ^ height)

/-- The number of leaves below a node. -/
def span (count height pos : Nat) : Nat := min count ((pos + 1) * 2 ^ height) - pos * 2 ^ height

theorem lt_width {count height pos : Nat} :
    pos < width count height ↔ pos * 2 ^ height < count := by
  have positive : 0 < 2 ^ height := Nat.two_pow_pos height
  rw [width, Nat.lt_iff_add_one_le, Nat.le_div_iff_mul_le positive, Nat.succ_mul]
  omega

/-- The leaves below a node begin with those below its left child. -/
theorem start_left (height pos : Nat) : 2 * pos * 2 ^ height = pos * 2 ^ (height + 1) := by
  rw [pow_succ]
  ring

theorem start_right (height pos : Nat) :
    (2 * pos + 1) * 2 ^ height = pos * 2 ^ (height + 1) + 2 ^ height := by
  rw [Nat.succ_mul, start_left]

theorem span_succ (count height pos : Nat) : span count (height + 1) pos =
    span count height (2 * pos) + span count height (2 * pos + 1) := by
  have right : (2 * pos + 1 + 1) * 2 ^ height = (pos + 1) * 2 ^ (height + 1) := by
    rw [pow_succ]
    ring
  have whole : (pos + 1) * 2 ^ (height + 1) = pos * 2 ^ (height + 1) + 2 ^ height + 2 ^ height := by
    rw [Nat.succ_mul, Nat.add_assoc, pow_succ, Nat.mul_two]
  unfold span
  rw [start_left, start_right, right, whole]
  omega

theorem segment_succ {β : Type} (values : List β) (height pos : Nat) :
    segment values (height + 1) pos =
      segment values height (2 * pos) ++ segment values height (2 * pos + 1) := by
  unfold segment
  rw [start_left, start_right, ← drop_drop, ← take_add, pow_succ, Nat.mul_two]

theorem segment_zero {β : Type} (values : List β) {pos : Nat} (inside : pos < values.length) :
    segment values 0 pos = [values[pos]] := by
  rw [segment, pow_zero, Nat.mul_one, drop_eq_getElem_cons inside]
  rfl

theorem segment_none {β : Type} (values : List β) {height pos : Nat}
    (outside : ¬ pos < width values.length height) : segment values height pos = [] := by
  rw [lt_width, not_lt] at outside
  rw [segment, drop_eq_nil_of_le outside, take_nil]

variable {count height pos : Nat} {tree : PartialTree α}

theorem hashes_pos (tree : PartialTree α) : 0 < tree.hashes.length := by
  induction tree with
  | closed hash => exact Nat.one_pos
  | leaf hash => exact Nat.one_pos
  | single child ih => exact ih
  | both left right ihLeft ihRight =>
    rw [hashes, length_append]
    omega

theorem hashes_le_bits (tree : PartialTree α) : tree.hashes.length ≤ tree.bits.length := by
  induction tree with
  | closed hash => exact le_rfl
  | leaf hash => exact le_rfl
  | single child ih => exact Nat.le_succ_of_le ih
  | both left right ihLeft ihRight =>
    rw [hashes, bits, length_cons, length_append, length_append]
    omega

theorem span_pos (inside : pos < width count height) : 0 < span count height pos := by
  have below := lt_width.mp inside
  have power : 0 < 2 ^ height := Nat.two_pow_pos height
  rw [span, Nat.succ_mul]
  omega

theorem left_lt_width (inside : pos < width count (height + 1)) : 2 * pos < width count height := by
  rw [lt_width] at inside ⊢
  rwa [start_left]

theorem Shaped.hashes_le (shaped : tree.Shaped count height pos)
    (inside : pos < width count height) : tree.hashes.length ≤ span count height pos := by
  induction tree generalizing height pos with
  | closed hash => exact span_pos inside
  | leaf hash => exact span_pos inside
  | single child ih =>
    cases height with
    | zero => exact shaped.elim
    | succ height =>
      have below := ih shaped.2 (left_lt_width inside)
      rw [span_succ]
      exact Nat.le_add_right_of_le below
  | both left right ihLeft ihRight =>
    cases height with
    | zero => exact shaped.elim
    | succ height =>
      have first := ihLeft shaped.2.1 (left_lt_width inside)
      have second := ihRight shaped.2.2 shaped.1
      rw [span_succ, hashes, length_append]
      exact Nat.add_le_add first second

theorem Shaped.bits_le (shaped : tree.Shaped count height pos) :
    tree.bits.length ≤ (height + 1) * tree.hashes.length := by
  induction tree generalizing height pos with
  | closed hash => exact Nat.le_mul_of_pos_left 1 (Nat.succ_pos height)
  | leaf hash => exact Nat.le_mul_of_pos_left 1 (Nat.succ_pos height)
  | single child ih =>
    cases height with
    | zero => exact shaped.elim
    | succ height =>
      have below := ih shaped.2
      have positive := child.hashes_pos
      rw [bits, length_cons, hashes, Nat.succ_mul]
      omega
  | both left right ihLeft ihRight =>
    cases height with
    | zero => exact shaped.elim
    | succ height =>
      have first := ihLeft shaped.2.1
      have second := ihRight shaped.2.2
      have positive := left.hashes_pos
      rw [bits, length_cons, length_append, hashes, length_append,
        Nat.succ_mul, Nat.mul_add]
      omega

/-! ## The tree opened along a mask -/

section

variable (node : α → α → α) (leaves : List α) (mask : List Bool) (absent : α)

/-- The tree that is opened above the masked leaves. -/
def prune : Nat → Nat → PartialTree α
  | 0, pos =>
    if (segment mask 0 pos).any id then leaf (leaves.getD pos absent)
    else closed (leaves.getD pos absent)
  | height + 1, pos =>
    if (segment mask (height + 1) pos).any id then
      if 2 * pos + 1 < width leaves.length height then
        both (prune height (2 * pos)) (prune height (2 * pos + 1))
      else single (prune height (2 * pos))
    else closed ((row node leaves (height + 1)).getD pos absent)

theorem shaped_prune (height pos : Nat) :
    (prune node leaves mask absent height pos).Shaped leaves.length height pos := by
  induction height generalizing pos with
  | zero =>
    unfold prune
    split <;> trivial
  | succ height ih =>
    unfold prune
    split
    · split
      · rename_i right
        exact ⟨right, ih (2 * pos), ih (2 * pos + 1)⟩
      · rename_i alone
        exact ⟨alone, ih (2 * pos)⟩
    · trivial

theorem value_prune {height pos : Nat} (inside : pos < width leaves.length height) :
    (prune node leaves mask absent height pos).value node =
      (row node leaves height).getD pos absent := by
  induction height generalizing pos with
  | zero =>
    unfold prune
    split <;> rfl
  | succ height ih =>
    have within := left_lt_width inside
    have first := ih within
    have found : (row node leaves height)[2 * pos]? =
        some ((row node leaves height).getD (2 * pos) absent) := by
      rw [← length_row node] at within
      rw [List.getElem?_eq_getElem within, getD_eq_getElem _ _ within]
    have whole : (row node leaves (height + 1)).getD pos absent =
        node ((row node leaves height).getD (2 * pos) absent)
          (((row node leaves height)[2 * pos + 1]?).getD
            ((row node leaves height).getD (2 * pos) absent)) := by
      rw [getD_eq_getElem?_getD, row_succ, found]
      rfl
    unfold prune
    split
    · split
      · rename_i right
        rw [value, first, ih right, whole]
        rw [← length_row node] at right
        rw [List.getElem?_eq_getElem right, Option.getD_some, getD_eq_getElem _ _ right]
      · rename_i alone
        rw [← length_row node] at alone
        rw [value, first, whole, List.getElem?_eq_none (not_lt.mp alone), Option.getD_none]
    · rfl

theorem matched_prune (sized : mask.length = leaves.length) {height pos : Nat}
    (inside : pos < width leaves.length height) :
    (prune node leaves mask absent height pos).matched =
      ((segment (leaves.zip mask) height pos).filter Prod.snd).map Prod.fst := by
  have unmasked : ∀ height pos, (segment mask height pos).any id = false →
      (segment (leaves.zip mask) height pos).filter Prod.snd = [] := by
    intro height pos none
    rw [filter_eq_nil_iff]
    intro pair member masked
    have behind : pair.2 ∈ segment mask height pos := by
      have moved := mem_map_of_mem (f := Prod.snd) member
      unfold segment at moved ⊢
      rwa [map_take, map_drop, map_snd_zip sized.le] at moved
    rw [any_eq_false] at none
    exact none pair.2 behind masked
  induction height generalizing pos with
  | zero =>
    rw [width_zero] at inside
    have within : pos < mask.length := by rwa [sized]
    have zipped : pos < (leaves.zip mask).length := by rwa [length_zip, sized, Nat.min_self]
    unfold prune
    rw [segment_zero mask within, segment_zero (leaves.zip mask) zipped, getElem_zip,
      getD_eq_getElem leaves absent inside]
    cases mark : mask[pos] with
    | false => rfl
    | true => rfl
  | succ height ih =>
    unfold prune
    split
    · rw [segment_succ, filter_append, map_append]
      have first := ih (left_lt_width inside)
      split
      · rename_i right
        rw [matched, first, ih right]
      · rename_i alone
        have beyond : ¬ 2 * pos + 1 < width (leaves.zip mask).length height := by
          rwa [length_zip, sized, Nat.min_self]
        rw [matched, first, segment_none _ beyond, filter_nil, map_nil,
          append_nil]
    · rename_i none
      rw [unmasked _ _ (Bool.not_eq_true _ ▸ none), matched, map_nil]

end

/-! ## Trees with the value of a node of another tree -/

/-- The leaf position for which a position below a node stands. -/
def stands (count : Nat) : Nat → Nat → Nat → Nat
  | 0, pos, _ => pos
  | height + 1, pos, offset =>
    if offset < 2 ^ height then stands count height (2 * pos) offset
    else if 2 * pos + 1 < width count height then
      stands count height (2 * pos + 1) (offset - 2 ^ height)
    else stands count height (2 * pos) (offset - 2 ^ height)

theorem Shaped.marked_lt {other : Nat} (shaped : tree.Shaped other height pos) :
    ∀ offset ∈ tree.marked height, offset < 2 ^ height := by
  induction tree generalizing height pos with
  | closed hash => exact fun offset member => absurd member not_mem_nil
  | leaf hash =>
    intro offset member
    rw [mem_singleton.mp member]
    exact Nat.two_pow_pos height
  | single child ih =>
    cases height with
    | zero => exact shaped.elim
    | succ height =>
      intro offset member
      have below := ih shaped.2 offset member
      rw [pow_succ]
      omega
  | both left right ihLeft ihRight =>
    cases height with
    | zero => exact shaped.elim
    | succ height =>
      intro offset member
      rw [pow_succ]
      rcases mem_append.mp member with first | second
      · have below := ihLeft shaped.2.1 offset first
        omega
      · obtain ⟨later, found, rfl⟩ := mem_map.mp second
        have below := ihRight shaped.2.2 later found
        rw [Nat.add_sub_cancel]
        omega

variable {node : α → α → α} {leaves : List α} {hashing : Set (α × α)} {other : Nat}

/-- A pair that is hashed to a node of a row is the pair of the nodes below. -/
theorem pair_below
    (injective : Set.InjOn (fun pair : α × α => node pair.1 pair.2) hashing)
    (rows : ∀ pair ∈ pairs (row node leaves height), pair ∈ hashing)
    {left right : α} (paired : (left, right) ∈ hashing)
    (found : (row node leaves (height + 1))[pos]? = some (node left right)) :
    (row node leaves height)[2 * pos]? = some left ∧
      ((row node leaves height)[2 * pos + 1]?).getD left = right := by
  rw [row, level, List.getElem?_map, Option.map_eq_some_iff] at found
  obtain ⟨pair, listed, made⟩ := found
  have same : pair = (left, right) :=
    injective (rows pair (mem_of_getElem? listed)) paired made
  rw [pairs_getElem?, Option.map_eq_some_iff] at listed
  obtain ⟨first, below, made⟩ := listed
  rw [same, Prod.mk.injEq] at made
  rw [below, made.1]
  exact ⟨rfl, made.1 ▸ made.2⟩

/-- **Opened leaves are leaves.** A tree with the value of a node of another tree has the leaves
below this node, each at the position for which its own position stands. -/
theorem matched_eq
    (injective : Set.InjOn (fun pair : α × α => node pair.1 pair.2) hashing)
    (rows : ∀ below < height, ∀ pair ∈ pairs (row node leaves below), pair ∈ hashing)
    (own : ∀ pair ∈ tree.hashed node, pair ∈ hashing)
    (shaped : tree.Shaped other height pos) {place : Nat}
    (found : (row node leaves height)[place]? = some (tree.value node)) :
    tree.matched.map some =
      (tree.marked height).map fun offset => leaves[stands leaves.length height place offset]? := by
  induction tree generalizing height pos place with
  | closed hash => rfl
  | leaf hash =>
    cases height with
    | zero =>
      rw [matched, marked, map_singleton, map_singleton, stands]
      exact congrArg (fun hash => [hash]) found.symm
    | succ height => exact shaped.elim
  | single child ih =>
    cases height with
    | zero => exact shaped.elim
    | succ height =>
      have paired : (child.value node, child.value node) ∈ hashing :=
        own _ (mem_append_right _ mem_cons_self)
      obtain ⟨below, -⟩ :=
        pair_below injective (rows height (Nat.lt_succ_self height)) paired found
      have leaves := ih (fun lower less => rows lower (Nat.lt_succ_of_lt less))
        (fun pair member => own pair (mem_append_left _ member)) shaped.2 below
      rw [matched, leaves]
      refine map_congr_left fun offset member => ?_
      rw [stands, if_pos (shaped.2.marked_lt offset member)]
  | both left right ihLeft ihRight =>
    cases height with
    | zero => exact shaped.elim
    | succ height =>
      have paired : (left.value node, right.value node) ∈ hashing :=
        own _ (mem_append_right _ mem_cons_self)
      obtain ⟨below, beside⟩ :=
        pair_below injective (rows height (Nat.lt_succ_self height)) paired found
      have lower : ∀ lower < height, ∀ pair ∈ pairs (row node leaves lower), pair ∈ hashing :=
        fun lower less => rows lower (Nat.lt_succ_of_lt less)
      have first := ihLeft lower
        (fun pair member => own pair (mem_append_left _ (mem_append_left _ member)))
        shaped.2.1 below
      have ownRight : ∀ pair ∈ right.hashed node, pair ∈ hashing := fun pair member =>
        own pair (mem_append_left _ (mem_append_right _ member))
      rw [matched, marked, map_append, map_append, first, map_map,
        Nat.add_sub_cancel]
      congr 1
      · refine map_congr_left fun offset member => ?_
        rw [stands, if_pos (shaped.2.1.marked_lt offset member)]
      · -- the second child stands for the right node below, or for the left one again
        by_cases two : 2 * place + 1 < width leaves.length height
        · have present := two
          rw [← length_row node] at present
          rw [List.getElem?_eq_getElem present, Option.getD_some] at beside
          have second := ihRight lower ownRight shaped.2.2
            ((List.getElem?_eq_getElem present).trans (congrArg some beside))
          rw [second]
          refine map_congr_left fun offset _ => ?_
          rw [comp_apply, stands, if_neg (by omega), if_pos two,
            Nat.add_sub_cancel_left]
        · have missing := two
          rw [← length_row node, not_lt] at missing
          rw [List.getElem?_eq_none missing, Option.getD_none] at beside
          have second := ihRight lower ownRight shaped.2.2 (beside ▸ below)
          rw [second]
          refine map_congr_left fun offset _ => ?_
          rw [comp_apply, stands, if_neg (by omega), if_neg two,
            Nat.add_sub_cancel_left]

/-- The second node of a pair is in the row of the first one. -/
theorem found_beside {values : List α} {left right : α} {index : Nat}
    (below : values[2 * index]? = some left)
    (beside : (values[2 * index + 1]?).getD left = right) :
    ∃ place : Nat, values[place]? = some right := by
  cases two : values[2 * index + 1]? with
  | none =>
    rw [two, Option.getD_none] at beside
    exact ⟨2 * index, below.trans (congrArg some beside)⟩
  | some hash =>
    rw [two, Option.getD_some] at beside
    exact ⟨2 * index + 1, two.trans (congrArg some beside)⟩

/-- A tree with marked leaves that is deeper than another tree of its value opens a leaf of the
other one. -/
theorem leaf_hashed
    (injective : Set.InjOn (fun pair : α × α => node pair.1 pair.2) hashing)
    (rows : ∀ below < height, ∀ pair ∈ pairs (row node leaves below), pair ∈ hashing)
    (own : ∀ pair ∈ tree.hashed node, pair ∈ hashing) {deeper : Nat} (above : height < deeper)
    (shaped : tree.Shaped other deeper pos) (opened : tree.matched ≠ []) {place : Nat}
    (found : (row node leaves height)[place]? = some (tree.value node)) :
    ∃ hash ∈ leaves, ∃ pair ∈ tree.hashed node, hash = node pair.1 pair.2 := by
  induction tree generalizing height deeper pos place with
  | closed hash => exact absurd rfl opened
  | leaf hash =>
    cases deeper with
    | zero => omega
    | succ deeper => exact shaped.elim
  | single child ih =>
    have last : (child.value node, child.value node) ∈ (single child).hashed node :=
      mem_append_right _ mem_cons_self
    cases deeper with
    | zero => exact shaped.elim
    | succ deeper =>
      cases height with
      | zero => exact ⟨_, mem_of_getElem? found, _, last, rfl⟩
      | succ height =>
        obtain ⟨below, -⟩ :=
          pair_below injective (rows height (Nat.lt_succ_self height)) (own _ last) found
        obtain ⟨hash, member, pair, hashed, made⟩ := ih
          (fun lower less => rows lower (Nat.lt_succ_of_lt less))
          (fun pair member => own pair (mem_append_left _ member))
          (Nat.lt_of_succ_lt_succ above) shaped.2 opened below
        exact ⟨hash, member, pair, mem_append_left _ hashed, made⟩
  | both left right ihLeft ihRight =>
    have last : (left.value node, right.value node) ∈ (both left right).hashed node :=
      mem_append_right _ mem_cons_self
    cases deeper with
    | zero => exact shaped.elim
    | succ deeper =>
      cases height with
      | zero => exact ⟨_, mem_of_getElem? found, _, last, rfl⟩
      | succ height =>
        obtain ⟨below, beside⟩ :=
          pair_below injective (rows height (Nat.lt_succ_self height)) (own _ last) found
        obtain ⟨second, after⟩ := found_beside below beside
        have lower : ∀ lower < height, ∀ pair ∈ pairs (row node leaves lower),
            pair ∈ hashing := fun lower less => rows lower (Nat.lt_succ_of_lt less)
        by_cases first : left.matched = []
        · have rest : right.matched ≠ [] := by
            intro none
            exact opened (by rw [matched, first, none, nil_append])
          obtain ⟨hash, member, pair, hashed, made⟩ := ihRight lower
            (fun pair member =>
              own pair (mem_append_left _ (mem_append_right _ member)))
            (Nat.lt_of_succ_lt_succ above) shaped.2.2 rest after
          exact ⟨hash, member, pair,
            mem_append_left _ (mem_append_right _ hashed), made⟩
        · obtain ⟨hash, member, pair, hashed, made⟩ := ihLeft lower
            (fun pair member =>
              own pair (mem_append_left _ (mem_append_left _ member)))
            (Nat.lt_of_succ_lt_succ above) shaped.2.1 first below
          exact ⟨hash, member, pair,
            mem_append_left _ (mem_append_left _ hashed), made⟩

end PartialTree

end Agouti
