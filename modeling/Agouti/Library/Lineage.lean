import Agouti.Library.Loop
import Agouti.Library.SkipList
import Mathlib.Data.List.Chain
import Mathlib.Order.Nat

/-! # Ancestors in a forest

The nodes of a forest have heights: a node is one higher than its parent, and a root is at height 0
(`Forest`). Then a node has one ancestor at each height up to its own, its ancestors are the nodes
of its path (`Forest.mem_lineage`), and of two ancestors of a node the lower one is an ancestor of
the higher one.
-/

namespace SkipList

variable {Node : Type}

/-- The node is reached along the parents. -/
def Ancestor (up : Node → Option Node) (above node : Node) : Prop :=
  ∃ count, climb up count node = some above

/-- The node is a common ancestor, and no common ancestor is higher. -/
structure HighestCommon (up : Node → Option Node) (height : Node → Nat) (first second above : Node) :
    Prop where
  ofFirst : Ancestor up above first
  ofSecond : Ancestor up above second
  highest : ∀ other, Ancestor up other first → Ancestor up other second →
    height other ≤ height above

/-- The known nodes are a forest with heights. -/
structure Forest (up : Node → Option Node) (height : Node → Nat) (Known : Node → Prop) : Prop where
  parent : ∀ node above, Known node → up node = some above →
    Known above ∧ height node = height above + 1
  root : ∀ node, Known node → up node = none → height node = 0

/-- One round of the loop that goes up until it meets a node of a kind. -/
def descend (up : Node → Option Node) (stops : Node → Bool) : Option Node → Option Node ⊕ Option Node
  | none => .inr none
  | some node => if stops node then .inr (some node) else .inl (up node)

/-- One round of the loop that goes up from two nodes until they are the same. -/
def meet [DecidableEq Node] (up : Node → Option Node) :
    Option Node × Option Node → Option Node × Option Node ⊕ Option Node × Option Node
  | (some first, some second) =>
    if first ≠ second then .inl (up first, up second) else .inr (some first, some second)
  | pair => .inr pair

/-- The nodes from so many steps above a node down to it. -/
def lineage (up : Node → Option Node) : Nat → Node → List Node
  | 0, node => [node]
  | count + 1, node => (up node).elim [] (lineage up count) ++ [node]

/-- The nodes from one node down to another one, each the parent of the next. -/
structure PathTo (up : Node → Option Node) (first last : Node) (path : List Node) : Prop where
  head : path.head? = some first
  getLast : path.getLast? = some last
  linked : path.IsChain fun above node => up node = some above

/-- The nodes of the path above one height and up to another one. -/
def stretch (up : Node → Option Node) (height : Node → Nat) (node : Node) (low high : Nat) :
    List Node :=
  ((lineage up (height node) node).take (high + 1)).drop (low + 1)

variable {up : Node → Option Node} {height : Node → Nat} {Known : Node → Prop}
  {node above other : Node} {count : Nat}

theorem Ancestor.refl (up : Node → Option Node) (node : Node) : Ancestor up node node := ⟨0, rfl⟩

theorem Ancestor.trans (first : Ancestor up other above) (second : Ancestor up above node) :
    Ancestor up other node := by
  obtain ⟨some, here⟩ := first
  obtain ⟨more, there⟩ := second
  refine ⟨more + some, ?_⟩
  rw [climb_add, there, Option.bind_some, here]

theorem Ancestor.of_parent (parent : up node = some above) : Ancestor up above node := by
  refine ⟨1, ?_⟩
  rw [climb, parent]
  rfl

/-- An ancestor is the node itself, or an ancestor of its parent. -/
theorem Ancestor.cases (ancestor : Ancestor up other node) :
    other = node ∨ ∃ above, up node = some above ∧ Ancestor up other above := by
  obtain ⟨count, climbs⟩ := ancestor
  cases count with
  | zero => exact .inl (Option.some.inj climbs).symm
  | succ count =>
    obtain ⟨parent, found, rest⟩ := Option.bind_eq_some_iff.mp climbs
    exact .inr ⟨parent, found, count, rest⟩

/-- Nodes above one of a kind that is closed upwards have the same paths where the parents are the
same. -/
theorem lineage_congr {others : Node → Option Node} {Kind : Node → Prop}
    (closed : ∀ node parent, Kind node → up node = some parent → Kind parent)
    (same : ∀ node, Kind node → others node = up node) (count : Nat) {node : Node}
    (kind : Kind node) : lineage others count node = lineage up count node := by
  induction count generalizing node with
  | zero => rfl
  | succ count ih =>
    rw [lineage, lineage, same node kind]
    cases parent : up node with
    | none => rfl
    | some above =>
      rw [Option.elim_some, Option.elim_some, ih (closed node above kind parent)]

namespace Forest

variable (forest : Forest up height Known)
include forest

section

variable (known : Known node)

include known

theorem climb_known (climbs : climb up count node = some above) :
    Known above :=
  climb_closed (fun node above known up => (forest.parent node above known up).1) count known climbs

theorem climb_height (climbs : climb up count node = some above) :
    height above + count = height node := by
  induction count generalizing node with
  | zero =>
    rw [Option.some.inj climbs]
    rfl
  | succ count ih =>
    obtain ⟨parent, found, rest⟩ := Option.bind_eq_some_iff.mp climbs
    obtain ⟨knownParent, higher⟩ := forest.parent node parent known found
    have level := ih knownParent rest
    omega

theorem climb_exists (inside : count ≤ height node) :
    ∃ above, climb up count node = some above := by
  induction count generalizing node with
  | zero => exact ⟨node, rfl⟩
  | succ count ih =>
    cases found : up node with
    | none =>
      have ground := forest.root node known found
      omega
    | some parent =>
      obtain ⟨knownParent, higher⟩ := forest.parent node parent known found
      obtain ⟨above, rest⟩ := ih knownParent (by omega)
      refine ⟨above, ?_⟩
      rw [climb, found]
      exact rest

theorem known_of_ancestor (ancestor : Ancestor up above node) :
    Known above := by
  obtain ⟨count, climbs⟩ := ancestor
  exact forest.climb_known known climbs

theorem height_le (ancestor : Ancestor up above node) :
    height above ≤ height node := by
  obtain ⟨count, climbs⟩ := ancestor
  have level := forest.climb_height known climbs
  omega

/-- The ancestor at a height is reached in as many steps as it is lower. -/
theorem ancestor_iff : Ancestor up above node ↔
    climb up (height node - height above) node = some above := by
  constructor
  · rintro ⟨count, climbs⟩
    have level := forest.climb_height known climbs
    have steps : height node - height above = count := by omega
    rwa [steps]
  · exact fun climbs => ⟨_, climbs⟩

theorem ancestor_unique (first : Ancestor up above node)
    (second : Ancestor up other node) (same : height above = height other) : above = other := by
  have here := (forest.ancestor_iff known).mp first
  rw [same, (forest.ancestor_iff known).mp second] at here
  exact (Option.some.inj here).symm

/-- Of two ancestors the lower one is an ancestor of the higher one. -/
theorem ancestor_of_le (lower : Ancestor up above node)
    (higher : Ancestor up other node) (le : height above ≤ height other) :
    Ancestor up above other := by
  have here := (forest.ancestor_iff known).mp lower
  have there := (forest.ancestor_iff known).mp higher
  have inside := forest.height_le known higher
  have steps : height node - height above =
      (height node - height other) + (height other - height above) := by omega
  rw [steps, climb_add, there, Option.bind_some] at here
  exact ⟨_, here⟩

theorem ancestor_root (ground : height node = 0)
    (ancestor : Ancestor up above node) : above = node := by
  have low := forest.height_le known ancestor
  exact forest.ancestor_unique known ancestor (.refl up node) (by omega)

theorem exists_root : ∃ root, Ancestor up root node ∧ height root = 0 ∧
    up root = none := by
  obtain ⟨root, climbs⟩ := forest.climb_exists known (le_refl (height node))
  have level := forest.climb_height known climbs
  refine ⟨root, ⟨_, climbs⟩, by omega, ?_⟩
  cases parent : up root with
  | none => rfl
  | some above =>
    have higher := (forest.parent root above (forest.climb_known known climbs) parent).2
    omega

/-- The path of a node ends with the path of its parent and the node. -/
theorem lineage_parent (parent : up node = some above) :
    lineage up (height node) node = lineage up (height above) above ++ [node] := by
  rw [(forest.parent node above known parent).2, lineage, parent]
  rfl

theorem lineage_root (root : up node = none) :
    lineage up (height node) node = [node] := by
  rw [forest.root node known root, lineage]

theorem length_lineage (inside : count ≤ height node) :
    (lineage up count node).length = count + 1 := by
  induction count generalizing node with
  | zero => rfl
  | succ count ih =>
    cases parent : up node with
    | none =>
      have ground := forest.root node known parent
      omega
    | some above =>
      obtain ⟨knownAbove, higher⟩ := forest.parent node above known parent
      rw [lineage, parent, Option.elim_some, List.length_append, ih knownAbove (by omega),
        List.length_singleton]

/-- At each place of the path stands the ancestor of this height. -/
theorem lineage_getElem? (inside : count ≤ height node) {place : Nat}
    (below : place ≤ count) : (lineage up count node)[place]? = climb up (count - place) node := by
  induction count generalizing node with
  | zero =>
    have first : place = 0 := by omega
    subst first
    rfl
  | succ count ih =>
    cases parent : up node with
    | none =>
      have ground := forest.root node known parent
      omega
    | some above =>
      obtain ⟨knownAbove, higher⟩ := forest.parent node above known parent
      have length : (lineage up count above).length = count + 1 :=
        forest.length_lineage knownAbove (by omega)
      rw [lineage, parent, Option.elim_some]
      by_cases top : place = count + 1
      · rw [List.getElem?_append_right (by omega), top, length, Nat.sub_self]
        rfl
      · have steps : count + 1 - place = (count - place) + 1 := by omega
        rw [List.getElem?_append_left (by omega), steps, climb, parent, Option.bind_some]
        exact ih knownAbove (by omega) (by omega)

theorem drop_lineage (inside : count ≤ height node) :
    (lineage up (height node) node).drop (height node - count) = lineage up count node := by
  have length := forest.length_lineage known (le_refl (height node))
  apply List.ext_getElem?
  intro place
  rw [List.getElem?_drop]
  by_cases below : place ≤ count
  · have steps : height node - (height node - count + place) = count - place := by omega
    rw [forest.lineage_getElem? known le_rfl (by omega), forest.lineage_getElem? known inside below,
      steps]
  · have shorter := forest.length_lineage known inside
    rw [List.getElem?_eq_none (by omega), List.getElem?_eq_none (by omega)]

theorem mem_lineage :
    above ∈ lineage up (height node) node ↔ Ancestor up above node := by
  constructor
  · intro member
    obtain ⟨place, found⟩ := List.mem_iff_getElem?.mp member
    have bound := (List.getElem?_eq_some_iff.mp found).1
    rw [forest.length_lineage known le_rfl] at bound
    rw [forest.lineage_getElem? known le_rfl (by omega)] at found
    exact ⟨_, found⟩
  · intro ancestor
    have low := forest.height_le known ancestor
    apply List.mem_iff_getElem?.mpr
    exact ⟨height above, by
      rw [forest.lineage_getElem? known le_rfl low, (forest.ancestor_iff known).mp ancestor]⟩

theorem height_lineage {place : Nat}
    (found : (lineage up (height node) node)[place]? = some above) : height above = place := by
  have bound := (List.getElem?_eq_some_iff.mp found).1
  rw [forest.length_lineage known le_rfl] at bound
  rw [forest.lineage_getElem? known le_rfl (by omega)] at found
  have level := forest.climb_height known found
  omega

theorem mem_stretch {low high : Nat} :
    above ∈ stretch up height node low high ↔
      Ancestor up above node ∧ low < height above ∧ height above ≤ high := by
  constructor
  · intro member
    obtain ⟨place, found⟩ := List.mem_iff_getElem?.mp member
    rw [stretch, List.getElem?_drop] at found
    have bound := (List.getElem?_eq_some_iff.mp found).1
    rw [List.length_take] at bound
    rw [List.getElem?_take_of_lt (by omega)] at found
    have level := forest.height_lineage known found
    exact ⟨(forest.mem_lineage known).mp (List.mem_of_getElem? found), by omega, by omega⟩
  · intro ⟨ancestor, lower, higher⟩
    have inside := forest.height_le known ancestor
    have climbs := (forest.ancestor_iff known).mp ancestor
    refine List.mem_of_getElem? (i := height above - (low + 1)) ?_
    have place : low + 1 + (height above - (low + 1)) = height above := by omega
    rw [stretch, List.getElem?_drop, place, List.getElem?_take_of_lt (by omega),
      forest.lineage_getElem? known le_rfl inside, climbs]

theorem pairwise_stretch (low high : Nat) :
    (stretch up height node low high).Pairwise fun lower higher =>
      height lower < height higher := by
  apply List.Pairwise.sublist (List.drop_sublist _ _)
  apply List.Pairwise.sublist (List.take_sublist _ _)
  refine List.pairwise_iff_getElem.mpr fun first second insideFirst insideSecond before => ?_
  rw [forest.height_lineage known (List.getElem?_eq_getElem insideFirst),
    forest.height_lineage known (List.getElem?_eq_getElem insideSecond)]
  exact before

theorem take_lineage (ancestor : Ancestor up above node) :
    (lineage up (height node) node).take (height above + 1) =
      lineage up (height above) above := by
  have low := forest.height_le known ancestor
  have knownAbove := forest.known_of_ancestor known ancestor
  have climbs := (forest.ancestor_iff known).mp ancestor
  apply List.ext_getElem?
  intro place
  by_cases inside : place ≤ height above
  · have steps : height node - place = (height node - height above) + (height above - place) := by
      omega
    rw [List.getElem?_take_of_lt (by omega), forest.lineage_getElem? known le_rfl (by omega),
      forest.lineage_getElem? knownAbove le_rfl inside, steps, climb_add, climbs, Option.bind_some]
  · have length := forest.length_lineage knownAbove le_rfl
    rw [List.getElem?_take_eq_none (by omega), List.getElem?_eq_none (by omega)]

/-- A stretch begins with the end of the path of each of its nodes, and goes on above it. -/
theorem stretch_split (ancestor : Ancestor up above node) (low high count : Nat)
    (place : height above = low + count + 1) (inside : height above ≤ high) :
    stretch up height node low high =
      lineage up count above ++ stretch up height node (height above) high := by
  have knownAbove := forest.known_of_ancestor known ancestor
  have length := forest.length_lineage knownAbove (le_refl (height above))
  have first : (lineage up (height above) above).drop (low + 1) = lineage up count above := by
    have start : low + 1 = height above - count := by omega
    rw [start, forest.drop_lineage knownAbove (by omega)]
  have begins : ((lineage up (height node) node).take (high + 1)).take (height above + 1) =
      lineage up (height above) above := by
    rw [List.take_take, min_eq_left (by omega), forest.take_lineage known ancestor]
  have split := List.take_append_drop (height above + 1)
    ((lineage up (height node) node).take (high + 1))
  rw [begins] at split
  calc stretch up height node low high
      = (lineage up (height above) above ++
          stretch up height node (height above) high).drop (low + 1) :=
        congrArg (List.drop (low + 1)) split.symm
    _ = lineage up count above ++ stretch up height node (height above) high := by
        rw [List.drop_append_of_le_length (by omega), first]

theorem pathTo_lineage {root : Node} (ancestor : Ancestor up root node)
    (ground : height root = 0) : PathTo up root node (lineage up (height node) node) := by
  induction level : height node generalizing node with
  | zero =>
    have same := forest.ancestor_root known level ancestor
    exact ⟨by rw [same]; rfl, rfl, .singleton node⟩
  | succ less ih =>
    obtain ⟨above, parent⟩ : ∃ above, up node = some above := by
      cases found : up node with
      | none =>
        have lowest := forest.root node known found
        omega
      | some above => exact ⟨above, rfl⟩
    obtain ⟨knownAbove, higher⟩ := forest.parent node above known parent
    have same : height above = less := by omega
    have rest : Ancestor up root above := by
      refine forest.ancestor_of_le known ancestor (.of_parent parent) ?_
      omega
    obtain ⟨head, last, linked⟩ := ih knownAbove rest same
    rw [lineage, parent, Option.elim_some]
    refine ⟨?_, List.getLast?_concat, ?_⟩
    · rw [List.head?_append, head, Option.some_or]
    · refine List.isChain_append.mpr ⟨linked, .singleton node, ?_⟩
      intro before member after same
      rw [last] at member
      rw [← Option.some.inj member, ← Option.some.inj same]
      exact parent

end

/-- The loop stops at the highest ancestor of the kind, if there is one. -/
theorem descend_returns (stops : Node → Bool) (known : Known node) (fuel : Nat)
    (enough : height node + 1 < fuel) :
    (∃ above, Loop.run (descend up stops) fuel (some node) = some (some above) ∧
      Ancestor up above node ∧ stops above = true ∧
        ∀ other, Ancestor up other node → stops other = true → height other ≤ height above) ∨
    Loop.run (descend up stops) fuel (some node) = some none ∧
      ∀ other, Ancestor up other node → stops other = false := by
  induction fuel generalizing node with
  | zero => omega
  | succ fuel ih =>
    cases here : stops node with
    | true =>
      refine .inl ⟨node, ?_, .refl up node, here, fun other ancestor _ =>
        forest.height_le known ancestor⟩
      rw [Loop.run, descend, if_pos here]
    | false =>
      have step : Loop.run (descend up stops) (fuel + 1) (some node) =
          Loop.run (descend up stops) fuel (up node) := by
        rw [Loop.run, descend, if_neg (by rw [here]; exact Bool.false_ne_true)]
      rw [step]
      cases parent : up node with
      | none =>
        obtain ⟨less, rfl⟩ : ∃ less, fuel = less + 1 := ⟨fuel - 1, by omega⟩
        refine .inr ⟨rfl, fun other ancestor => ?_⟩
        rcases ancestor.cases with rfl | ⟨above, found, _⟩
        · exact here
        · rw [parent] at found
          contradiction
      | some above =>
        obtain ⟨knownAbove, higher⟩ := forest.parent node above known parent
        have up : ∀ other, Ancestor up other node → stops other = true →
            Ancestor up other above := by
          intro other ancestor stop
          rcases ancestor.cases with rfl | ⟨next, found, rest⟩
          · rw [here] at stop
            contradiction
          · rw [parent] at found
            exact Option.some.inj found ▸ rest
        rcases ih knownAbove (by omega) with ⟨top, run, ancestor, stop, highest⟩ | ⟨run, none⟩
        · exact .inl ⟨top, run, ancestor.trans (.of_parent parent), stop,
            fun other below stops => highest other (up other below stops) stops⟩
        · refine .inr ⟨run, fun other ancestor => ?_⟩
          cases stop : stops other with
          | false => rfl
          | true =>
            have nowhere := none other (up other ancestor stop)
            rw [stop] at nowhere
            contradiction

/-- The loop from two nodes of one height stops at their highest common ancestor, if there is
one. -/
theorem meet_returns [DecidableEq Node] {first second : Node} (knownFirst : Known first)
    (knownSecond : Known second) (level : height first = height second) (fuel : Nat)
    (enough : height first + 1 < fuel) :
    (∃ above, Loop.run (meet up) fuel (some first, some second) = some (some above, some above) ∧
      HighestCommon up height first second above) ∨
    Loop.run (meet up) fuel (some first, some second) = some (none, none) ∧
      ∀ other, Ancestor up other first → ¬ Ancestor up other second := by
  induction fuel generalizing first second with
  | zero => omega
  | succ fuel ih =>
    by_cases same : first = second
    · subst same
      refine .inl ⟨first, ?_, .refl up first, .refl up first, fun other ancestor _ =>
        forest.height_le knownFirst ancestor⟩
      rw [Loop.run, meet, if_neg (not_not.mpr rfl)]
    · have step : Loop.run (meet up) (fuel + 1) (some first, some second) =
          Loop.run (meet up) fuel (up first, up second) := by
        rw [Loop.run, meet, if_pos same]
      -- a common ancestor is above both
      have apart : ∀ other, Ancestor up other first → Ancestor up other second →
          ∃ left right, up first = some left ∧ up second = some right ∧
            Ancestor up other left ∧ Ancestor up other right := by
        intro other ofFirst ofSecond
        have lower : other ≠ first ∧ other ≠ second := by
          constructor
          · rintro rfl
            exact same (forest.ancestor_unique knownSecond ofSecond (.refl up second) level)
          · rintro rfl
            exact same (forest.ancestor_unique knownFirst (.refl up first) ofFirst level)
        obtain ⟨left, upFirst, restFirst⟩ := ofFirst.cases.resolve_left lower.1
        obtain ⟨right, upSecond, restSecond⟩ := ofSecond.cases.resolve_left lower.2
        exact ⟨left, right, upFirst, upSecond, restFirst, restSecond⟩
      rw [step]
      cases parentFirst : up first with
      | none =>
        have ground := forest.root first knownFirst parentFirst
        have parentSecond : up second = none := by
          cases found : up second with
          | none => rfl
          | some above =>
            have higher := (forest.parent second above knownSecond found).2
            omega
        obtain ⟨less, rfl⟩ : ∃ less, fuel = less + 1 := ⟨fuel - 1, by omega⟩
        refine .inr ⟨by rw [parentSecond]; rfl, fun other ofFirst ofSecond => ?_⟩
        obtain ⟨left, _, found, _⟩ := apart other ofFirst ofSecond
        rw [parentFirst] at found
        contradiction
      | some left =>
        obtain ⟨knownLeft, higherFirst⟩ := forest.parent first left knownFirst parentFirst
        cases parentSecond : up second with
        | none =>
          have ground := forest.root second knownSecond parentSecond
          omega
        | some right =>
          obtain ⟨knownRight, higherSecond⟩ :=
            forest.parent second right knownSecond parentSecond
          have both : ∀ other, Ancestor up other first → Ancestor up other second →
              Ancestor up other left ∧ Ancestor up other right := by
            intro other ofFirst ofSecond
            obtain ⟨_, _, upFirst, upSecond, restFirst, restSecond⟩ :=
              apart other ofFirst ofSecond
            rw [parentFirst, Option.some.injEq] at upFirst
            rw [parentSecond, Option.some.injEq] at upSecond
            exact ⟨upFirst ▸ restFirst, upSecond ▸ restSecond⟩
          rcases ih knownLeft knownRight (by omega) (by omega) with
            ⟨above, run, common⟩ | ⟨run, none⟩
          · exact .inl ⟨above, run, common.ofFirst.trans (.of_parent parentFirst),
              common.ofSecond.trans (.of_parent parentSecond), fun other ofFirst ofSecond =>
                common.highest other (both other ofFirst ofSecond).1
                  (both other ofFirst ofSecond).2⟩
          · exact .inr ⟨run, fun other ofFirst ofSecond =>
              none other (both other ofFirst ofSecond).1 (both other ofFirst ofSecond).2⟩

end Forest

end SkipList
