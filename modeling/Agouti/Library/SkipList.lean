import Mathlib.Data.Option.Basic
import Mathlib.Order.Basic

/-! # Skip pointers

Nodes have a pointer up to their parent, and a second one that jumps to an ancestor at a lower
height. It ends at the ancestor of that height, whichever it takes, when each jump leads to an
ancestor (`Linked`) and none is taken that leads below the height (`walk_eq_climb`).
-/

namespace SkipList

variable {Node : Type*} (up jump : Node → Option Node)

/-- The ancestor so many steps up. -/
def climb : Nat → Node → Option Node
  | 0, node => some node
  | count + 1, node => (up node).bind (climb count)

variable {up}

theorem climb_add (first second : Nat) (node : Node) :
    climb up (first + second) node = (climb up first node).bind (climb up second) := by
  induction first generalizing node with
  | zero => rw [Nat.zero_add, climb, Option.bind_some]
  | succ first ih =>
    rw [Nat.succ_add, climb, climb, Option.bind_assoc]
    exact congrArg _ (funext ih)

variable {node : Node}

/-- Nodes above one of a kind that is closed upwards have the same ancestors where the parents are
the same. -/
theorem climb_congr {other : Node → Option Node} {Kind : Node → Prop}
    (closed : ∀ node parent, Kind node → up node = some parent → Kind parent)
    (same : ∀ node, Kind node → other node = up node) (count : Nat)
    (kind : Kind node) : climb other count node = climb up count node := by
  induction count generalizing node with
  | zero => rfl
  | succ count ih =>
    rw [climb, climb, same node kind]
    cases found : up node with
    | none => rfl
    | some parent => exact ih (closed node parent kind found)

/-- What holds of a node and of each parent holds of all ancestors. -/
theorem climb_closed {Kind : Node → Prop}
    (closed : ∀ node parent, Kind node → up node = some parent → Kind parent) (count : Nat)
    {above : Node} (kind : Kind node) (climbs : climb up count node = some above) :
    Kind above := by
  induction count generalizing node with
  | zero => exact Option.some.inj climbs ▸ kind
  | succ count ih =>
    obtain ⟨parent, found, rest⟩ := Option.bind_eq_some_iff.mp climbs
    exact ih (closed node parent kind found) rest

variable (up) (skipHeight : Nat → Nat)

/-- The walk from a node at `heightWalk` to its ancestor at `height`. -/
def walk (lower : ∀ height, 0 < height → skipHeight height < height) (follows : Nat → Nat → Bool)
    (height heightWalk : Nat) (node : Node) : Option Node :=
  if further : height < heightWalk then
    if follows height heightWalk then
      (jump node).bind fun next => walk lower follows height (skipHeight heightWalk) next
    else (up node).bind fun next => walk lower follows height (heightWalk - 1) next
  else some node
termination_by heightWalk
decreasing_by
  · exact lower heightWalk (Nat.zero_lt_of_lt further)
  · exact Nat.sub_lt (Nat.zero_lt_of_lt further) Nat.one_pos

/-- The jumps of a node at `heightWalk`, and of those above it, lead to the ancestors at their skip
heights. -/
def Linked (heightWalk : Nat) (node : Node) : Prop :=
  ∀ count above, count < heightWalk → climb up count node = some above →
    jump above = climb up (heightWalk - count - skipHeight (heightWalk - count)) above

variable {up jump skipHeight}

theorem Linked.above {heightWalk count : Nat} {above : Node}
    (linked : Linked up jump skipHeight heightWalk node)
    (climbs : climb up count node = some above) :
    Linked up jump skipHeight (heightWalk - count) above := by
  intro more higher inside rest
  have whole : climb up (count + more) node = some higher := by
    rw [climb_add, climbs, Option.bind_some, rest]
  have jumps := linked (count + more) higher (by omega) whole
  rwa [← Nat.sub_sub] at jumps

/-- **The walk ends at the ancestor.** -/
theorem walk_eq_climb (lower : ∀ height, 0 < height → skipHeight height < height)
    {follows : Nat → Nat → Bool} {height heightWalk : Nat}
    (linked : Linked up jump skipHeight heightWalk node) (inside : height ≤ heightWalk)
    (above : ∀ heightWalk, height < heightWalk → follows height heightWalk = true →
      height ≤ skipHeight heightWalk) :
    walk up jump skipHeight lower follows height heightWalk node =
      climb up (heightWalk - height) node := by
  induction heightWalk using Nat.strongRecOn generalizing node with
  | _ heightWalk ih =>
    rw [walk]
    split
    · rename_i further
      have positive : 0 < heightWalk := Nat.zero_lt_of_lt further
      split
      · rename_i follow
        have below := lower heightWalk positive
        have reached := above heightWalk further follow
        have parts : heightWalk - height =
            (heightWalk - skipHeight heightWalk) + (skipHeight heightWalk - height) := by omega
        have jumps := linked 0 node positive rfl
        rw [Nat.sub_zero] at jumps
        rw [parts, climb_add, jumps]
        cases found : climb up (heightWalk - skipHeight heightWalk) node with
        | none => rfl
        | some next =>
          have rest := linked.above found
          rw [Nat.sub_sub_self (Nat.le_of_lt below)] at rest
          exact ih _ below rest reached
      · have steps : heightWalk - height = (heightWalk - 1 - height) + 1 := by omega
        rw [steps, climb]
        cases found : up node with
        | none => rfl
        | some next =>
          have parent : climb up 1 node = some next := by rw [climb, found]; rfl
          exact ih _ (by omega) (linked.above parent) (by omega)
    · rename_i arrived
      rw [Nat.sub_eq_zero_of_le (Nat.le_of_not_lt arrived), climb]

end SkipList
