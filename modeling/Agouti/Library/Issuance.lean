import Mathlib.Data.List.Nodup
import Mathlib.Data.Set.Basic

/-! # Items that consume and issue tokens

Every item of a run consumes tokens of the store and issues tokens under its own name. An item
that consumes something cannot enter twice, unless the token it consumes is issued once more;
so the items of a run are pairwise different as soon as those that consume nothing are
(`Issuance.Run.nodup_iff`).
-/

namespace Agouti

open List

/-- What the items of a run consume, and the names under which they issue. -/
structure Issuance (Item Name Token : Type) where
  name : Item → Name
  issuer : Token → Name
  uses : Item → List Token

namespace Issuance

variable {Item Name Token : Type} (issuance : Issuance Item Name Token)

/-- The items of a run, the last first, and the tokens it leaves. -/
inductive Run : List Item → Set Token → Prop
  | start : Run [] ∅
  | issue {item : Item} {items : List Item} {store after : Set Token} (run : Run items store)
      (available : ∀ token ∈ issuance.uses item, token ∈ store)
      (left : ∀ token ∈ after, issuance.issuer token = issuance.name item ∨
        (token ∈ store ∧ token ∉ issuance.uses item)) : Run (item :: items) after

/-- The names of a list of items tell them apart. -/
def Distinguishes (items : List Item) : Prop :=
  ∀ item ∈ items, ∀ other ∈ items, issuance.name item = issuance.name other → item = other

/-- The items that consume nothing. -/
def sources (items : List Item) : List Item :=
  items.filter fun item => (issuance.uses item).isEmpty

/-- Every token of the store has an issuer among the items, and every consumed token is gone
and has one too. -/
structure Settled (items : List Item) (store : Set Token) : Prop where
  issued : ∀ token ∈ store, ∃ item ∈ items, issuance.name item = issuance.issuer token
  consumed : ∀ item ∈ items, ∀ token ∈ issuance.uses item, token ∉ store ∧
    ∃ other ∈ items, issuance.name other = issuance.issuer token

variable {issuance}

theorem Distinguishes.tail {item : Item} {items : List Item}
    (apart : issuance.Distinguishes (item :: items)) : issuance.Distinguishes items :=
  fun one member other there => apart one (mem_cons_of_mem item member) other
    (mem_cons_of_mem item there)

variable {items : List Item} {store : Set Token}

/-- An item whose tokens are available is none of those that consumed theirs. -/
theorem Settled.fresh {item : Item} (settled : issuance.Settled items store)
    (available : ∀ token ∈ issuance.uses item, token ∈ store)
    (consumes : issuance.uses item ≠ []) : item ∉ items := by
  intro again
  obtain ⟨token, used⟩ := exists_mem_of_ne_nil _ consumes
  exact (settled.consumed item again token used).1 (available token used)

theorem Settled.issue {item : Item} {items : List Item} {store after : Set Token}
    (settled : issuance.Settled items store)
    (available : ∀ token ∈ issuance.uses item, token ∈ store)
    (left : ∀ token ∈ after, issuance.issuer token = issuance.name item ∨
      (token ∈ store ∧ token ∉ issuance.uses item))
    (apart : issuance.Distinguishes (item :: items)) (fresh : item ∉ items) :
    issuance.Settled (item :: items) after := by
  -- a token of an earlier item does not carry the name of the new one
  have unnamed : ∀ token, (∃ other ∈ items, issuance.name other = issuance.issuer token) →
      issuance.issuer token ≠ issuance.name item := by
    rintro token ⟨other, member, named⟩ same
    have equal := apart other (mem_cons_of_mem item member) item mem_cons_self
      (named.trans same)
    exact fresh (equal ▸ member)
  have later : ∀ token, (∃ other ∈ items, issuance.name other = issuance.issuer token) →
      ∃ other ∈ item :: items, issuance.name other = issuance.issuer token := by
    rintro token ⟨other, member, named⟩
    exact ⟨other, mem_cons_of_mem item member, named⟩
  constructor
  · intro token remains
    rcases left token remains with named | ⟨before, _⟩
    · exact ⟨item, mem_cons_self, named.symm⟩
    · exact later token (settled.issued token before)
  · intro other member token used
    rcases mem_cons.mp member with rfl | member
    · have issued := settled.issued token (available token used)
      refine ⟨fun remains => ?_, later token issued⟩
      rcases left token remains with named | ⟨_, unused⟩
      · exact unnamed token issued named
      · exact unused used
    · obtain ⟨gone, issued⟩ := settled.consumed other member token used
      refine ⟨fun remains => ?_, later token issued⟩
      rcases left token remains with named | ⟨before, _⟩
      · exact unnamed token issued named
      · exact gone before

theorem Run.settled (run : issuance.Run items store) (apart : issuance.Distinguishes items)
    (sources : (issuance.sources items).Nodup) :
    items.Nodup ∧ issuance.Settled items store := by
  induction run with
  | start => exact ⟨nodup_nil, fun token absent => absurd absent (Set.notMem_empty token),
      fun item absent => absurd absent not_mem_nil⟩
  | @issue item items store after run available left ih =>
    have earlier : (issuance.sources items).Nodup :=
      sources.sublist ((sublist_cons_self item items).filter _)
    obtain ⟨different, settled⟩ := ih apart.tail earlier
    have fresh : item ∉ items := by
      by_cases consumes : issuance.uses item = []
      · intro again
        have empty : (issuance.uses item).isEmpty = true := List.isEmpty_iff.mpr consumes
        rw [Issuance.sources, filter_cons_of_pos (by exact empty), nodup_cons]
          at sources
        exact sources.1 (mem_filter.mpr ⟨again, empty⟩)
      · exact settled.fresh available consumes
    exact ⟨nodup_cons.mpr ⟨fresh, different⟩, settled.issue available left apart fresh⟩

/-- **Items are unique when the sources are.** -/
theorem Run.nodup_iff (run : issuance.Run items store) (apart : issuance.Distinguishes items) :
    items.Nodup ↔ (issuance.sources items).Nodup :=
  ⟨fun different => different.sublist filter_sublist,
    fun sources => (run.settled apart sources).1⟩

end Issuance

end Agouti
