import Mathlib.Tactic.Basic

/-! # Computations that end well

A computation that may fail ends well when it returns a value of some kind or fails with an error
that is allowed (`Ends`). The rules follow the shape of the computation: a value, an error, one
computation behind another (`Ends.bind`), and a test that fails under a condition
(`Ends.refuse`), behind which the condition does not hold. Of two computations of one shape, one that
asks for less returns whatever the other returns (`Relaxes`).
-/

namespace Agouti

open List

namespace Outcome

variable {ε α β : Type}

/-- The computation returns a value as in `post` or fails with an allowed error. -/
def Ends (allowed : ε → Prop) (post : α → Prop) : Except ε α → Prop
  | .ok value => post value
  | .error error => allowed error

/-- Fail with an error under a condition. -/
def refuseIf (condition : Prop) [Decidable condition] (error : ε) : Except ε Unit :=
  if condition then .error error else .ok ()

variable {allowed : ε → Prop} {post : α → Prop} {after : β → Prop}

theorem Ends.pure {value : α} (holds : post value) :
    Ends allowed post (pure value : Except ε α) := holds

theorem Ends.throw {error : ε} (fine : allowed error) :
    Ends allowed post (throw error : Except ε α) := fine

variable {computation : Except ε α} {next : α → Except ε β}

theorem Ends.mono {weaker : α → Prop} (ends : Ends allowed post computation)
    (implies : ∀ value, post value → weaker value) :
    Ends allowed weaker computation := by
  cases computation with
  | ok value => exact implies value ends
  | error error => exact ends

theorem Ends.bind (ends : Ends allowed post computation)
    (further : ∀ value, post value → Ends allowed after (next value)) :
    Ends allowed after (computation >>= next) := by
  cases computation with
  | ok value => exact further value ends
  | error error => exact ends

theorem Ends.refuse {condition : Prop} [Decidable condition] {error : ε}
    {next : Unit → Except ε β} (fine : allowed error)
    (further : ¬ condition → Ends allowed after (next ())) :
    Ends allowed after (refuseIf condition error >>= next) := by
  unfold refuseIf
  split
  · exact fine
  · rename_i passes
    exact further passes

/-- A loop keeps what each of its turns keeps, by the items that are done. -/
theorem Ends.foldlM {Item : Type} {step : α → Item → Except ε α} {items : List Item} {start : α}
    (kept : List Item → α → Prop) (first : kept [] start)
    (turn : ∀ done item value, item ∈ items → kept done value →
      Ends allowed (kept (done ++ [item])) (step value item)) :
    Ends allowed (kept items) (items.foldlM step start) := by
  suffices remaining : ∀ rest done value, (∀ item ∈ rest, item ∈ items) → kept done value →
      Ends allowed (kept (done ++ rest)) (rest.foldlM step value) from
    remaining items [] start (fun _ member => member) first
  intro rest
  induction rest with
  | nil =>
    intro done value _ holds
    rw [append_nil]
    exact .pure holds
  | cons item rest ih =>
    intro done value within holds
    obtain ⟨here, later⟩ := forall_mem_cons.mp within
    rw [foldlM_cons, append_cons]
    exact (turn done item value here holds).bind fun next kept => ih (done ++ [item]) next later kept

theorem ok_bind (value : α) (next : α → Except ε β) : Except.ok value >>= next = next value := rfl

/-- A composed computation that returns has returned from both parts. -/
theorem bind_eq_ok {result : β} :
    computation >>= next = .ok result ↔
      ∃ value, computation = .ok value ∧ next value = .ok result := by
  cases computation with
  | ok value =>
    constructor
    · exact fun done => ⟨value, rfl, done⟩
    · rintro ⟨other, same, done⟩
      cases same
      exact done
  | error error =>
    constructor
    · intro done
      cases done
    · rintro ⟨value, absent, -⟩
      cases absent

/-- A composed computation that fails has failed in one of its parts. -/
theorem bind_eq_error {failure : ε} :
    computation >>= next = .error failure ↔ computation = .error failure ∨
      ∃ value, computation = .ok value ∧ next value = .error failure := by
  cases computation with
  | ok value =>
    constructor
    · exact fun failed => .inr ⟨value, rfl, failed⟩
    · rintro (failed | ⟨other, same, failed⟩)
      · cases failed
      · cases same
        exact failed
  | error error =>
    constructor
    · intro failed
      exact .inl (congrArg Except.error (Except.error.inj failed))
    · rintro (failed | ⟨other, same, -⟩)
      · exact congrArg Except.error (Except.error.inj failed)
      · cases same

theorem refuseIf_eq_ok {condition : Prop} [Decidable condition] {error : ε} :
    refuseIf condition error = .ok () ↔ ¬ condition := by
  unfold refuseIf
  split
  · rename_i holds
    exact ⟨fun done => (nomatch done), fun fails => absurd holds fails⟩
  · rename_i fails
    exact ⟨fun _ => fails, fun _ => rfl⟩

theorem refuseIf_eq_error {condition : Prop} [Decidable condition] {error failure : ε} :
    refuseIf condition error = .error failure ↔ condition ∧ error = failure := by
  unfold refuseIf
  split
  · rename_i holds
    exact ⟨fun failed => ⟨holds, Except.error.inj failed⟩, fun same => congrArg _ same.2⟩
  · rename_i fails
    exact iff_of_false (fun failed => nomatch failed) fun same => fails same.1

theorem refuse_bind_eq_ok {condition : Prop} [Decidable condition] {error : ε}
    {next : Unit → Except ε β} {result : β} :
    refuseIf condition error >>= next = .ok result ↔ ¬ condition ∧ next () = .ok result := by
  rw [bind_eq_ok]
  constructor
  · rintro ⟨_, passes, done⟩
    exact ⟨refuseIf_eq_ok.mp passes, done⟩
  · rintro ⟨fails, done⟩
    exact ⟨(), refuseIf_eq_ok.mpr fails, done⟩

/-! ## Asking for less -/

/-- What `strict` returns, `lax` returns too. -/
def Relaxes (strict lax : Except ε α) : Prop := ∀ value, strict = .ok value → lax = .ok value

namespace Relaxes

variable {strict lax : Except ε α}

theorem refl (computation : Except ε α) : Relaxes computation computation := fun _ done => done

theorem error (error : ε) (lax : Except ε α) : Relaxes (.error error) lax :=
  fun _ done => nomatch done

theorem bind {next other : α → Except ε β} (first : Relaxes strict lax)
    (further : ∀ value, Relaxes (next value) (other value)) :
    Relaxes (strict >>= next) (lax >>= other) := by
  intro result done
  obtain ⟨value, returned, done⟩ := bind_eq_ok.mp done
  exact bind_eq_ok.mpr ⟨value, first value returned, further value result done⟩

theorem refuseIf {condition weaker : Prop} [Decidable condition] [Decidable weaker] {error : ε}
    (less : weaker → condition) : Relaxes (refuseIf condition error) (refuseIf weaker error) :=
  fun _ done => refuseIf_eq_ok.mpr fun holds => refuseIf_eq_ok.mp done (less holds)

theorem ite {condition : Prop} [Decidable condition] {other weaker : Except ε α}
    (here : Relaxes strict lax) (there : Relaxes other weaker) :
    Relaxes (if condition then strict else other) (if condition then lax else weaker) := by
  split
  · exact here
  · exact there

theorem mapError {φ : Type} (f : ε → φ) (relaxes : Relaxes strict lax) :
    Relaxes (strict.mapError f) (lax.mapError f) := by
  intro value done
  cases strict with
  | error error => cases done
  | ok returned =>
    rw [relaxes returned rfl]
    exact done

end Relaxes

end Outcome

end Agouti
