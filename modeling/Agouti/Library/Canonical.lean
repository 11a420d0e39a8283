import Agouti.Library.Codec

/-! # Readers that accept one form only

A reader is canonical for a writer when the tokens that it takes are always those written for the
value that it returns (`Reader.Canonical`). With a value that is also read back this makes the
format a bijection between the allowed values and the accepted tokens. The last part is about
readers that take a long run of values in blocks, which read the same as in one go
(`Reader.inBlocks_eq`).
-/

namespace Agouti

open List

namespace Reader

variable {Token α β : Type}

/-- Accepted tokens are those written for the value, and the value is allowed. -/
def Canonical (reader : Reader Token α) (write : α → List Token) (Allowed : α → Prop) : Prop :=
  ∀ ⦃stream value rest⦄, reader.run stream = some (value, rest) →
    stream = write value ++ rest ∧ Allowed value

variable {stream rest : List Token} {reader : Reader Token α}

theorem of_run_pure {value result : α}
    (read : (pure value : Reader Token α).run stream = some (result, rest)) :
    result = value ∧ rest = stream := by
  rw [StateT.run_pure] at read
  exact ⟨(congrArg Prod.fst (Option.some.inj read)).symm,
    (congrArg Prod.snd (Option.some.inj read)).symm⟩

/-- A value that is passed through a function was read before. -/
theorem of_run_map {f : α → β} {result : β}
    (read : (f <$> reader).run stream = some (result, rest)) :
    ∃ value, reader.run stream = some (value, rest) ∧ f value = result := by
  rw [map_eq_pure_bind] at read
  obtain ⟨value, middle, here, done⟩ := of_run_bind read
  obtain ⟨rfl, rfl⟩ := of_run_pure done
  exact ⟨value, here, rfl⟩

/-- What a reader returns that may refuse its value was not refused. -/
theorem of_run_unless {Refused : Prop} [Decidable Refused] {value result : α}
    (read : (if Refused then failure else pure value : Reader Token α).run stream =
      some (result, rest)) : ¬ Refused ∧ result = value ∧ rest = stream := by
  split at read
  · cases read
  · rename_i passes
    exact ⟨passes, of_run_pure read⟩

theorem canonical_next : Canonical (next : Reader Token Token) (fun token => [token])
    fun _ => True := by
  intro stream value rest read
  cases stream with
  | nil => cases read
  | cons token tail =>
    obtain ⟨rfl, rfl⟩ := Prod.mk.inj (Option.some.inj read)
    exact ⟨rfl, trivial⟩

theorem canonical_exactly (count : Nat) :
    Canonical (exactly count : Reader Token (List Token)) id fun tokens => tokens.length = count := by
  intro stream value rest read
  unfold exactly at read
  rw [StateT.run] at read
  split at read
  · cases read
  · rename_i enough
    obtain ⟨rfl, rfl⟩ := Prod.mk.inj (Option.some.inj read)
    exact ⟨(take_append_drop count stream).symm, length_take_of_le (Nat.le_of_not_lt enough)⟩

theorem Canonical.map {write : α → List Token} {Allowed : α → Prop}
    (canonical : Canonical reader write Allowed) {f : α → β} {writeImage : β → List Token}
    {AllowedImage : β → Prop}
    (image : ∀ value, Allowed value → writeImage (f value) = write value ∧ AllowedImage (f value)) :
    Canonical (f <$> reader) writeImage AllowedImage := by
  intro stream result rest read
  obtain ⟨value, here, rfl⟩ := of_run_map read
  obtain ⟨rfl, allowed⟩ := canonical here
  rw [(image value allowed).1]
  exact ⟨rfl, (image value allowed).2⟩

theorem Canonical.times {write : α → List Token} {Allowed : α → Prop}
    (canonical : Canonical reader write Allowed) (count : Nat) :
    Canonical (times reader count) (fun values => values.flatMap write)
      fun values => values.length = count ∧ ∀ value ∈ values, Allowed value := by
  induction count with
  | zero =>
    intro stream values rest read
    obtain ⟨rfl, rfl⟩ := of_run_pure read
    exact ⟨rfl, rfl, forall_mem_nil _⟩
  | succ count ih =>
    intro stream values rest read
    obtain ⟨first, middle, head, tail⟩ := of_run_bind read
    obtain ⟨others, later, rfl⟩ := of_run_map tail
    obtain ⟨rfl, allowed⟩ := canonical head
    obtain ⟨rfl, length, each⟩ := ih later
    refine ⟨?_, ?_, forall_mem_cons.mpr ⟨allowed, each⟩⟩
    · simp only [flatMap_cons, append_assoc]
    · rw [length_cons, length]

/-! ## Blocks -/

/-- Values in blocks: the next one ends at `upTo place`, until all `size` are there. -/
def inBlocks (read : Nat → Reader Token (List α)) (size : Nat) (upTo : Nat → Nat)
    (advances : ∀ place, place < size → place < upTo place) (place : Nat) :
    Reader Token (List α) :=
  if _more : place < size then do
    let values ← read (upTo place - place)
    (values ++ ·) <$> inBlocks read size upTo advances (upTo place)
  else pure []
termination_by size - place
decreasing_by
  have further := advances place _more
  omega

/-- A reader of so many values reads some of them after the others. -/
structure Divides (read : Nat → Reader Token (List α)) : Prop where
  none : read 0 = pure []
  add : ∀ first second, read (first + second) = do
    let values ← read first
    (values ++ ·) <$> read second

theorem inBlocks_eq {read : Nat → Reader Token (List α)} (divides : Divides read) {size : Nat}
    {upTo : Nat → Nat} (advances : ∀ place, place < size → place < upTo place)
    (inside : ∀ place, place < size → upTo place ≤ size) (place : Nat) :
    inBlocks read size upTo advances place = read (size - place) := by
  induction place using inBlocks.induct size upTo advances with
  | case1 place more ih =>
    have further := advances place more
    have bounded := inside place more
    have parts : size - place = (upTo place - place) + (size - upTo place) := by omega
    rw [inBlocks, dif_pos more, ih, parts, divides.add]
  | case2 place all =>
    rw [inBlocks, dif_neg all, Nat.sub_eq_zero_of_le (Nat.le_of_not_lt all), divides.none]

theorem divides_times (reader : Reader Token α) : Divides (times reader) where
  none := rfl
  add first second := by
    induction first with
    | zero => simp [times]
    | succ first ih =>
      rw [Nat.succ_add, times, ih, times]
      simp only [bind_assoc, map_bind, bind_map_left, Functor.map_map, cons_append]

theorem divides_exactly : Divides (exactly : Nat → Reader Token (List Token)) where
  none := by
    funext stream
    simp [exactly]
    rfl
  add first second := by
    funext stream
    have both : (do
        let values ← exactly first
        (values ++ ·) <$> exactly second : Reader Token (List Token)).run stream =
          ((exactly first).run stream).bind fun read =>
            ((exactly second).run read.2).map fun others => (read.1 ++ others.1, others.2) := by
      rw [StateT.run_bind]
      cases (exactly first).run stream with
      | none => rfl
      | some pair =>
        obtain ⟨values, rest⟩ := pair
        simp only [Option.bind_eq_bind, Option.bind_some, StateT.run_map, Option.map_eq_map]
    refine Eq.trans ?_ both.symm
    by_cases short : stream.length < first
    · have shorter : stream.length < first + second := by omega
      simp [exactly, StateT.run, short, shorter]
    · by_cases less : stream.length - first < second
      · have shorter : stream.length < first + second := by omega
        simp [exactly, StateT.run, short, less, shorter]
      · have enough : ¬ stream.length < first + second := by omega
        simp [exactly, StateT.run, short, less, enough, take_add]

end Reader

end Agouti
