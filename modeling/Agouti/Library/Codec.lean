import Mathlib.Control.Monad.Basic
import Mathlib.Data.List.Basic

/-! # Readers of a token stream

A reader takes a value from the front of a list of tokens or fails. It reads a value from some
tokens (`Reads`) when it returns that value whatever follows them, and leaves exactly what follows:
a format is read back when its reader reads every value from the tokens written for it.
-/

namespace Agouti

open List Option

/-- A computation that consumes tokens from a stream and may fail. -/
abbrev Reader (Token : Type) := StateT (List Token) Option

namespace Reader

variable {Token α β : Type}

/-- The reader returns `value` from these tokens and leaves what follows them. -/
def Reads (reader : Reader Token α) (tokens : List Token) (value : α) : Prop :=
  ∀ rest, reader.run (tokens ++ rest) = some (value, rest)

/-- The next token. -/
def next : Reader Token Token := fun stream =>
  match stream with
  | [] => none
  | token :: rest => some (token, rest)

/-- The next `count` tokens. -/
def exactly (count : Nat) : Reader Token (List Token) := fun stream =>
  if stream.length < count then none else some (stream.take count, stream.drop count)

/-- `count` values in the same format. -/
def times (reader : Reader Token α) : Nat → Reader Token (List α)
  | 0 => pure []
  | count + 1 => do
      let value ← reader
      (value :: ·) <$> times reader count

/-- Tokens until `count` of them are marked. -/
def untilMarked (marked : Token → Bool) : Nat → List Token → Option (List Token × List Token)
  | 0, stream => some ([], stream)
  | _ + 1, [] => none
  | count + 1, token :: rest =>
    (untilMarked marked (if marked token then count else count + 1) rest).map
      fun (tokens, rest) => (token :: tokens, rest)

/-- A value that is present under a condition, and has a fixed value otherwise. -/
def gated (present : Prop) [Decidable present] (reader : Reader Token α) (absent : α) :
    Reader Token α :=
  if present then reader else pure absent

theorem Reads.unique {reader : Reader Token α} {tokens : List Token} {first second : α}
    (one : Reads reader tokens first) (other : Reads reader tokens second) : first = second := by
  have same := (one []).symm.trans (other [])
  exact congrArg Prod.fst (some.inj same)

theorem reads_pure (value : α) : Reads (pure value : Reader Token α) [] value := fun _ => rfl

/-- What is read first is passed on with the rest of the stream. -/
theorem Reads.run_bind {reader : Reader Token α} {next : α → Reader Token β}
    {tokens : List Token} {value : α} (head : Reads reader tokens value) (rest : List Token) :
    (reader >>= next).run (tokens ++ rest) = (next value).run rest := by
  rw [StateT.run_bind, head]
  rfl

theorem Reads.bind {reader : Reader Token α} {next : α → Reader Token β}
    {first second : List Token} {value : α} {result : β} (head : Reads reader first value)
    (tail : Reads (next value) second result) :
    Reads (reader >>= next) (first ++ second) result := by
  intro rest
  rw [append_assoc, head.run_bind]
  exact tail rest

theorem of_run_bind {reader : Reader Token α} {next : α → Reader Token β}
    {stream left : List Token} {result : β}
    (read : (reader >>= next).run stream = some (result, left)) :
    ∃ value middle, reader.run stream = some (value, middle) ∧
      (next value).run middle = some (result, left) := by
  rw [StateT.run_bind, bind_eq_bind, bind_eq_some_iff] at read
  obtain ⟨⟨value, middle⟩, first, second⟩ := read
  exact ⟨value, middle, first, second⟩

/-- A list that is read has the length of the list that directs the reader. -/
theorem length_of_mapM {ι : Type} {reader : ι → Reader Token α} {indices : List ι}
    {stream left : List Token} {values : List α}
    (read : (indices.mapM reader).run stream = some (values, left)) :
    values.length = indices.length := by
  induction indices generalizing stream left values with
  | nil =>
    rw [mapM_nil, StateT.run_pure] at read
    have empty : [] = values := congrArg Prod.fst (some.inj read)
    rw [← empty, length_nil, length_nil]
  | cons index indices ih =>
    rw [mapM_cons] at read
    obtain ⟨head, middle, -, rest⟩ := of_run_bind read
    obtain ⟨tail, last, later, done⟩ := of_run_bind rest
    rw [StateT.run_pure] at done
    have joined : head :: tail = values := congrArg Prod.fst (some.inj done)
    rw [← joined, length_cons, length_cons, ih later]

theorem Reads.map {reader : Reader Token α} {tokens : List Token} {value : α} (f : α → β)
    (read : Reads reader tokens value) : Reads (f <$> reader) tokens (f value) := by
  intro rest
  rw [StateT.run_map, read]
  rfl

theorem Reads.gated {present : Prop} [Decidable present] {reader : Reader Token α}
    {tokens : List Token} {value absent : α} (read : present → Reads reader tokens value) :
    Reads (gated present reader absent) (if present then tokens else [])
      (if present then value else absent) := by
  unfold Reader.gated
  split
  · rename_i here
    exact read here
  · exact reads_pure absent

theorem Reads.into {reader : Reader Token α} {tokens : List Token} {value : α}
    (read : Reads reader tokens value) {f : α → β} :
    Reads (reader >>= fun value => pure (f value)) tokens (f value) := by
  have mapped := read.map f
  rwa [map_eq_pure_bind] at mapped

theorem Reads.unless {reader : Reader Token α} {tokens : List Token} {value : α}
    (read : Reads reader tokens value) {fails : α → Prop} [DecidablePred fails]
    (passes : ¬ fails value) :
    Reads (reader >>= fun value => if fails value then failure else pure value) tokens value := by
  rw [← append_nil tokens]
  refine read.bind ?_
  rw [if_neg passes]
  exact reads_pure value

theorem reads_next (token : Token) : Reads next [token] token := fun _ => rfl

theorem reads_exactly (tokens : List Token) : Reads (exactly tokens.length) tokens tokens := by
  intro rest
  have enough : ¬(tokens ++ rest).length < tokens.length := by
    rw [length_append]
    omega
  simp only [exactly, StateT.run, if_neg enough, take_left, drop_left]

theorem Reads.mapM {ι : Type} {reader : ι → Reader Token α} {tokens : ι → List Token}
    {value : ι → α} (indices : List ι)
    (each : ∀ index ∈ indices, Reads (reader index) (tokens index) (value index)) :
    Reads (indices.mapM reader) (indices.flatMap tokens) (indices.map value) := by
  induction indices with
  | nil => exact reads_pure []
  | cons index indices ih =>
    rw [mapM_cons, flatMap_cons, map_cons]
    have later := ih fun other member => each other (mem_cons_of_mem _ member)
    have joined := later.map (value index :: ·)
    rw [map_eq_pure_bind] at joined
    exact (each index mem_cons_self).bind joined

/-- Values one after the other, each in the same format, are read back by their number. -/
theorem Reads.times {reader : Reader Token α} {tokens : α → List Token} {result : α → α}
    (values : List α) (each : ∀ value ∈ values, Reads reader (tokens value) (result value)) :
    Reads (times reader values.length) (values.flatMap tokens) (values.map result) := by
  induction values with
  | nil => exact reads_pure []
  | cons value values ih =>
    rw [length_cons, flatMap_cons, map_cons, Reader.times]
    refine (each value mem_cons_self).bind ?_
    have later := ih fun other member => each other (mem_cons_of_mem value member)
    exact later.map (result value :: ·)

/-- Tokens that end in a marked one are read back by their number of marked ones. -/
theorem reads_untilMarked (marked : Token → Bool) (tokens : List Token)
    (ends : ∀ token, tokens.getLast? = some token → marked token = true) :
    Reads (untilMarked marked (tokens.countP marked)) tokens tokens := by
  intro rest
  change untilMarked marked _ (tokens ++ rest) = _
  induction tokens with
  | nil => rw [countP_nil, nil_append, untilMarked]
  | cons token tokens ih =>
    have further : (token :: tokens).countP marked =
        tokens.countP marked + if marked token then 1 else 0 := countP_cons
    have later : ∀ last, tokens.getLast? = some last → marked last = true := by
      intro last found
      cases tokens with
      | nil => simp at found
      | cons head tail => exact ends last (by rwa [List.getLast?_cons_cons])
    -- a marked token is still to come, so the count is not used up
    obtain ⟨count, positive⟩ : ∃ count, (token :: tokens).countP marked = count + 1 := by
      refine Nat.exists_eq_succ_of_ne_zero (Nat.ne_of_gt (countP_pos_iff.mpr ?_))
      obtain ⟨last, found⟩ := isSome_iff_exists.mp
        (List.getLast?_isSome.mpr (cons_ne_nil token tokens))
      exact ⟨last, List.mem_of_getLast? found, ends last found⟩
    have remaining : (if marked token then count else count + 1) = tokens.countP marked := by
      cases mark : marked token <;>
        simp only [mark, Bool.false_eq_true, ↓reduceIte] at further ⊢ <;> omega
    rw [positive, cons_append, untilMarked, remaining, ih later]
    rfl

end Reader

end Agouti
