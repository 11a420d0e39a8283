import Mathlib.Data.List.Basic

/-! # Frames in a stream

A header of fixed size announces the size of the body that follows it; a header may also be refused,
and then nothing behind it is read. A reading is defined token by token (`Frames.Format.take`), so
it cannot depend on how a stream is cut. The frames of a reading and what it has begun are the
stream up to a refusal (`Frames.Format.takeAll_stands`).
-/

namespace Frames

variable {Token Header : Type}

/-- Headers of `headerSize` tokens and what they announce. -/
structure Format (Token Header : Type) where
  headerSize : Nat
  announces : List Token → Header
  size : Header → Nat
  refuses : Header → Bool
  /-- the tokens of a header -/
  write : Header → List Token
  positive : 0 < headerSize
  write_announces : ∀ tokens, tokens.length = headerSize → write (announces tokens) = tokens

/-- What stands behind the last whole frame. -/
inductive Open (Token Header : Type)
  | header (seen : List Token)
  | body (header : Header) (seen : List Token)
  | refused (header : Header)

/-- The whole frames and what has begun. -/
structure Reading (Token Header : Type) where
  done : List (Header × List Token)
  current : Open Token Header

/-- Before the first token. -/
def Reading.start : Reading Token Header := ⟨[], .header []⟩

/-- The reading has come to a header that is refused. -/
def Reading.Refused (reading : Reading Token Header) : Prop :=
  ∃ header, reading.current = .refused header

namespace Format

variable (format : Format Token Header)

/-- A body with these tokens is whole or still open. -/
def grow (done : List (Header × List Token)) (header : Header) (seen : List Token) :
    Reading Token Header :=
  if seen.length < format.size header then ⟨done, .body header seen⟩
  else ⟨done ++ [(header, seen)], .header []⟩

/-- A whole header is refused, or a body begins. -/
def enter (done : List (Header × List Token)) (header : Header) : Reading Token Header :=
  if format.refuses header then ⟨done, .refused header⟩ else format.grow done header []

/-- One more token. -/
def take : Reading Token Header → Token → Reading Token Header
  | ⟨done, .header seen⟩, token =>
    if seen.length + 1 < format.headerSize then ⟨done, .header (seen ++ [token])⟩
    else format.enter done (format.announces (seen ++ [token]))
  | ⟨done, .body header seen⟩, token => format.grow done header (seen ++ [token])
  | ⟨done, .refused header⟩, _ => ⟨done, .refused header⟩

def takeAll (reading : Reading Token Header) (tokens : List Token) : Reading Token Header :=
  tokens.foldl format.take reading

variable {format} {done : List (Header × List Token)} {header : Header} {seen tokens : List Token}

theorem takeAll_append (reading : Reading Token Header) (first second : List Token) :
    format.takeAll reading (first ++ second) =
      format.takeAll (format.takeAll reading first) second := List.foldl_append

theorem takeAll_cons (reading : Reading Token Header) (token : Token) (tokens : List Token) :
    format.takeAll reading (token :: tokens) =
      format.takeAll (format.take reading token) tokens := rfl

theorem takeAll_refused (tokens : List Token) :
    format.takeAll ⟨done, .refused header⟩ tokens = ⟨done, .refused header⟩ := by
  induction tokens with
  | nil => rfl
  | cons token tokens ih => exact ih

theorem takeAll_of_refused {reading : Reading Token Header} (refused : reading.Refused)
    (tokens : List Token) : format.takeAll reading tokens = reading := by
  obtain ⟨done, current⟩ := reading
  obtain ⟨header, rfl⟩ := refused
  exact takeAll_refused tokens

theorem takeAll_header (fits : seen.length + tokens.length < format.headerSize) :
    format.takeAll ⟨done, .header seen⟩ tokens = ⟨done, .header (seen ++ tokens)⟩ := by
  induction tokens generalizing seen with
  | nil => rw [List.append_nil]; rfl
  | cons token tokens ih =>
    rw [List.length_cons] at fits
    rw [takeAll_cons, take, if_pos (by omega), ih (by simp; omega), List.append_assoc]
    rfl

theorem takeAll_enter (some : tokens ≠ [])
    (whole : seen.length + tokens.length = format.headerSize) :
    format.takeAll ⟨done, .header seen⟩ tokens =
      format.enter done (format.announces (seen ++ tokens)) := by
  obtain ⟨front, last, rfl⟩ := List.eq_nil_or_concat' tokens |>.resolve_left some
  rw [List.length_append, List.length_singleton] at whole
  rw [takeAll_append, takeAll_header (by omega), takeAll_cons, take, if_neg (by simp; omega),
    List.append_assoc]
  rfl

theorem takeAll_body (some : tokens ≠ [])
    (fits : seen.length + tokens.length ≤ format.size header) :
    format.takeAll ⟨done, .body header seen⟩ tokens = format.grow done header (seen ++ tokens) := by
  induction tokens generalizing seen with
  | nil => exact absurd rfl some
  | cons token tokens ih =>
    rw [takeAll_cons, take]
    rw [List.length_cons] at fits
    cases tokens with
    | nil => rfl
    | cons second tokens =>
      rw [List.length_cons] at fits
      rw [grow, if_pos (by simp; omega), ih (List.cons_ne_nil _ _) (by simp; omega),
        List.append_assoc]
      rfl

variable (format)

/-- The sizes of the frames and of what has begun are as announced. -/
def Valid (reading : Reading Token Header) : Prop :=
  (∀ frame ∈ reading.done, frame.2.length = format.size frame.1 ∧ format.refuses frame.1 = false) ∧
    match reading.current with
    | .header seen => seen.length < format.headerSize
    | .body header seen => seen.length < format.size header ∧ format.refuses header = false
    | .refused header => format.refuses header = true

/-- The tokens of what has begun. -/
def openTokens : Open Token Header → List Token
  | .header seen => seen
  | .body header seen => format.write header ++ seen
  | .refused header => format.write header

/-- The tokens that a reading stands for. -/
def stands (reading : Reading Token Header) : List Token :=
  reading.done.flatMap (fun frame => format.write frame.1 ++ frame.2) ++
    format.openTokens reading.current

variable {format} {reading : Reading Token Header}

theorem valid_start : format.Valid Reading.start := ⟨List.forall_mem_nil _, format.positive⟩

theorem grow_valid
    (valid : ∀ frame ∈ done, frame.2.length = format.size frame.1 ∧ format.refuses frame.1 = false)
    (fits : seen.length ≤ format.size header) (allowed : format.refuses header = false) :
    format.Valid (format.grow done header seen) := by
  unfold grow
  split
  · rename_i short
    exact ⟨valid, short, allowed⟩
  · have whole : seen.length = format.size header := by omega
    refine ⟨?_, format.positive⟩
    exact List.forall_mem_append.mpr ⟨valid, List.forall_mem_singleton.mpr ⟨whole, allowed⟩⟩

theorem enter_valid
    (valid : ∀ frame ∈ done, frame.2.length = format.size frame.1 ∧ format.refuses frame.1 = false) :
    format.Valid (format.enter done header) := by
  unfold enter
  split
  · rename_i refused
    exact ⟨valid, refused⟩
  · rename_i allowed
    exact grow_valid valid (Nat.zero_le _) (Bool.eq_false_iff.mpr allowed)

theorem take_valid (valid : format.Valid reading) (token : Token) :
    format.Valid (format.take reading token) := by
  obtain ⟨done, current⟩ := reading
  obtain ⟨frames, begun⟩ := valid
  cases current with
  | header seen =>
    unfold take
    dsimp only
    split
    · rename_i short
      exact ⟨frames, by simpa using short⟩
    · exact enter_valid frames
  | body header seen =>
    have short : seen.length < format.size header := begun.1
    exact grow_valid frames (by simp; omega) begun.2
  | refused header => exact ⟨frames, begun⟩

/-- **Every reading is valid.** -/
theorem takeAll_valid (valid : format.Valid reading) (tokens : List Token) :
    format.Valid (format.takeAll reading tokens) := by
  induction tokens generalizing reading with
  | nil => exact valid
  | cons token tokens ih => exact ih (take_valid valid token)

theorem grow_stands : format.stands (format.grow done header seen) =
    done.flatMap (fun frame => format.write frame.1 ++ frame.2) ++ (format.write header ++ seen) := by
  unfold grow stands
  split
  · rfl
  · simp [openTokens]

theorem enter_stands : format.stands (format.enter done header) =
    done.flatMap (fun frame => format.write frame.1 ++ frame.2) ++ format.write header := by
  unfold enter
  split
  · rfl
  · rw [grow_stands, List.append_nil]

theorem take_stands (valid : format.Valid reading) (token : Token) :
    format.stands (format.take reading token) = format.stands reading ++ [token] ∨
      reading.Refused := by
  obtain ⟨done, current⟩ := reading
  cases current with
  | header seen =>
    left
    have short : seen.length < format.headerSize := valid.2
    unfold take
    dsimp only
    split
    · simp [stands, openTokens]
    · rename_i long
      rw [enter_stands, format.write_announces _ (by simp; omega)]
      simp [stands, openTokens]
  | body header seen =>
    left
    unfold take
    rw [grow_stands]
    simp [stands, openTokens]
  | refused header => exact .inr ⟨header, rfl⟩

/-- **The tokens of a reading are the stream, up to a header that is refused.** -/
theorem takeAll_stands (valid : format.Valid reading) (stream : List Token) :
    ∃ rest, format.stands reading ++ stream =
        format.stands (format.takeAll reading stream) ++ rest ∧
      (rest = [] ∨ (format.takeAll reading stream).Refused) := by
  induction stream generalizing reading with
  | nil => exact ⟨[], rfl, .inl rfl⟩
  | cons token stream ih =>
    rcases take_stands valid token with kept | ⟨header, refused⟩
    · obtain ⟨rest, split, ends⟩ := ih (take_valid valid token)
      refine ⟨rest, ?_, ends⟩
      rw [takeAll_cons, ← split, kept, List.append_assoc]
      rfl
    · obtain ⟨done, current⟩ := reading
      dsimp only at refused
      subst refused
      rw [takeAll_refused]
      exact ⟨token :: stream, rfl, .inr ⟨header, rfl⟩⟩

/-! ## Whole frames -/

/-- A reading behind other frames. -/
def behind (front : List (Header × List Token)) (reading : Reading Token Header) :
    Reading Token Header := ⟨front ++ reading.done, reading.current⟩

theorem take_behind (front : List (Header × List Token)) (token : Token) :
    format.take (behind front reading) token = behind front (format.take reading token) := by
  have grow_behind (header : Header) (seen : List Token) :
      format.grow (front ++ reading.done) header seen =
        behind front (format.grow reading.done header seen) := by
    unfold grow
    split
    · rfl
    · rw [List.append_assoc]
      rfl
  obtain ⟨done, current⟩ := reading
  cases current with
  | header seen =>
    unfold behind take enter
    dsimp only
    split
    · rfl
    · split
      · rfl
      · exact grow_behind _ _
  | body header seen => exact grow_behind _ _
  | refused header => rfl

theorem takeAll_behind (front : List (Header × List Token)) (tokens : List Token) :
    format.takeAll (behind front reading) tokens = behind front (format.takeAll reading tokens) := by
  induction tokens generalizing reading with
  | nil => rfl
  | cons token tokens ih => rw [takeAll_cons, take_behind, ih, takeAll_cons]

variable (format) in
/-- A frame that is read as it is written. -/
structure Whole (frame : Header × List Token) : Prop where
  headerSize : (format.write frame.1).length = format.headerSize
  announces : format.announces (format.write frame.1) = frame.1
  allowed : format.refuses frame.1 = false
  size : frame.2.length = format.size frame.1

theorem Whole.takeAll {frame : Header × List Token} (whole : format.Whole frame) :
    format.takeAll ⟨done, .header []⟩ (format.write frame.1 ++ frame.2) =
      ⟨done ++ [frame], .header []⟩ := by
  obtain ⟨header, body⟩ := frame
  obtain ⟨long, back, allowed, size⟩ := whole
  have some : format.write header ≠ [] := by
    apply List.ne_nil_of_length_pos
    rw [long]
    exact format.positive
  have begun : format.takeAll ⟨done, .header []⟩ (format.write header) =
      format.grow done header [] := by
    rw [takeAll_enter some (by rw [List.length_nil, Nat.zero_add]; exact long), List.nil_append, back,
      enter, allowed, if_neg Bool.false_ne_true]
  rw [takeAll_append, begun]
  dsimp only at size
  cases body with
  | nil =>
    rw [grow, if_neg (by rw [← size]; exact Nat.lt_irrefl _)]
    rfl
  | cons token body =>
    have more : ([] : List Token).length < format.size header := by
      rw [← size]
      exact Nat.succ_pos _
    rw [grow, if_pos more, takeAll_body (List.cons_ne_nil token body) (by simp [size]), grow,
      List.nil_append, if_neg (by rw [size]; exact Nat.lt_irrefl _)]

/-- The frames of a stream of whole frames. -/
theorem takeAll_frames {frames : List (Header × List Token)}
    (whole : ∀ frame ∈ frames, format.Whole frame) :
    format.takeAll ⟨done, .header []⟩
        (frames.flatMap fun frame => format.write frame.1 ++ frame.2) =
      ⟨done ++ frames, .header []⟩ := by
  induction frames generalizing done with
  | nil =>
    rw [List.append_nil]
    rfl
  | cons frame frames ih =>
    obtain ⟨here, later⟩ := List.forall_mem_cons.mp whole
    rw [List.flatMap_cons, takeAll_append, here.takeAll, ih later, List.append_assoc]
    rfl

end Format

end Frames
