import Agouti.Library.Frames
import Agouti.Library.Loop
import Agouti.Library.Outcome
import Agouti.Primitives.TransactionCodec

/-! # Message framing

`CNode::ReceiveMsgBytes`, `CNetMessage::readHeader` and `CNetMessage::readData` of `net.cpp`. A
chunk is taken by turns, each of which fills the header or the data of the last message; the buffer
of the data is allocated up to 256 KiB ahead. The turns make the steps of a reading token by token
(`Framing.turn_takes`), so that the messages do not depend on the chunks
(`Framing.receive_independent`).
-/

namespace Agouti

open List Serialize

/-- The header of a message. -/
structure CMessageHeader where
  pchMessageStart : List UInt8
  pchCommand : List UInt8
  nMessageSize : Nat
  nChecksum : Nat
  deriving DecidableEq, Repr

/-- A message that arrives. -/
structure CNetMessage where
  in_data : Bool
  /-- partially received header -/
  hdrbuf : List UInt8
  /-- complete header -/
  hdr : CMessageHeader
  nHdrPos : Nat
  /-- received message data -/
  vRecv : List UInt8
  nDataPos : Nat
  deriving DecidableEq, Repr

/-- A write behind the end of a buffer. -/
inductive BufferFault where
  | overrun
  deriving DecidableEq, Repr

def MAX_PROTOCOL_MESSAGE_LENGTH : Nat := 2 * 1024 * 1024

namespace Deserialize

/-- `CMessageHeader`. -/
def messageHeader : Reader UInt8 CMessageHeader := do
  let pchMessageStart ← Reader.exactly 4
  let pchCommand ← Reader.exactly 12
  let nMessageSize ← le 4
  let nChecksum ← le 4
  return { pchMessageStart, pchCommand, nMessageSize, nChecksum }

end Deserialize

namespace Serialize

/-- `CMessageHeader`. -/
def messageHeader (hdr : CMessageHeader) : List UInt8 :=
  hdr.pchMessageStart ++ hdr.pchCommand ++ le 4 hdr.nMessageSize ++ le 4 hdr.nChecksum

end Serialize

namespace Framing

/-- A sum of type `unsigned int`. -/
def unsigned (n : Nat) : Nat := n % 2 ^ 32

/-- A difference of type `unsigned int`. -/
def minus (a b : Nat) : Nat := (a + (2 ^ 32 - b)) % 2 ^ 32

/-- `memcpy(&buffer[pos], pch, nCopy)`. -/
def copyTo (buffer : List UInt8) (pos : Nat) (bytes : List UInt8) :
    Except BufferFault (List UInt8) :=
  if pos + bytes.length ≤ buffer.length then
    .ok (buffer.take pos ++ bytes ++ buffer.drop (pos + bytes.length))
  else .error .overrun

/-- `CDataStream::resize`. -/
def resize (buffer : List UInt8) (n : Nat) : List UInt8 :=
  buffer.take n ++ List.replicate (n - buffer.length) 0

/-- `CMessageHeader::CMessageHeader()`, with the message start of the network. -/
def emptyHeader (messageStart : List UInt8) : CMessageHeader where
  pchMessageStart := messageStart
  pchCommand := List.replicate 12 0
  nMessageSize := 2 ^ 32 - 1
  nChecksum := 0

/-- `CNetMessage::CNetMessage`. -/
def newMessage (messageStart : List UInt8) : CNetMessage where
  in_data := false
  hdrbuf := List.replicate 24 0
  hdr := emptyHeader messageStart
  nHdrPos := 0
  vRecv := []
  nDataPos := 0

/-- `CNetMessage::complete`. -/
def complete (msg : CNetMessage) : Bool := msg.in_data && msg.hdr.nMessageSize == msg.nDataPos

/-- `CNetMessage::readHeader`: the message and the number of bytes it has taken; nothing for -1. -/
def readHeader (msg : CNetMessage) (pch : List UInt8) :
    Except BufferFault (CNetMessage × Option Nat) := do
  -- copy data to temporary parsing buffer
  let nRemaining := minus 24 msg.nHdrPos
  let nCopy := min nRemaining pch.length
  let hdrbuf ← copyTo msg.hdrbuf msg.nHdrPos (pch.take nCopy)
  let msg := { msg with hdrbuf, nHdrPos := unsigned (msg.nHdrPos + nCopy) }
  -- if header incomplete, exit
  if msg.nHdrPos < 24 then .ok (msg, some nCopy)
  else
    -- deserialize to CMessageHeader
    match Deserialize.messageHeader.run msg.hdrbuf with
    | none => .ok (msg, none)
    | some (hdr, hdrbuf) =>
      let msg := { msg with hdr, hdrbuf }
      -- reject messages larger than MAX_SIZE
      if maxSize < hdr.nMessageSize then .ok (msg, none)
      -- switch state to reading message data
      else .ok ({ msg with in_data := true }, some nCopy)

/-- `CNetMessage::readData`. -/
def readData (msg : CNetMessage) (pch : List UInt8) :
    Except BufferFault (CNetMessage × Option Nat) := do
  let nRemaining := minus msg.hdr.nMessageSize msg.nDataPos
  let nCopy := min nRemaining pch.length
  let vRecv :=
    if msg.vRecv.length < unsigned (msg.nDataPos + nCopy) then
      -- allocate up to 256 KiB ahead, but never more than the total message size
      resize msg.vRecv
        (min msg.hdr.nMessageSize (unsigned (msg.nDataPos + nCopy + 256 * 1024)))
    else msg.vRecv
  let vRecv ← copyTo vRecv msg.nDataPos (pch.take nCopy)
  .ok ({ msg with vRecv, nDataPos := unsigned (msg.nDataPos + nCopy) }, some nCopy)

section

variable (messageStart : List UInt8)

def current (vRecvMsg : List CNetMessage) : List CNetMessage × CNetMessage :=
  match vRecvMsg.getLast? with
  | none => (vRecvMsg, newMessage messageStart)
  | some msg =>
    if complete msg then (vRecvMsg, newMessage messageStart) else (vRecvMsg.dropLast, msg)

/-- One turn of the loop of `ReceiveMsgBytes`: what is left of the chunk, or the result. -/
def turn (state : List CNetMessage × List UInt8) : (List CNetMessage × List UInt8) ⊕
    Except BufferFault (List CNetMessage × Bool) :=
  let (vRecvMsg, pch) := state
  if pch = [] then .inr (.ok (vRecvMsg, true))
  else
    let (front, msg) := current messageStart vRecvMsg
    -- absorb network data
    match if msg.in_data then readData msg pch else readHeader msg pch with
    | .error fault => .inr (.error fault)
    | .ok (msg, none) => .inr (.ok (front ++ [msg], false))
    | .ok (msg, some handled) =>
      if msg.in_data && decide (MAX_PROTOCOL_MESSAGE_LENGTH < msg.hdr.nMessageSize) then
        .inr (.ok (front ++ [msg], false))
      else .inl (front ++ [msg], pch.drop handled)

/-- `CNode::ReceiveMsgBytes` on the messages of a node: the messages and the result. There are no
more turns than bytes. -/
def receiveMsgBytes (vRecvMsg : List CNetMessage) (pch : List UInt8) :
    Option (Except BufferFault (List CNetMessage × Bool)) :=
  Loop.run (turn messageStart) (pch.length + 1) (vRecvMsg, pch)

/-- The chunks of a stream, up to the first one after which the node is disconnected. -/
def receive : List CNetMessage → List (List UInt8) →
    Option (Except BufferFault (List CNetMessage × Bool))
  | vRecvMsg, [] => some (.ok (vRecvMsg, true))
  | vRecvMsg, pch :: chunks =>
    match receiveMsgBytes messageStart vRecvMsg pch with
    | some (.ok (vRecvMsg, true)) => receive vRecvMsg chunks
    | other => other

end

/-! ## Headers -/

def announced (bytes : List UInt8) : CMessageHeader where
  pchMessageStart := bytes.take 4
  pchCommand := (bytes.drop 4).take 12
  nMessageSize := CScript.littleEndian ((bytes.drop 16).take 4)
  nChecksum := CScript.littleEndian ((bytes.drop 20).take 4)

variable {bytes : List UInt8}

theorem exactly_run {count : Nat} (enough : count ≤ bytes.length) :
    (Reader.exactly count : Reader UInt8 (List UInt8)) bytes =
      some (bytes.take count, bytes.drop count) := if_neg (not_lt.mpr enough)

theorem le_run {count : Nat} (enough : count ≤ bytes.length) :
    (Deserialize.le count).run bytes =
      some (CScript.littleEndian (bytes.take count), bytes.drop count) := by
  rw [Deserialize.le, StateT.run_map, StateT.run, exactly_run enough]
  rfl

theorem messageHeader_run (whole : bytes.length = 24) :
    Deserialize.messageHeader.run bytes = some (announced bytes, []) := by
  have start : (Reader.exactly 4 : Reader UInt8 (List UInt8)).run bytes =
      some (bytes.take 4, bytes.drop 4) := exactly_run (by omega)
  have command : (Reader.exactly 12 : Reader UInt8 (List UInt8)).run (bytes.drop 4) =
      some ((bytes.drop 4).take 12, bytes.drop 16) := by
    rw [StateT.run, exactly_run (by rw [length_drop]; omega), drop_drop]
  have size : (Deserialize.le 4).run (bytes.drop 16) =
      some (CScript.littleEndian ((bytes.drop 16).take 4), bytes.drop 20) := by
    rw [le_run (by rw [length_drop]; omega), drop_drop]
  have checksum : (Deserialize.le 4).run (bytes.drop 20) =
      some (CScript.littleEndian ((bytes.drop 20).take 4), []) := by
    have last : (bytes.drop 20).drop 4 = [] := by
      rw [drop_drop]
      exact drop_eq_nil_of_le whole.le
    rw [le_run (by rw [length_drop]; omega), last]
  rw [Deserialize.messageHeader, StateT.run_bind, start]
  simp only [Option.bind_eq_bind, Option.bind_some, StateT.run_bind, command, size, checksum,
    StateT.run_pure]
  rfl

theorem write_announced (whole : bytes.length = 24) :
    messageHeader (announced bytes) = bytes := by
  have back {part : List UInt8} (four : part.length = 4) :
      le 4 (CScript.littleEndian part) = part := by
    rw [← four, le_littleEndian]
  rw [messageHeader, announced]
  dsimp only
  rw [back (by simp; omega), back (by simp; omega), ← take_add, ← take_add,
    ← take_add, take_of_length_le (by omega)]

/-- Messages as frames. A size above `MAX_SIZE` is above the limit of the protocol too. -/
def format : Frames.Format UInt8 CMessageHeader where
  headerSize := 24
  announces := announced
  size := CMessageHeader.nMessageSize
  refuses := fun hdr => decide (MAX_PROTOCOL_MESSAGE_LENGTH < hdr.nMessageSize)
  write := messageHeader
  positive := Nat.succ_pos 23
  write_announces := fun _ => write_announced

/-! ## Buffers -/

theorem copyTo_zeros {seen : List UInt8} {room : Nat} (fits : bytes.length ≤ room) :
    copyTo (seen ++ List.replicate room 0) seen.length bytes =
      .ok (seen ++ bytes ++ List.replicate (room - bytes.length) 0) := by
  rw [copyTo, if_pos (by simp [fits]), take_left, ← drop_drop, drop_left,
    drop_replicate]

theorem resize_zeros {seen : List UInt8} {ahead n : Nat} (longer : seen.length + ahead ≤ n) :
    resize (seen ++ List.replicate ahead 0) n = seen ++ List.replicate (n - seen.length) 0 := by
  rw [resize, take_of_length_le (by simpa using longer), append_assoc,
    replicate_append_replicate, length_append, length_replicate]
  congr 2
  omega

theorem minus_eq {a b : Nat} (le : b ≤ a) (small : a < 2 ^ 32) : minus a b = a - b := by
  unfold minus
  omega

theorem unsigned_eq {n : Nat} (small : n < 2 ^ 32) : unsigned n = n := Nat.mod_eq_of_lt small

/-! ## Messages -/

section

variable (messageStart : List UInt8)

def headerMsg (seen : List UInt8) : CNetMessage :=
  { newMessage messageStart with
    hdrbuf := seen ++ List.replicate (24 - seen.length) 0, nHdrPos := seen.length }

/-- A message with some of its data, and zeros in the buffer that is allocated ahead. -/
def bodyMsg (hdr : CMessageHeader) (seen : List UInt8) (ahead : Nat) : CNetMessage where
  in_data := true
  hdrbuf := []
  hdr := hdr
  nHdrPos := 24
  vRecv := seen ++ List.replicate ahead 0
  nDataPos := seen.length

def rejectedMsg (hdr : CMessageHeader) : CNetMessage :=
  { bodyMsg hdr [] 0 with in_data := decide (hdr.nMessageSize ≤ maxSize) }

/-- The message at the back, of which nothing, a part or a header that is refused is there. -/
inductive Last : Frames.Open UInt8 CMessageHeader → List CNetMessage → Prop
  | idle : Last (.header []) []
  | header {seen : List UInt8} (some : seen ≠ []) : Last (.header seen) [headerMsg messageStart seen]
  | body {hdr : CMessageHeader} {seen : List UInt8} {ahead : Nat}
      (fits : seen.length + ahead ≤ hdr.nMessageSize) (bounded : ahead ≤ 256 * 1024) :
      Last (.body hdr seen) [bodyMsg hdr seen ahead]
  | refused (hdr : CMessageHeader) : Last (.refused hdr) [rejectedMsg hdr]

def wholeMsgs (done : List (CMessageHeader × List UInt8)) : List CNetMessage :=
  done.map fun frame => bodyMsg frame.1 frame.2 0

/-- The queue has the messages read and the one begun. -/
def Shows (reading : Frames.Reading UInt8 CMessageHeader) (vRecvMsg : List CNetMessage) : Prop :=
  ∃ last, Last messageStart reading.current last ∧ vRecvMsg = wholeMsgs reading.done ++ last

variable {messageStart} {hdr : CMessageHeader} {seen pch : List UInt8} {ahead : Nat}

theorem complete_bodyMsg : complete (bodyMsg hdr seen ahead) = true ↔
    hdr.nMessageSize = seen.length := by
  rw [complete, bodyMsg, Bool.true_and, beq_iff_eq]

theorem wholeMsgs_complete {done : List (CMessageHeader × List UInt8)}
    (valid : ∀ frame ∈ done, frame.2.length = frame.1.nMessageSize) :
    ∀ msg ∈ wholeMsgs done, complete msg = true := by
  intro msg member
  obtain ⟨frame, inside, rfl⟩ := mem_map.mp member
  exact complete_bodyMsg.mpr (valid frame inside).symm

theorem current_open {front : List CNetMessage} {msg : CNetMessage}
    (incomplete : complete msg = false) :
    current messageStart (front ++ [msg]) = (front, msg) := by
  rw [current, List.getLast?_concat]
  dsimp only
  rw [incomplete, if_neg Bool.false_ne_true, dropLast_concat]

theorem current_new {front : List CNetMessage} (whole : ∀ msg ∈ front, complete msg = true) :
    current messageStart front = (front, newMessage messageStart) := by
  rw [current]
  cases back : front.getLast? with
  | none => rfl
  | some msg =>
    dsimp only
    rw [whole msg (List.mem_of_getLast? back), if_pos rfl]

theorem readHeader_part (short : seen.length + pch.length < 24) :
    readHeader (headerMsg messageStart seen) pch =
      .ok (headerMsg messageStart (seen ++ pch), some pch.length) := by
  have remaining : minus 24 seen.length = 24 - seen.length := minus_eq (by omega) (by decide)
  have copied : min (24 - seen.length) pch.length = pch.length := by omega
  have position : unsigned (seen.length + pch.length) = seen.length + pch.length :=
    unsigned_eq (by omega)
  have room : 24 - seen.length - pch.length = 24 - (seen ++ pch).length := by
    rw [length_append]
    omega
  unfold readHeader headerMsg
  dsimp only
  rw [remaining, copied, take_length, copyTo_zeros (by omega), Outcome.ok_bind,
    position, if_pos short, room, ← length_append]

theorem readHeader_whole (short : seen.length < 24) (enough : 24 ≤ seen.length + pch.length) :
    readHeader (headerMsg messageStart seen) pch =
      .ok (if maxSize < (announced (seen ++ pch.take (24 - seen.length))).nMessageSize then
        (rejectedMsg (announced (seen ++ pch.take (24 - seen.length))), none)
      else (bodyMsg (announced (seen ++ pch.take (24 - seen.length))) [] 0,
        some (24 - seen.length))) := by
  have remaining : minus 24 seen.length = 24 - seen.length := minus_eq short.le (by decide)
  have copied : min (24 - seen.length) pch.length = 24 - seen.length := by omega
  have position : unsigned (seen.length + (24 - seen.length)) = 24 := by
    rw [Nat.add_sub_cancel' short.le]
    rfl
  have taken : (pch.take (24 - seen.length)).length = 24 - seen.length :=
    length_take_of_le (by omega)
  have whole : (seen ++ pch.take (24 - seen.length)).length = 24 := by
    rw [length_append, taken]
    omega
  unfold readHeader headerMsg
  dsimp only
  rw [remaining, copied, copyTo_zeros taken.le, Outcome.ok_bind, taken, Nat.sub_self,
    replicate_zero, append_nil, position, if_neg (lt_irrefl 24), messageHeader_run whole]
  dsimp only
  split
  · rename_i large
    have refused : decide ((announced (seen ++ pch.take (24 - seen.length))).nMessageSize ≤
        maxSize) = false := decide_eq_false (not_le.mpr large)
    rw [rejectedMsg, refused]
    rfl
  · rfl

variable (pch) in
theorem readData_spec (short : seen.length < hdr.nMessageSize)
    (small : hdr.nMessageSize ≤ MAX_PROTOCOL_MESSAGE_LENGTH)
    (fits : seen.length + ahead ≤ hdr.nMessageSize) (bounded : ahead ≤ 256 * 1024) :
    ∃ later, readData (bodyMsg hdr seen ahead) pch =
        .ok (bodyMsg hdr (seen ++ pch.take (hdr.nMessageSize - seen.length)) later,
          some (min (hdr.nMessageSize - seen.length) pch.length)) ∧
      (seen ++ pch.take (hdr.nMessageSize - seen.length)).length + later ≤ hdr.nMessageSize ∧
      later ≤ 256 * 1024 := by
  have limit : hdr.nMessageSize < 2 ^ 30 := lt_of_le_of_lt small (by decide)
  have remaining : minus hdr.nMessageSize seen.length = hdr.nMessageSize - seen.length :=
    minus_eq short.le (by omega)
  have taken : pch.take (min (hdr.nMessageSize - seen.length) pch.length) =
      pch.take (hdr.nMessageSize - seen.length) := by
    rw [← take_take, take_length]
  have count : (pch.take (hdr.nMessageSize - seen.length)).length =
      min (hdr.nMessageSize - seen.length) pch.length := length_take
  have within : min (hdr.nMessageSize - seen.length) pch.length ≤ hdr.nMessageSize - seen.length :=
    min_le_left _ _
  unfold readData bodyMsg
  dsimp only
  rw [remaining]
  generalize min (hdr.nMessageSize - seen.length) pch.length = nCopy at taken count within ⊢
  have position : unsigned (seen.length + nCopy) = seen.length + nCopy := unsigned_eq (by omega)
  have target : unsigned (seen.length + nCopy + 256 * 1024) = seen.length + nCopy + 256 * 1024 :=
    unsigned_eq (by omega)
  have length : (seen ++ List.replicate ahead (0 : UInt8)).length = seen.length + ahead := by simp
  have total : (seen ++ pch.take (hdr.nMessageSize - seen.length)).length = seen.length + nCopy := by
    rw [length_append, count]
  rw [position, target, taken, length, total]
  by_cases grows : seen.length + ahead < seen.length + nCopy
  · -- the buffer grows ahead of the data
    rw [if_pos grows, resize_zeros (by omega), copyTo_zeros (by omega), count]
    refine ⟨_, rfl, ?_, ?_⟩ <;> omega
  · rw [if_neg grows, copyTo_zeros (by omega), count]
    refine ⟨_, rfl, ?_, ?_⟩ <;> omega

/-! ## Turns -/

variable {done : List (CMessageHeader × List UInt8)} {front vRecvMsg : List CNetMessage}
  {reading : Frames.Reading UInt8 CMessageHeader}

theorem shows_grow (fits : seen.length + ahead ≤ hdr.nMessageSize) (bounded : ahead ≤ 256 * 1024) :
    Shows messageStart (format.grow done hdr seen) (wholeMsgs done ++ [bodyMsg hdr seen ahead]) := by
  have size : format.size hdr = hdr.nMessageSize := rfl
  unfold Frames.Format.grow
  split
  · exact ⟨_, .body fits bounded, rfl⟩
  · obtain rfl : ahead = 0 := by omega
    refine ⟨[], .idle, ?_⟩
    have last : wholeMsgs (done ++ [(hdr, seen)]) = wholeMsgs done ++ [bodyMsg hdr seen 0] :=
      map_append
    rw [append_nil, last]

theorem grow_not_refused : ¬(format.grow done hdr seen).Refused := by
  unfold Frames.Format.grow
  split
  · rintro ⟨_, ⟨⟩⟩
  · rintro ⟨_, ⟨⟩⟩

theorem refuses_iff : format.refuses hdr = true ↔ MAX_PROTOCOL_MESSAGE_LENGTH < hdr.nMessageSize :=
  decide_eq_true_iff

theorem turn_eq {msg : CNetMessage} (filled : pch ≠ [])
    (here : current messageStart vRecvMsg = (front, msg)) :
    turn messageStart (vRecvMsg, pch) =
      match if msg.in_data then readData msg pch else readHeader msg pch with
      | .error fault => .inr (.error fault)
      | .ok (msg, none) => .inr (.ok (front ++ [msg], false))
      | .ok (msg, some handled) =>
        if msg.in_data && decide (MAX_PROTOCOL_MESSAGE_LENGTH < msg.hdr.nMessageSize) then
          .inr (.ok (front ++ [msg], false))
        else .inl (front ++ [msg], pch.drop handled) := by
  rw [turn, if_neg filled, here]

/-- What a turn does: it takes bytes, and ends the loop at a header that is refused. -/
def Takes (messageStart : List UInt8) (reading : Frames.Reading UInt8 CMessageHeader)
    (vRecvMsg : List CNetMessage) (pch : List UInt8) : Prop :=
  ∃ taken rest after, taken ≠ [] ∧ pch = taken ++ rest ∧
    Shows messageStart (format.takeAll reading taken) after ∧
    (¬(format.takeAll reading taken).Refused ∧
        turn messageStart (vRecvMsg, pch) = .inl (after, rest) ∨
      (format.takeAll reading taken).Refused ∧
        turn messageStart (vRecvMsg, pch) = .inr (.ok (after, false)))

theorem turn_header (filled : pch ≠ []) (short : seen.length < 24)
    (here : current messageStart vRecvMsg = (wholeMsgs done, headerMsg messageStart seen)) :
    Takes messageStart ⟨done, .header seen⟩ vRecvMsg pch := by
  have goes := turn_eq filled here
  rw [if_neg (show ¬(headerMsg messageStart seen).in_data = true from Bool.false_ne_true)] at goes
  by_cases part : seen.length + pch.length < 24
  · rw [readHeader_part part] at goes
    have reading : format.takeAll ⟨done, .header seen⟩ pch = ⟨done, .header (seen ++ pch)⟩ :=
      Frames.Format.takeAll_header part
    refine ⟨pch, [], wholeMsgs done ++ [headerMsg messageStart (seen ++ pch)],
      filled, (append_nil pch).symm, ?_, .inl ⟨?_, goes.trans ?_⟩⟩
    · rw [reading]
      exact ⟨_, .header (append_ne_nil_of_right_ne_nil seen filled), rfl⟩
    · rw [reading]
      rintro ⟨_, ⟨⟩⟩
    · dsimp only
      rw [drop_length]
      rfl
  · rw [readHeader_whole short (not_lt.mp part)] at goes
    have taken : (pch.take (24 - seen.length)).length = 24 - seen.length :=
      length_take_of_le (by omega)
    have nonempty : pch.take (24 - seen.length) ≠ [] := by
      apply ne_nil_of_length_pos
      omega
    have reading : format.takeAll ⟨done, .header seen⟩ (pch.take (24 - seen.length)) =
        format.enter done (announced (seen ++ pch.take (24 - seen.length))) := by
      apply Frames.Format.takeAll_enter nonempty
      rw [taken]
      exact Nat.add_sub_cancel' short.le
    generalize announced (seen ++ pch.take (24 - seen.length)) = hdr at goes reading
    by_cases refused : MAX_PROTOCOL_MESSAGE_LENGTH < hdr.nMessageSize
    · rw [Frames.Format.enter, if_pos (refuses_iff.mpr refused)] at reading
      refine ⟨_, _, wholeMsgs done ++ [rejectedMsg hdr], nonempty,
        (take_append_drop _ pch).symm, ?_, .inr ⟨?_, goes.trans ?_⟩⟩
      · rw [reading]
        exact ⟨_, .refused hdr, rfl⟩
      · rw [reading]
        exact ⟨hdr, rfl⟩
      · -- `readHeader` refuses the largest sizes, and the loop the others
        split_ifs with large
        · rfl
        · have body : rejectedMsg hdr = bodyMsg hdr [] 0 := by
            rw [rejectedMsg, decide_eq_true (not_lt.mp large)]
            rfl
          rw [body]
          exact if_pos (by rw [Bool.and_eq_true]; exact ⟨rfl, decide_eq_true refused⟩)
    · have fine : format.refuses hdr = false :=
        Bool.eq_false_iff.mpr fun fails => refused (refuses_iff.mp fails)
      rw [Frames.Format.enter, fine, if_neg Bool.false_ne_true] at reading
      have small : ¬maxSize < hdr.nMessageSize := by
        unfold MAX_PROTOCOL_MESSAGE_LENGTH at refused
        unfold maxSize
        omega
      rw [if_neg small] at goes
      refine ⟨_, _, wholeMsgs done ++ [bodyMsg hdr [] 0], nonempty,
        (take_append_drop _ pch).symm, ?_, .inl ⟨?_, goes.trans ?_⟩⟩
      · rw [reading]
        exact shows_grow (Nat.zero_le _) (Nat.zero_le _)
      · rw [reading]
        exact grow_not_refused
      · apply if_neg
        rw [Bool.and_eq_true]
        rintro ⟨-, large⟩
        exact refused (of_decide_eq_true large)

theorem turn_body (filled : pch ≠ []) (short : seen.length < hdr.nMessageSize)
    (small : hdr.nMessageSize ≤ MAX_PROTOCOL_MESSAGE_LENGTH)
    (fits : seen.length + ahead ≤ hdr.nMessageSize) (bounded : ahead ≤ 256 * 1024) :
    Takes messageStart ⟨done, .body hdr seen⟩ (wholeMsgs done ++ [bodyMsg hdr seen ahead]) pch := by
  have incomplete : complete (bodyMsg hdr seen ahead) = false := by
    rw [Bool.eq_false_iff, ne_eq, complete_bodyMsg]
    omega
  have here : current messageStart (wholeMsgs done ++ [bodyMsg hdr seen ahead]) =
      (wholeMsgs done, bodyMsg hdr seen ahead) := current_open incomplete
  have goes := turn_eq filled here
  have data : (bodyMsg hdr seen ahead).in_data = true := rfl
  obtain ⟨later, read, fitsLater, boundedLater⟩ := readData_spec pch short small fits bounded
  have nonempty : pch.take (hdr.nMessageSize - seen.length) ≠ [] := by
    rw [ne_eq, take_eq_nil_iff]
    rintro (none | empty)
    · omega
    · exact filled empty
  have dropped : pch.drop (min (hdr.nMessageSize - seen.length) pch.length) =
      pch.drop (hdr.nMessageSize - seen.length) := by
    rw [drop_eq_drop_iff, min_assoc, min_self]
  rw [if_pos data, read] at goes
  have reading : format.takeAll ⟨done, .body hdr seen⟩
      (pch.take (hdr.nMessageSize - seen.length)) =
        format.grow done hdr (seen ++ pch.take (hdr.nMessageSize - seen.length)) := by
    apply Frames.Format.takeAll_body nonempty
    rw [← length_append]
    exact le_trans (Nat.le_add_right _ _) fitsLater
  refine ⟨_, _, wholeMsgs done ++
    [bodyMsg hdr (seen ++ pch.take (hdr.nMessageSize - seen.length)) later], nonempty,
    (take_append_drop _ pch).symm, ?_, .inl ⟨?_, goes.trans ?_⟩⟩
  · rw [reading]
    exact shows_grow fitsLater boundedLater
  · rw [reading]
    exact grow_not_refused
  · dsimp only
    rw [dropped]
    apply if_neg
    rw [Bool.and_eq_true]
    rintro ⟨-, large⟩
    exact absurd (of_decide_eq_true large) (not_lt.mpr small)

/-- **A turn takes bytes of the stream.** -/
theorem turn_takes (valid : format.Valid reading) (shows : Shows messageStart reading vRecvMsg)
    (allowed : ¬reading.Refused) (filled : pch ≠ []) : Takes messageStart reading vRecvMsg pch := by
  obtain ⟨done, current⟩ := reading
  obtain ⟨last, back, rfl⟩ := shows
  have whole := wholeMsgs_complete fun frame member => (valid.1 frame member).1
  cases back with
  | idle =>
    rw [append_nil]
    exact turn_header filled (by norm_num) (current_new whole)
  | header some => exact turn_header filled valid.2 (current_open rfl)
  | body fits bounded =>
    obtain ⟨short, fine⟩ := valid.2
    apply turn_body filled short _ fits bounded
    by_contra large
    rw [refuses_iff.mpr (not_le.mp large)] at fine
    cases fine
  | refused hdr => exact absurd ⟨hdr, rfl⟩ allowed

/-! ## Chunks -/

/-- The call returns what the reading shows. -/
def Received (messageStart : List UInt8) (reading : Frames.Reading UInt8 CMessageHeader)
    (result : Option (Except BufferFault (List CNetMessage × Bool))) : Prop :=
  ∃ vRecvMsg connected, result = some (.ok (vRecvMsg, connected)) ∧
    Shows messageStart reading vRecvMsg ∧ (connected = true ↔ ¬reading.Refused)

/-- **A chunk is taken to its end or to a header that is refused.** -/
theorem receiveMsgBytes_received (valid : format.Valid reading)
    (shows : Shows messageStart reading vRecvMsg) (allowed : ¬reading.Refused) (pch : List UInt8) :
    Received messageStart (format.takeAll reading pch)
      (receiveMsgBytes messageStart vRecvMsg pch) := by
  suffices all : ∀ fuel, pch.length < fuel → Received messageStart (format.takeAll reading pch)
      (Loop.run (turn messageStart) fuel (vRecvMsg, pch)) from all _ (Nat.lt_succ_self _)
  intro fuel
  induction fuel generalizing reading vRecvMsg pch with
  | zero => exact fun none => absurd none (Nat.not_lt_zero _)
  | succ fuel ih =>
    intro enough
    rw [Loop.run]
    by_cases empty : pch = []
    · subst empty
      rw [turn, if_pos rfl]
      exact ⟨vRecvMsg, true, rfl, shows, iff_of_true rfl allowed⟩
    obtain ⟨taken, rest, after, some, rfl, shown, ⟨further, goes⟩ | ⟨refused, goes⟩⟩ :=
      turn_takes valid shows allowed empty
    · rw [goes, Frames.Format.takeAll_append]
      apply ih (Frames.Format.takeAll_valid valid taken) shown further
      have positive := length_pos_of_ne_nil some
      rw [length_append] at enough
      omega
    · rw [goes, Frames.Format.takeAll_append, Frames.Format.takeAll_of_refused refused]
      exact ⟨after, false, rfl, shown, iff_of_false Bool.false_ne_true fun open_ => open_ refused⟩

/-- **The chunks of a stream are taken as the stream.** -/
theorem receive_received (valid : format.Valid reading) (shows : Shows messageStart reading vRecvMsg)
    (allowed : ¬reading.Refused) (chunks : List (List UInt8)) :
    Received messageStart (format.takeAll reading chunks.flatten)
      (receive messageStart vRecvMsg chunks) := by
  induction chunks generalizing reading vRecvMsg with
  | nil => exact ⟨vRecvMsg, true, rfl, shows, iff_of_true rfl allowed⟩
  | cons pch chunks ih =>
    obtain ⟨after, connected, done, shown, alive⟩ :=
      receiveMsgBytes_received valid shows allowed pch
    rw [receive, done, flatten_cons, Frames.Format.takeAll_append]
    cases connected with
    | true => exact ih (Frames.Format.takeAll_valid valid pch) shown (alive.mp rfl)
    | false =>
      have refused : (format.takeAll reading pch).Refused := by
        by_contra open_
        exact Bool.false_ne_true (alive.mpr open_)
      rw [Frames.Format.takeAll_of_refused refused]
      exact ⟨after, false, rfl, shown, alive⟩

/-! ## What a node has received -/

/-- A message without the part of its buffer that is allocated ahead. -/
def received (msg : CNetMessage) : CNetMessage :=
  { msg with vRecv := msg.vRecv.take msg.nDataPos }

def bytesOf (msg : CNetMessage) : List UInt8 :=
  (if msg.nHdrPos = 24 then messageHeader msg.hdr else msg.hdrbuf.take msg.nHdrPos) ++
    msg.vRecv.take msg.nDataPos

theorem received_bodyMsg : received (bodyMsg hdr seen ahead) = bodyMsg hdr seen 0 := by
  rw [received, bodyMsg, bodyMsg, take_left, replicate_zero, append_nil]

theorem bytesOf_bodyMsg :
    bytesOf (bodyMsg hdr seen ahead) = messageHeader hdr ++ seen := by
  rw [bytesOf, bodyMsg, if_pos rfl, take_left]

theorem rejectedMsg_incomplete (large : MAX_PROTOCOL_MESSAGE_LENGTH < hdr.nMessageSize) :
    complete (rejectedMsg hdr) = false := by
  rw [complete, Bool.and_eq_false_iff]
  right
  have some : hdr.nMessageSize ≠ 0 := by omega
  exact beq_eq_false_iff_ne.mpr some

variable (messageStart) in
/-- The message at the back without the part of its buffer that is allocated ahead. -/
def openMsgs : Frames.Open UInt8 CMessageHeader → List CNetMessage
  | .header seen => if seen = [] then [] else [headerMsg messageStart seen]
  | .body hdr seen => [bodyMsg hdr seen 0]
  | .refused hdr => [rejectedMsg hdr]

/-- What stands behind the whole messages is determined by the reading up to the part of a buffer
that is allocated ahead, is not complete, and stands for the bytes that have begun. -/
theorem Last.facts {open_ : Frames.Open UInt8 CMessageHeader} {last : List CNetMessage}
    (back : Last messageStart open_ last) (valid : format.Valid ⟨done, open_⟩) :
    last.map received = openMsgs messageStart open_ ∧
    (∀ msg ∈ last, complete msg = false) ∧ last.flatMap bytesOf = format.openTokens open_ := by
  cases back with
  | idle => exact ⟨rfl, forall_mem_nil _, rfl⟩
  | @header seen some =>
    have short : seen.length ≠ 24 := ne_of_lt valid.2
    refine ⟨(if_neg some).symm, forall_mem_singleton.mpr rfl, ?_⟩
    rw [flatMap_singleton, bytesOf, headerMsg, if_neg short, take_left]
    exact append_nil _
  | body fits bounded =>
    refine ⟨congrArg (fun msg => [msg]) received_bodyMsg, forall_mem_singleton.mpr ?_, ?_⟩
    · have short := valid.2.1
      rw [Bool.eq_false_iff, ne_eq, complete_bodyMsg]
      exact ne_of_gt short
    · rw [flatMap_singleton, bytesOf_bodyMsg]
      rfl
  | refused hdr =>
    refine ⟨rfl, forall_mem_singleton.mpr (rejectedMsg_incomplete (refuses_iff.mp valid.2)), ?_⟩
    rw [flatMap_singleton]
    exact append_nil _

theorem wholeMsgs_bytes (done : List (CMessageHeader × List UInt8)) :
    (wholeMsgs done).flatMap bytesOf =
      done.flatMap fun frame => messageHeader frame.1 ++ frame.2 := by
  rw [wholeMsgs, flatMap_map]
  congr 1
  funext frame
  exact bytesOf_bodyMsg

theorem Shows.complete_eq (shows : Shows messageStart reading vRecvMsg)
    (valid : format.Valid reading) : vRecvMsg.filter complete = wholeMsgs reading.done := by
  obtain ⟨last, back, rfl⟩ := shows
  have whole := wholeMsgs_complete fun frame member => (valid.1 frame member).1
  have none : last.filter complete = [] := by
    apply filter_eq_nil_iff.mpr
    intro msg member
    exact Bool.eq_false_iff.mp ((back.facts valid).2.1 msg member)
  rw [filter_append, filter_eq_self.mpr whole, none, append_nil]

theorem Shows.received_eq {other : List CNetMessage} (shows : Shows messageStart reading vRecvMsg)
    (valid : format.Valid reading) (alike : Shows messageStart reading other) :
    vRecvMsg.map received = other.map received := by
  obtain ⟨last, back, rfl⟩ := shows
  obtain ⟨otherLast, otherBack, rfl⟩ := alike
  rw [map_append, map_append, (back.facts valid).1, (otherBack.facts valid).1]

theorem Shows.bytes_eq (shows : Shows messageStart reading vRecvMsg)
    (valid : format.Valid reading) : vRecvMsg.flatMap bytesOf = format.stands reading := by
  obtain ⟨last, back, rfl⟩ := shows
  rw [flatMap_append, wholeMsgs_bytes, (back.facts valid).2.2]
  rfl

/-- The buffer of a message is allocated at most 256 KiB ahead of its data. -/
theorem Shows.bounded (shows : Shows messageStart reading vRecvMsg) :
    ∀ msg ∈ vRecvMsg, msg.vRecv.length ≤ msg.nDataPos + 256 * 1024 := by
  obtain ⟨done, current⟩ := reading
  obtain ⟨last, back, rfl⟩ := shows
  intro msg member
  rcases mem_append.mp member with whole | open_
  · obtain ⟨frame, -, rfl⟩ := mem_map.mp whole
    simp [bodyMsg]
  · cases back with
    | idle => cases open_
    | header some =>
      rw [mem_singleton.mp open_]
      exact Nat.zero_le _
    | body fits bounded =>
      rw [mem_singleton.mp open_]
      simp [bodyMsg]
      omega
    | refused hdr =>
      rw [mem_singleton.mp open_]
      exact Nat.zero_le _

end

/-- The messages of a node are those of a stream: no write was behind the end of a buffer, a complete
message has as much data as its header says, and the messages are the stream, to its end unless the
node is disconnected. -/
structure FromStream (stream : List UInt8) (vRecvMsg : List CNetMessage) (connected : Bool) :
    Prop where
  size : ∀ msg ∈ vRecvMsg, complete msg = true → msg.vRecv.length = msg.hdr.nMessageSize
  ahead : ∀ msg ∈ vRecvMsg, msg.vRecv.length ≤ msg.nDataPos + 256 * 1024
  bytes : ∃ rest, stream = vRecvMsg.flatMap bytesOf ++ rest ∧ (connected = true → rest = [])

/-- **The messages do not depend on how the stream is cut.** Two ways of cutting a stream lead to the
same complete messages, the same messages up to the part of the last buffer that is allocated ahead,
and the same decision to disconnect; and the messages are those of the stream. -/
theorem receive_independent (messageStart : List UInt8) (first second : List (List UInt8))
    (same : first.flatten = second.flatten) :
    ∃ firstMsgs secondMsgs connected,
      receive messageStart [] first = some (.ok (firstMsgs, connected)) ∧
      receive messageStart [] second = some (.ok (secondMsgs, connected)) ∧
      firstMsgs.filter complete = secondMsgs.filter complete ∧
      firstMsgs.map received = secondMsgs.map received ∧
      FromStream first.flatten firstMsgs connected := by
  have valid : format.Valid Frames.Reading.start := Frames.Format.valid_start
  have idle : Shows messageStart Frames.Reading.start [] := ⟨[], .idle, rfl⟩
  have open_ : ¬(Frames.Reading.start : Frames.Reading UInt8 CMessageHeader).Refused := by
    rintro ⟨_, ⟨⟩⟩
  have after := Frames.Format.takeAll_valid valid first.flatten
  obtain ⟨firstMsgs, connected, firstDone, firstShows, alive⟩ :=
    receive_received valid idle open_ first
  obtain ⟨secondMsgs, secondConnected, secondDone, secondShows, secondAlive⟩ :=
    receive_received valid idle open_ second
  rw [← same] at secondShows secondAlive
  obtain rfl : secondConnected = connected := Bool.eq_iff_iff.mpr (secondAlive.trans alive.symm)
  obtain ⟨rest, split, ends⟩ := Frames.Format.takeAll_stands valid first.flatten
  refine ⟨firstMsgs, secondMsgs, secondConnected, firstDone, secondDone, ?_,
    firstShows.received_eq after secondShows, ?_, firstShows.bounded, rest, ?_, ?_⟩
  · rw [firstShows.complete_eq after, secondShows.complete_eq after]
  · intro msg member whole
    have inside := mem_filter.mpr ⟨member, whole⟩
    rw [firstShows.complete_eq after] at inside
    obtain ⟨frame, known, rfl⟩ := mem_map.mp inside
    have length := (after.1 frame known).1
    rwa [bodyMsg, replicate_zero, append_nil]
  · rw [firstShows.bytes_eq after, ← split]
    rfl
  · intro live
    exact ends.resolve_right (alive.mp live)

/-- A message of three bytes that is cut in its header and in its data. -/
theorem receive_independent_three :
    let stream : List UInt8 := List.replicate 16 1 ++ [3, 0, 0, 0] ++ List.replicate 4 2 ++ [7, 8, 9]
    ∃ firstMsgs secondMsgs connected,
      receive [] [] [stream.take 10, [], (stream.drop 10).take 15, stream.drop 25] =
        some (.ok (firstMsgs, connected)) ∧
      receive [] [] [stream] = some (.ok (secondMsgs, connected)) ∧
      firstMsgs.filter complete = secondMsgs.filter complete ∧
      firstMsgs.map received = secondMsgs.map received ∧
      FromStream stream firstMsgs connected :=
  receive_independent [] _ _ rfl

end Framing

end Agouti
