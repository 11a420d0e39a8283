import Agouti.Net.Framing

/-! # Messages between two nodes

A message is written by `BeginMessage` and `EndMessage` of `net.cpp` and handled by
`ProcessMessages` of `main.cpp`. Whatever chunks arrive and whenever the handler is called, it gets
frames of the stream with the start, a valid header and the checksum (`handled_genuine`); of the
stream of a sender it gets the messages in their order and each of them once
(`delivered_in_order`).
-/

namespace Agouti

open List Serialize

namespace Framing

open Outcome

/-! ## Writing -/

/-- `CMessageHeader::CMessageHeader(pszCommand, nMessageSizeIn)`; `strncpy` fills up with zeros. -/
def commandHeader (messageStart pszCommand : List UInt8) (nMessageSizeIn : Nat) :
    CMessageHeader where
  pchMessageStart := messageStart
  pchCommand := pszCommand.take 12 ++ List.replicate (12 - pszCommand.length) 0
  nMessageSize := nMessageSizeIn
  nChecksum := 0

section

variable [Crypto]

/-- The first four bytes of the hash, as a number. -/
def checksum (bytes : List UInt8) : Nat := (Hash bytes).toNat % 2 ^ 32

/-- `CNode::EndMessage`: the size and the checksum are written into the header. -/
def endMessage (ssSend : List UInt8) : Except BufferFault (List UInt8) :=
  if ssSend = [] then .ok []
  else do
    let ssSend ← copyTo ssSend 16 (le 4 (minus ssSend.length 24))
    copyTo ssSend 20 (le 4 (checksum (ssSend.drop 24)))

/-- `CNode::PushMessage`. -/
def pushMessage (messageStart pszCommand payload : List UInt8) : Except BufferFault (List UInt8) :=
  endMessage (messageHeader (commandHeader messageStart pszCommand 0) ++ payload)

/-- A command and its data. -/
abbrev Message := List UInt8 × List UInt8

def pushMessages (messageStart : List UInt8) : List Message → Except BufferFault (List UInt8)
  | [] => .ok []
  | (pszCommand, payload) :: messages => do
      let bytes ← pushMessage messageStart pszCommand payload
      let others ← pushMessages messageStart messages
      .ok (bytes ++ others)

end

/-! ## Handling -/

namespace Header

/-- The loop of `CMessageHeader::IsValid` over the command. -/
def commandValid : List UInt8 → Bool
  | [] => true
  | byte :: rest =>
    if byte = 0 then rest.all (· == 0)
    else if byte < 0x20 ∨ 0x7e < byte then false
    else commandValid rest

/-- `CMessageHeader::IsValid`. -/
def isValid (messageStart : List UInt8) (hdr : CMessageHeader) : Bool :=
  hdr.pchMessageStart == messageStart && commandValid hdr.pchCommand &&
    !decide (maxSize < hdr.nMessageSize)

/-- `CMessageHeader::GetCommand`. -/
def getCommand (hdr : CMessageHeader) : List UInt8 := hdr.pchCommand.takeWhile (· != 0)

end Header

/-- A node as far as it receives: its messages, the calls of `ProcessMessage`, and whether it stays
connected. -/
structure Receiver where
  vRecvMsg : List CNetMessage := []
  handled : List Message := []
  fOk : Bool := true

/-- A chunk arrives, or the handler is called; it does nothing when there is unanswered `getdata`, no
room to send, or a node that is disconnected. -/
inductive ReceiveCall
  | receive (pch : List UInt8)
  | process (busy : Bool)

def ReceiveCall.bytes : ReceiveCall → List UInt8
  | .receive pch => pch
  | .process _ => []

section

variable [Crypto] (messageStart : List UInt8)

/-- The loop of `ProcessMessages`: the messages that are left, its result and the call of
`ProcessMessage`. -/
def processLoop : List CNetMessage → List CNetMessage × Bool × Option Message
  | [] => ([], true, none)
  | msg :: rest =>
    -- end, if an incomplete message is found
    if !complete msg then (msg :: rest, true, none)
    -- scan for message start
    else if msg.hdr.pchMessageStart ≠ messageStart then (rest, false, none)
    else if !Header.isValid messageStart msg.hdr then processLoop rest
    else if checksum (msg.vRecv.take msg.hdr.nMessageSize) ≠ msg.hdr.nChecksum then
      processLoop rest
    else (rest, true, some (Header.getCommand msg.hdr, msg.vRecv))

def processMessages (node : Receiver) (busy : Bool) : Receiver :=
  if busy then node
  else
    let (vRecvMsg, fOk, call) := processLoop messageStart node.vRecvMsg
    { vRecvMsg, fOk, handled := node.handled ++ call.toList }

/-- A call on a node; nothing is done for one that is disconnected. -/
def step (node : Receiver) (call : ReceiveCall) : Option (Except BufferFault Receiver) :=
  if !node.fOk then some (.ok node)
  else
    match call with
    | .receive pch =>
      (receiveMsgBytes messageStart node.vRecvMsg pch).map fun result =>
        result.map fun (vRecvMsg, fOk) => { node with vRecvMsg, fOk }
    | .process busy => some (.ok (processMessages messageStart node busy))

def run (node : Receiver) (calls : List ReceiveCall) : Option (Except BufferFault Receiver) :=
  calls.foldlM (m := ExceptT BufferFault Option) (step messageStart) node

end

/-! ## What is sent -/

theorem write_header (hdr : CMessageHeader) : messageHeader hdr =
    hdr.pchMessageStart ++ (hdr.pchCommand ++
      (le 4 hdr.nMessageSize ++ le 4 hdr.nChecksum)) := by
  simp only [messageHeader, append_assoc]

theorem announced_write {hdr : CMessageHeader} (start : hdr.pchMessageStart.length = 4)
    (command : hdr.pchCommand.length = 12) (size : hdr.nMessageSize < 2 ^ 32)
    (sum : hdr.nChecksum < 2 ^ 32) :
    (messageHeader hdr).length = 24 ∧ announced (messageHeader hdr) = hdr := by
  have four (n : Nat) : (le 4 n).length = 4 := length_le 4 n
  have back {n : Nat} (small : n < 2 ^ 32) : CScript.littleEndian (le 4 n) = n := by
    rw [littleEndian_le]
    exact Nat.mod_eq_of_lt small
  have later (bytes : List UInt8) : bytes.drop 16 = (bytes.drop 4).drop 12 ∧
      bytes.drop 20 = ((bytes.drop 4).drop 12).drop 4 := by
    rw [drop_drop, drop_drop]
    exact ⟨rfl, rfl⟩
  rw [write_header]
  refine ⟨by simp only [length_append, start, command, four], ?_⟩
  unfold announced
  rw [(later _).1, (later _).2, take_left' start, drop_left' start,
    take_left' command, drop_left' command, take_left' (four _),
    drop_left' (four _), take_of_length_le (four _).le, back size, back sum]

theorem copyTo_between {before old after bytes : List UInt8} {pos : Nat}
    (here : before.length = pos) (same : bytes.length = old.length) :
    copyTo (before ++ (old ++ after)) pos bytes = .ok (before ++ (bytes ++ after)) := by
  subst here
  rw [copyTo, if_pos (by simp only [length_append]; omega), take_left, same,
    ← drop_drop, drop_left, drop_left, append_assoc]

/-- The messages that can be sent: a printable command and data within the limit. -/
structure Sendable (message : Message) : Prop where
  command : message.1.length ≤ 12
  printable : ∀ byte ∈ message.1, 0x20 ≤ byte ∧ byte ≤ 0x7e
  size : message.2.length ≤ MAX_PROTOCOL_MESSAGE_LENGTH

section

variable [Crypto] (messageStart : List UInt8)

/-- A message on the wire. -/
def wireFrame (message : Message) : CMessageHeader × List UInt8 :=
  ({ commandHeader messageStart message.1 message.2.length with nChecksum := checksum message.2 },
    message.2)

variable {messageStart} {message : Message} (sendable : Sendable message)

include sendable

theorem wireFrame_command : (wireFrame messageStart message).1.pchCommand =
    message.1 ++ List.replicate (12 - message.1.length) 0 := by
  change message.1.take 12 ++ _ = _
  rw [take_of_length_le sendable.command]

theorem wireFrame_command_length : (wireFrame messageStart message).1.pchCommand.length = 12 := by
  rw [wireFrame_command sendable, length_append, length_replicate]
  exact Nat.add_sub_cancel' sendable.command

theorem wireFrame_whole (four : messageStart.length = 4) :
    format.Whole (wireFrame messageStart message) := by
  have size : message.2.length ≤ 2 * 1024 * 1024 := sendable.size
  have sum : checksum message.2 < 2 ^ 32 := Nat.mod_lt _ (by decide)
  have small : message.2.length < 2 ^ 32 := by omega
  obtain ⟨long, back⟩ := announced_write four (wireFrame_command_length sendable) small sum
  exact ⟨long, back, decide_eq_false (not_lt.mpr sendable.size), rfl⟩

omit sendable in
theorem endMessage_eq {first payload : List UInt8} (sixteen : first.length = 16)
    (small : payload.length < 2 ^ 31) :
    endMessage (first ++ (le 4 0 ++ (le 4 0 ++ payload))) =
      .ok (first ++ (le 4 payload.length ++
        (le 4 (checksum payload) ++ payload))) := by
  have le4 (n : Nat) : (le 4 n).length = 4 := length_le 4 n
  have long : (first ++ (le 4 0 ++ (le 4 0 ++ payload))).length =
      24 + payload.length := by
    simp only [length_append, sixteen, le4]
    omega
  have remaining : minus (24 + payload.length) 24 = payload.length := by
    rw [minus_eq (by omega) (by omega), Nat.add_sub_cancel_left]
  have data (n : Nat) : (first ++ (le 4 n ++ (le 4 0 ++ payload))).drop 24 =
      payload := by
    rw [show 24 = 16 + (4 + 4) from rfl, ← drop_drop, drop_left' sixteen,
      ← drop_drop, drop_left' (le4 n), drop_left' (le4 0)]
  have some : first ++ (le 4 0 ++ (le 4 0 ++ payload)) ≠ [] :=
    ne_nil_of_length_pos (by omega)
  rw [endMessage, if_neg some, long, remaining,
    copyTo_between sixteen ((le4 _).trans (le4 0).symm), ok_bind, data, ← append_assoc,
    copyTo_between (by rw [length_append, sixteen, le4]) ((le4 _).trans (le4 0).symm),
    append_assoc]

theorem pushMessage_eq (four : messageStart.length = 4) :
    pushMessage messageStart message.1 message.2 =
      .ok (messageHeader (wireFrame messageStart message).1 ++ message.2) := by
  have size : message.2.length ≤ 2 * 1024 * 1024 := sendable.size
  have command : (wireFrame messageStart message).1.pchCommand.length = 12 :=
    wireFrame_command_length sendable
  have sixteen : (messageStart ++ (wireFrame messageStart message).1.pchCommand).length = 16 := by
    rw [length_append, four, command]
  have small : message.2.length < 2 ^ 31 := by omega
  have ended := endMessage_eq sixteen small
  rw [pushMessage, write_header, write_header]
  simp only [append_assoc] at ended ⊢
  exact ended

/-! ## What is handled -/

variable (messageStart) in
/-- What is handed over of a frame. -/
def accepted (frame : CMessageHeader × List UInt8) : Option Message :=
  if Header.isValid messageStart frame.1 = true ∧ checksum frame.2 = frame.1.nChecksum then
    some (Header.getCommand frame.1, frame.2)
  else none

omit sendable in
theorem processLoop_frame {frame : CMessageHeader × List UInt8}
    (size : frame.2.length = frame.1.nMessageSize) (rest : List CNetMessage) :
    processLoop messageStart (bodyMsg frame.1 frame.2 0 :: rest) =
      if frame.1.pchMessageStart ≠ messageStart then (rest, false, none)
      else (accepted messageStart frame).elim (processLoop messageStart rest) fun message =>
        (rest, true, some message) := by
  have whole : complete (bodyMsg frame.1 frame.2 0) = true := complete_bodyMsg.mpr size.symm
  have data : (bodyMsg frame.1 frame.2 0).vRecv = frame.2 := append_nil _
  have all : frame.2.take frame.1.nMessageSize = frame.2 := take_of_length_le size.le
  rw [processLoop, whole, data, if_neg (by decide)]
  change (if frame.1.pchMessageStart ≠ messageStart then _
    else if (!Header.isValid messageStart frame.1) = true then _
    else if checksum (frame.2.take frame.1.nMessageSize) ≠ frame.1.nChecksum then _ else _) = _
  rw [all, accepted]
  cases Header.isValid messageStart frame.1 with
  | false => rfl
  | true => by_cases sum : checksum frame.2 = frame.1.nChecksum <;> simp [sum, bodyMsg]

omit sendable in
/-- The loop comes to a frame that it hands over, to one with another start, or to the message at the
back. -/
theorem processLoop_frames {done : List (CMessageHeader × List UInt8)} {last : List CNetMessage}
    (sized : ∀ frame ∈ done, frame.2.length = frame.1.nMessageSize)
    (stuck : processLoop messageStart last = (last, true, none)) :
    ∃ taken left vRecvMsg fOk call, done = taken ++ left ∧
      processLoop messageStart (wholeMsgs done ++ last) = (vRecvMsg, fOk, call) ∧
      call.toList = taken.filterMap (accepted messageStart) ∧
      if fOk then vRecvMsg = wholeMsgs left ++ last
      else ∃ frame ∈ taken, frame.1.pchMessageStart ≠ messageStart := by
  induction done with
  | nil => exact ⟨[], [], last, true, none, rfl, stuck, rfl, rfl⟩
  | cons frame done ih =>
    obtain ⟨size, others⟩ := forall_mem_cons.mp sized
    have here : processLoop messageStart _ = _ := processLoop_frame size (wholeMsgs done ++ last)
    by_cases start : frame.1.pchMessageStart = messageStart
    · rw [if_neg (not_not.mpr start)] at here
      cases judged : accepted messageStart frame with
      | some message =>
        rw [judged] at here
        exact ⟨[frame], done, _, _, _, rfl, here, by rw [filterMap_cons, judged]; rfl, rfl⟩
      | none =>
        rw [judged] at here
        obtain ⟨taken, left, vRecvMsg, fOk, call, rfl, looped, called, ends⟩ := ih others
        refine ⟨frame :: taken, left, vRecvMsg, fOk, call, rfl, here.trans looped, ?_, ?_⟩
        · rw [filterMap_cons, judged, called]
        · cases fOk with
          | true => exact ends
          | false =>
            obtain ⟨other, member, differs⟩ := ends
            exact ⟨other, mem_cons_of_mem _ member, differs⟩
    · rw [if_pos start] at here
      refine ⟨[frame], done, _, _, _, rfl, here, ?_, frame, mem_singleton_self _, start⟩
      have invalid : accepted messageStart frame = none := by
        unfold accepted Header.isValid
        simp [start]
      rw [filterMap_cons, invalid]
      rfl

omit [Crypto] sendable in
theorem commandValid_padded {command : List UInt8}
    (printable : ∀ byte ∈ command, 0x20 ≤ byte ∧ byte ≤ 0x7e) (count : Nat) :
    Header.commandValid (command ++ List.replicate count 0) = true ∧
      (command ++ List.replicate count 0).takeWhile (· != 0) = command := by
  induction command with
  | nil =>
    cases count with
    | zero => exact ⟨rfl, rfl⟩
    | succ count =>
      refine ⟨?_, rfl⟩
      rw [nil_append, replicate_succ, Header.commandValid, if_pos rfl, all_eq_true]
      exact fun byte member => beq_iff_eq.mpr (eq_of_mem_replicate member)
  | cons byte command ih =>
    obtain ⟨⟨low, high⟩, others⟩ := forall_mem_cons.mp printable
    obtain ⟨valid, taken⟩ := ih others
    have some : byte ≠ 0 := by
      rintro rfl
      exact absurd low (by decide)
    rw [cons_append, Header.commandValid, if_neg some, if_neg, takeWhile_cons,
      if_pos (bne_iff_ne.mpr some), taken]
    · exact ⟨valid, rfl⟩
    · rintro (small | large)
      · exact absurd low (UInt8.not_le.mpr small)
      · exact absurd high (UInt8.not_le.mpr large)

theorem accepted_wireFrame :
    accepted messageStart (wireFrame messageStart message) = some message := by
  have size : message.2.length ≤ 2 * 1024 * 1024 := sendable.size
  have command := commandValid_padded sendable.printable (12 - message.1.length)
  have valid : Header.isValid messageStart (wireFrame messageStart message).1 = true := by
    have small : ¬maxSize < (wireFrame messageStart message).1.nMessageSize := by
      change ¬0x02000000 < message.2.length
      omega
    rw [Header.isValid, wireFrame_command sendable, command.1, decide_eq_false small]
    simp [wireFrame, commandHeader]
  rw [accepted, if_pos ⟨valid, rfl⟩, Header.getCommand, wireFrame_command sendable, command.2]
  rfl

end

/-! ## Runs -/

section

variable [Crypto] {messageStart stream got : List UInt8} {sent : List Message} {node : Receiver}

theorem filterMap_wireFrame (sendable : ∀ message ∈ sent, Sendable message) :
    (sent.map (wireFrame messageStart)).filterMap (accepted messageStart) = sent := by
  rw [filterMap_map]
  exact (filterMap_congr fun message member =>
    accepted_wireFrame (sendable message member)).trans filterMap_some

variable (messageStart got node) in
/-- What was handled is accepted of the frames at the front, and the node shows the rest; one that is
disconnected has met a header that is refused or another start. -/
def Served : Prop :=
  ∃ front reading, format.takeAll .start got = Frames.Format.behind front reading ∧
    node.handled = front.filterMap (accepted messageStart) ∧
    if node.fOk then ¬reading.Refused ∧ Shows messageStart reading node.vRecvMsg
    else reading.Refused ∨ ∃ frame ∈ front, frame.1.pchMessageStart ≠ messageStart

theorem Served.start : Served messageStart [] {} := by
  refine ⟨[], .start, rfl, rfl, ?_, [], .idle, rfl⟩
  rintro ⟨hdr, refused⟩
  cases refused

/-- One call: the bytes are read on from where they stood. -/
theorem Served.step (served : Served messageStart got node) (call : ReceiveCall) :
    ∃ after, step messageStart node call = some (.ok after) ∧
      Served messageStart (got ++ call.bytes) after := by
  obtain ⟨front, reading, read, handled, state⟩ := served
  have valid : format.Valid (Frames.Format.behind front reading) := by
    rw [← read]
    exact Frames.Format.takeAll_valid Frames.Format.valid_start got
  have further (pch : List UInt8) : format.takeAll .start (got ++ pch) =
      Frames.Format.behind front (format.takeAll reading pch) := by
    rw [Frames.Format.takeAll_append, read, Frames.Format.takeAll_behind]
  obtain ⟨vRecvMsg, calls, fOk⟩ := node
  cases fOk with
  | false =>
    refine ⟨_, rfl, front, _, further _, handled, ?_⟩
    refine Or.imp_left (fun refused => ?_) state
    rw [Frames.Format.takeAll_of_refused refused]
    exact refused
  | true =>
    obtain ⟨open_, shows⟩ := state
    have rest : format.Valid reading :=
      ⟨fun frame member => valid.1 frame (mem_append_right _ member), valid.2⟩
    cases call with
    | receive pch =>
      obtain ⟨after, connected, done, shown, live⟩ :=
        receiveMsgBytes_received rest shows open_ pch
      refine ⟨⟨after, calls, connected⟩, ?_, front, _, further pch, handled, ?_⟩
      · rw [Framing.step, done]
        rfl
      · cases connected with
        | true => exact ⟨live.mp rfl, shown⟩
        | false => exact .inl (not_not.mp fun open_ => nomatch live.mpr open_)
    | process busy =>
      refine ⟨_, rfl, ?_⟩
      rw [ReceiveCall.bytes, append_nil]
      cases busy with
      | true => exact ⟨front, reading, read, handled, open_, shows⟩
      | false =>
        obtain ⟨done, current⟩ := reading
        obtain ⟨last, back, shown⟩ := shows
        have stuck : processLoop messageStart last = (last, true, none) := by
          have incomplete := (back.facts ⟨forall_mem_nil _, valid.2⟩).2.1
          cases last with
          | nil => rfl
          | cons msg rest =>
            rw [processLoop, incomplete msg mem_cons_self, if_pos Bool.not_false]
        obtain ⟨taken, left, after, fOk, call, rfl, looped, called, ends⟩ :=
          processLoop_frames (fun frame member => (rest.1 frame member).1) stuck
        dsimp only at shown handled
        rw [processMessages, if_neg Bool.false_ne_true, shown, looped]
        refine ⟨front ++ taken, ⟨left, current⟩, ?_, ?_, ?_⟩
        · rw [read, Frames.Format.behind, Frames.Format.behind, append_assoc]
        · rw [filterMap_append, ← handled, ← called]
        · cases fOk with
          | true => exact ⟨open_, last, back, ends⟩
          | false =>
            obtain ⟨frame, member, differs⟩ := ends
            exact .inr ⟨frame, mem_append_right _ member, differs⟩

/-- All the calls. -/
theorem Served.run (served : Served messageStart got node) (calls : List ReceiveCall) :
    ∃ after, run messageStart node calls = some (.ok after) ∧
      Served messageStart (got ++ calls.flatMap ReceiveCall.bytes) after := by
  induction calls generalizing node got with
  | nil =>
    rw [flatMap_nil, append_nil]
    exact ⟨node, rfl, served⟩
  | cons call calls ih =>
    obtain ⟨next, stepped, kept⟩ := served.step call
    rw [flatMap_cons, ← append_assoc, Framing.run, foldlM_cons, stepped]
    exact ih kept

/-- The stream is that of the messages. -/
def Streams (messageStart : List UInt8) (sent : List Message) (stream : List UInt8) : Prop :=
  format.takeAll .start stream = ⟨sent.map (wireFrame messageStart), .header []⟩

theorem pushMessages_streams (four : messageStart.length = 4)
    (sendable : ∀ message ∈ sent, Sendable message) :
    ∃ stream, pushMessages messageStart sent = .ok stream ∧ Streams messageStart sent stream := by
  refine ⟨(sent.map (wireFrame messageStart)).flatMap fun frame =>
    messageHeader frame.1 ++ frame.2, ?_, ?_⟩
  · induction sent with
    | nil => rfl
    | cons message sent ih =>
      obtain ⟨here, later⟩ := forall_mem_cons.mp sendable
      rw [pushMessages, pushMessage_eq here four, ok_bind, ih later]
      rfl
  · apply Frames.Format.takeAll_frames
    intro frame member
    obtain ⟨message, inside, rfl⟩ := mem_map.mp member
    exact wireFrame_whole (sendable message inside) four

/-- A node that gets such a stream stays connected and handles the beginning of the messages. -/
theorem Served.delivers (served : Served messageStart got node)
    (streams : Streams messageStart sent stream) (part : got <+: stream) :
    ∃ front reading, format.takeAll .start got = Frames.Format.behind front reading ∧
      front <+: sent.map (wireFrame messageStart) ∧
      node.handled = front.filterMap (accepted messageStart) ∧ node.fOk = true ∧
      Shows messageStart reading node.vRecvMsg := by
  obtain ⟨front, reading, read, handled, state⟩ := served
  obtain ⟨rest, rfl⟩ := part
  unfold Streams at streams
  rw [Frames.Format.takeAll_append, read] at streams
  have begun : front <+: sent.map (wireFrame messageStart) := by
    rw [Frames.Format.takeAll_behind, Frames.Format.behind, Frames.Reading.mk.injEq] at streams
    exact ⟨_, streams.1⟩
  cases alive : node.fOk with
  | true =>
    rw [alive] at state
    exact ⟨front, reading, read, begun, handled, rfl, state.2⟩
  | false =>
    rw [alive] at state
    rcases state with refused | ⟨frame, member, differs⟩
    · rw [Frames.Format.takeAll_behind, Frames.Format.takeAll_of_refused refused] at streams
      obtain ⟨hdr, current⟩ := refused
      rw [Frames.Format.behind, current] at streams
      cases (Frames.Reading.mk.inj streams).2
    · obtain ⟨message, -, rfl⟩ := mem_map.mp (begun.subset member)
      exact absurd rfl differs

/-- The handler is called until nothing is left. -/
theorem run_process {rest : List Message} (sendable : ∀ message ∈ rest, Sendable message)
    {count : Nat} (enough : rest.length ≤ count) (handled : List Message) :
    Framing.run messageStart ⟨wholeMsgs (rest.map (wireFrame messageStart)), handled, true⟩
        (List.replicate count (.process false)) = some (.ok ⟨[], handled ++ rest, true⟩) := by
  induction count generalizing rest handled with
  | zero =>
    obtain rfl := length_eq_zero_iff.mp (Nat.le_zero.mp enough)
    rw [append_nil]
    rfl
  | succ count ih =>
    change Framing.run messageStart (processMessages messageStart ⟨_, handled, true⟩ false)
      (List.replicate count (.process false)) = _
    cases rest with
    | nil =>
      have idle : processMessages messageStart ⟨[], handled, true⟩ false = ⟨[], handled, true⟩ := by
        simp [processMessages, processLoop]
      rw [map_nil, wholeMsgs, map_nil, idle]
      exact ih (forall_mem_nil _) (Nat.zero_le _) handled
    | cons message rest =>
      obtain ⟨here, later⟩ := forall_mem_cons.mp sendable
      have taken : processLoop messageStart
          (wholeMsgs ((message :: rest).map (wireFrame messageStart))) =
            (wholeMsgs (rest.map (wireFrame messageStart)), true, some message) := by
        refine (processLoop_frame rfl _).trans ?_
        rw [if_neg fun other => other rfl, accepted_wireFrame here]
        rfl
      rw [processMessages, if_neg Bool.false_ne_true, taken]
      dsimp only
      rw [ih later (Nat.le_of_succ_le_succ enough), append_assoc]
      rfl

theorem run_append {calls : List ReceiveCall} {next : Receiver}
    (ran : Framing.run messageStart node calls = some (.ok next)) (others : List ReceiveCall) :
    Framing.run messageStart node (calls ++ others) = Framing.run messageStart next others := by
  unfold Framing.run at ran ⊢
  rw [foldlM_append, ran]
  rfl

end

/-- The frames at the front of what has arrived are those that were looked at; they have the sizes
that are announced, and what was handled is what is accepted of them. -/
structure Genuine [Crypto] (messageStart bytes : List UInt8)
    (front : List (CMessageHeader × List UInt8)) (node : Receiver) : Prop where
  arrived : (front.flatMap fun frame => messageHeader frame.1 ++ frame.2) <+: bytes
  sized : ∀ frame ∈ front, frame.2.length = frame.1.nMessageSize ∧
    frame.1.nMessageSize ≤ MAX_PROTOCOL_MESSAGE_LENGTH
  handled : node.handled = front.filterMap (accepted messageStart)

/-- **Whatever arrives**, every call returns, and what is handled is in the stream, in its order, with
the start, a valid header and the checksum. -/
theorem handled_genuine [Crypto] (messageStart : List UInt8) (calls : List ReceiveCall) :
    ∃ node front, run messageStart {} calls = some (.ok node) ∧
      Genuine messageStart (calls.flatMap ReceiveCall.bytes) front node := by
  obtain ⟨node, ran, front, reading, read, handled, -⟩ := Served.start.run calls
  rw [nil_append] at read
  have valid : format.Valid (Frames.Format.behind front reading) := by
    rw [← read]
    exact Frames.Format.takeAll_valid Frames.Format.valid_start _
  have start : format.Valid .start := Frames.Format.valid_start
  obtain ⟨rest, stands, -⟩ := Frames.Format.takeAll_stands start (calls.flatMap ReceiveCall.bytes)
  have split : format.stands (Frames.Format.behind front reading) =
      (front.flatMap fun frame => messageHeader frame.1 ++ frame.2) ++
        format.stands reading := by
    rw [Frames.Format.stands, Frames.Format.behind, flatMap_append, append_assoc]
    rfl
  rw [read, split, append_assoc] at stands
  refine ⟨node, front, ran, ⟨_, stands.symm⟩, fun frame member => ?_, handled⟩
  obtain ⟨size, allowed⟩ := valid.1 frame (mem_append_left _ member)
  exact ⟨size, not_lt.mp (of_decide_eq_false allowed)⟩

/-- Whatever chunks a stream arrives in and whenever the handler is called, nothing is refused and what
was handled is the beginning of what was sent; when all has arrived, as many calls as there are
messages hand over those that are left. -/
structure InOrder [Crypto] (messageStart : List UInt8) (sent : List Message) (stream : List UInt8) :
    Prop where
  written : pushMessages messageStart sent = .ok stream
  always : ∀ calls : List ReceiveCall, calls.flatMap ReceiveCall.bytes <+: stream →
    ∃ node, run messageStart {} calls = some (.ok node) ∧ node.fOk = true ∧ node.handled <+: sent
  all : ∀ calls : List ReceiveCall, calls.flatMap ReceiveCall.bytes = stream →
    run messageStart {} (calls ++ List.replicate sent.length (.process false)) =
      some (.ok ⟨[], sent, true⟩)

/-- **Messages are delivered in order, each of them once.** -/
theorem delivered_in_order [Crypto] (messageStart : List UInt8) (four : messageStart.length = 4)
    (sent : List Message) (sendable : ∀ message ∈ sent, Sendable message) :
    ∃ stream, InOrder messageStart sent stream := by
  obtain ⟨stream, pushed, streams⟩ := pushMessages_streams four sendable
  refine ⟨stream, pushed, fun calls part => ?_, fun calls all => ?_⟩
  · obtain ⟨node, ran, served⟩ := Served.start.run calls
    obtain ⟨front, reading, -, begun, handled, alive, -⟩ := served.delivers streams part
    have beginning := begun.filterMap (accepted messageStart)
    rw [filterMap_wireFrame sendable, ← handled] at beginning
    exact ⟨node, ran, alive, beginning⟩
  · subst all
    obtain ⟨node, ran, served⟩ := Served.start.run calls
    rw [run_append ran]
    obtain ⟨front, ⟨done, current⟩, read, -, handled, alive, last, back, shown⟩ :=
      served.delivers streams (prefix_refl _)
    have whole := read.symm.trans streams
    rw [Frames.Format.behind, Frames.Reading.mk.injEq] at whole
    obtain ⟨frames, ended⟩ := whole
    dsimp only at frames ended back shown
    subst ended
    obtain rfl : last = [] := by
      cases back with
      | idle => rfl
      | header some => exact absurd rfl some
    obtain ⟨first, rest, rfl, rfl, rfl⟩ := map_eq_append_iff.mp frames.symm
    obtain ⟨here, later⟩ := forall_mem_append.mp sendable
    rw [filterMap_wireFrame here] at handled
    obtain ⟨vRecvMsg, calls, fOk⟩ := node
    dsimp only at shown handled alive
    subst handled alive shown
    rw [append_nil]
    exact run_process later (by rw [length_append]; exact Nat.le_add_left _ _) _

local instance wireCrypto : Crypto := checksumCrypto

/-- A message `ping` and one without data. -/
theorem delivered_in_order_two :
    ∃ stream, InOrder [1, 2, 3, 4] [([0x70, 0x69, 0x6e, 0x67], [7, 8]), ([0x61], [])] stream := by
  apply delivered_in_order _ rfl
  intro message member
  rcases mem_pair.mp member with rfl | rfl
  · exact ⟨by decide, by simp, by decide⟩
  · exact ⟨by decide, by simp, by decide⟩

end Framing

end Agouti
