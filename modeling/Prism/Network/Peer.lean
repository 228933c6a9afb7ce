import Prism.Library.BigEndian

/-!
# Length-prefixed framing

`network/peer.rs` frames each message as its length, four bytes most
significant first, followed by its bytes.  Both ends are resumable state
machines.  `WriteContext::write` hands the socket what it still has to send
of the current frame, as much as the socket takes, and goes on to the next
queued message until the queue is empty.  `ReadContext::read` reads what the
socket gives into its buffer, decodes the length once four bytes are in, and
returns the message once its payload is.

The socket is modelled by how many bytes it takes or gives at each call: at
most its capacity for that call and at most what was asked, `0` meaning that
the connection is closed.  The reader's socket holds the bytes still to come.
An `io::Error` of the socket (a call that would block) is a writer call with
no capacity left: `write` returns `Err` and keeps its place.

Over any chunking with positive capacities, the writer sends exactly the
frames of the queued messages, and the reader, fed those frames, returns the
messages in order with only `Continue` between them, and `EOF` only once the
bytes have run out.
-/

namespace Prism

namespace Network

open BigEndian

/-- The frame of one message: its length in four bytes, most significant
first, then its bytes. -/
def frame (payload : List UInt8) : List UInt8 :=
  toBeBytes 4 payload.length ++ payload

/-- The frames of a sequence of messages, one after the other. -/
def frames (payloads : List (List UInt8)) : List UInt8 :=
  payloads.flatMap frame

@[simp] theorem frames_nil : frames [] = [] := rfl

@[simp] theorem frames_cons (payload : List UInt8) (rest : List (List UInt8)) :
    frames (payload :: rest) = toBeBytes 4 payload.length ++ payload ++ frames rest := by
  simp [frames, frame]

/-- A write into the middle of a buffer (`buffer[start..start + bytes.len()]`):
the bytes before are kept, then come the new bytes, then the rest. -/
def overwrite (buffer : List UInt8) (start : Nat) (bytes : List UInt8) : List UInt8 :=
  buffer.take start ++ bytes ++ buffer.drop (start + bytes.length)

theorem length_overwrite {buffer bytes : List UInt8} {start : Nat} (fits : start + bytes.length ≤ buffer.length) :
    (overwrite buffer start bytes).length = buffer.length := by
  simp only [overwrite, List.length_append, List.length_take, List.length_drop]
  omega

theorem take_overwrite (buffer : List UInt8) (start : Nat) (bytes : List UInt8) (fits : start ≤ buffer.length) :
    (overwrite buffer start bytes).take (start + bytes.length) = buffer.take start ++ bytes := by
  have before : (buffer.take start).length = start := by simp [fits]
  rw [overwrite, List.append_assoc, List.take_append, before, List.take_of_length_le (by omega),
    Nat.add_sub_cancel_left, List.take_left]

/-! ## The reader -/

/-- What the reader's buffer is being filled with (`DecodeState`). -/
inductive DecodeState
  | length
  | payload
  deriving DecidableEq

/-- The result of one read (`ReadResult`). -/
inductive ReadResult
  | continue
  | message (payload : List UInt8)
  | eof
  deriving DecidableEq

/-- The message a result returns, if any. -/
def ReadResult.toMessage : ReadResult → Option (List UInt8)
  | .message payload => some payload
  | _ => none

@[simp] theorem ReadResult.toMessage_continue : ReadResult.continue.toMessage = none := rfl

@[simp] theorem ReadResult.toMessage_message (payload : List UInt8) :
    (ReadResult.message payload).toMessage = some payload := rfl

/-- The reader (`ReadContext`, without its socket). -/
structure ReadContext where
  /-- Bytes read so far; it only grows. -/
  buffer : List UInt8
  /-- How many bytes the current length or payload has. -/
  msgLength : Nat
  /-- How many of them are in. -/
  readLength : Nat
  /-- Whether a length or a payload is being read. -/
  state : DecodeState

/-- The reader `peer::new` sets up: a four-byte buffer awaiting a length. -/
def ReadContext.new : ReadContext :=
  ⟨List.replicate 4 0, 4, 0, .length⟩

/-- What `ReadContext::read` does once bytes are in: `buffer` and
`readLength` after them, `rest` what the socket still holds.  With the
buffer full, a length is decoded (and the buffer grown to fit the payload),
or a payload returned. -/
def ReadContext.filled (ctx : ReadContext) (buffer : List UInt8) (readLength : Nat) (rest : List UInt8) :
    ReadResult × ReadContext × List UInt8 :=
  if readLength = ctx.msgLength then
    match ctx.state with
    | .length =>
        let messageLength := fromBeBytes (buffer.take 4)
        let buffer :=
          if buffer.length < messageLength then buffer ++ List.replicate (messageLength - buffer.length) 0
          else buffer
        (.continue, ⟨buffer, messageLength, 0, .payload⟩, rest)
    | .payload => (.message (buffer.take ctx.msgLength), ⟨buffer, 4, 0, .length⟩, rest)
  else (.continue, { ctx with buffer := buffer, readLength := readLength }, rest)

/-- `ReadContext::read` on a socket holding `stream` that gives at most
`capacity` bytes at this call: the result, the new reader and what the socket
still holds. -/
def ReadContext.read (ctx : ReadContext) (stream : List UInt8) (capacity : Nat) :
    ReadResult × ReadContext × List UInt8 :=
  -- the socket fills the front of `buffer[read_length..msg_length]`
  let received := stream.take (min capacity (ctx.msgLength - ctx.readLength))
  if received = [] then (.eof, ctx, stream)
  else ctx.filled (overwrite ctx.buffer ctx.readLength received) (ctx.readLength + received.length)
    (stream.drop received.length)

/-- Successive reads, one for each capacity. -/
def ReadContext.readAll : ReadContext → List UInt8 → List Nat → List ReadResult
  | _, _, [] => []
  | ctx, stream, capacity :: capacities =>
      let step := ctx.read stream capacity
      step.1 :: step.2.1.readAll step.2.2 capacities

/-- Where the reader stands in the frames of the messages still to come: all
are read, or so many bytes of the next one's length are in, or so many of its
payload. -/
inductive ReaderAt : ReadContext → List UInt8 → List (List UInt8) → Prop
  | finished {buffer : List UInt8} (long : 4 ≤ buffer.length) : ReaderAt ⟨buffer, 4, 0, .length⟩ [] []
  | header {buffer payload : List UInt8} {rest : List (List UInt8)} {readLength : Nat}
      (long : 4 ≤ buffer.length) (inside : readLength < 4)
      (agrees : buffer.take readLength = (toBeBytes 4 payload.length).take readLength) :
      ReaderAt ⟨buffer, 4, readLength, .length⟩
        ((toBeBytes 4 payload.length).drop readLength ++ payload ++ frames rest) (payload :: rest)
  | body {buffer payload : List UInt8} {rest : List (List UInt8)} {readLength : Nat}
      (long : 4 ≤ buffer.length) (fits : payload.length ≤ buffer.length) (inside : readLength < payload.length)
      (agrees : buffer.take readLength = payload.take readLength) :
      ReaderAt ⟨buffer, payload.length, readLength, .payload⟩ (payload.drop readLength ++ frames rest)
        (payload :: rest)

/-- A reader between messages stands at the start of the next frame. -/
theorem ReaderAt.start {buffer : List UInt8} (long : 4 ≤ buffer.length) :
    ∀ payloads : List (List UInt8), ReaderAt ⟨buffer, 4, 0, .length⟩ (frames payloads) payloads
  | [] => .finished long
  | payload :: rest => by
      have atHeader : ReaderAt ⟨buffer, 4, 0, .length⟩
          ((toBeBytes 4 payload.length).drop 0 ++ payload ++ frames rest) (payload :: rest) :=
        .header long (by omega) (by simp)
      simpa using atHeader

/-- The reader of `peer::new` stands at the start of the stream. -/
theorem ReaderAt.new (payloads : List (List UInt8)) :
    ReaderAt ReadContext.new (frames payloads) payloads :=
  ReaderAt.start (by simp) payloads

/-- On a drained socket the reader returns `EOF`. -/
theorem ReadContext.read_nil (ctx : ReadContext) (capacity : Nat) : ctx.read [] capacity = (.eof, ctx, []) := by
  simp [ReadContext.read]

section Step

/-- A read while a field of `msgLength` bytes is being filled, with the socket
holding the rest of the field and then `later`: some of the field's bytes come
in, and the buffer holds the field up to them. -/
theorem ReadContext.read_field (ctx : ReadContext) {field : List UInt8} (later : List UInt8) {capacity : Nat}
    (fieldLength : field.length = ctx.msgLength) (inside : ctx.readLength < ctx.msgLength)
    (fits : ctx.msgLength ≤ ctx.buffer.length) (agrees : ctx.buffer.take ctx.readLength = field.take ctx.readLength)
    (positive : 0 < capacity) :
    ∃ count buffer, 0 < count ∧ ctx.readLength + count ≤ ctx.msgLength ∧ buffer.length = ctx.buffer.length ∧
      buffer.take (ctx.readLength + count) = field.take (ctx.readLength + count) ∧
      ctx.read (field.drop ctx.readLength ++ later) capacity =
        ctx.filled buffer (ctx.readLength + count) (field.drop (ctx.readLength + count) ++ later) := by
  set count := min capacity (ctx.msgLength - ctx.readLength) with countEq
  have received : (field.drop ctx.readLength ++ later).take count = (field.drop ctx.readLength).take count := by
    rw [List.take_append_of_le_length (by simp; omega)]
  have receivedLength : ((field.drop ctx.readLength).take count).length = count := by
    simp only [List.length_take, List.length_drop]
    omega
  have notNil : (field.drop ctx.readLength).take count ≠ [] := by
    rw [← List.length_pos_iff, receivedLength]
    omega
  refine ⟨count, overwrite ctx.buffer ctx.readLength ((field.drop ctx.readLength).take count), by omega, by omega,
    length_overwrite (by omega), ?_, ?_⟩
  · have filled := take_overwrite ctx.buffer ctx.readLength ((field.drop ctx.readLength).take count) (by omega)
    rw [receivedLength] at filled
    rw [filled, agrees, List.take_add]
  · rw [ReadContext.read, ← countEq, received, if_neg notNil, receivedLength,
      List.drop_append_of_le_length (by simp; omega), List.drop_drop]

variable {buffer payload : List UInt8} {rest : List (List UInt8)} {readLength capacity : Nat}

/-- A read inside a length takes some of what is left of it; once all four
bytes are in, they decode to the payload's length and the reader turns to the
payload. -/
theorem ReaderAt.read_header (long : 4 ≤ buffer.length) (inside : readLength < 4)
    (agrees : buffer.take readLength = (toBeBytes 4 payload.length).take readLength)
    (nonempty : payload ≠ []) (short : payload.length < 2 ^ 32) (positive : 0 < capacity) :
    ∃ ctx stream, (⟨buffer, 4, readLength, .length⟩ : ReadContext).read
        ((toBeBytes 4 payload.length).drop readLength ++ payload ++ frames rest) capacity =
        (.continue, ctx, stream) ∧ ReaderAt ctx stream (payload :: rest) ∧
      stream.length < ((toBeBytes 4 payload.length).drop readLength ++ payload ++ frames rest).length := by
  have headerLength : (toBeBytes 4 payload.length).length = 4 := length_toBeBytes 4 _
  obtain ⟨count, filledBuffer, counted, within, filledLength, filledAgrees, readEq⟩ :=
    ReadContext.read_field ⟨buffer, 4, readLength, .length⟩ (payload ++ frames rest) headerLength inside long agrees
      positive
  dsimp only at within filledLength filledAgrees
  simp only [List.append_assoc] at readEq ⊢
  rw [readEq]
  by_cases complete : readLength + count = 4
  · -- the length is in: it decodes to the payload's length
    have decoded : fromBeBytes (filledBuffer.take 4) = payload.length := by
      rw [← complete, filledAgrees, complete, List.take_of_length_le (by omega),
        fromBeBytes_toBeBytes_of_lt (by omega)]
    have drained : (toBeBytes 4 payload.length).drop 4 = [] := List.drop_eq_nil_of_le (by omega)
    simp only [ReadContext.filled, complete, if_true, decoded, drained, List.nil_append]
    refine ⟨_, _, rfl, ?_, by simp [headerLength]; omega⟩
    -- the buffer grows to fit the payload, and never shrinks
    have grown : 4 ≤ (if filledBuffer.length < payload.length then
          filledBuffer ++ List.replicate (payload.length - filledBuffer.length) 0 else filledBuffer).length ∧
        payload.length ≤ (if filledBuffer.length < payload.length then
          filledBuffer ++ List.replicate (payload.length - filledBuffer.length) 0 else filledBuffer).length := by
      split_ifs with small
      · simp only [List.length_append, List.length_replicate]
        omega
      · omega
    have atBody : ReaderAt ⟨_, payload.length, 0, .payload⟩ (payload.drop 0 ++ frames rest) (payload :: rest) :=
      .body grown.1 grown.2 (List.length_pos_iff.mpr nonempty) (by simp)
    simpa using atBody
  · simp only [ReadContext.filled, complete, if_false]
    refine ⟨_, _, rfl, ?_, by simp [headerLength]; omega⟩
    have atHeader : ReaderAt ⟨filledBuffer, 4, readLength + count, .length⟩
        ((toBeBytes 4 payload.length).drop (readLength + count) ++ payload ++ frames rest) (payload :: rest) :=
      .header (by omega) (by omega) filledAgrees
    simpa [List.append_assoc] using atHeader

/-- A read inside a payload takes some of what is left of it; once all of it
is in, the reader returns it and turns to the next frame. -/
theorem ReaderAt.read_body (long : 4 ≤ buffer.length) (fits : payload.length ≤ buffer.length)
    (inside : readLength < payload.length) (agrees : buffer.take readLength = payload.take readLength)
    (positive : 0 < capacity) :
    ∃ result ctx stream, (⟨buffer, payload.length, readLength, .payload⟩ : ReadContext).read
        (payload.drop readLength ++ frames rest) capacity = (result, ctx, stream) ∧
      stream.length < (payload.drop readLength ++ frames rest).length ∧
      (result = .continue ∧ ReaderAt ctx stream (payload :: rest) ∨
        result = .message payload ∧ ReaderAt ctx stream rest) := by
  obtain ⟨count, filledBuffer, counted, within, filledLength, filledAgrees, readEq⟩ :=
    ReadContext.read_field ⟨buffer, payload.length, readLength, .payload⟩ (frames rest) rfl inside fits agrees
      positive
  dsimp only at within filledLength filledAgrees
  rw [readEq]
  by_cases complete : readLength + count = payload.length
  · -- the payload is in: the reader returns it and expects a length
    have whole : filledBuffer.take payload.length = payload := by
      rw [← complete, filledAgrees, complete, List.take_length]
    simp only [ReadContext.filled, complete, if_true, whole, List.drop_length, List.nil_append]
    refine ⟨_, _, _, rfl, by simp; omega, .inr ⟨rfl, ReaderAt.start (by omega) rest⟩⟩
  · simp only [ReadContext.filled, complete, if_false]
    refine ⟨_, _, _, rfl, by simp; omega, .inl ⟨rfl, .body (by omega) (by omega) (by omega) filledAgrees⟩⟩

variable {ctx : ReadContext} {stream : List UInt8} {payloads : List (List UInt8)}

/-- One read, with a positive capacity, from a reader standing in the frames
of nonempty messages shorter than `2 ^ 32`: with the bytes run out it returns
`EOF` and nothing changes; otherwise it takes some bytes and returns
`Continue`, or the next message. -/
theorem ReaderAt.read_step (standing : ReaderAt ctx stream payloads) (nonempty : ∀ p ∈ payloads, p ≠ [])
    (short : ∀ p ∈ payloads, p.length < 2 ^ 32) (positive : 0 < capacity) :
    (stream = [] ∧ payloads = [] ∧ ctx.read stream capacity = (.eof, ctx, [])) ∨
      ∃ result next rest, ctx.read stream capacity = (result, next, rest) ∧ rest.length < stream.length ∧
        (result = .continue ∧ ReaderAt next rest payloads ∨
          ∃ payload later, payloads = payload :: later ∧ result = .message payload ∧ ReaderAt next rest later) := by
  cases standing with
  | finished long => exact .inl ⟨rfl, rfl, ReadContext.read_nil _ capacity⟩
  | header long inside agrees =>
      obtain ⟨next, rest, readEq, standing, shorter⟩ :=
        ReaderAt.read_header long inside agrees (nonempty _ List.mem_cons_self) (short _ List.mem_cons_self) positive
      exact .inr ⟨_, next, rest, readEq, shorter, .inl ⟨rfl, standing⟩⟩
  | body long fits inside agrees =>
      obtain ⟨result, next, rest, readEq, shorter, continued | returned⟩ :=
        ReaderAt.read_body long fits inside agrees positive
      · exact .inr ⟨result, next, rest, readEq, shorter, .inl continued⟩
      · exact .inr ⟨result, next, rest, readEq, shorter, .inr ⟨_, _, rfl, returned⟩⟩

/-- Reads on a drained socket all return `EOF`. -/
theorem ReadContext.readAll_nil (ctx : ReadContext) :
    ∀ capacities : List Nat, ctx.readAll [] capacities = List.replicate capacities.length .eof
  | [] => rfl
  | capacity :: capacities => by
      rw [ReadContext.readAll, ReadContext.read_nil]
      dsimp only
      rw [ReadContext.readAll_nil ctx capacities]
      rfl

/-- Successive reads with positive capacities from a reader standing in the
frames of nonempty messages shorter than `2 ^ 32` return `Continue` and those
messages, in order, until the bytes run out, then only `EOF`; one read more
than there are bytes reaches `EOF`. -/
theorem ReaderAt.readAll (standing : ReaderAt ctx stream payloads) (nonempty : ∀ p ∈ payloads, p ≠ [])
    (short : ∀ p ∈ payloads, p.length < 2 ^ 32) {capacities : List Nat} (positive : ∀ c ∈ capacities, 0 < c) :
    ∃ before after, ctx.readAll stream capacities = before ++ after ∧ (∀ result ∈ before, result ≠ .eof) ∧
      (∀ result ∈ after, result = .eof) ∧ before.filterMap ReadResult.toMessage <+: payloads ∧
      (after ≠ [] → before.filterMap ReadResult.toMessage = payloads) ∧
      (stream.length < capacities.length → after ≠ []) := by
  -- induction on the reads, the reader and what it stands in generalized
  induction capacities generalizing ctx stream payloads with
  | nil => exact ⟨[], [], rfl, by simp, by simp, List.nil_prefix, by simp, by simp⟩
  | cons capacity capacities inductionHypothesis =>
      have positiveRest : ∀ c ∈ capacities, 0 < c := fun c member => positive c (List.mem_cons_of_mem _ member)
      rcases standing.read_step nonempty short (positive capacity List.mem_cons_self) with
        ⟨rfl, rfl, readEq⟩ | ⟨result, next, rest, readEq, shorter, ⟨rfl, standing⟩ | ⟨payload, later, rfl, rfl, standing⟩⟩
      · -- the bytes have run out: only `EOF` from here on
        refine ⟨[], ReadResult.eof :: List.replicate capacities.length .eof, ?_, by simp, ?_, List.nil_prefix,
          fun _ => rfl, fun _ => List.cons_ne_nil _ _⟩
        · rw [ReadContext.readAll, readEq]
          dsimp only
          rw [ReadContext.readAll_nil]
          rfl
        · intro result member
          simp only [List.mem_cons, List.mem_replicate] at member
          rcases member with same | ⟨_, same⟩ <;> exact same
      · obtain ⟨before, after, readsEq, beforeOk, afterEof, messages, complete, reached⟩ :=
          inductionHypothesis standing nonempty short positiveRest
        refine ⟨ReadResult.continue :: before, after, ?_, ?_, afterEof, ?_, ?_, ?_⟩
        · rw [ReadContext.readAll, readEq]
          dsimp only
          rw [readsEq]
          rfl
        · intro result member
          rcases List.mem_cons.mp member with rfl | inBefore
          · exact ReadResult.noConfusion
          · exact beforeOk result inBefore
        · simpa [List.filterMap_cons] using messages
        · intro nonemptyAfter
          simpa [List.filterMap_cons] using complete nonemptyAfter
        · intro enough
          exact reached (by simp at enough; omega)
      · have nonemptyLater : ∀ p ∈ later, p ≠ [] := fun p member => nonempty p (List.mem_cons_of_mem _ member)
        have shortLater : ∀ p ∈ later, p.length < 2 ^ 32 := fun p member => short p (List.mem_cons_of_mem _ member)
        obtain ⟨before, after, readsEq, beforeOk, afterEof, messages, complete, reached⟩ :=
          inductionHypothesis standing nonemptyLater shortLater positiveRest
        refine ⟨ReadResult.message payload :: before, after, ?_, ?_, afterEof, ?_, ?_, ?_⟩
        · rw [ReadContext.readAll, readEq]
          dsimp only
          rw [readsEq]
          rfl
        · intro result member
          rcases List.mem_cons.mp member with rfl | inBefore
          · exact ReadResult.noConfusion
          · exact beforeOk result inBefore
        · simpa [List.filterMap_cons] using messages
        · intro nonemptyAfter
          simpa [List.filterMap_cons] using complete nonemptyAfter
        · intro enough
          exact reached (by simp at enough; omega)

end Step

/-! ## The writer -/

/-- What the writer is sending (`WriteState`). -/
inductive WriteState
  | length
  | payload
  deriving DecidableEq

/-- How a call of `write` ends when the socket answers (`WriteResult`; the
result for a dropped queue is left out, as the queue here is never dropped). -/
inductive WriteResult
  | complete
  | eof
  deriving DecidableEq

/-- The writer (`WriteContext`, without its socket and queue). -/
structure WriteContext where
  /-- The length of the current message, in four bytes. -/
  lenBuffer : List UInt8
  /-- The current message. -/
  msgBuffer : List UInt8
  /-- Its length. -/
  msgLength : Nat
  /-- How much of the length or of the message has been sent. -/
  writtenLength : Nat
  /-- Whether the length or the message is being sent. -/
  state : WriteState

/-- The writer `peer::new` sets up: an empty message, all sent. -/
def WriteContext.new : WriteContext :=
  ⟨List.replicate 4 0, [], 0, 0, .payload⟩

/-- The writer with its world: the messages `Handle::write` has queued, the
capacities of the socket's next writes, and the bytes the socket has taken. -/
structure Writer where
  /-- The writer's state. -/
  context : WriteContext
  /-- The queued messages. -/
  queue : List (List UInt8)
  /-- How much the socket takes at each of its next writes. -/
  capacities : List Nat
  /-- What the socket has taken. -/
  sent : List UInt8

/-- A write to the socket: it takes as much of `bytes` as its next capacity
allows; with no capacity left the call fails, as a write that would block. -/
def Writer.send (writer : Writer) (bytes : List UInt8) : Option (Nat × Writer) :=
  match writer.capacities with
  | [] => none
  | capacity :: capacities =>
      let written := min capacity bytes.length
      some (written, { writer with capacities := capacities, sent := writer.sent ++ bytes.take written })

/-- Where one iteration of the loop of `write` leads: out of the call, with
its result (`Err` for a failed write), or round again. -/
inductive WriteStep
  | done (result : Except Unit WriteResult) (writer : Writer)
  | next (writer : Writer)

/-- The two arms of the loop that hand the socket the rest of the length or
of the message: out with `Err` when the write fails, with `EOF` when the
socket takes nothing, and otherwise round again with the cursor moved. -/
def Writer.sendRest (writer : Writer) (bytes : List UInt8) : WriteStep :=
  match writer.send bytes with
  | none => .done (.error ()) writer
  | some (written, sent) =>
      if written = 0 then .done (.ok .eof) sent
      else .next { sent with
        context := { writer.context with writtenLength := writer.context.writtenLength + written } }

/-- One iteration of the loop of `WriteContext::write`. -/
def Writer.iterate (writer : Writer) : WriteStep :=
  let ctx := writer.context
  match ctx.state with
  | .length =>
      if ctx.writtenLength = 4 then
        .next { writer with context := { ctx with writtenLength := 0, state := .payload } }
      else writer.sendRest (ctx.lenBuffer.drop ctx.writtenLength)
  | .payload =>
      if ctx.writtenLength = ctx.msgLength then
        -- the message is out: the next one, if any, with its length (`as u32`)
        match writer.queue with
        | [] => .done (.ok .complete) writer
        | message :: queue =>
            .next { writer with
              context := ⟨toBeBytes 4 (message.length % 2 ^ 32), message, message.length, 0, .length⟩
              queue := queue }
      else writer.sendRest ((ctx.msgBuffer.take ctx.msgLength).drop ctx.writtenLength)

/-- `WriteContext::write`, going round its loop at most `fuel` times. -/
def Writer.write : Nat → Writer → Option (Except Unit WriteResult × Writer)
  | 0, _ => none
  | fuel + 1, writer =>
      match writer.iterate with
      | .done result writer => some (result, writer)
      | .next writer => writer.write fuel

/-- How far the writer may get in the part it is sending. -/
def WriteContext.limit (ctx : WriteContext) : Nat :=
  match ctx.state with
  | .length => 4
  | .payload => ctx.msgLength

/-- What the writer still has to send of the message it holds. -/
def WriteContext.pending (ctx : WriteContext) : List UInt8 :=
  match ctx.state with
  | .length => ctx.lenBuffer.drop ctx.writtenLength ++ ctx.msgBuffer
  | .payload => ctx.msgBuffer.drop ctx.writtenLength

/-- The writer holds a message with its length, and has sent no more than
the part it is sending. -/
structure WriteContext.WellFormed (ctx : WriteContext) : Prop where
  /-- The length is the message's. -/
  length : ctx.msgLength = ctx.msgBuffer.length
  /-- The length bytes spell it. -/
  header : ctx.lenBuffer = toBeBytes 4 ctx.msgLength
  /-- No more is sent than there is. -/
  written : ctx.writtenLength ≤ ctx.limit

theorem WriteContext.wellFormed_new : WriteContext.new.WellFormed :=
  ⟨rfl, rfl, by simp [WriteContext.new, WriteContext.limit]⟩

/-- What the writer still has to send: the rest of its message, then the
frames of the queue. -/
def Writer.left (writer : Writer) : List UInt8 :=
  writer.context.pending ++ frames writer.queue

section WriterStep

variable {writer next : Writer} {result : Except Unit WriteResult}

theorem Writer.send_eq_some {bytes : List UInt8} {written : Nat} (sendEq : writer.send bytes = some (written, next)) :
    ∃ capacity, writer.capacities = capacity :: next.capacities ∧ written = min capacity bytes.length ∧
      next.sent = writer.sent ++ bytes.take written ∧ next.context = writer.context ∧ next.queue = writer.queue := by
  unfold Writer.send at sendEq
  split at sendEq
  · cases sendEq
  · rename_i capacity capacities capacitiesEq
    simp only [Option.some.injEq, Prod.mk.injEq] at sendEq
    obtain ⟨rfl, rfl⟩ := sendEq
    exact ⟨capacity, capacitiesEq, rfl, rfl, rfl, rfl⟩

/-- A send that goes round again: the socket took a positive part of the
bytes, which are now sent, and the cursor moved past them. -/
theorem Writer.sendRest_next {bytes : List UInt8} (sendEq : writer.sendRest bytes = .next next) :
    ∃ capacity written, writer.capacities = capacity :: next.capacities ∧ 0 < written ∧
      written = min capacity bytes.length ∧ next.sent = writer.sent ++ bytes.take written ∧
      next.context = { writer.context with writtenLength := writer.context.writtenLength + written } ∧
      next.queue = writer.queue := by
  unfold Writer.sendRest at sendEq
  split at sendEq
  · cases sendEq
  · rename_i written sent sentEq
    obtain ⟨capacity, capacitiesEq, writtenEq, sentBytes, sameContext, sameQueue⟩ := Writer.send_eq_some sentEq
    split_ifs at sendEq with nothing
    cases sendEq
    exact ⟨capacity, written, capacitiesEq, by omega, writtenEq, sentBytes, rfl, sameQueue⟩

/-- A send that leaves the call: the write failed and nothing changed, or the
socket took nothing. -/
theorem Writer.sendRest_done {bytes : List UInt8} (sendEq : writer.sendRest bytes = .done result next) :
    (result = .error () ∧ next = writer) ∨
      (result = .ok .eof ∧ next.sent = writer.sent ∧ next.context = writer.context ∧ next.queue = writer.queue) := by
  unfold Writer.sendRest at sendEq
  split at sendEq
  · cases sendEq
    exact .inl ⟨rfl, rfl⟩
  · rename_i written sent sentEq
    obtain ⟨capacity, _, writtenEq, sentBytes, sameContext, sameQueue⟩ := Writer.send_eq_some sentEq
    split_ifs at sendEq with nothing
    cases sendEq
    refine .inr ⟨rfl, ?_, sameContext, sameQueue⟩
    rw [sentBytes, nothing, List.take_zero, List.append_nil]

/-- An iteration that goes round again keeps the writer well formed and what
it has sent followed by what it has left. -/
theorem Writer.iterate_next (formed : writer.context.WellFormed) (iterated : writer.iterate = .next next) :
    next.context.WellFormed ∧ next.sent ++ next.left = writer.sent ++ writer.left := by
  obtain ⟨length, header, written⟩ := formed
  have headerLength : writer.context.lenBuffer.length = 4 := by rw [header, length_toBeBytes]
  unfold Writer.iterate at iterated
  cases stateEq : writer.context.state with
  | length =>
      simp only [stateEq, WriteContext.limit] at iterated written
      split_ifs at iterated with lengthSent
      · -- the length is out: the message is next
        cases iterated
        refine ⟨⟨length, header, by simp [WriteContext.limit]⟩, ?_⟩
        simp [Writer.left, WriteContext.pending, stateEq, lengthSent, List.drop_eq_nil_of_le, headerLength]
      · obtain ⟨capacity, sentCount, _, positive, countEq, sentBytes, contextEq, queueEq⟩ :=
          Writer.sendRest_next iterated
        refine ⟨⟨by rw [contextEq]; exact length, by rw [contextEq]; exact header, ?_⟩, ?_⟩
        · simp only [contextEq, WriteContext.limit, stateEq]
          simp at countEq
          omega
        · simp only [Writer.left, WriteContext.pending, contextEq, stateEq, queueEq, sentBytes, List.append_assoc]
          rw [← List.drop_drop, ← List.append_assoc (List.take _ _), List.take_append_drop]
  | payload =>
      simp only [stateEq, WriteContext.limit] at iterated written
      split_ifs at iterated with messageSent
      · -- the message is out: the next one is taken from the queue
        split at iterated
        · cases iterated
        · rename_i message queue queueEq
          cases iterated
          refine ⟨⟨rfl, ?_, by simp [WriteContext.limit]⟩, ?_⟩
          · exact (toBeBytes_mod 4 message.length).symm ▸ rfl
          · simp only [Writer.left, WriteContext.pending, stateEq, queueEq, messageSent, length,
              List.drop_length, List.nil_append, frames_cons, List.drop_zero, List.append_assoc]
            rw [show (2 : Nat) ^ 32 = 256 ^ 4 by rfl, toBeBytes_mod]
      · obtain ⟨capacity, sentCount, _, positive, countEq, sentBytes, contextEq, queueEq⟩ :=
          Writer.sendRest_next iterated
        rw [length, List.take_length] at countEq sentBytes
        refine ⟨⟨by rw [contextEq]; exact length, by rw [contextEq]; exact header, ?_⟩, ?_⟩
        · simp only [contextEq, WriteContext.limit, stateEq]
          simp at countEq
          omega
        · simp only [Writer.left, WriteContext.pending, contextEq, stateEq, queueEq, sentBytes, List.append_assoc]
          rw [← List.drop_drop, ← List.append_assoc (List.take _ _), List.take_append_drop]

/-- An iteration that leaves the call keeps what the writer has sent followed
by what it has left; it completes only with nothing left. -/
theorem Writer.iterate_done (formed : writer.context.WellFormed) (iterated : writer.iterate = .done result next) :
    next.sent ++ next.left = writer.sent ++ writer.left ∧ (result = .ok .complete → next.left = []) := by
  -- a failed or empty write changes nothing the equation reads
  have quiet : ∀ {bytes : List UInt8}, writer.sendRest bytes = .done result next →
      next.sent ++ next.left = writer.sent ++ writer.left ∧ (result = .ok .complete → next.left = []) := by
    intro bytes sendEq
    rcases Writer.sendRest_done sendEq with ⟨rfl, rfl⟩ | ⟨rfl, sentEq, contextEq, queueEq⟩
    · exact ⟨rfl, fun impossible => by cases impossible⟩
    · refine ⟨by rw [Writer.left, Writer.left, sentEq, contextEq, queueEq], fun impossible => ?_⟩
      cases impossible
  unfold Writer.iterate at iterated
  cases stateEq : writer.context.state with
  | length =>
      simp only [stateEq] at iterated
      split_ifs at iterated
      exact quiet iterated
  | payload =>
      simp only [stateEq] at iterated
      split_ifs at iterated with messageSent
      · split at iterated
        · rename_i queueEq
          cases iterated
          refine ⟨rfl, fun _ => ?_⟩
          simp [Writer.left, WriteContext.pending, stateEq, queueEq, messageSent, formed.length]
        · cases iterated
      · exact quiet iterated

/-- A call of `write`, whatever the socket does, keeps what the writer has
sent followed by what it has left; it completes only with nothing left. -/
theorem Writer.write_spec : ∀ (fuel : Nat) {writer next : Writer} {result : Except Unit WriteResult},
    writer.context.WellFormed → writer.write fuel = some (result, next) →
      next.sent ++ next.left = writer.sent ++ writer.left ∧ (result = .ok .complete → next.left = [])
  | 0, _, _, _, _, written => by cases written
  | fuel + 1, writer, next, result, formed, written => by
      rw [Writer.write] at written
      split at written
      · rename_i result' next' iterated
        cases written
        exact Writer.iterate_done formed iterated
      · rename_i middle iterated
        obtain ⟨middleFormed, middleEq⟩ := Writer.iterate_next formed iterated
        obtain ⟨nextEq, complete⟩ := Writer.write_spec fuel middleFormed written
        exact ⟨nextEq.trans middleEq, complete⟩

/-- How far the writer is from completing: twice what it has left and its
queued messages, and one more while the length is out. -/
def Writer.measure (writer : Writer) : Nat :=
  2 * (writer.left.length + writer.queue.length) +
    match writer.context.state with
    | .length => 1
    | .payload => 0

/-- A send of a nonempty rest with a positive capacity goes round again,
having sent some of it. -/
theorem Writer.sendRest_progress {bytes : List UInt8} {capacity : Nat} {capacities : List Nat}
    (nonempty : bytes ≠ []) (capacitiesEq : writer.capacities = capacity :: capacities) (positive : 0 < capacity) :
    ∃ written, 0 < written ∧ written ≤ bytes.length ∧ writer.sendRest bytes = .next { writer with
      capacities := capacities, sent := writer.sent ++ bytes.take written,
      context := { writer.context with writtenLength := writer.context.writtenLength + written } } := by
  have bytesPositive : 0 < bytes.length := List.length_pos_iff.mpr nonempty
  refine ⟨min capacity bytes.length, by omega, by omega, ?_⟩
  simp only [Writer.sendRest, Writer.send, capacitiesEq]
  rw [if_neg (by omega)]

/-- A send that goes round again leaves the writer with fewer bytes left by
as many as it sent, and one capacity fewer. -/
theorem Writer.left_length_of_send (formed : writer.context.WellFormed) {written : Nat}
    (iterated : writer.iterate = .next next) (sentEq : next.sent = writer.sent ++ writer.left.take written)
    (within : written ≤ writer.left.length) : next.left.length + written = writer.left.length := by
  have kept := (Writer.iterate_next formed iterated).2
  rw [sentEq, List.append_assoc] at kept
  have := congrArg List.length (List.append_cancel_left kept)
  simp only [List.length_append, List.length_take] at this
  omega

/-- With positive capacities, at least as many as the bytes left, an
iteration completes the call, or goes round again closer to completing, with
positive capacities still as many as the bytes left. -/
theorem Writer.iterate_progress (formed : writer.context.WellFormed) (positive : ∀ c ∈ writer.capacities, 0 < c)
    (enough : writer.left.length ≤ writer.capacities.length) :
    writer.iterate = .done (.ok .complete) writer ∨
      ∃ next, writer.iterate = .next next ∧ next.measure < writer.measure ∧ next.context.WellFormed ∧
        (∀ c ∈ next.capacities, 0 < c) ∧ next.left.length ≤ next.capacities.length := by
  -- the send arm, shared by the length and the message: it sends the front of what is left
  have sending : ∀ bytes : List UInt8, bytes ≠ [] → writer.left.take bytes.length = bytes →
      writer.iterate = writer.sendRest bytes →
      ∃ next, writer.iterate = .next next ∧ next.measure < writer.measure ∧ next.context.WellFormed ∧
        (∀ c ∈ next.capacities, 0 < c) ∧ next.left.length ≤ next.capacities.length := by
    intro bytes nonempty leftFront iterateEq
    have leftLong : bytes.length ≤ writer.left.length :=
      calc bytes.length = (writer.left.take bytes.length).length := by rw [leftFront]
        _ ≤ writer.left.length := List.length_take_le' _ _
    obtain ⟨capacity, capacities, capacitiesEq⟩ : ∃ capacity capacities, writer.capacities = capacity :: capacities := by
      cases capacitiesEq : writer.capacities with
      | nil =>
          rw [capacitiesEq, List.length_nil] at enough
          have := List.length_pos_iff.mpr nonempty
          omega
      | cons capacity capacities => exact ⟨capacity, capacities, rfl⟩
    obtain ⟨written, counted, within, sendEq⟩ :=
      Writer.sendRest_progress nonempty capacitiesEq (positive capacity (by simp [capacitiesEq]))
    have iterated := iterateEq.trans sendEq
    have shorter := Writer.left_length_of_send formed iterated
      (by rw [← leftFront, List.take_take, Nat.min_eq_left within]) (by omega)
    refine ⟨_, iterated, ?_, (Writer.iterate_next formed iterated).1, ?_, ?_⟩
    · simp only [Writer.measure] at shorter ⊢
      omega
    · intro c member
      exact positive c (by rw [capacitiesEq]; exact List.mem_cons_of_mem _ member)
    · rw [capacitiesEq] at enough
      simp at enough
      dsimp only at shorter ⊢
      omega
  obtain ⟨length, header, written⟩ := formed
  have headerLength : writer.context.lenBuffer.length = 4 := by rw [header, length_toBeBytes]
  cases stateEq : writer.context.state with
  | length =>
      have iterateEq : writer.iterate = if writer.context.writtenLength = 4 then
          .next { writer with context := { writer.context with writtenLength := 0, state := .payload } }
          else writer.sendRest (writer.context.lenBuffer.drop writer.context.writtenLength) := by
        simp [Writer.iterate, stateEq]
      simp only [WriteContext.limit, stateEq] at written
      split_ifs at iterateEq with lengthSent
      · -- the length is out: nothing is sent, and the length stops counting
        refine .inr ⟨_, iterateEq, ?_, ⟨length, header, by simp [WriteContext.limit]⟩, positive, ?_⟩
        · simp [Writer.measure, Writer.left, WriteContext.pending, stateEq, lengthSent, headerLength]
        · simpa [Writer.left, WriteContext.pending, stateEq, lengthSent, headerLength] using enough
      · exact .inr (sending _ (by simp [headerLength]; omega)
          (by simp [Writer.left, WriteContext.pending, stateEq, List.append_assoc]) iterateEq)
  | payload =>
      simp only [WriteContext.limit, stateEq] at written
      by_cases messageSent : writer.context.writtenLength = writer.context.msgLength
      · cases queueEq : writer.queue with
        | nil =>
            left
            simp [Writer.iterate, stateEq, messageSent, queueEq]
        | cons message queue =>
            -- the next message is taken: nothing is sent, one message fewer is queued
            have iterateEq : writer.iterate = .next { writer with
                context := ⟨toBeBytes 4 (message.length % 2 ^ 32), message, message.length, 0, .length⟩
                queue := queue } := by
              simp [Writer.iterate, stateEq, messageSent, queueEq]
            have formedNext := (Writer.iterate_next ⟨length, header, by simp [WriteContext.limit, stateEq]; omega⟩
              iterateEq)
            have sameLeft := formedNext.2
            simp only [List.append_cancel_left_eq] at sameLeft
            refine .inr ⟨_, iterateEq, ?_, formedNext.1, positive, ?_⟩
            · simp only [Writer.measure, sameLeft, queueEq, stateEq, List.length_cons]
              omega
            · rw [sameLeft]
              exact enough
      · have notSent : writer.context.writtenLength ≠ writer.context.msgBuffer.length := length ▸ messageSent
        have iterateEq : writer.iterate = writer.sendRest (writer.context.msgBuffer.drop writer.context.writtenLength) := by
          simp [Writer.iterate, stateEq, notSent, length]
        exact .inr (sending _ (by simp; omega)
          (by simp [Writer.left, WriteContext.pending, stateEq]) iterateEq)

/-- With positive capacities, at least as many as the bytes left, a call with
more fuel than the measure completes. -/
theorem Writer.write_complete : ∀ (fuel : Nat) {writer : Writer}, writer.context.WellFormed →
    (∀ c ∈ writer.capacities, 0 < c) → writer.left.length ≤ writer.capacities.length →
    writer.measure < fuel → ∃ next, writer.write fuel = some (.ok .complete, next)
  | 0, _, _, _, _, fueled => absurd fueled (Nat.not_lt_zero _)
  | fuel + 1, writer, formed, positive, enough, fueled => by
      rcases Writer.iterate_progress formed positive enough with
        complete | ⟨next, iterated, smaller, nextFormed, nextPositive, nextEnough⟩
      · exact ⟨writer, by rw [Writer.write, complete]⟩
      · obtain ⟨final, written⟩ := Writer.write_complete fuel nextFormed nextPositive nextEnough (by omega)
        exact ⟨final, by rw [Writer.write, iterated]; exact written⟩

end WriterStep

/-- The writer of `peer::new` with `payloads` queued by `Handle::write`, on a
socket taking `capacities` bytes at its next writes. -/
def Writer.start (payloads : List (List UInt8)) (capacities : List Nat) : Writer :=
  ⟨WriteContext.new, payloads, capacities, []⟩

@[simp] theorem Writer.left_start (payloads : List (List UInt8)) (capacities : List Nat) :
    (Writer.start payloads capacities).left = frames payloads := by
  simp [Writer.start, Writer.left, WriteContext.pending, WriteContext.new]

/-- Whatever the socket takes, the writer sends a prefix of the frames of its
queue, and all of them when it completes. -/
theorem Writer.start_write_sent {payloads : List (List UInt8)} {capacities : List Nat} {fuel : Nat}
    {result : Except Unit WriteResult} {next : Writer}
    (written : (Writer.start payloads capacities).write fuel = some (result, next)) :
    next.sent <+: frames payloads ∧ (result = .ok .complete → next.sent = frames payloads) := by
  obtain ⟨conserved, complete⟩ := Writer.write_spec fuel WriteContext.wellFormed_new written
  simp only [Writer.left_start] at conserved
  refine ⟨⟨next.left, by simpa [Writer.start] using conserved⟩, fun completed => ?_⟩
  simpa [Writer.start, complete completed] using conserved

/-- A socket taking at least one byte at each write, with at least as many
writes as there are bytes, lets the writer complete. -/
theorem Writer.start_write_complete {payloads : List (List UInt8)} {capacities : List Nat}
    (positive : ∀ c ∈ capacities, 0 < c) (enough : (frames payloads).length ≤ capacities.length) :
    ∃ bound, ∀ fuel, bound ≤ fuel → ∃ next,
      (Writer.start payloads capacities).write fuel = some (.ok .complete, next) ∧ next.sent = frames payloads := by
  refine ⟨(Writer.start payloads capacities).measure + 1, fun fuel fueled => ?_⟩
  obtain ⟨next, written⟩ := @Writer.write_complete fuel (Writer.start payloads capacities)
    WriteContext.wellFormed_new positive (by rw [Writer.left_start]; exact enough) (by omega)
  exact ⟨next, written, (Writer.start_write_sent written).2 rfl⟩

example : ((Writer.start [[7, 8]] [3, 1, 2]).write 10).map (fun run => run.2.sent) = some [0, 0, 0, 2, 7, 8] := by
  decide

example : ReadContext.new.readAll [0, 0, 0, 2, 7, 8] [3, 1, 1, 1, 1] =
    [.continue, .continue, .continue, .message [7, 8], .eof] := by
  decide

/-- Length-prefixed framing round-trips over any chunking: the writer sends
the frames of its queue, and only them, whatever the socket takes, completing
when the socket takes enough; the reader, fed those frames in any chunks,
returns the payloads in order with only `Continue` in between and `EOF` only
after the last of them. -/
theorem framing_round_trip (payloads : List (List UInt8)) (nonempty : ∀ p ∈ payloads, p ≠ [])
    (short : ∀ p ∈ payloads, p.length < 2 ^ 32) :
    (∀ (capacities : List Nat) (fuel : Nat) (result : Except Unit WriteResult) (next : Writer),
      (Writer.start payloads capacities).write fuel = some (result, next) →
        next.sent <+: frames payloads ∧ (result = .ok .complete → next.sent = frames payloads)) ∧
    (∀ capacities : List Nat, (∀ c ∈ capacities, 0 < c) → (frames payloads).length ≤ capacities.length →
      ∃ bound, ∀ fuel, bound ≤ fuel → ∃ next,
        (Writer.start payloads capacities).write fuel = some (.ok .complete, next) ∧ next.sent = frames payloads) ∧
    (∀ capacities : List Nat, (∀ c ∈ capacities, 0 < c) →
      ∃ before after, ReadContext.new.readAll (frames payloads) capacities = before ++ after ∧
        (∀ result ∈ before, result ≠ .eof) ∧ (∀ result ∈ after, result = .eof) ∧
        before.filterMap ReadResult.toMessage <+: payloads ∧
        (after ≠ [] → before.filterMap ReadResult.toMessage = payloads) ∧
        ((frames payloads).length < capacities.length → after ≠ [])) :=
  ⟨fun _ _ _ _ written => Writer.start_write_sent written,
    fun _ positive enough => Writer.start_write_complete positive enough,
    fun _ positive => (ReaderAt.new payloads).readAll nonempty short positive⟩

theorem framing_round_trip_two :
    (∀ p ∈ [[(1 : UInt8)], [2, 3, 4]], p ≠ []) ∧ (∀ p ∈ [[(1 : UInt8)], [2, 3, 4]], p.length < 2 ^ 32) ∧
    (∀ (capacities : List Nat) (fuel : Nat) (result : Except Unit WriteResult) (next : Writer),
      (Writer.start [[1], [2, 3, 4]] capacities).write fuel = some (result, next) →
        next.sent <+: frames [[1], [2, 3, 4]] ∧
          (result = .ok .complete → next.sent = frames [[1], [2, 3, 4]])) ∧
    (∀ capacities : List Nat, (∀ c ∈ capacities, 0 < c) → (frames [[1], [2, 3, 4]]).length ≤ capacities.length →
      ∃ bound, ∀ fuel, bound ≤ fuel → ∃ next,
        (Writer.start [[1], [2, 3, 4]] capacities).write fuel = some (.ok .complete, next) ∧
          next.sent = frames [[1], [2, 3, 4]]) ∧
    (∀ capacities : List Nat, (∀ c ∈ capacities, 0 < c) →
      ∃ before after, ReadContext.new.readAll (frames [[1], [2, 3, 4]]) capacities = before ++ after ∧
        (∀ result ∈ before, result ≠ .eof) ∧ (∀ result ∈ after, result = .eof) ∧
        before.filterMap ReadResult.toMessage <+: [[1], [2, 3, 4]] ∧
        (after ≠ [] → before.filterMap ReadResult.toMessage = [[1], [2, 3, 4]]) ∧
        ((frames [[1], [2, 3, 4]]).length < capacities.length → after ≠ [])) :=
  ⟨by decide, by decide, framing_round_trip [[1], [2, 3, 4]] (by decide) (by decide)⟩

end Network

end Prism
