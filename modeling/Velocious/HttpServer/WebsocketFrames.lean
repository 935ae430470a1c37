/-
  The frames of a websocket session (src/http-server/client/websocket-session.js).

  Bytes are kept in the chunks they arrive in until a frame is whole; text
  frames are put together from their fragments, admitted against the limits of
  the backlog and handed to the chain, which runs one message at a time.

  * What decides on a frame but not the chunks is an `InboundState`; closing
    drops the chunks, so the loop ends there.
  * `parse` stands for the decoding of UTF-8 and JSON; a message that it refuses
    is answered with an error.
  * A closed session ignores what is released, so `_inboundAccountingGeneration`
    is left out.
  * `received` is a history variable: every byte that `onData` was given.
-/
import Velocious.Foundation.Framing
import Velocious.Foundation.Machine

namespace Velocious

open Foundation

/-! ## Frames -/

def WEBSOCKET_FINAL_FRAME : UInt8 := 0x80
def WEBSOCKET_OPCODE_CONTINUATION : UInt8 := 0x0
def WEBSOCKET_OPCODE_TEXT : UInt8 := 0x1
def WEBSOCKET_OPCODE_BINARY : UInt8 := 0x2
def WEBSOCKET_OPCODE_CLOSE : UInt8 := 0x8
def WEBSOCKET_OPCODE_PING : UInt8 := 0x9
def WEBSOCKET_OPCODE_PONG : UInt8 := 0xA
def WEBSOCKET_CLOSE_POLICY_VIOLATION : ℕ := 1008
def WEBSOCKET_INBOUND_BACKLOG_CLOSE_REASON : String := "Inbound message backlog exceeded"
def WEBSOCKET_MAX_FRAGMENTED_MESSAGE_BYTES : ℕ := 16 * 1024 * 1024
def WEBSOCKET_MAX_FINAL_FRAME_BYTES : ℕ := WEBSOCKET_MAX_FRAGMENTED_MESSAGE_BYTES
def WEBSOCKET_MAX_FRAGMENTED_MESSAGE_FRAGMENTS : ℕ := 1024

def utf8Bytes (s : String) : List UInt8 := s.toUTF8.toList

def unmaskPayload (payload mask : List UInt8) : List UInt8 :=
  payload.mapIdx fun i byte => byte ^^^ mask.getD (i % 4) 0

/-- The frame of `_sendControlFrame` and `sendGoodbye`. -/
def controlFrame (opcode : UInt8) (payload : List UInt8) : List UInt8 :=
  (WEBSOCKET_FINAL_FRAME ||| opcode) :: UInt8.ofNat payload.length :: payload

def goodbyePayload : Option (ℕ × String) → List UInt8
  | none => []
  | some (code, reason) => toBigEndian 2 code ++ utf8Bytes reason

/-- The frame of `sendJson`. -/
def textFrame (payload : List UInt8) : List UInt8 :=
  (WEBSOCKET_FINAL_FRAME ||| WEBSOCKET_OPCODE_TEXT) ::
    if payload.length < 126 then UInt8.ofNat payload.length :: payload
    else if payload.length < 65536 then 126 :: (toBigEndian 2 payload.length ++ payload)
    else 127 :: (toBigEndian 8 payload.length ++ payload)

/-- The answer to a message that cannot be parsed. -/
def invalidMessageFrame : List UInt8 :=
  textFrame (utf8Bytes "\x7b\"error\":\"Invalid websocket message\",\"type\":\"error\"\x7d")

/-! ## Buffered bytes -/

/-- The bytes not read yet. -/
structure FrameBuffer where
  bufferChunks : List (List UInt8)
  bufferChunkIndex : ℕ
  bufferChunkOffset : ℕ
  bufferedBytes : ℕ

namespace FrameBuffer

/-- `_clearBufferedFrameChunks`. -/
def empty : FrameBuffer := ⟨[], 0, 0, 0⟩

def push (b : FrameBuffer) (data : List UInt8) : FrameBuffer :=
  { b with
    bufferChunks := b.bufferChunks ++ [data]
    bufferedBytes := b.bufferedBytes + data.length }

/-- Copies bytes from chunks, the first of which is read from an offset. -/
def peekChunks : List (List UInt8) → ℕ → ℕ → List UInt8
  | [], _, _ => []
  | chunk :: chunks, offset, byteCount =>
    let bytes := (chunk.drop offset).take byteCount
    if bytes.length = byteCount then bytes
    else bytes ++ peekChunks chunks 0 (byteCount - bytes.length)

def peekBufferedBytes (b : FrameBuffer) (byteCount : ℕ) : List UInt8 :=
  peekChunks (b.bufferChunks.drop b.bufferChunkIndex) b.bufferChunkOffset byteCount

/-- Copies bytes from chunks and moves the index and the offset behind them. -/
def consumeChunks : List (List UInt8) → ℕ → ℕ → ℕ → List UInt8 × ℕ × ℕ
  | chunk :: chunks, index, offset, byteCount + 1 =>
    let bytes := (chunk.drop offset).take (byteCount + 1)
    if offset + bytes.length = chunk.length then
      let rest := consumeChunks chunks (index + 1) 0 (byteCount + 1 - bytes.length)
      (bytes ++ rest.1, rest.2)
    else (bytes, index, offset + bytes.length)
  | _, index, offset, _ => ([], index, offset)

def consumeBufferedBytes (b : FrameBuffer) (byteCount : ℕ) : List UInt8 × FrameBuffer :=
  let (bytes, index, offset) :=
    consumeChunks (b.bufferChunks.drop b.bufferChunkIndex) b.bufferChunkIndex b.bufferChunkOffset
      byteCount
  let bufferedBytes := b.bufferedBytes - byteCount
  if index = b.bufferChunks.length then (bytes, ⟨[], 0, offset, bufferedBytes⟩)
  else if 64 ≤ index ∧ b.bufferChunks.length ≤ index * 2 then
    (bytes, ⟨b.bufferChunks.drop index, 0, offset, bufferedBytes⟩)
  else (bytes, ⟨b.bufferChunks, index, offset, bufferedBytes⟩)

/-- What is known of the length of the first frame. -/
inductive FrameLength where
  | incomplete
  | tooLong
  | known (offset payloadLength : ℕ)

/-- The length field that follows the first two bytes. -/
def frameLength (b : FrameBuffer) (secondByte : UInt8) : FrameLength :=
  let payloadLength := (secondByte &&& 0x7F).toNat
  if payloadLength = 126 then
    if b.bufferedBytes < 4 then .incomplete
    else .known 4 (bigEndian ((b.peekBufferedBytes 4).drop 2))
  else if payloadLength = 127 then
    if b.bufferedBytes < 10 then .incomplete
    else
      let bigLength := bigEndian ((b.peekBufferedBytes 10).drop 2)
      if WEBSOCKET_MAX_FINAL_FRAME_BYTES < bigLength then .tooLong else .known 10 bigLength
  else .known 2 payloadLength

end FrameBuffer

/-! ## Inbound messages -/

/-- The caps of a session. -/
structure InboundQueueLimits where
  maxMessages : ℕ
  maxBytes : ℕ

/-- A message and the bytes it was admitted with. -/
structure InboundMessageWork (μ : Type) where
  byteLength : ℕ
  message : μ

/-- What the message chain runs: a message, or the end of the handler's resolution. -/
inductive ChainEntry (μ : Type) where
  | work (w : InboundMessageWork μ)
  | drain

/-- What a session emits and what it hands to its handlers. -/
inductive SessionEvent (μ : Type) where
  | output (frame : List UInt8)
  | dispatch (message : μ)

/-- What is kept between frames. -/
structure InboundState (μ : Type) where
  fragmentedPayloads : Option (List (List UInt8))
  fragmentedOpcode : Option UInt8
  fragmentedBytes : ℕ
  inboundClosed : Bool
  inboundPendingMessages : ℕ
  inboundPendingBytes : ℕ
  resolving : Bool
  pendingMessageHandler : Bool
  messageQueue : List (InboundMessageWork μ)
  messageChain : List (ChainEntry μ)
  running : Option (InboundMessageWork μ)
  events : List (SessionEvent μ)

namespace InboundState

variable {μ : Type} (parse : List UInt8 → Option μ) (limits : InboundQueueLimits)

/-- A new session, whose message handler may have yet to be resolved. -/
def init (resolving : Bool) : InboundState μ :=
  ⟨none, none, 0, false, 0, 0, resolving, resolving, [], [], none, []⟩

def emitOutput (s : InboundState μ) (frame : List UInt8) : InboundState μ :=
  { s with events := s.events ++ [.output frame] }

def resetFragmentBuffer (s : InboundState μ) : InboundState μ :=
  { s with fragmentedPayloads := none, fragmentedOpcode := none, fragmentedBytes := 0 }

/-- `_handleClose`, as far as inbound messages go. -/
def handleClose (s : InboundState μ) : InboundState μ :=
  { s.resetFragmentBuffer with
    inboundClosed := true, inboundPendingMessages := 0, inboundPendingBytes := 0
    messageQueue := [] }

def sendGoodbye (s : InboundState μ) (status : Option (ℕ × String)) : InboundState μ :=
  s.emitOutput (controlFrame WEBSOCKET_OPCODE_CLOSE (goodbyePayload status))

def closeForInboundLimit (s : InboundState μ) : InboundState μ := (s.sendGoodbye none).handleClose

def closeForInboundBacklog (s : InboundState μ) : InboundState μ :=
  (s.sendGoodbye
    (some (WEBSOCKET_CLOSE_POLICY_VIOLATION, WEBSOCKET_INBOUND_BACKLOG_CLOSE_REASON))).handleClose

/-- `_admitInboundMessage`; closes the session when there is no room. -/
def admitInboundMessage (s : InboundState μ) (byteLength : ℕ) : InboundState μ × Bool :=
  if s.inboundClosed then (s, false)
  else if limits.maxMessages < s.inboundPendingMessages + 1 ∨
      limits.maxBytes < s.inboundPendingBytes + byteLength then
    (s.closeForInboundBacklog, false)
  else
    ({ s with
      inboundPendingMessages := s.inboundPendingMessages + 1
      inboundPendingBytes := s.inboundPendingBytes + byteLength }, true)

def releaseInboundAdmission (s : InboundState μ) (byteLength : ℕ) : InboundState μ :=
  if s.inboundClosed then s
  else
    { s with
      inboundPendingMessages := s.inboundPendingMessages - 1
      inboundPendingBytes := s.inboundPendingBytes - byteLength }

def handleMessageWork (s : InboundState μ) (work : InboundMessageWork μ) : InboundState μ :=
  { s with messageChain := s.messageChain ++ [.work work] }

/-- A whole data message; only text is handled. -/
def handleData (s : InboundState μ) (opcode : UInt8) (payload : List UInt8) : InboundState μ :=
  if opcode ≠ WEBSOCKET_OPCODE_TEXT then s
  else
    let (s, admitted) := s.admitInboundMessage limits payload.length
    if !admitted then s
    else
      match parse payload with
      | some message => s.handleMessageWork ⟨payload.length, message⟩
      | none => (s.releaseInboundAdmission payload.length).emitOutput invalidMessageFrame

def enforceFragmentLimits (s : InboundState μ) : InboundState μ × Bool :=
  match s.fragmentedPayloads with
  | none => (s, true)
  | some payloads =>
    if WEBSOCKET_MAX_FRAGMENTED_MESSAGE_BYTES < s.fragmentedBytes ∨
        WEBSOCKET_MAX_FRAGMENTED_MESSAGE_FRAGMENTS < payloads.length then
      (s.closeForInboundLimit, false)
    else (s, true)

def appendFragment (s : InboundState μ) (payload : List UInt8) : InboundState μ × Bool :=
  enforceFragmentLimits
    { s with
      fragmentedPayloads := s.fragmentedPayloads.map (· ++ [payload])
      fragmentedBytes := s.fragmentedBytes + payload.length }

/-- The loop of `_processBuffer`, once a frame has been consumed and unmasked. -/
def handleFrame (s : InboundState μ) (isFinal : Bool) (opcode : UInt8) (payload : List UInt8) :
    InboundState μ :=
  if opcode = WEBSOCKET_OPCODE_PING then
    s.emitOutput (controlFrame WEBSOCKET_OPCODE_PONG payload)
  else if opcode = WEBSOCKET_OPCODE_CLOSE then (s.sendGoodbye none).handleClose
  else if 0x8 ≤ opcode then s
  else if opcode = WEBSOCKET_OPCODE_CONTINUATION then
    if s.fragmentedPayloads.isNone then s
    else
      let (s, accepted) := s.appendFragment payload
      if !accepted || !isFinal then s
      else
        let finalPayload := (s.fragmentedPayloads.getD []).flatten
        let finalOpcode := s.fragmentedOpcode.getD WEBSOCKET_OPCODE_TEXT
        s.resetFragmentBuffer.handleData parse limits finalOpcode finalPayload
  else if opcode = WEBSOCKET_OPCODE_TEXT ∨ opcode = WEBSOCKET_OPCODE_BINARY then
    let s := if s.fragmentedPayloads.isSome then s.resetFragmentBuffer else s
    if !isFinal then
      (enforceFragmentLimits
        { s with
          fragmentedPayloads := some [payload], fragmentedOpcode := some opcode
          fragmentedBytes := payload.length }).1
    else s.handleData parse limits opcode payload
  else s

/-- The next entry of the chain, once what runs has settled: `_runMessageWork`, or the
    end of `_finishMessageHandlerResolution`, which runs what was queued. -/
def runChain (s : InboundState μ) : Option (InboundState μ) :=
  match s.running, s.messageChain with
  | none, .work work :: chain =>
    let s := { s with messageChain := chain }
    if s.inboundClosed then some (s.releaseInboundAdmission work.byteLength)
    else if s.pendingMessageHandler then some { s with messageQueue := s.messageQueue ++ [work] }
    else some { s with running := some work, events := s.events ++ [.dispatch work.message] }
  | none, .drain :: chain =>
    some { s with
      pendingMessageHandler := false
      messageQueue := []
      messageChain :=
        if s.inboundClosed then chain else s.messageQueue.map .work ++ chain }
  | _, _ => none

def settle (s : InboundState μ) : Option (InboundState μ) :=
  s.running.map fun work =>
    { s with running := none }.releaseInboundAdmission work.byteLength

/-- The message handler has been resolved, with a handler or without one. -/
def resolve (s : InboundState μ) : Option (InboundState μ) :=
  if s.resolving then
    some { s with resolving := false, messageChain := s.messageChain ++ [.drain] }
  else none

end InboundState

/-! ## Sessions -/

/-- A session as frames see it. -/
structure FrameSession (μ : Type) where
  buffer : FrameBuffer
  inbound : InboundState μ
  received : List UInt8

/-- A chunk arrives, or a message moves on. -/
inductive SessionAction where
  | data (chunk : List UInt8)
  | turn
  | settle
  | resolve

namespace FrameSession

variable {μ : Type} (parse : List UInt8 → Option μ) (limits : InboundQueueLimits)

def init (resolving : Bool) : FrameSession μ := ⟨.empty, .init resolving, []⟩

/-- Closing drops the chunks. -/
def withInbound (s : FrameSession μ) (inbound : InboundState μ) : FrameSession μ :=
  { s with buffer := if inbound.inboundClosed then .empty else s.buffer, inbound }

/-- The loop of `_processBuffer`, once; `none` if it returns to wait for more. -/
def processFrame (s : FrameSession μ) : Option (FrameSession μ) :=
  let initialHeader := s.buffer.peekBufferedBytes 2
  let firstByte := initialHeader.getD 0 0
  let secondByte := initialHeader.getD 1 0
  let isFinal := firstByte &&& WEBSOCKET_FINAL_FRAME = WEBSOCKET_FINAL_FRAME
  let opcode := firstByte &&& 0x0F
  let isMasked := secondByte &&& 0x80 = 0x80
  match s.buffer.frameLength secondByte with
  | .incomplete => none
  | .tooLong => some (s.withInbound s.inbound.closeForInboundLimit)
  | .known offset payloadLength =>
    let maskLength := if isMasked then 4 else 0
    let frameLength := offset + maskLength + payloadLength
    if s.buffer.bufferedBytes < frameLength then none
    else
      let (frame, buffer) := s.buffer.consumeBufferedBytes frameLength
      let payload := frame.drop (offset + maskLength)
      let mask := (frame.drop offset).take maskLength
      let payload := if isMasked then unmaskPayload payload mask else payload
      some ({ s with buffer }.withInbound (s.inbound.handleFrame parse limits isFinal opcode payload))

/-- `_processBuffer`, at most this many times. -/
def processFrames : ℕ → FrameSession μ → FrameSession μ
  | 0, s => s
  | n + 1, s =>
    if s.buffer.bufferedBytes < 2 then s
    else
      match s.processFrame parse limits with
      | some s => processFrames n s
      | none => s

/-- `_processBuffer`; every frame takes a byte at least. -/
def processBuffer (s : FrameSession μ) : FrameSession μ :=
  processFrames parse limits s.buffer.bufferedBytes s

def onData (s : FrameSession μ) (data : List UInt8) : FrameSession μ :=
  let s := { s with received := s.received ++ data }
  if s.inbound.inboundClosed || data.length = 0 then s
  else { s with buffer := s.buffer.push data }.processBuffer parse limits

def step (s : FrameSession μ) : SessionAction → Option (FrameSession μ)
  | .data chunk => some (s.onData parse limits chunk)
  | .turn => s.inbound.runChain.map fun inbound => { s with inbound }
  | .settle => s.inbound.settle.map fun inbound => { s with inbound }
  | .resolve => s.inbound.resolve.map fun inbound => { s with inbound }

end FrameSession

end Velocious
