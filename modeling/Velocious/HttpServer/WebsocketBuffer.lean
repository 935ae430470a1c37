/-
  The chunks of a websocket session hold the stream.

  * `peekBufferedBytes` and `consumeBufferedBytes` read and take the front of the
    stream that is buffered (`FrameBuffer.stream`), however it is cut into chunks.
-/
import Velocious.HttpServer.WebsocketReference

namespace Velocious

open Foundation List

/-! ## Chunks -/

namespace FrameBuffer

def stream (b : FrameBuffer) : List UInt8 :=
  ((b.bufferChunks.drop b.bufferChunkIndex).flatten).drop b.bufferChunkOffset

/-- The indices are within the chunks. -/
structure Ok (b : FrameBuffer) : Prop where
  index : b.bufferChunkIndex ≤ b.bufferChunks.length
  offset : b.bufferChunkOffset ≤ ((b.bufferChunks.drop b.bufferChunkIndex).headD []).length
  bytes : b.bufferedBytes = b.stream.length

theorem ok_empty : empty.Ok := ⟨le_rfl, le_rfl, rfl⟩

theorem peekChunks_eq {chunks : List (List UInt8)} {offset : ℕ} (byteCount : ℕ)
    (hoffset : offset ≤ (chunks.headD []).length) :
    peekChunks chunks offset byteCount = (chunks.flatten.drop offset).take byteCount := by
  induction chunks generalizing offset byteCount with
  | nil => rw [peekChunks, flatten_nil, drop_nil, take_nil]
  | cons chunk chunks ih =>
    have htail := @ih 0 (byteCount - ((chunk.drop offset).take byteCount).length) (Nat.zero_le _)
    rw [drop_zero] at htail
    have hoffset : offset ≤ chunk.length := hoffset
    rw [peekChunks, htail, flatten_cons, drop_append_of_le_length hoffset,
      take_append, length_drop]
    split
    · rename_i hall
      rw [length_take, length_drop] at hall
      rw [Nat.sub_eq_zero_of_le (by omega), take_zero, append_nil]
    · rename_i hall
      rw [length_take, length_drop] at hall ⊢
      rw [min_eq_right (by omega)]

theorem consumeChunks_eq {chunks : List (List UInt8)} {offset : ℕ} (index byteCount : ℕ)
    (hoffset : offset ≤ (chunks.headD []).length) :
    (consumeChunks chunks index offset byteCount).1 =
        (chunks.flatten.drop offset).take byteCount ∧
      ∃ k offset', (consumeChunks chunks index offset byteCount).2 = (index + k, offset') ∧
        k ≤ chunks.length ∧ offset' ≤ ((chunks.drop k).headD []).length ∧
        (chunks.drop k).flatten.drop offset' =
          (chunks.flatten.drop offset).drop byteCount := by
  induction chunks generalizing index offset byteCount with
  | nil =>
    rw [consumeChunks]
    · refine ⟨by rw [flatten_nil, drop_nil, take_nil], 0, offset, rfl, le_rfl,
        hoffset, ?_⟩
      rw [drop_zero, flatten_nil, drop_nil, drop_nil]
    · intro chunk chunks n h
      cases h
  | cons chunk chunks ih =>
    cases byteCount with
    | zero => exact ⟨(take_zero ..).symm, 0, offset, rfl, Nat.zero_le _, hoffset, rfl⟩
    | succ n =>
      have hlength : ((chunk.drop offset).take (n + 1)).length =
          min (n + 1) (chunk.length - offset) := by rw [length_take, length_drop]
      have hoffset : offset ≤ chunk.length := hoffset
      rw [consumeChunks, flatten_cons, drop_append_of_le_length hoffset, take_append,
        drop_append, length_drop]
      dsimp only
      split
      · obtain ⟨hbytes, k, offset', hindex, hk, hle, hrest⟩ :=
          @ih 0 (index + 1) (n + 1 - ((chunk.drop offset).take (n + 1)).length) (Nat.zero_le _)
        rw [drop_zero, hlength] at hbytes hrest
        have htaken : n + 1 - min (n + 1) (chunk.length - offset) =
            n + 1 - (chunk.length - offset) := by omega
        rw [htaken] at hbytes hrest
        refine ⟨?_, k + 1, offset', ?_, Nat.succ_le_succ hk, hle, ?_⟩
        · rw [hlength, htaken, hbytes]
        · rw [hindex]
          exact congrArg (·, offset') (by omega)
        · have hnil : (chunk.drop offset).drop (n + 1) = [] :=
            drop_eq_nil_of_le (by rw [length_drop]; omega)
          rw [drop_succ_cons, hrest, hnil, nil_append]
      · have hzero : n + 1 - (chunk.length - offset) = 0 := by omega
        refine ⟨?_, 0, _, rfl, Nat.zero_le _, ?_, ?_⟩
        · rw [hzero, take_zero, append_nil]
        · change offset + _ ≤ chunk.length
          omega
        · rw [hzero, drop_zero, flatten_cons, drop_append_of_le_length (by omega), drop_drop]
          exact congrArg (chunk.drop · ++ chunks.flatten) (by omega)

variable {b : FrameBuffer}

theorem Ok.peek (hb : b.Ok) (byteCount : ℕ) :
    b.peekBufferedBytes byteCount = b.stream.take byteCount := peekChunks_eq byteCount hb.offset

theorem Ok.consume (hb : b.Ok) (byteCount : ℕ) :
    (b.consumeBufferedBytes byteCount).1 = b.stream.take byteCount ∧
      (b.consumeBufferedBytes byteCount).2.Ok ∧
      (b.consumeBufferedBytes byteCount).2.stream = b.stream.drop byteCount := by
  obtain ⟨hbytes, k, offset, hindex, hk, hoffset, hrest⟩ :=
    consumeChunks_eq b.bufferChunkIndex byteCount hb.offset
  rw [drop_drop] at hoffset hrest
  rw [length_drop] at hk
  have hindexLe := hb.index
  have hlength : b.bufferedBytes - byteCount = (b.stream.drop byteCount).length := by
    rw [hb.bytes, length_drop]
  simp only [consumeBufferedBytes, hindex]
  split
  · rename_i hend
    rw [hend, drop_length] at hoffset hrest
    have hnil : (⟨[], 0, offset, b.bufferedBytes - byteCount⟩ : FrameBuffer).stream =
        b.stream.drop byteCount := hrest
    exact ⟨hbytes, ⟨le_rfl, hoffset, hlength.trans (congrArg List.length hnil.symm)⟩, hnil⟩
  · split
    · have hsliced : (⟨b.bufferChunks.drop (b.bufferChunkIndex + k), 0, offset,
          b.bufferedBytes - byteCount⟩ : FrameBuffer).stream = b.stream.drop byteCount := hrest
      exact ⟨hbytes, ⟨Nat.zero_le _, hoffset,
        hlength.trans (congrArg List.length hsliced.symm)⟩, hsliced⟩
    · have hmoved : (⟨b.bufferChunks, b.bufferChunkIndex + k, offset,
          b.bufferedBytes - byteCount⟩ : FrameBuffer).stream = b.stream.drop byteCount := hrest
      have hindex' : b.bufferChunkIndex + k ≤ b.bufferChunks.length := by omega
      exact ⟨hbytes, ⟨hindex', hoffset, hlength.trans (congrArg List.length hmoved.symm)⟩, hmoved⟩

theorem Ok.push (hb : b.Ok) (data : List UInt8) :
    (b.push data).Ok ∧ (b.push data).stream = b.stream ++ data := by
  have hdrop : (b.bufferChunks ++ [data]).drop b.bufferChunkIndex =
      b.bufferChunks.drop b.bufferChunkIndex ++ [data] := drop_append_of_le_length hb.index
  have hoffset := hb.offset
  have hstream : (b.push data).stream = b.stream ++ data := by
    change (((b.bufferChunks ++ [data]).drop b.bufferChunkIndex).flatten).drop
      b.bufferChunkOffset = _
    rw [hdrop, flatten_append, flatten_singleton, stream,
      drop_append_of_le_length]
    cases hchunks : b.bufferChunks.drop b.bufferChunkIndex with
    | nil =>
      rw [hchunks] at hoffset
      exact hoffset
    | cons chunk chunks =>
      rw [hchunks] at hoffset
      rw [flatten_cons, length_append]
      exact hoffset.trans (Nat.le_add_right _ _)
  refine ⟨⟨?_, ?_, ?_⟩, hstream⟩
  · change b.bufferChunkIndex ≤ (b.bufferChunks ++ [data]).length
    rw [length_append]
    exact hb.index.trans (Nat.le_add_right _ _)
  · change b.bufferChunkOffset ≤ (((b.bufferChunks ++ [data]).drop b.bufferChunkIndex).headD
      []).length
    rw [hdrop]
    cases hchunks : b.bufferChunks.drop b.bufferChunkIndex with
    | nil =>
      rw [hchunks] at hoffset
      exact hoffset.trans (Nat.zero_le _)
    | cons chunk chunks =>
      rw [hchunks] at hoffset
      exact hoffset
  · rw [hstream, length_append, ← hb.bytes]
    rfl

end FrameBuffer

/-! ## The loop -/

namespace InboundState

variable {μ : Type} (parse : List UInt8 → Option μ) (limits : InboundQueueLimits)

def handleItem (s : InboundState μ) : WireItem → InboundState μ
  | .frame f => s.handleFrame parse limits f.isFinal f.opcode f.payload
  | .tooLong => s.closeForInboundLimit

/-- The frames of a stream are handled until the session is closed. -/
def handleItems (s : InboundState μ) (items : List WireItem) : InboundState μ :=
  items.foldl (fun s x => if s.inboundClosed then s else s.handleItem parse limits x) s

variable {parse limits}

theorem handleItems_closed {s : InboundState μ} (hclosed : s.inboundClosed = true)
    (items : List WireItem) : s.handleItems parse limits items = s := by
  induction items with
  | nil => rfl
  | cons x items ih => simpa only [handleItems, foldl_cons, hclosed, if_true] using ih

theorem handleItems_cons {s : InboundState μ} (hopen : s.inboundClosed = false) (x : WireItem)
    (items : List WireItem) :
    s.handleItems parse limits (x :: items) =
      (s.handleItem parse limits x).handleItems parse limits items := by
  simp only [handleItems, foldl_cons, hopen, Bool.false_eq_true, if_false]

end InboundState

namespace FrameSession

variable {μ : Type} {parse : List UInt8 → Option μ} {limits : InboundQueueLimits}
variable {s : FrameSession μ} {first second : UInt8} {rest : List UInt8}

theorem frameLength_eq {b : FrameBuffer} (hb : b.Ok) (hstream : b.stream = first :: second :: rest) :
    b.frameLength second =
      if rest.length < lengthBytes (second &&& 0x7F).toNat then .incomplete
      else if (second &&& 0x7F).toNat = 127 ∧
          WEBSOCKET_MAX_FINAL_FRAME_BYTES < payloadLength (second &&& 0x7F).toNat rest then .tooLong
      else .known (2 + lengthBytes (second &&& 0x7F).toNat)
        (payloadLength (second &&& 0x7F).toNat rest) := by
  have hpeek : ∀ n, (b.peekBufferedBytes (n + 2)).drop 2 = rest.take n := fun n => by
    rw [hb.peek, hstream]
    rfl
  have hbytes : b.bufferedBytes = rest.length + 2 := by
    rw [hb.bytes, hstream]
    rfl
  generalize hshort : (second &&& 0x7F).toNat = short
  unfold FrameBuffer.frameLength
  rw [hshort, hpeek 2, hpeek 8, hbytes]
  by_cases h126 : short = 126
  · subst h126
    have hlt : rest.length + 2 < 4 ↔ rest.length < 2 := by omega
    simp [lengthBytes, payloadLength, hlt]
  · by_cases h127 : short = 127
    · subst h127
      have hlt : rest.length + 2 < 10 ↔ rest.length < 8 := by omega
      simp [lengthBytes, payloadLength, hlt]
    · simp only [lengthBytes, payloadLength, if_neg h126, if_true, Nat.not_lt_zero,
        false_and, if_false, h127]

def Buffers (s : FrameSession μ) (bytes : List UInt8) : Prop :=
  if s.inbound.inboundClosed then s.buffer = .empty
  else s.buffer.Ok ∧ s.buffer.stream = bytes

/-- The state that is reached by handling these frames. -/
structure Handles (parse : List UInt8 → Option μ) (limits : InboundQueueLimits)
    (s s' : FrameSession μ) (items : List WireItem) (bytes : List UInt8) : Prop where
  inbound : s'.inbound = s.inbound.handleItems parse limits items
  received : s'.received = s.received
  buffers : s'.Buffers bytes

theorem buffers_withInbound {inbound : InboundState μ} (hb : s.buffer.Ok) :
    (s.withInbound inbound).Buffers s.buffer.stream := by
  unfold Buffers withInbound
  split
  · rfl
  · exact ⟨hb, rfl⟩

variable (parse limits) in
theorem processFrame_eq (hb : s.buffer.Ok) (hstream : s.buffer.stream = first :: second :: rest)
    (hopen : s.inbound.inboundClosed = false) :
    match nextFrame s.buffer.stream with
    | none => s.processFrame parse limits = none
    | some (x, bytes) => ∃ s', s.processFrame parse limits = some s' ∧
        Handles parse limits s s' [x] bytes := by
  have hpeek : s.buffer.peekBufferedBytes 2 = [first, second] := by
    rw [hb.peek, hstream]
    rfl
  have hbytes : s.buffer.bufferedBytes = rest.length + 2 := by
    rw [hb.bytes, hstream]
    rfl
  have hlength := frameLength_eq hb hstream
  have hheader : (s.buffer.peekBufferedBytes 2).getD 0 0 = first ∧
      (s.buffer.peekBufferedBytes 2).getD 1 0 = second := by
    rw [hpeek]
    exact ⟨rfl, rfl⟩
  rw [hstream]
  unfold nextFrame processFrame
  simp only [hheader.1, hheader.2, hlength]
  by_cases hincomplete : rest.length < lengthBytes (second &&& 0x7F).toNat
  · simp only [if_pos hincomplete]
  by_cases htooLong : (second &&& 0x7F).toNat = 127 ∧
      WEBSOCKET_MAX_FINAL_FRAME_BYTES < payloadLength (second &&& 0x7F).toNat rest
  · simp only [if_neg hincomplete, if_pos htooLong]
    refine ⟨_, rfl, ?_, rfl, rfl⟩
    rw [InboundState.handleItems_cons hopen]
    rfl
  simp only [if_neg hincomplete, if_neg htooLong]
  generalize payloadLength (second &&& 0x7F).toNat rest = length
  have hle := not_lt.mp hincomplete
  generalize lengthBytes (second &&& 0x7F).toNat = n at hle ⊢
  generalize hmask : (if second &&& 0x80 = 0x80 then 4 else 0) = maskLength
  unfold nextBody
  rw [hmask]
  have hlt : s.buffer.bufferedBytes < 2 + n + maskLength + length ↔
      (rest.drop n).length < maskLength + length := by
    rw [hbytes, length_drop]
    omega
  obtain ⟨hframe, hbuffer, hleft⟩ := hb.consume (2 + n + maskLength + length)
  have hdrop : ∀ m, (first :: second :: rest).drop (2 + n + m) = (rest.drop n).drop m := by
    intro m
    rw [drop_drop, Nat.add_assoc, Nat.add_comm 2]
    rfl
  have hpayload : ((s.buffer.consumeBufferedBytes (2 + n + maskLength + length)).1).drop
      (2 + n + maskLength) = ((rest.drop n).drop maskLength).take length := by
    rw [hframe, hstream, drop_take, hdrop, Nat.add_sub_cancel_left]
  have hmaskBytes : (((s.buffer.consumeBufferedBytes (2 + n + maskLength + length)).1).drop
      (2 + n)).take maskLength = (rest.drop n).take maskLength := by
    rw [hframe, hstream, drop_take, take_take]
    exact congrArg₂ List.take (by omega) (hdrop 0)
  have hrest : (s.buffer.consumeBufferedBytes (2 + n + maskLength + length)).2.stream =
      (rest.drop n).drop (maskLength + length) := by
    rw [hleft, hstream, Nat.add_assoc (2 + n), hdrop]
  by_cases hshort : (rest.drop n).length < maskLength + length
  · simp only [if_pos hshort, if_pos (hlt.mpr hshort)]
  · simp only [if_neg hshort, if_neg (mt hlt.mp hshort), hpayload, hmaskBytes]
    refine ⟨_, rfl, ?_, rfl, ?_⟩
    · rw [InboundState.handleItems_cons hopen]
      rfl
    · rw [← hrest]
      exact buffers_withInbound hbuffer

theorem Handles.refl (hb : s.buffer.Ok) (hopen : s.inbound.inboundClosed = false) :
    Handles parse limits s s [] s.buffer.stream where
  inbound := rfl
  received := rfl
  buffers := by
    unfold Buffers
    rw [hopen]
    exact ⟨hb, rfl⟩

theorem Handles.cons {s' s'' : FrameSession μ} {x : WireItem} {items : List WireItem}
    {bytes bytes' : List UInt8} (hopen : s.inbound.inboundClosed = false)
    (h : Handles parse limits s s' [x] bytes) (h' : Handles parse limits s' s'' items bytes') :
    Handles parse limits s s'' (x :: items) bytes' where
  inbound := by
    rw [h'.inbound, h.inbound, InboundState.handleItems_cons hopen,
      InboundState.handleItems_cons hopen]
    rfl
  received := h'.received.trans h.received
  buffers := h'.buffers

theorem processFrames_closed {bytes : List UInt8} (hs : s.Buffers bytes)
    (hclosed : s.inbound.inboundClosed = true) (n : ℕ) : s.processFrames parse limits n = s := by
  rw [Buffers, if_pos hclosed] at hs
  cases n with
  | zero => rfl
  | succ n =>
    rw [processFrames, hs]
    rfl

theorem nextFrame_short {b : List UInt8} (h : b.length < 2) : nextFrame b = none := by
  match b, h with
  | [], _ => rfl
  | [_], _ => rfl

variable (parse limits) in
theorem processFrames_spec {n : ℕ} (hn : s.buffer.bufferedBytes ≤ n) (hb : s.buffer.Ok)
    (hopen : s.inbound.inboundClosed = false) :
    Handles parse limits s (s.processFrames parse limits n) (wireFramer.frames s.buffer.stream)
      (wireFramer.rest s.buffer.stream) := by
  have hwaits : ∀ {s : FrameSession μ}, s.buffer.Ok → s.inbound.inboundClosed = false →
      nextFrame s.buffer.stream = none → Handles parse limits s s
        (wireFramer.frames s.buffer.stream) (wireFramer.rest s.buffer.stream) := by
    intro s hb hopen hnone
    rw [Framer.frames_of_none (f := wireFramer) hnone, Framer.rest_of_none (f := wireFramer) hnone]
    exact .refl hb hopen
  induction n generalizing s with
  | zero =>
    have hlength := hb.bytes
    exact hwaits hb hopen (nextFrame_short (by omega))
  | succ n ih =>
    have hlength := hb.bytes
    rw [processFrames]
    split
    · exact hwaits hb hopen (nextFrame_short (by omega))
    · obtain ⟨first, second, rest, hstream⟩ :
          ∃ first second rest, s.buffer.stream = first :: second :: rest := by
        match hstream : s.buffer.stream with
        | [] | [_] =>
          rw [hstream] at hlength
          simp at hlength
          omega
        | first :: second :: rest => exact ⟨first, second, rest, rfl⟩
      have hframe := processFrame_eq parse limits hb hstream hopen
      cases hnext : nextFrame s.buffer.stream with
      | none =>
        rw [hnext] at hframe
        rw [hframe]
        exact hwaits hb hopen hnext
      | some y =>
        obtain ⟨x, bytes⟩ := y
        rw [hnext] at hframe
        obtain ⟨s', hs', hhandles⟩ := hframe
        rw [hs', Framer.frames_of_some (f := wireFramer) hnext,
          Framer.rest_of_some (f := wireFramer) hnext]
        cases hclosed : s'.inbound.inboundClosed with
        | true =>
          have hbuffers := hhandles.buffers
          dsimp only
          rw [processFrames_closed hbuffers hclosed]
          refine hhandles.cons hopen ⟨(InboundState.handleItems_closed hclosed _).symm, rfl, ?_⟩
          unfold Buffers at hbuffers ⊢
          rw [if_pos hclosed] at hbuffers ⊢
          exact hbuffers
        | false =>
          have hbuffers := hhandles.buffers
          rw [Buffers, if_neg (by simp [hclosed])] at hbuffers
          obtain ⟨hb', hbytes⟩ := hbuffers
          have hshorter := (nextFrame_some hnext).1
          have hlength' := hb'.bytes
          rw [hbytes] at hlength'
          have hrest := ih (s := s') (by omega) hb' hclosed
          rw [hbytes] at hrest
          exact hhandles.cons hopen hrest

variable (parse limits) in
/-- **The session handles the frames of what it was given**, however it is cut into
    chunks, and keeps what is not a whole frame. -/
theorem onData_spec {bytes : List UInt8} (data : List UInt8) (hs : s.Buffers bytes)
    (hnone : nextFrame bytes = none) (hopen : s.inbound.inboundClosed = false) :
    Handles parse limits { s with received := s.received ++ data } (s.onData parse limits data)
      (wireFramer.frames (bytes ++ data)) (wireFramer.rest (bytes ++ data)) := by
  rw [Buffers, if_neg (by simp [hopen])] at hs
  obtain ⟨hb, rfl⟩ := hs
  unfold onData
  cases data with
  | nil =>
    have hnil : s.buffer.stream ++ [] = s.buffer.stream := append_nil _
    rw [hnil, Framer.frames_of_none (f := wireFramer) hnone,
      Framer.rest_of_none (f := wireFramer) hnone]
    simp only [length_nil, decide_true, Bool.or_true, if_true]
    exact .refl hb hopen
  | cons byte data =>
    obtain ⟨hpush, hstream⟩ := hb.push (byte :: data)
    have hspec := processFrames_spec parse limits
      (s := { s with
        received := s.received ++ byte :: data, buffer := s.buffer.push (byte :: data) })
      le_rfl hpush hopen
    dsimp only at hspec
    rw [hstream] at hspec
    simp only [hopen, length_cons, Nat.succ_ne_zero, decide_false, Bool.or_self,
      Bool.false_eq_true, if_false]
    exact ⟨hspec.inbound, hspec.received, hspec.buffers⟩

end FrameSession

end Velocious
