/-
  What a websocket client sends, and a reference decoder for it.

  * `wireFramer` splits a stream of bytes into frames (RFC 6455, section 5.2).
  * `Reassembly` puts messages together from frames (section 5.4), without chunks,
    limits or a backlog. It is as tolerant as the session: it takes frames that
    are not masked, that use reserved bits or that are longer than need be, and
    passes over what is out of sequence; `legalFrames` is what a strict decoder
    takes of a stream before it fails the connection.
  * A `ClientStream` is a stream that conforms: text messages in any fragments,
    with control frames anywhere, and possibly a close.
-/
import Velocious.HttpServer.WebsocketFrames

namespace Velocious

open Foundation List

/-! ## Frames on the wire -/

/-- A frame that a client sends. -/
structure ClientFrame where
  isFinal : Bool
  reserved : UInt8
  opcode : UInt8
  isMasked : Bool
  lengthBytes : ℕ
  payload : List UInt8

/-- A frame, or the head of one that is over the cap. -/
inductive WireItem where
  | frame (f : ClientFrame)
  | tooLong

def lengthBytes (short : ℕ) : ℕ := if short = 126 then 2 else if short = 127 then 8 else 0

def payloadLength (short : ℕ) (b : List UInt8) : ℕ :=
  if lengthBytes short = 0 then short else bigEndian (b.take (lengthBytes short))

/-- What follows the length of a frame: a mask and the payload. -/
def nextBody (first second : UInt8) (length : ℕ) (b : List UInt8) :
    Option (WireItem × List UInt8) :=
  let maskLength := if second &&& 0x80 = 0x80 then 4 else 0
  let payload := (b.drop maskLength).take length
  if b.length < maskLength + length then none
  else
    some (.frame
      { isFinal := first &&& WEBSOCKET_FINAL_FRAME = WEBSOCKET_FINAL_FRAME
        reserved := first &&& 0x70
        opcode := first &&& 0x0F
        isMasked := second &&& 0x80 = 0x80
        lengthBytes := lengthBytes (second &&& 0x7F).toNat
        payload :=
          if second &&& 0x80 = 0x80 then unmaskPayload payload (b.take maskLength) else payload },
      b.drop (maskLength + length))

/-- The first frame of a stream, if it is whole. -/
def nextFrame : List UInt8 → Option (WireItem × List UInt8)
  | first :: second :: b =>
    let short := (second &&& 0x7F).toNat
    if b.length < lengthBytes short then none
    else if short = 127 ∧ WEBSOCKET_MAX_FINAL_FRAME_BYTES < payloadLength short b then
      some (.tooLong, b.drop (lengthBytes short))
    else nextBody first second (payloadLength short b) (b.drop (lengthBytes short))
  | _ => none

theorem nextBody_some {first second : UInt8} {length : ℕ} {b r : List UInt8} {x : WireItem}
    (h : nextBody first second length b = some (x, r)) :
    r.length ≤ b.length ∧ ∀ c, nextBody first second length (b ++ c) = some (x, r ++ c) := by
  unfold nextBody at h ⊢
  generalize (if second &&& 0x80 = 0x80 then 4 else 0) = maskLength at h ⊢
  dsimp only at h ⊢
  split at h
  · cases h
  · rename_i hle
    have hle := not_lt.mp hle
    obtain ⟨rfl, rfl⟩ := Prod.mk.inj (Option.some.inj h)
    refine ⟨by rw [length_drop]; omega, fun c => ?_⟩
    have hlt : ¬ (b ++ c).length < maskLength + length := by rw [length_append]; omega
    rw [if_neg hlt, drop_append_of_le_length hle, take_append_of_le_length (by omega),
      drop_append_of_le_length (by omega),
      take_append_of_le_length (by rw [length_drop]; omega)]

theorem nextFrame_some {b r : List UInt8} {x : WireItem} (h : nextFrame b = some (x, r)) :
    r.length < b.length ∧ ∀ c, nextFrame (b ++ c) = some (x, r ++ c) := by
  unfold nextFrame at h
  split at h
  · rename_i first second b
    dsimp only at h
    split at h
    · cases h
    · rename_i hle
      have hle := not_lt.mp hle
      have hlength : ∀ c, payloadLength (second &&& 0x7F).toNat (b ++ c) =
          payloadLength (second &&& 0x7F).toNat b := fun c => by
        rw [payloadLength, payloadLength, take_append_of_le_length hle]
      have hfits : ∀ c : List UInt8, ¬ (b ++ c).length < lengthBytes (second &&& 0x7F).toNat :=
        fun c => by rw [length_append]; omega
      split at h
      · rename_i hcap
        obtain ⟨rfl, rfl⟩ := Prod.mk.inj (Option.some.inj h)
        refine ⟨?_, fun c => ?_⟩
        · rw [length_drop, length_cons, length_cons]
          omega
        · simp only [nextFrame, cons_append, hlength, if_neg (hfits c), if_pos hcap,
            drop_append_of_le_length hle]
      · rename_i hcap
        obtain ⟨hshort, hextend⟩ := nextBody_some h
        refine ⟨?_, fun c => ?_⟩
        · rw [length_drop] at hshort
          rw [length_cons, length_cons]
          omega
        · simp only [nextFrame, cons_append, hlength, if_neg (hfits c), if_neg hcap,
            drop_append_of_le_length hle, hextend]
  · cases h

def wireFramer : Framer UInt8 WireItem where
  next := nextFrame
  shorter h := (nextFrame_some h).1
  extend c h := (nextFrame_some h).2 c

/-! ## Messages -/

/-- What has been put together from the frames so far. -/
structure Reassembly where
  pending : Option (UInt8 × List (List UInt8))
  texts : List (List UInt8)
  replies : List (List UInt8)
  closed : Bool

namespace Reassembly

variable {μ : Type} (parse : List UInt8 → Option μ)

def init : Reassembly := ⟨none, [], [], false⟩

/-- A message is whole; only text counts, and what is not a message is answered. -/
def complete (r : Reassembly) (opcode : UInt8) (payload : List UInt8) : Reassembly :=
  if opcode = WEBSOCKET_OPCODE_TEXT then
    { r with
      pending := none
      texts := r.texts ++ [payload]
      replies := r.replies ++ if (parse payload).isNone then [invalidMessageFrame] else [] }
  else { r with pending := none }

def takeFrame (r : Reassembly) (f : ClientFrame) : Reassembly :=
  if f.opcode = WEBSOCKET_OPCODE_PING then
    { r with replies := r.replies ++ [controlFrame WEBSOCKET_OPCODE_PONG f.payload] }
  else if f.opcode = WEBSOCKET_OPCODE_CLOSE then
    { r with
      replies := r.replies ++ [controlFrame WEBSOCKET_OPCODE_CLOSE []]
      closed := true }
  else if f.opcode = WEBSOCKET_OPCODE_CONTINUATION then
    match r.pending with
    | none => r
    | some (opcode, parts) =>
      if f.isFinal then r.complete parse opcode (parts ++ [f.payload]).flatten
      else { r with pending := some (opcode, parts ++ [f.payload]) }
  else if f.opcode = WEBSOCKET_OPCODE_TEXT ∨ f.opcode = WEBSOCKET_OPCODE_BINARY then
    if f.isFinal then r.complete parse f.opcode f.payload
    else { r with pending := some (f.opcode, [f.payload]) }
  else r

/-- Nothing is taken after a close, or after a frame over the cap. -/
def take (r : Reassembly) (x : WireItem) : Reassembly :=
  if r.closed then r
  else
    match x with
    | .frame f => r.takeFrame parse f
    | .tooLong => { r with closed := true }

/-- What a reference decoder makes of these frames. -/
def run (items : List WireItem) : Reassembly := items.foldl (take parse) init

end Reassembly

/-- What a reference decoder makes of a stream of bytes. -/
def reference {μ : Type} (parse : List UInt8 → Option μ) (bytes : List UInt8) : Reassembly :=
  .run parse (wireFramer.frames bytes)

/-- A frame that leaves the message within the caps. -/
def Reassembly.UnderCaps (r : Reassembly) : WireItem → Prop
  | .tooLong => False
  | .frame f =>
    (f.opcode = WEBSOCKET_OPCODE_CONTINUATION → ∀ p ∈ r.pending,
      (p.2 ++ [f.payload]).flatten.length ≤ WEBSOCKET_MAX_FRAGMENTED_MESSAGE_BYTES ∧
        (p.2 ++ [f.payload]).length ≤ WEBSOCKET_MAX_FRAGMENTED_MESSAGE_FRAGMENTS) ∧
    (f.isFinal = false → f.payload.length ≤ WEBSOCKET_MAX_FRAGMENTED_MESSAGE_BYTES)

namespace Reassembly

variable {μ : Type} {parse : List UInt8 → Option μ} {r : Reassembly}

theorem complete_texts (opcode : UInt8) (payload : List UInt8) :
    ∃ texts, (r.complete parse opcode payload).texts = r.texts ++ texts := by
  unfold complete
  split
  · exact ⟨[payload], rfl⟩
  · exact ⟨[], (append_nil _).symm⟩

theorem takeFrame_texts (f : ClientFrame) :
    ∃ texts, (r.takeFrame parse f).texts = r.texts ++ texts := by
  have hsame : ∃ texts, r.texts = r.texts ++ texts := ⟨[], (append_nil _).symm⟩
  unfold takeFrame
  split
  · exact hsame
  split
  · exact hsame
  split
  · split
    · exact hsame
    · split
      · exact complete_texts _ _
      · exact hsame
  split
  · split
    · exact complete_texts _ _
    · exact hsame
  · exact hsame

theorem take_closed (hclosed : r.closed = true) (x : WireItem) : r.take parse x = r :=
  if_pos hclosed

theorem foldl_take_closed (hclosed : r.closed = true) (items : List WireItem) :
    items.foldl (take parse) r = r := by
  induction items with
  | nil => rfl
  | cons x items ih => rw [foldl_cons, take_closed hclosed, ih]

variable (parse) in
theorem foldl_take_texts (items : List WireItem) :
    ∃ texts, (items.foldl (take parse) r).texts = r.texts ++ texts := by
  induction items generalizing r with
  | nil => exact ⟨[], (append_nil _).symm⟩
  | cons x items ih =>
    obtain ⟨first, hfirst⟩ : ∃ texts, (r.take parse x).texts = r.texts ++ texts := by
      unfold take
      split
      · exact ⟨[], (append_nil _).symm⟩
      · split
        · exact takeFrame_texts _
        · exact ⟨[], (append_nil _).symm⟩
    obtain ⟨texts, htexts⟩ := ih (r := r.take parse x)
    exact ⟨first ++ texts, by rw [foldl_cons, htexts, hfirst, append_assoc]⟩

variable (parse) in
/-- Every frame leaves its message within the caps. -/
def UnderCapsAll (r : Reassembly) : List WireItem → Prop
  | [] => True
  | x :: items => r.UnderCaps x ∧ UnderCapsAll (r.take parse x) items

theorem underCapsAll_append {items items' : List WireItem} :
    r.UnderCapsAll parse (items ++ items') ↔
      r.UnderCapsAll parse items ∧ (items.foldl (take parse) r).UnderCapsAll parse items' := by
  induction items generalizing r with
  | nil => exact ⟨fun h => ⟨trivial, h⟩, fun h => h.2⟩
  | cons x items ih => exact (and_congr_right fun _ => ih).trans and_assoc.symm

end Reassembly

/-- The smallest length that holds this many bytes. -/
def minimalLengthBytes (length : ℕ) : ℕ :=
  if length < 126 then 0 else if length < 65536 then 2 else 8

/-- A frame that a strict decoder takes while a message is, or is not, fragmented. -/
def ClientFrame.legal (f : ClientFrame) (fragmented : Bool) : Bool :=
  f.reserved = 0 && f.isMasked && f.lengthBytes = minimalLengthBytes f.payload.length &&
    if 0x8 ≤ f.opcode then f.opcode ≤ WEBSOCKET_OPCODE_PONG && f.isFinal && f.payload.length < 126
    else if f.opcode = WEBSOCKET_OPCODE_CONTINUATION then fragmented
    else f.opcode ≤ WEBSOCKET_OPCODE_BINARY && !fragmented

/-- The frames that a strict decoder takes before it fails the connection. -/
def legalFrames : Bool → List WireItem → List WireItem
  | fragmented, .frame f :: items =>
    if f.legal fragmented then
      .frame f :: legalFrames (if 0x8 ≤ f.opcode then fragmented else !f.isFinal) items
    else []
  | _, _ => []

/-- What a strict decoder makes of a stream of bytes. -/
def strictReference {μ : Type} (parse : List UInt8 → Option μ) (bytes : List UInt8) : Reassembly :=
  .run parse (legalFrames false (wireFramer.frames bytes))

/-! ## Clients -/

/-- Four bytes. -/
structure MaskingKey where
  bytes : List UInt8
  length : bytes.length = 4

/-- A frame as a client makes it, before it is masked. -/
structure SentFrame where
  isFinal : Bool
  opcode : UInt8
  payload : List UInt8

namespace SentFrame

/-- The length in its smallest form, with the mask bit. -/
def lengthField (length : ℕ) : List UInt8 :=
  if length < 126 then [0x80 ||| UInt8.ofNat length]
  else if length < 65536 then (0x80 ||| 126) :: toBigEndian 2 length
  else (0x80 ||| 127) :: toBigEndian 8 length

def encode (f : SentFrame) (key : MaskingKey) : List UInt8 :=
  ((if f.isFinal then WEBSOCKET_FINAL_FRAME else 0) ||| f.opcode) ::
    (lengthField f.payload.length ++ (key.bytes ++ unmaskPayload f.payload key.bytes))

def item (f : SentFrame) : WireItem :=
  .frame ⟨f.isFinal, 0, f.opcode, true, minimalLengthBytes f.payload.length, f.payload⟩

end SentFrame

/-- A control frame that a client sends. -/
structure ClientControl where
  isPing : Bool
  payload : List UInt8
  short : payload.length < 126

namespace ClientControl

def frame (c : ClientControl) : SentFrame :=
  ⟨true, if c.isPing then WEBSOCKET_OPCODE_PING else WEBSOCKET_OPCODE_PONG, c.payload⟩

def replies (c : ClientControl) : List (List UInt8) :=
  if c.isPing then [controlFrame WEBSOCKET_OPCODE_PONG c.payload] else []

end ClientControl

/-- A text message: its first fragment, and the others, each behind control frames. -/
structure ClientMessage where
  first : List UInt8
  fragments : List (List ClientControl × List UInt8)

/-- The fragments behind the first; the last one is final if the message is whole. -/
def fragmentFrames (whole : Bool) : List (List ClientControl × List UInt8) → List SentFrame
  | [] => []
  | (controls, payload) :: rest =>
    controls.map (·.frame) ++
      ⟨whole && rest.isEmpty, WEBSOCKET_OPCODE_CONTINUATION, payload⟩ :: fragmentFrames whole rest

namespace ClientMessage

def payload (m : ClientMessage) : List UInt8 := m.first ++ (m.fragments.map (·.2)).flatten

def frames (whole : Bool) (m : ClientMessage) : List SentFrame :=
  ⟨whole && m.fragments.isEmpty, WEBSOCKET_OPCODE_TEXT, m.first⟩ :: fragmentFrames whole m.fragments

/-- The answers to the control frames between the fragments. -/
def controlReplies (m : ClientMessage) : List (List UInt8) :=
  m.fragments.flatMap fun f => f.1.flatMap (·.replies)

def Within (m : ClientMessage) : Prop :=
  m.payload.length ≤ WEBSOCKET_MAX_FRAGMENTED_MESSAGE_BYTES ∧
    m.fragments.length < WEBSOCKET_MAX_FRAGMENTED_MESSAGE_FRAGMENTS

end ClientMessage

/-- What a client sends. -/
inductive ClientItem where
  | control (c : ClientControl)
  | message (m : ClientMessage)

namespace ClientItem

def frames : ClientItem → List SentFrame
  | control c => [c.frame]
  | message m => m.frames true

def text? : ClientItem → Option (List UInt8)
  | control _ => none
  | message m => some m.payload

def replies {μ : Type} (parse : List UInt8 → Option μ) : ClientItem → List (List UInt8)
  | control c => c.replies
  | message m =>
    m.controlReplies ++ if (parse m.payload).isNone then [invalidMessageFrame] else []

def Within : ClientItem → Prop
  | control _ => True
  | message m => m.Within

end ClientItem

/-- A close, possibly within a message. -/
structure ClientEnding where
  unfinished : Option ClientMessage
  controls : List ClientControl
  payload : List UInt8
  short : payload.length < 126

namespace ClientEnding

def frames (e : ClientEnding) : List SentFrame :=
  e.unfinished.elim [] (·.frames false) ++ e.controls.map (·.frame) ++
    [⟨true, WEBSOCKET_OPCODE_CLOSE, e.payload⟩]

def replies (e : ClientEnding) : List (List UInt8) :=
  e.unfinished.elim [] (·.controlReplies) ++ e.controls.flatMap (·.replies) ++
    [controlFrame WEBSOCKET_OPCODE_CLOSE []]

end ClientEnding

/-- What a client sends: messages and control frames, and possibly a close. -/
structure ClientStream where
  items : List ClientItem
  ending : Option ClientEnding

namespace ClientStream

def frames (c : ClientStream) : List SentFrame :=
  c.items.flatMap (·.frames) ++ c.ending.elim [] (·.frames)

/-- The whole text messages, in order. -/
def texts (c : ClientStream) : List (List UInt8) := c.items.filterMap (·.text?)

/-- The answers to it: a pong for each ping, an error for what is not a message, and
    a close for the close. -/
def replies {μ : Type} (parse : List UInt8 → Option μ) (c : ClientStream) : List (List UInt8) :=
  c.items.flatMap (·.replies parse) ++ c.ending.elim [] (·.replies)

def Within (c : ClientStream) : Prop :=
  (∀ item ∈ c.items, item.Within) ∧ ∀ e ∈ c.ending, ∀ m ∈ e.unfinished, m.Within

def Sends (c : ClientStream) (bytes : List UInt8) : Prop :=
  ∃ keyed : List (SentFrame × MaskingKey), keyed.map Prod.fst = c.frames ∧
    bytes = keyed.flatMap fun f => f.1.encode f.2

end ClientStream

end Velocious
