/-
  What the reference decoder makes of a stream that conforms.

  * `nextFrame_encode`: a frame that a client masks with any key is read back, in
    each form of its length.
-/
import Velocious.HttpServer.WebsocketReference

namespace Velocious

open Foundation List

attribute [local instance (high)] List.decidableBAll

/-! ## Frames are read back -/

theorem unmaskPayload_unmaskPayload (payload mask : List UInt8) :
    unmaskPayload (unmaskPayload payload mask) mask = payload := by
  refine ext_getElem (by simp [unmaskPayload]) fun i h h' => ?_
  simp only [unmaskPayload, getElem_mapIdx, UInt8.xor_assoc, UInt8.xor_self, UInt8.xor_zero]

theorem length_unmaskPayload (payload mask : List UInt8) :
    (unmaskPayload payload mask).length = payload.length := length_mapIdx

theorem maskedLength (n : Fin 128) :
    ((0x80 ||| UInt8.ofNat n) &&& 0x7F).toNat = n ∧ (0x80 ||| UInt8.ofNat n) &&& 0x80 = 0x80 := by
  revert n
  decide

theorem unmaskedLength (n : Fin 128) :
    (UInt8.ofNat n &&& 0x7F).toNat = n ∧ ¬ UInt8.ofNat n &&& 0x80 = 0x80 := by
  revert n
  decide

theorem lengthField_eq {n : ℕ} (hn : n ≤ WEBSOCKET_MAX_FINAL_FRAME_BYTES) :
    ∃ second field, SentFrame.lengthField n = second :: field ∧ second &&& 0x80 = 0x80 ∧
      lengthBytes (second &&& 0x7F).toNat = field.length ∧ field.length = minimalLengthBytes n ∧
      ∀ b, payloadLength (second &&& 0x7F).toNat (field ++ b) = n := by
  unfold SentFrame.lengthField minimalLengthBytes
  by_cases hshort : n < 126
  · obtain ⟨hlength, hmask⟩ := maskedLength ⟨n, by omega⟩
    have hbytes : lengthBytes n = 0 := by
      rw [lengthBytes, if_neg (by omega), if_neg (by omega)]
    refine ⟨_, [], if_pos hshort, hmask, ?_, (if_pos hshort).symm, fun b => ?_⟩
    · rw [hlength, hbytes]
      rfl
    · rw [hlength, payloadLength, if_pos hbytes]
  · rw [if_neg hshort, if_neg hshort]
    by_cases hmedium : n < 65536
    · obtain ⟨hlength, hmask⟩ := maskedLength 126
      refine ⟨0x80 ||| 126, toBigEndian 2 n, if_pos hmedium, hmask, ?_, ?_, fun b => ?_⟩
      · rfl
      · rw [length_toBigEndian, if_pos hmedium]
      · change bigEndian ((toBigEndian 2 n ++ b).take 2) = n
        rw [take_left' (length_toBigEndian 2 n), bigEndian_toBigEndian (by omega)]
    · obtain ⟨hlength, hmask⟩ := maskedLength 127
      refine ⟨0x80 ||| 127, toBigEndian 8 n, if_neg hmedium, hmask, ?_, ?_, fun b => ?_⟩
      · rw [length_toBigEndian]
        rfl
      · rw [length_toBigEndian, if_neg hmedium]
      · change bigEndian ((toBigEndian 8 n ++ b).take 8) = n
        have hcap : n ≤ 16 * 1024 * 1024 := hn
        rw [take_left' (length_toBigEndian 8 n), bigEndian_toBigEndian (by omega)]

/-- The kinds of frames that a text client uses. -/
def clientOpcodes : List UInt8 :=
  [WEBSOCKET_OPCODE_CONTINUATION, WEBSOCKET_OPCODE_TEXT, WEBSOCKET_OPCODE_CLOSE,
    WEBSOCKET_OPCODE_PING, WEBSOCKET_OPCODE_PONG]

/-- A frame that a client may send, under the cap. -/
structure SentFrame.Sendable (f : SentFrame) : Prop where
  opcode : f.opcode ∈ clientOpcodes
  length : f.payload.length ≤ WEBSOCKET_MAX_FINAL_FRAME_BYTES

theorem firstByte_eq : ∀ isFinal : Bool, ∀ opcode ∈ clientOpcodes,
    let first := (if isFinal then WEBSOCKET_FINAL_FRAME else 0) ||| opcode
    decide (first &&& WEBSOCKET_FINAL_FRAME = WEBSOCKET_FINAL_FRAME) = isFinal ∧
      first &&& 0x70 = 0 ∧ first &&& 0x0F = opcode := by
  decide

theorem nextFrame_encode {f : SentFrame} (hf : f.Sendable) (key : MaskingKey) (r : List UInt8) :
    nextFrame (f.encode key ++ r) = some (f.item, r) := by
  obtain ⟨second, field, hfield, hmask, hbytes, hminimal, hlength⟩ := lengthField_eq hf.length
  obtain ⟨hfinal, hreserved, hopcode⟩ := firstByte_eq f.isFinal f.opcode hf.opcode
  have hmasked := length_unmaskPayload f.payload key.bytes
  have hencode : f.encode key ++ r = ((if f.isFinal then WEBSOCKET_FINAL_FRAME else 0) |||
      f.opcode) :: second :: (field ++ (key.bytes ++ (unmaskPayload f.payload key.bytes ++ r))) := by
    rw [SentFrame.encode, hfield]
    simp
  have hfits : ¬ (field ++ (key.bytes ++ (unmaskPayload f.payload key.bytes ++ r))).length <
      field.length := by rw [length_append]; omega
  have hbody : ¬ (key.bytes ++ (unmaskPayload f.payload key.bytes ++ r)).length <
      4 + f.payload.length := by
    rw [length_append, length_append, key.length]
    omega
  have hcap := hf.length
  rw [hencode, nextFrame]
  simp only [hbytes, hlength, if_neg hfits, not_lt.mpr hcap, and_false, drop_left]
  rw [nextBody]
  simp only [hmask, if_true, if_neg hbody, drop_left' key.length, take_left' key.length,
    take_left' hmasked, unmaskPayload_unmaskPayload, hfinal, hreserved, hopcode, hbytes,
    hminimal]
  rw [← drop_drop, drop_left' key.length, drop_left' hmasked]
  rfl

theorem nextFrame_pong (c : ClientControl) :
    nextFrame (controlFrame WEBSOCKET_OPCODE_PONG c.payload) =
      some (.frame ⟨true, 0, WEBSOCKET_OPCODE_PONG, false, 0, c.payload⟩, []) := by
  obtain ⟨hlength, hmask⟩ := unmaskedLength ⟨c.payload.length, by have := c.short; omega⟩
  have hshort := c.short
  have hbytes : lengthBytes c.payload.length = 0 := by
    rw [lengthBytes, if_neg (by omega), if_neg (by omega)]
  have h127 : c.payload.length ≠ 127 := by omega
  rw [controlFrame, nextFrame]
  simp only [hlength, hbytes, h127, payloadLength, if_true]
  rw [nextBody]
  simp only [hmask, hlength, hbytes, if_false, Nat.zero_add, lt_irrefl, drop_zero,
    take_length, drop_length]
  rfl

/-! ## Streams -/

section
variable {μ : Type} (parse : List UInt8 → Option μ)

/-- The reference decoder takes these frames from one state to another, within the
    caps. -/
structure Takes (r : Reassembly) (frames : List SentFrame) (r' : Reassembly) : Prop where
  result : (frames.map (·.item)).foldl (Reassembly.take parse) r = r'
  caps : r.UnderCapsAll parse (frames.map (·.item))
  sendable : ∀ f ∈ frames, f.Sendable

variable {parse} {r r' r'' : Reassembly} {frames frames' : List SentFrame}

theorem Takes.nil : Takes parse r [] r := ⟨rfl, trivial, fun _ h => absurd h not_mem_nil⟩

theorem Takes.append (h : Takes parse r frames r') (h' : Takes parse r' frames' r'') :
    Takes parse r (frames ++ frames') r'' where
  result := by rw [map_append, foldl_append, h.result, h'.result]
  caps := by
    rw [map_append, Reassembly.underCapsAll_append, h.result]
    exact ⟨h.caps, h'.caps⟩
  sendable f hf := (mem_append.mp hf).elim (h.sendable f) (h'.sendable f)

theorem Takes.single {f : SentFrame} (hf : f.Sendable)
    (hresult : r.take parse f.item = r') (hcaps : r.UnderCaps f.item) :
    Takes parse r [f] r' :=
  ⟨hresult, ⟨hcaps, trivial⟩, fun _ hg => mem_singleton.mp hg ▸ hf⟩

theorem Takes.cons {f : SentFrame} (h : Takes parse r [f] r') (h' : Takes parse r' frames r'') :
    Takes parse r (f :: frames) r'' := h.append h'

theorem ClientControl.sendable (c : ClientControl) : c.frame.Sendable := by
  refine ⟨?_, ?_⟩
  · obtain ⟨_ | _, payload, short⟩ := c <;> simp [frame, clientOpcodes]
  · have := c.short
    change c.payload.length ≤ 16 * 1024 * 1024
    omega

variable (parse)

theorem takes_controls (hopen : r.closed = false) (controls : List ClientControl) :
    Takes parse r (controls.map (·.frame))
      { r with replies := r.replies ++ controls.flatMap (·.replies) } := by
  induction controls generalizing r with
  | nil => simpa using Takes.nil
  | cons c controls ih =>
    have hcontrol : Takes parse r [c.frame] { r with replies := r.replies ++ c.replies } := by
      refine .single c.sendable ?_ ⟨fun h => ?_, fun h => nomatch h⟩
      · rw [SentFrame.item, Reassembly.take, if_neg (by simp [hopen])]
        obtain ⟨_ | _, payload, short⟩ := c
        · have hreplies : r.replies ++ [] = r.replies := append_nil _
          rw [ClientControl.replies, if_neg Bool.false_ne_true, hreplies]
          rfl
        · rfl
      · obtain ⟨_ | _, payload, short⟩ := c
        · exact absurd h (by decide : WEBSOCKET_OPCODE_PONG ≠ WEBSOCKET_OPCODE_CONTINUATION)
        · exact absurd h (by decide : WEBSOCKET_OPCODE_PING ≠ WEBSOCKET_OPCODE_CONTINUATION)
    have hrest := ih (r := { r with replies := r.replies ++ c.replies }) hopen
    rw [append_assoc] at hrest
    exact hcontrol.cons hrest

/-- The fragments of a message, and those to come, are within the caps. -/
structure WithinCaps (parts rest : List (List UInt8)) : Prop where
  bytes : (parts ++ rest).flatten.length ≤ WEBSOCKET_MAX_FRAGMENTED_MESSAGE_BYTES
  fragments : (parts ++ rest).length ≤ WEBSOCKET_MAX_FRAGMENTED_MESSAGE_FRAGMENTS

variable {parts : List (List UInt8)} {payload : List UInt8}

theorem WithinCaps.next {rest : List (List UInt8)} (h : WithinCaps parts (payload :: rest)) :
    WithinCaps (parts ++ [payload]) rest ∧
      (parts ++ [payload]).flatten.length ≤ WEBSOCKET_MAX_FRAGMENTED_MESSAGE_BYTES ∧
      (parts ++ [payload]).length ≤ WEBSOCKET_MAX_FRAGMENTED_MESSAGE_FRAGMENTS ∧
      payload.length ≤ WEBSOCKET_MAX_FRAGMENTED_MESSAGE_BYTES := by
  obtain ⟨hbytes, hfragments⟩ := h
  rw [append_cons] at hbytes hfragments
  refine ⟨⟨hbytes, hfragments⟩, ?_, ?_, ?_⟩
  · rw [flatten_append, length_append] at hbytes
    omega
  · rw [length_append] at hfragments
    omega
  · simp only [flatten_append, length_append, flatten_singleton] at hbytes
    omega

variable {opcode : UInt8}

theorem takes_fragment (hopen : r.closed = false) {rest : List (List UInt8)}
    (hpending : r.pending = some (opcode, parts))
    (hcaps : WithinCaps parts (payload :: rest)) (isFinal : Bool) :
    Takes parse r [⟨isFinal, WEBSOCKET_OPCODE_CONTINUATION, payload⟩]
      (if isFinal then r.complete parse opcode (parts ++ [payload]).flatten
        else { r with pending := some (opcode, parts ++ [payload]) }) := by
  obtain ⟨-, hbytes, hfragments, hlength⟩ := hcaps.next
  refine .single ⟨mem_cons_self, hlength⟩ ?_ ⟨fun _ p hp => ?_, fun _ => hlength⟩
  · rw [SentFrame.item, Reassembly.take, if_neg (by simp [hopen])]
    dsimp only [Reassembly.takeFrame]
    rw [if_neg (by decide), if_neg (by decide), if_pos rfl, hpending]
  · rw [hpending] at hp
    cases hp
    exact ⟨hbytes, hfragments⟩

/-- The answers to the control frames between fragments. -/
def fragmentReplies (fragments : List (List ClientControl × List UInt8)) : List (List UInt8) :=
  fragments.flatMap fun f => f.1.flatMap (·.replies)

section
variable (hopen : r.closed = false) (hpending : r.pending = some (opcode, parts))
  {fragments : List (List ClientControl × List UInt8)}
include hopen hpending

theorem takes_unfinished (hcaps : WithinCaps parts (fragments.map (·.2))) :
    Takes parse r (fragmentFrames false fragments)
      { r with
        pending := some (opcode, parts ++ fragments.map (·.2))
        replies := r.replies ++ fragmentReplies fragments } := by
  induction fragments generalizing r parts with
  | nil =>
    have hsame : Takes parse r []
        { r with pending := some (opcode, parts ++ []), replies := r.replies ++ [] } := by
      rw [append_nil, append_nil, ← hpending]
      exact .nil
    exact hsame
  | cons fragment fragments ih =>
    obtain ⟨controls, payload⟩ := fragment
    have hcontrols := takes_controls parse hopen controls
    have hfragment := takes_fragment parse
      (r := { r with replies := r.replies ++ controls.flatMap (·.replies) }) hopen hpending hcaps
      false
    have hrest := ih
      (r := { r with
        pending := some (opcode, parts ++ [payload])
        replies := r.replies ++ controls.flatMap (·.replies) }) hopen rfl hcaps.next.1
    rw [← append_cons, append_assoc] at hrest
    exact hcontrols.append (hfragment.cons hrest)

theorem takes_whole (hne : fragments ≠ [])
    (hcaps : WithinCaps parts (fragments.map (·.2))) :
    Takes parse r (fragmentFrames true fragments)
      (Reassembly.complete parse { r with replies := r.replies ++ fragmentReplies fragments } opcode
        (parts ++ fragments.map (·.2)).flatten) := by
  induction fragments generalizing r parts with
  | nil => exact absurd rfl hne
  | cons fragment fragments ih =>
    obtain ⟨controls, payload⟩ := fragment
    have hcontrols := takes_controls parse hopen controls
    have hfragment := takes_fragment parse
      (r := { r with replies := r.replies ++ controls.flatMap (·.replies) }) hopen hpending hcaps
      fragments.isEmpty
    cases fragments with
    | nil =>
      have hreplies : fragmentReplies [(controls, payload)] = controls.flatMap (·.replies) :=
        flatMap_singleton ..
      rw [hreplies]
      exact hcontrols.append hfragment
    | cons next fragments =>
      have hrest := ih
        (r := { r with
          pending := some (opcode, parts ++ [payload])
          replies := r.replies ++ controls.flatMap (·.replies) }) hopen rfl
        (cons_ne_nil _ _) hcaps.next.1
      rw [← append_cons, append_assoc] at hrest
      exact hcontrols.append (hfragment.cons hrest)

end

theorem takes_first (hopen : r.closed = false)
    (hlength : payload.length ≤ WEBSOCKET_MAX_FRAGMENTED_MESSAGE_BYTES) (isFinal : Bool) :
    Takes parse r [⟨isFinal, WEBSOCKET_OPCODE_TEXT, payload⟩]
      (if isFinal then r.complete parse WEBSOCKET_OPCODE_TEXT payload
        else { r with pending := some (WEBSOCKET_OPCODE_TEXT, [payload]) }) := by
  refine .single ⟨mem_cons_of_mem _ mem_cons_self, hlength⟩ ?_
    ⟨fun h => absurd h (by decide : WEBSOCKET_OPCODE_TEXT ≠ WEBSOCKET_OPCODE_CONTINUATION),
      fun _ => hlength⟩
  rw [SentFrame.item, Reassembly.take, if_neg (by simp [hopen])]
  rfl

theorem ClientMessage.Within.caps {m : ClientMessage} (hm : m.Within) :
    WithinCaps [m.first] (m.fragments.map (·.2)) ∧
      m.first.length ≤ WEBSOCKET_MAX_FRAGMENTED_MESSAGE_BYTES := by
  obtain ⟨hbytes, hfragments⟩ := hm
  refine ⟨⟨hbytes, ?_⟩, ?_⟩
  · rw [length_append, length_map, length_singleton]
    omega
  · rw [ClientMessage.payload, length_append] at hbytes
    omega

theorem takes_item (hopen : r.closed = false) (hpending : r.pending = none) {item : ClientItem}
    (hitem : item.Within) :
    Takes parse r item.frames
      { r with
        texts := r.texts ++ item.text?.toList
        replies := r.replies ++ item.replies parse } := by
  cases item with
  | control c =>
    have hcontrol := takes_controls parse hopen [c]
    rw [flatMap_singleton] at hcontrol
    have htexts : r.texts ++ (ClientItem.control c).text?.toList = r.texts := append_nil _
    rw [htexts]
    exact hcontrol
  | message m =>
    obtain ⟨hcaps, hlength⟩ := ClientMessage.Within.caps hitem
    have hfirst := takes_first parse hopen hlength m.fragments.isEmpty
    obtain ⟨pending, texts, replies, closed⟩ := r
    subst hpending
    obtain ⟨first, _ | ⟨fragment, fragments⟩⟩ := m
    · have hpayload : (ClientMessage.mk first []).payload = first := append_nil first
      refine ⟨?_, hfirst.caps, hfirst.sendable⟩
      refine hfirst.result.trans ?_
      simp [Reassembly.complete, ClientItem.text?, ClientItem.replies, hpayload,
        ClientMessage.controlReplies]
    · have hwhole := takes_whole parse
        (r := ⟨some (WEBSOCKET_OPCODE_TEXT, [first]), texts, replies, closed⟩) hopen rfl
        (cons_ne_nil fragment fragments) hcaps
      have hall := hfirst.cons hwhole
      refine ⟨hall.result.trans ?_, hall.caps, hall.sendable⟩
      simp [Reassembly.complete, ClientItem.text?, ClientItem.replies, ClientMessage.payload,
        ClientMessage.controlReplies, fragmentReplies]

theorem takes_items {items : List ClientItem} (hopen : r.closed = false)
    (hpending : r.pending = none) (hitems : ∀ item ∈ items, item.Within) :
    Takes parse r (items.flatMap (·.frames))
      { r with
        texts := r.texts ++ items.filterMap (·.text?)
        replies := r.replies ++ items.flatMap (·.replies parse) } := by
  induction items generalizing r with
  | nil =>
    have hsame : Takes parse r [] { r with texts := r.texts ++ [], replies := r.replies ++ [] } := by
      rw [append_nil, append_nil]
      exact .nil
    exact hsame
  | cons item items ih =>
    have hitem := takes_item parse hopen hpending (hitems item mem_cons_self)
    have hrest := ih
      (r := { r with
        texts := r.texts ++ item.text?.toList
        replies := r.replies ++ item.replies parse })
      hopen hpending fun item h => hitems item (mem_cons_of_mem _ h)
    have htexts : item.text?.toList ++ items.filterMap (·.text?) =
        (item :: items).filterMap (·.text?) := by
      rw [filterMap_cons]
      cases item.text? <;> rfl
    rw [append_assoc, append_assoc, htexts] at hrest
    exact hitem.append hrest

theorem takes_ending (hopen : r.closed = false) {ending : ClientEnding}
    (hwithin : ∀ m ∈ ending.unfinished, m.Within) :
    ∃ pending, Takes parse r ending.frames
      { r with pending, replies := r.replies ++ ending.replies, closed := true } := by
  obtain ⟨unfinished, controls, payload, short⟩ := ending
  have hclose : ∀ {r : Reassembly}, r.closed = false →
      Takes parse r [⟨true, WEBSOCKET_OPCODE_CLOSE, payload⟩]
        { r with replies := r.replies ++ [controlFrame WEBSOCKET_OPCODE_CLOSE []], closed := true } := by
    intro r hopen
    refine .single ⟨by simp [clientOpcodes], ?_⟩ ?_
      ⟨fun h => absurd h (by decide : WEBSOCKET_OPCODE_CLOSE ≠ WEBSOCKET_OPCODE_CONTINUATION),
        fun h => nomatch h⟩
    · change payload.length ≤ 16 * 1024 * 1024
      omega
    · rw [SentFrame.item, Reassembly.take, if_neg (by simp [hopen])]
      rfl
  cases unfinished with
  | none =>
    have hcontrols := takes_controls parse hopen controls
    have hall := hcontrols.append (hclose hopen)
    rw [append_assoc] at hall
    exact ⟨r.pending, hall⟩
  | some m =>
    obtain ⟨hcaps, hlength⟩ := ClientMessage.Within.caps (hwithin m rfl)
    have hfirst := takes_first parse hopen hlength false
    have hrest := takes_unfinished parse
      (r := { r with pending := some (WEBSOCKET_OPCODE_TEXT, [m.first]) }) hopen rfl hcaps
    have hmessage := hfirst.cons hrest
    have hcontrols := takes_controls parse
      (r := { r with
        pending := some (WEBSOCKET_OPCODE_TEXT, [m.first] ++ m.fragments.map (·.2))
        replies := r.replies ++ fragmentReplies m.fragments }) hopen controls
    have hall := (hmessage.append hcontrols).append (hclose hopen)
    have hreplies : r.replies ++ fragmentReplies m.fragments ++ controls.flatMap (·.replies) ++
        [controlFrame WEBSOCKET_OPCODE_CLOSE []] =
        r.replies ++ ClientEnding.replies ⟨some m, controls, payload, short⟩ := by
      simp [ClientEnding.replies, ClientMessage.controlReplies, fragmentReplies]
    rw [hreplies] at hall
    exact ⟨_, hall⟩

/-- **The reference decoder takes from a conforming stream** its texts and the
    answers to it, within the caps. -/
theorem reference_sends {c : ClientStream} (hwithin : c.Within) {bytes : List UInt8}
    (hsends : c.Sends bytes) :
    (∃ pending, reference parse bytes = ⟨pending, c.texts, c.replies parse, c.ending.isSome⟩) ∧
      Reassembly.init.UnderCapsAll parse (wireFramer.frames bytes) := by
  obtain ⟨pending, htakes⟩ : ∃ pending, Takes parse .init c.frames
      ⟨pending, c.texts, c.replies parse, c.ending.isSome⟩ := by
    obtain ⟨items, ending⟩ := c
    have hitems := takes_items parse (r := .init) rfl rfl hwithin.1
    cases ending with
    | none =>
      refine ⟨none, ?_⟩
      have hframes : ClientStream.frames ⟨items, none⟩ = items.flatMap (·.frames) :=
        append_nil _
      have hreplies : ClientStream.replies parse ⟨items, none⟩ = items.flatMap (·.replies parse) :=
        append_nil _
      rw [hframes, hreplies]
      exact hitems
    | some ending =>
      obtain ⟨pending, hending⟩ := takes_ending parse
        (r := { Reassembly.init with
          texts := Reassembly.init.texts ++ items.filterMap (·.text?)
          replies := Reassembly.init.replies ++ items.flatMap (·.replies parse) })
        rfl (hwithin.2 ending rfl)
      exact ⟨pending, hitems.append hending⟩
  obtain ⟨keyed, hkeyed, rfl⟩ := hsends
  have hnext : ∀ f ∈ keyed, ∀ r, wireFramer.next (f.1.encode f.2 ++ r) = some (f.1.item, r) :=
    fun f hf r => nextFrame_encode
      (htakes.sendable f.1 (hkeyed ▸ mem_map_of_mem hf)) f.2 r
  obtain ⟨hframes, -⟩ := Framer.frames_flatMap hnext rfl
  have hitems : wireFramer.frames (keyed.flatMap fun f => f.1.encode f.2) =
      c.frames.map (·.item) := by
    rw [hframes, ← hkeyed, map_map]
    rfl
  rw [reference, hitems]
  exact ⟨⟨pending, htakes.result⟩, htakes.caps⟩

end

end Velocious
