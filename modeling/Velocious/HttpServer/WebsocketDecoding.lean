/-
  A websocket session follows the reference decoder.
-/
import Velocious.HttpServer.WebsocketBuffer
import Velocious.HttpServer.WebsocketStreams

namespace Velocious

open Foundation List

namespace InboundState

variable {μ : Type}

/-! ## What a session has done -/

def outputs (s : InboundState μ) : List (List UInt8) :=
  s.events.filterMap fun
    | .output frame => some frame
    | .dispatch _ => none

/-- The messages it has handed to its handlers. -/
def dispatched (s : InboundState μ) : List μ :=
  s.events.filterMap fun
    | .output _ => none
    | .dispatch message => some message

def chained (chain : List (ChainEntry μ)) : List (InboundMessageWork μ) :=
  chain.filterMap fun
    | .work work => some work
    | .drain => none

/-- The messages whose turn has yet to come. -/
def waiting (s : InboundState μ) : List (InboundMessageWork μ) :=
  s.messageQueue ++ chained s.messageChain

/-- The messages that are admitted and not released. -/
def outstanding (s : InboundState μ) : List (InboundMessageWork μ) :=
  s.running.toList ++ s.waiting

/-- There is room for these texts in the backlog. -/
def Room (limits : InboundQueueLimits) (s : InboundState μ) (texts : List (List UInt8)) : Prop :=
  s.inboundPendingMessages + texts.length ≤ limits.maxMessages ∧
    s.inboundPendingBytes + (texts.map List.length).sum ≤ limits.maxBytes

section
variable {s : InboundState μ} {frame : List UInt8} {work : InboundMessageWork μ}

@[simp] theorem outputs_emitOutput : (s.emitOutput frame).outputs = s.outputs ++ [frame] := by
  simp [outputs, emitOutput]

@[simp] theorem dispatched_emitOutput : (s.emitOutput frame).dispatched = s.dispatched := by
  simp [dispatched, emitOutput]

@[simp] theorem chained_append (chain chain' : List (ChainEntry μ)) :
    chained (chain ++ chain') = chained chain ++ chained chain' := filterMap_append

@[simp] theorem chained_map_work (works : List (InboundMessageWork μ)) :
    chained (works.map .work) = works := by
  rw [chained, filterMap_map]
  exact filterMap_some

end

end InboundState

namespace InboundState

section
variable {μ : Type} (parse : List UInt8 → Option μ)

/-- An open session has what the reference decoder has. -/
structure Follows (s : InboundState μ) (r : Reassembly) : Prop where
  isOpen : s.inboundClosed = false
  notClosed : r.closed = false
  payloads : s.fragmentedPayloads = r.pending.map (·.2)
  opcode : s.fragmentedOpcode = r.pending.map (·.1)
  bytes : s.fragmentedBytes = r.pending.elim 0 fun p => p.2.flatten.length
  replies : s.outputs = r.replies
  messages : s.dispatched ++ s.waiting.map (·.message) = r.texts.filterMap parse
  pendingMessages : s.inboundPendingMessages = s.outstanding.length
  pendingBytes : s.inboundPendingBytes = (s.outstanding.map (·.byteLength)).sum
  queue : s.pendingMessageHandler = false → s.messageQueue = []

/-- What becomes of a session: it still follows the reference decoder, which has
    these new texts; or both are closed; or a limit was exceeded and it is closed. -/
inductive Outcome (limits : InboundQueueLimits) (s s' : InboundState μ) (r' : Reassembly)
    (texts : List (List UInt8)) (caps : Prop) : Prop where
  | follows (h : Follows parse s' r')
      (messages : s'.inboundPendingMessages ≤ s.inboundPendingMessages + texts.length)
      (bytes : s'.inboundPendingBytes ≤ s.inboundPendingBytes + (texts.map List.length).sum)
  | ended (closed : s'.inboundClosed = true) (h : r'.closed = true)
      (replies : s'.outputs = r'.replies)
  | exceeded (closed : s'.inboundClosed = true) (h : ¬ (caps ∧ s.Room limits texts))

variable {parse} {limits : InboundQueueLimits} {s : InboundState μ} {r : Reassembly}

section
variable (hs : Follows parse s r)
include hs

theorem Follows.emit (frame : List UInt8) :
    Follows parse (s.emitOutput frame) { r with replies := r.replies ++ [frame] } where
  __ := hs
  replies := outputs_emitOutput.trans (congrArg (· ++ [frame]) hs.replies)
  messages := (congrArg (· ++ s.waiting.map (·.message)) dispatched_emitOutput).trans hs.messages

theorem Follows.setPending (pending : Option (UInt8 × List (List UInt8))) :
    Follows parse
      { s with
        fragmentedPayloads := pending.map (·.2), fragmentedOpcode := pending.map (·.1)
        fragmentedBytes := pending.elim 0 fun p => p.2.flatten.length }
      { r with pending } :=
  ⟨hs.isOpen, hs.notClosed, rfl, rfl, rfl, hs.replies, hs.messages, hs.pendingMessages,
    hs.pendingBytes, hs.queue⟩

theorem Follows.reset :
    Follows parse s.resetFragmentBuffer { r with pending := none } := hs.setPending none

theorem Follows.work {payload : List UInt8} {message : μ}
    (hparse : parse payload = some message) :
    Follows parse
      ({ s with
        inboundPendingMessages := s.inboundPendingMessages + 1
        inboundPendingBytes := s.inboundPendingBytes + payload.length }.handleMessageWork
          ⟨payload.length, message⟩)
      { r with texts := r.texts ++ [payload] } := by
  have hwaiting : ({ s with
      inboundPendingMessages := s.inboundPendingMessages + 1
      inboundPendingBytes := s.inboundPendingBytes + payload.length }.handleMessageWork
        ⟨payload.length, message⟩).waiting = s.waiting ++ [⟨payload.length, message⟩] := by
    simp [waiting, handleMessageWork, chained]
  refine ⟨hs.isOpen, hs.notClosed, hs.payloads, hs.opcode, hs.bytes, hs.replies, ?_, ?_, ?_,
    hs.queue⟩
  · rw [hwaiting, filterMap_append, ← hs.messages]
    simp [hparse]
    rfl
  · rw [outstanding, hwaiting, ← append_assoc, length_append]
    exact congrArg (· + 1) hs.pendingMessages
  · rw [outstanding, hwaiting, ← append_assoc, map_append, sum_append]
    exact congrArg (· + payload.length) hs.pendingBytes

end

theorem closed_handleClose (status : Option (ℕ × String)) :
    (s.sendGoodbye status).handleClose.inboundClosed = true ∧
      (s.sendGoodbye status).handleClose.dispatched = s.dispatched :=
  ⟨rfl, dispatched_emitOutput⟩

theorem release_admitted (hopen : s.inboundClosed = false) (byteLength : ℕ) :
    releaseInboundAdmission
      { s with
        inboundPendingMessages := s.inboundPendingMessages + 1
        inboundPendingBytes := s.inboundPendingBytes + byteLength } byteLength = s := by
  rw [releaseInboundAdmission, if_neg (by simp [hopen])]
  simp only [Nat.add_sub_cancel]

variable (limits) in
theorem Follows.handleData (hs : Follows parse s r) (hpending : r.pending = none) (opcode : UInt8)
    (payload : List UInt8) :
    ∃ texts, (r.complete parse opcode payload).texts = r.texts ++ texts ∧
      (s.handleData parse limits opcode payload).dispatched = s.dispatched ∧
      Outcome parse limits s (s.handleData parse limits opcode payload)
        (r.complete parse opcode payload) texts True := by
  obtain ⟨pending, rtexts, replies, closed⟩ := r
  dsimp only at hpending
  subst hpending
  by_cases htext : opcode = WEBSOCKET_OPCODE_TEXT
  · refine ⟨[payload], by rw [Reassembly.complete, if_pos htext], ?_⟩
    rw [InboundState.handleData, if_neg (not_not.mpr htext), Reassembly.complete, if_pos htext,
      admitInboundMessage, if_neg (by simp [hs.isOpen])]
    by_cases hroom : limits.maxMessages < s.inboundPendingMessages + 1 ∨
        limits.maxBytes < s.inboundPendingBytes + payload.length
    · rw [if_pos hroom]
      obtain ⟨hclosed, hdispatched⟩ := closed_handleClose (s := s)
        (some (WEBSOCKET_CLOSE_POLICY_VIOLATION, WEBSOCKET_INBOUND_BACKLOG_CLOSE_REASON))
      refine ⟨hdispatched, .exceeded hclosed fun h => ?_⟩
      obtain ⟨hmessages, hbytes⟩ := h.2
      simp at hmessages hbytes
      omega
    · rw [if_neg hroom]
      simp only [Bool.not_true, Bool.false_eq_true, if_false]
      cases hparse : parse payload with
      | some message =>
        refine ⟨rfl, .follows ?_ le_rfl (by simp [handleMessageWork])⟩
        have hwork := hs.work hparse
        simpa using hwork
      | none =>
        dsimp only
        rw [release_admitted hs.isOpen]
        refine ⟨dispatched_emitOutput, .follows ?_ (Nat.le_add_right _ _) (Nat.le_add_right _ _)⟩
        have hinvalid := hs.emit invalidMessageFrame
        refine ⟨hinvalid.isOpen, hinvalid.notClosed, hinvalid.payloads, hinvalid.opcode,
          hinvalid.bytes, hinvalid.replies, ?_, hinvalid.pendingMessages, hinvalid.pendingBytes,
          hinvalid.queue⟩
        rw [hinvalid.messages, filterMap_append]
        simp [hparse]
  · refine ⟨[], by rw [Reassembly.complete, if_neg htext, append_nil], ?_⟩
    rw [InboundState.handleData, if_pos htext, Reassembly.complete, if_neg htext]
    exact ⟨rfl, .follows hs le_rfl le_rfl⟩

variable {s' : InboundState μ}

theorem Outcome.mono {s₁ : InboundState μ} {r' : Reassembly} {texts : List (List UInt8)}
    {caps : Prop} (h : Outcome parse limits s₁ s' r' texts True)
    (hmessages : s₁.inboundPendingMessages = s.inboundPendingMessages)
    (hbytes : s₁.inboundPendingBytes = s.inboundPendingBytes) :
    Outcome parse limits s s' r' texts caps := by
  cases h with
  | follows h hm hb => exact .follows h (hmessages ▸ hm) (hbytes ▸ hb)
  | ended hclosed h hreplies => exact .ended hclosed h hreplies
  | exceeded hclosed h =>
    refine .exceeded hclosed fun hroom => h ⟨trivial, ?_⟩
    rw [Room, hmessages, hbytes]
    exact hroom.2

theorem Follows.enforceFragmentLimits {opcode : UInt8} {parts : List (List UInt8)}
    (hs : Follows parse s r) (hpending : r.pending = some (opcode, parts)) :
    (s.enforceFragmentLimits = (s, true)) ∨
      (s.enforceFragmentLimits = (s.closeForInboundLimit, false) ∧
        ¬ (parts.flatten.length ≤ WEBSOCKET_MAX_FRAGMENTED_MESSAGE_BYTES ∧
          parts.length ≤ WEBSOCKET_MAX_FRAGMENTED_MESSAGE_FRAGMENTS)) := by
  have hpayloads : s.fragmentedPayloads = some parts := by rw [hs.payloads, hpending]; rfl
  have hbytes : s.fragmentedBytes = parts.flatten.length := by rw [hs.bytes, hpending]; rfl
  rw [InboundState.enforceFragmentLimits, hpayloads]
  dsimp only
  split
  · exact .inr ⟨rfl, by omega⟩
  · exact .inl rfl

variable (limits) in
theorem Follows.handleFrame (hs : Follows parse s r) (f : ClientFrame) :
    ∃ texts, (r.takeFrame parse f).texts = r.texts ++ texts ∧
      (s.handleFrame parse limits f.isFinal f.opcode f.payload).dispatched = s.dispatched ∧
      Outcome parse limits s (s.handleFrame parse limits f.isFinal f.opcode f.payload)
        (r.takeFrame parse f) texts (r.UnderCaps (.frame f)) := by
  have hkeeps : ∀ {s' : InboundState μ} {r' : Reassembly}, Follows parse s' r' →
      s'.dispatched = s.dispatched → s'.inboundPendingMessages = s.inboundPendingMessages →
      s'.inboundPendingBytes = s.inboundPendingBytes → r'.texts = r.texts →
      ∃ texts, r'.texts = r.texts ++ texts ∧ s'.dispatched = s.dispatched ∧
        Outcome parse limits s s' r' texts (r.UnderCaps (.frame f)) :=
    fun h hdispatched hmessages hbytes htexts =>
      ⟨[], by rw [htexts, append_nil], hdispatched, .follows h hmessages.le hbytes.le⟩
  rw [InboundState.handleFrame, Reassembly.takeFrame]
  by_cases hping : f.opcode = WEBSOCKET_OPCODE_PING
  · rw [if_pos hping, if_pos hping]
    exact hkeeps (hs.emit _) dispatched_emitOutput rfl rfl rfl
  rw [if_neg hping, if_neg hping]
  by_cases hclose : f.opcode = WEBSOCKET_OPCODE_CLOSE
  · rw [if_pos hclose, if_pos hclose]
    obtain ⟨hclosed, hdispatched⟩ := closed_handleClose (s := s) none
    refine ⟨[], (append_nil _).symm, hdispatched, .ended hclosed rfl ?_⟩
    exact (hs.emit _).replies
  rw [if_neg hclose, if_neg hclose]
  by_cases hcontinuation : f.opcode = WEBSOCKET_OPCODE_CONTINUATION
  · have hdata : ¬ 0x8 ≤ f.opcode := by rw [hcontinuation]; decide
    rw [if_neg hdata, if_pos hcontinuation, if_pos hcontinuation]
    cases hpending : r.pending with
    | none =>
      rw [hs.payloads, hpending]
      exact hkeeps hs rfl rfl rfl rfl
    | some p =>
      obtain ⟨opcode, parts⟩ := p
      have hpayloads : s.fragmentedPayloads = some parts := by rw [hs.payloads, hpending]; rfl
      have hopcode : s.fragmentedOpcode = some opcode := by rw [hs.opcode, hpending]; rfl
      have hbytes : s.fragmentedBytes = parts.flatten.length := by rw [hs.bytes, hpending]; rfl
      have happended := hs.setPending (some (opcode, parts ++ [f.payload]))
      have hstate : { s with
          fragmentedPayloads := s.fragmentedPayloads.map (· ++ [f.payload])
          fragmentedBytes := s.fragmentedBytes + f.payload.length } =
          { s with
            fragmentedPayloads := some (parts ++ [f.payload]), fragmentedOpcode := some opcode
            fragmentedBytes := (parts ++ [f.payload]).flatten.length } := by
        rw [hpayloads, ← hopcode, hbytes]
        simp
      rw [hpayloads]
      simp only [Option.isNone_some, Bool.false_eq_true, if_false]
      rw [appendFragment, hstate]
      obtain haccepted | ⟨hrejected, hcaps⟩ := happended.enforceFragmentLimits rfl
      · simp only [Option.map_some, Option.elim_some] at haccepted
        rw [haccepted]
        cases hfinal : f.isFinal with
        | false => exact hkeeps happended rfl rfl rfl rfl
        | true =>
          obtain ⟨texts, htexts, hdispatched, houtcome⟩ :=
            happended.reset.handleData limits rfl opcode (parts ++ [f.payload]).flatten
          exact ⟨texts, htexts, hdispatched, houtcome.mono rfl rfl⟩
      · simp only [Option.map_some, Option.elim_some] at hrejected
        rw [hrejected]
        obtain ⟨texts, htexts⟩ : ∃ texts,
            (if f.isFinal then r.complete parse opcode (parts ++ [f.payload]).flatten
              else { r with pending := some (opcode, parts ++ [f.payload]) }).texts =
              r.texts ++ texts := by
          split
          · exact Reassembly.complete_texts opcode _
          · exact ⟨[], (append_nil _).symm⟩
        refine ⟨texts, htexts, dispatched_emitOutput, .exceeded rfl fun h => hcaps ?_⟩
        exact h.1.1 hcontinuation (opcode, parts) hpending
  rw [if_neg hcontinuation, if_neg hcontinuation]
  by_cases hdata : f.opcode = WEBSOCKET_OPCODE_TEXT ∨ f.opcode = WEBSOCKET_OPCODE_BINARY
  · have hcontrol : ¬ 0x8 ≤ f.opcode := by
      obtain h | h := hdata <;> rw [h] <;> decide
    rw [if_neg hcontrol, if_pos hdata, if_pos hdata]
    obtain ⟨s₀, hs₀, hfollows, hdispatched, hmessages, hbytes⟩ : ∃ s₀ : InboundState μ,
        (if s.fragmentedPayloads.isSome then s.resetFragmentBuffer else s) = s₀ ∧
        Follows parse s₀ { r with pending := none } ∧ s₀.dispatched = s.dispatched ∧
        s₀.inboundPendingMessages = s.inboundPendingMessages ∧
        s₀.inboundPendingBytes = s.inboundPendingBytes := by
      refine ⟨_, rfl, ?_⟩
      split
      · exact ⟨hs.reset, rfl, rfl, rfl⟩
      · rename_i hnone
        have hpending : r.pending = none := by
          rw [hs.payloads] at hnone
          cases hp : r.pending with
          | none => rfl
          | some p => rw [hp] at hnone; exact absurd rfl hnone
        refine ⟨?_, rfl, rfl, rfl⟩
        rw [← hpending]
        exact hs
    rw [hs₀]
    cases hfinal : f.isFinal with
    | true =>
      obtain ⟨texts, htexts, hsame, houtcome⟩ :=
        hfollows.handleData limits rfl f.opcode f.payload
      exact ⟨texts, htexts, hsame.trans hdispatched, houtcome.mono hmessages hbytes⟩
    | false =>
      have hstarted := hfollows.setPending (some (f.opcode, [f.payload]))
      have hflatten : [f.payload].flatten.length = f.payload.length := by simp
      obtain haccepted | ⟨hrejected, hcaps⟩ := hstarted.enforceFragmentLimits rfl
      · simp only [Option.map_some, Option.elim_some, hflatten] at haccepted
        simp only [Bool.not_false, if_true, haccepted]
        simp only [Option.map_some, Option.elim_some, hflatten] at hstarted
        exact hkeeps hstarted hdispatched hmessages hbytes rfl
      · simp only [Option.map_some, Option.elim_some, hflatten] at hrejected
        simp only [Bool.not_false, if_true, hrejected]
        refine ⟨[], (append_nil _).symm, dispatched_emitOutput.trans hdispatched,
          .exceeded rfl fun h => hcaps ⟨?_, (by decide : 1 ≤ 1024)⟩⟩
        rw [hflatten]
        exact h.1.2 hfinal
  · rw [if_neg hdata, if_neg hdata, ite_self]
    exact hkeeps hs rfl rfl rfl rfl

variable (limits) in
theorem Follows.handleItem (hs : Follows parse s r) (x : WireItem) :
    ∃ texts, (r.take parse x).texts = r.texts ++ texts ∧
      (s.handleItem parse limits x).dispatched = s.dispatched ∧
      Outcome parse limits s (s.handleItem parse limits x) (r.take parse x) texts
        (r.UnderCaps x) := by
  cases x with
  | frame f =>
    have htake : r.take parse (.frame f) = r.takeFrame parse f := if_neg (by simp [hs.notClosed])
    rw [htake]
    exact hs.handleFrame limits f
  | tooLong =>
    have htake : r.take parse .tooLong = { r with closed := true } := if_neg (by simp [hs.notClosed])
    obtain ⟨hclosed, hdispatched⟩ := closed_handleClose (s := s) none
    rw [htake]
    exact ⟨[], (append_nil _).symm, hdispatched, .exceeded hclosed fun h => h.1⟩

section
variable {texts texts' : List (List UInt8)} (h : s.Room limits (texts ++ texts'))
include h

theorem Room.of_append (hmessages : s'.inboundPendingMessages ≤ s.inboundPendingMessages + texts.length)
    (hbytes : s'.inboundPendingBytes ≤ s.inboundPendingBytes + (texts.map List.length).sum) :
    s'.Room limits texts' := by
  obtain ⟨hm, hb⟩ := h
  rw [length_append] at hm
  rw [map_append, sum_append] at hb
  exact ⟨by omega, by omega⟩

theorem Room.left :
    s.Room limits texts := by
  obtain ⟨hm, hb⟩ := h
  rw [length_append] at hm
  rw [map_append, sum_append] at hb
  exact ⟨by omega, by omega⟩

end

variable (limits) in
section
variable (hs : Follows parse s r)
include hs

/-- **Frames are handled as the reference decoder takes them**, up to a close or a
    limit. -/
theorem Follows.handleItems (items : List WireItem) :
    ∃ texts, (items.foldl (Reassembly.take parse) r).texts = r.texts ++ texts ∧
      (s.handleItems parse limits items).dispatched = s.dispatched ∧
      Outcome parse limits s (s.handleItems parse limits items)
        (items.foldl (Reassembly.take parse) r) texts (r.UnderCapsAll parse items) := by
  induction items generalizing s r with
  | nil => exact ⟨[], (append_nil _).symm, rfl, .follows hs le_rfl le_rfl⟩
  | cons x items ih =>
    obtain ⟨texts, htexts, hdispatched, houtcome⟩ := hs.handleItem limits x
    rw [handleItems_cons hs.isOpen, foldl_cons]
    cases houtcome with
    | follows h hmessages hbytes =>
      obtain ⟨rest, hrest, hsame, houtcome⟩ := ih h
      refine ⟨texts ++ rest, by rw [hrest, htexts, append_assoc], hsame.trans hdispatched, ?_⟩
      cases houtcome with
      | follows h' hmessages' hbytes' =>
        refine .follows h' ?_ ?_
        · rw [length_append]
          omega
        · rw [map_append, sum_append]
          omega
      | ended hclosed h' hreplies => exact .ended hclosed h' hreplies
      | exceeded hclosed h' =>
        refine .exceeded hclosed fun hfits => h' ⟨hfits.1.2, ?_⟩
        exact hfits.2.of_append hmessages hbytes
    | ended hclosed h hreplies =>
      rw [handleItems_closed hclosed, Reassembly.foldl_take_closed h]
      exact ⟨texts, htexts, hdispatched, .ended hclosed h hreplies⟩
    | exceeded hclosed h =>
      rw [handleItems_closed hclosed]
      obtain ⟨rest, hrest⟩ := Reassembly.foldl_take_texts parse
        (r := r.take parse x) items
      refine ⟨texts ++ rest, by rw [hrest, htexts, append_assoc], hdispatched,
        .exceeded hclosed fun hfits => h ⟨hfits.1.1, hfits.2.left⟩⟩

theorem Follows.runChain (h : s.runChain = some s') : Follows parse s' r := by
  unfold InboundState.runChain at h
  split at h
  · rename_i work chain hrunning hchain
    have hwaiting : s.waiting = s.messageQueue ++ work :: chained chain := by
      rw [waiting, hchain]
      rfl
    have hmessages := hs.messages
    have hpending := hs.pendingMessages
    have hbytes := hs.pendingBytes
    rw [hwaiting] at hmessages
    rw [outstanding, hrunning, hwaiting] at hpending hbytes
    rw [if_neg (by simp [hs.isOpen])] at h
    split at h
    · rename_i hhandler
      cases h
      have hqueued : (s.messageQueue ++ [work]) ++ chained chain =
          s.messageQueue ++ work :: chained chain := by simp
      refine ⟨hs.isOpen, hs.notClosed, hs.payloads, hs.opcode, hs.bytes, hs.replies, ?_, ?_, ?_,
        fun hno => absurd hhandler (by simp [show s.pendingMessageHandler = false from hno])⟩
      · rw [waiting, hqueued]
        exact hmessages
      · rw [outstanding, waiting]
        simpa [hrunning] using hpending
      · rw [outstanding, waiting]
        simpa [hrunning] using hbytes
    · rename_i hhandler
      cases h
      have hqueue := hs.queue (Bool.eq_false_iff.mpr hhandler)
      rw [hqueue] at hmessages hpending hbytes
      refine ⟨hs.isOpen, hs.notClosed, hs.payloads, hs.opcode, hs.bytes, ?_, ?_, ?_, ?_, hs.queue⟩
      · rw [← hs.replies]
        simp [outputs]
      · rw [← hmessages]
        simp [dispatched, waiting, hqueue]
      · rw [hqueue]
        exact hpending
      · rw [hqueue]
        exact hbytes
  · rename_i chain hrunning hchain
    cases h
    have hwaiting : s.waiting = s.messageQueue ++ chained chain := by
      rw [waiting, hchain]
      rfl
    have hmessages := hs.messages
    have hpending := hs.pendingMessages
    have hbytes := hs.pendingBytes
    rw [hwaiting] at hmessages
    rw [outstanding, hwaiting] at hpending hbytes
    have hdrained : chained (s.messageQueue.map .work ++ chain) =
        s.messageQueue ++ chained chain := by
      rw [chained_append, chained_map_work]
    rw [if_neg (by simp [hs.isOpen])]
    refine ⟨hs.isOpen, hs.notClosed, hs.payloads, hs.opcode, hs.bytes, hs.replies, ?_, ?_, ?_,
      fun _ => rfl⟩
    · rw [waiting, hdrained]
      exact hmessages
    · rw [outstanding, waiting]
      simpa [hrunning] using hpending
    · rw [outstanding, waiting]
      simpa [hrunning] using hbytes
  · cases h

theorem Follows.settle (h : s.settle = some s') : Follows parse s' r := by
  obtain ⟨work, hrunning, rfl⟩ := Option.map_eq_some_iff.mp h
  have hpending := hs.pendingMessages
  have hbytes := hs.pendingBytes
  rw [outstanding, hrunning] at hpending hbytes
  rw [releaseInboundAdmission, if_neg (by simp [hs.isOpen])]
  refine ⟨hs.isOpen, hs.notClosed, hs.payloads, hs.opcode, hs.bytes, hs.replies, hs.messages, ?_,
    ?_, hs.queue⟩
  · rw [outstanding]
    simp [waiting] at hpending ⊢
    omega
  · rw [outstanding]
    simp [waiting] at hbytes ⊢
    omega

theorem Follows.resolve (h : s.resolve = some s') :
    Follows parse s' r := by
  unfold InboundState.resolve at h
  split at h
  · cases h
    have hchain : chained (s.messageChain ++ [.drain]) = chained s.messageChain := by
      rw [chained_append]
      exact append_nil _
    refine ⟨hs.isOpen, hs.notClosed, hs.payloads, hs.opcode, hs.bytes, hs.replies, ?_, ?_, ?_,
      hs.queue⟩
    · rw [waiting, hchain]
      exact hs.messages
    · rw [outstanding, waiting, hchain]
      exact hs.pendingMessages
    · rw [outstanding, waiting, hchain]
      exact hs.pendingBytes
  · cases h

end

section
variable (hclosed : s.inboundClosed = true)
include hclosed

theorem runChain_closed (h : s.runChain = some s') : s'.inboundClosed = true ∧ s'.events = s.events := by
  unfold InboundState.runChain at h
  split at h
  · rw [if_pos hclosed] at h
    cases h
    rw [releaseInboundAdmission, if_pos hclosed]
    exact ⟨hclosed, rfl⟩
  · cases h
    exact ⟨hclosed, rfl⟩
  · cases h

theorem settle_closed (h : s.settle = some s') : s'.inboundClosed = true ∧ s'.events = s.events := by
  obtain ⟨work, -, rfl⟩ := Option.map_eq_some_iff.mp h
  rw [releaseInboundAdmission, if_pos hclosed]
  exact ⟨hclosed, rfl⟩

theorem resolve_closed (h : s.resolve = some s') : s'.inboundClosed = true ∧ s'.events = s.events := by
  unfold InboundState.resolve at h
  split at h
  · cases h
    exact ⟨hclosed, rfl⟩
  · cases h

end

end

end InboundState

/-! ## Runs -/

section
variable {μ : Type} (parse : List UInt8 → Option μ) (limits : InboundQueueLimits)

/-- What arrives is of these bytes, and there is room in the backlog for the messages
    that it completes. -/
def FrameSession.Receives (bytes : List UInt8) (w : FrameSession μ) : SessionAction → Prop
  | .data chunk => w.received ++ chunk <+: bytes ∧
      w.inbound.Room limits ((reference parse (w.received ++ chunk)).texts.drop
        (reference parse w.received).texts.length)
  | .turn | .settle | .resolve => True

variable {parse limits}

theorem reference_append (bytes chunk : List UInt8) :
    reference parse (bytes ++ chunk) =
      (wireFramer.frames (wireFramer.rest bytes ++ chunk)).foldl (Reassembly.take parse)
        (reference parse bytes) := by
  rw [reference, Reassembly.run, (Framer.frames_append bytes chunk).1, foldl_append]
  rfl

theorem texts_gained (bytes chunk : List UInt8) :
    (reference parse bytes).texts.filterMap parse <+:
      (reference parse (bytes ++ chunk)).texts.filterMap parse := by
  obtain ⟨texts, htexts⟩ := Reassembly.foldl_take_texts parse
    (r := reference parse bytes) (wireFramer.frames (wireFramer.rest bytes ++ chunk))
  rw [reference_append, htexts, filterMap_append]
  exact prefix_append _ _

namespace FrameSession

variable {w w' : FrameSession μ}

theorem Buffers.congr {bytes : List UInt8} (h : w.Buffers bytes) (hbuffer : w'.buffer = w.buffer)
    (hclosed : w'.inbound.inboundClosed = w.inbound.inboundClosed) : w'.Buffers bytes := by
  unfold Buffers at h ⊢
  rw [hbuffer, hclosed]
  exact h

theorem Buffers.of_closed {bytes bytes' : List UInt8} (h : w.Buffers bytes)
    (hclosed : w.inbound.inboundClosed = true) : w.Buffers bytes' := by
  unfold Buffers at h ⊢
  rw [if_pos hclosed] at h ⊢
  exact h

variable (limits) in
theorem onData_outcome (hbuffers : w.Buffers (wireFramer.rest w.received))
    (hw : w.inbound.Follows parse (reference parse w.received)) (chunk : List UInt8) :
    ∃ texts, (reference parse (w.received ++ chunk)).texts =
        (reference parse w.received).texts ++ texts ∧
      (w.onData parse limits chunk).received = w.received ++ chunk ∧
      (w.onData parse limits chunk).Buffers (wireFramer.rest (w.received ++ chunk)) ∧
      (w.onData parse limits chunk).inbound.dispatched = w.inbound.dispatched ∧
      InboundState.Outcome parse limits w.inbound (w.onData parse limits chunk).inbound
        (reference parse (w.received ++ chunk)) texts
        ((reference parse w.received).UnderCapsAll parse
          (wireFramer.frames (wireFramer.rest w.received ++ chunk))) := by
  have hhandles := onData_spec parse limits chunk hbuffers
    (Framer.next_rest (f := wireFramer) w.received) hw.isOpen
  obtain ⟨texts, htexts, hdispatched, houtcome⟩ := hw.handleItems limits
    (wireFramer.frames (wireFramer.rest w.received ++ chunk))
  have hbytes := hhandles.buffers
  rw [← (Framer.frames_append w.received chunk).2] at hbytes
  rw [← reference_append] at htexts houtcome
  rw [hhandles.inbound]
  exact ⟨texts, htexts, hhandles.received, hbytes, hdispatched, houtcome⟩

/-- A session has dispatched what the reference decoder yields, or a part of it. -/
structure Ok (parse : List UInt8 → Option μ) (w : FrameSession μ) : Prop where
  buffers : w.Buffers (wireFramer.rest w.received)
  inbound : w.inbound.Follows parse (reference parse w.received) ∨
    (w.inbound.inboundClosed = true ∧
      w.inbound.dispatched <+: (reference parse w.received).texts.filterMap parse)

theorem follows_init (resolving : Bool) :
    (InboundState.init resolving : InboundState μ).Follows parse (reference parse []) :=
  ⟨rfl, rfl, rfl, rfl, rfl, rfl, rfl, rfl, rfl, fun _ => rfl⟩

theorem ok_init (resolving : Bool) : Ok parse (init resolving : FrameSession μ) where
  buffers := ⟨FrameBuffer.ok_empty, rfl⟩
  inbound := .inl (follows_init resolving)

theorem step_inbound {action : SessionAction} (h : w.step parse limits action = some w') :
    (∃ chunk, action = .data chunk ∧ w' = w.onData parse limits chunk) ∨
    (w'.buffer = w.buffer ∧ w'.received = w.received ∧
      (∀ r, w.inbound.Follows parse r → w'.inbound.Follows parse r) ∧
      (w.inbound.inboundClosed = true →
        w'.inbound.inboundClosed = true ∧ w'.inbound.events = w.inbound.events)) := by
  cases action with
  | data chunk => exact .inl ⟨chunk, rfl, (Option.some.inj h).symm⟩
  | turn =>
    obtain ⟨inbound, hinbound, rfl⟩ := Option.map_eq_some_iff.mp h
    exact .inr ⟨rfl, rfl, fun _ hs => hs.runChain hinbound,
      fun hclosed => InboundState.runChain_closed hclosed hinbound⟩
  | settle =>
    obtain ⟨inbound, hinbound, rfl⟩ := Option.map_eq_some_iff.mp h
    exact .inr ⟨rfl, rfl, fun _ hs => hs.settle hinbound,
      fun hclosed => InboundState.settle_closed hclosed hinbound⟩
  | resolve =>
    obtain ⟨inbound, hinbound, rfl⟩ := Option.map_eq_some_iff.mp h
    exact .inr ⟨rfl, rfl, fun _ hs => hs.resolve hinbound,
      fun hclosed => InboundState.resolve_closed hclosed hinbound⟩

theorem onData_closed (hclosed : w.inbound.inboundClosed = true) (chunk : List UInt8) :
    w.onData parse limits chunk = { w with received := w.received ++ chunk } := by
  simp only [onData, hclosed, Bool.true_or, if_true]

theorem Ok.step (hw : Ok parse w) {action : SessionAction}
    (h : w.step parse limits action = some w') : Ok parse w' := by
  obtain ⟨chunk, rfl, rfl⟩ | ⟨hbuffer, hreceived, hfollows, hclosed⟩ := step_inbound h
  · obtain hopen | ⟨hclosed, hpart⟩ := hw.inbound
    · obtain ⟨texts, htexts, hreceived, hbuffers, hdispatched, houtcome⟩ :=
        onData_outcome limits hw.buffers hopen chunk
      have hpart : (w.onData parse limits chunk).inbound.dispatched <+:
          (reference parse (w.received ++ chunk)).texts.filterMap parse := by
        refine .trans ?_ (texts_gained w.received chunk)
        rw [hdispatched, ← hopen.messages]
        exact prefix_append _ _
      refine ⟨hreceived ▸ hbuffers, ?_⟩
      rw [hreceived]
      cases houtcome with
      | follows h _ _ => exact .inl h
      | ended hclosed _ _ => exact .inr ⟨hclosed, hpart⟩
      | exceeded hclosed _ => exact .inr ⟨hclosed, hpart⟩
    · rw [onData_closed hclosed]
      exact ⟨hw.buffers.of_closed hclosed,
        .inr ⟨hclosed, hpart.trans (texts_gained w.received chunk)⟩⟩
  · obtain hopen | ⟨hbefore, hpart⟩ := hw.inbound
    · have hopen' := hfollows _ hopen
      refine ⟨?_, .inl (hreceived ▸ hopen')⟩
      rw [hreceived]
      exact hw.buffers.congr hbuffer (hopen'.isOpen.trans hopen.isOpen.symm)
    · obtain ⟨hafter, hevents⟩ := hclosed hbefore
      rw [InboundState.dispatched, ← hevents, ← hreceived] at hpart
      exact ⟨(hw.buffers.congr hbuffer (hafter.trans hbefore.symm)).of_closed hafter,
        .inr ⟨hafter, hpart⟩⟩

/-- A session that is given what fits has done all that the reference decoder does. -/
structure Exact (parse : List UInt8 → Option μ) (w : FrameSession μ) : Prop where
  buffers : w.Buffers (wireFramer.rest w.received)
  inbound : w.inbound.Follows parse (reference parse w.received) ∨
    (w.inbound.inboundClosed = true ∧ (reference parse w.received).closed = true ∧
      w.inbound.outputs = (reference parse w.received).replies)

theorem exact_init (resolving : Bool) : Exact parse (init resolving : FrameSession μ) where
  buffers := ⟨FrameBuffer.ok_empty, rfl⟩
  inbound := .inl (follows_init resolving)

theorem Exact.step (hw : Exact parse w) {bytes : List UInt8} {action : SessionAction}
    (hcaps : Reassembly.init.UnderCapsAll parse (wireFramer.frames bytes))
    (hok : w.Receives parse limits bytes action) (h : w.step parse limits action = some w') :
    Exact parse w' := by
  obtain ⟨chunk, rfl, rfl⟩ | ⟨hbuffer, hreceived, hfollows, hclosed⟩ := step_inbound h
  · obtain ⟨⟨later, hlater⟩, hroom⟩ := hok
    obtain hopen | ⟨hclosed, hreference, hreplies⟩ := hw.inbound
    · obtain ⟨texts, htexts, hreceived, hbuffers, hdispatched, houtcome⟩ :=
        onData_outcome limits hw.buffers hopen chunk
      rw [htexts, drop_left] at hroom
      have hfits : (reference parse w.received).UnderCapsAll parse
          (wireFramer.frames (wireFramer.rest w.received ++ chunk)) := by
        rw [← hlater, (Framer.frames_append (w.received ++ chunk) later).1,
          (Framer.frames_append w.received chunk).1, append_assoc,
          Reassembly.underCapsAll_append, Reassembly.underCapsAll_append] at hcaps
        exact hcaps.2.1
      refine ⟨hreceived ▸ hbuffers, ?_⟩
      rw [hreceived]
      cases houtcome with
      | follows h _ _ => exact .inl h
      | ended hclosed h hreplies => exact .inr ⟨hclosed, h, hreplies⟩
      | exceeded _ h => exact absurd ⟨hfits, hroom⟩ h
    · have hsame : reference parse (w.received ++ chunk) = reference parse w.received := by
        rw [reference_append, Reassembly.foldl_take_closed hreference]
      rw [onData_closed hclosed]
      exact ⟨hw.buffers.of_closed hclosed,
        .inr ⟨hclosed, hsame ▸ hreference, hsame ▸ hreplies⟩⟩
  · obtain hopen | ⟨hbefore, hreference, hreplies⟩ := hw.inbound
    · have hopen' := hfollows _ hopen
      refine ⟨?_, .inl (hreceived ▸ hopen')⟩
      rw [hreceived]
      exact hw.buffers.congr hbuffer (hopen'.isOpen.trans hopen.isOpen.symm)
    · obtain ⟨hafter, hevents⟩ := hclosed hbefore
      rw [InboundState.outputs, ← hevents] at hreplies
      exact ⟨(hw.buffers.congr hbuffer (hafter.trans hbefore.symm)).of_closed hafter,
        .inr ⟨hafter, hreceived ▸ hreference, hreplies.trans (by rw [hreceived])⟩⟩

/-- **Decoding follows the reference.** In every run, what a session has dispatched is
    what the reference decoder yields, in order, or a part of it; what it was given
    it has consumed, up to a frame that is not whole, unless it is closed. Of a
    stream that conforms it takes every text message in order and answers it as
    it should, each ping with a pong of the same payload, until the client closes. -/
theorem decoding_follows_reference {resolving : Bool} {actions : List SessionAction}
    {w : FrameSession μ}
    (hrun : runActions (FrameSession.step parse limits) (init resolving) actions = some w) :
    w.inbound.dispatched <+: (reference parse w.received).texts.filterMap parse ∧
    (w.inbound.inboundClosed = true ∨
      (w.inbound.dispatched ++ w.inbound.waiting.map (·.message) =
          (reference parse w.received).texts.filterMap parse ∧
        w.inbound.outputs = (reference parse w.received).replies ∧
        w.buffer.stream = wireFramer.rest w.received ∧ nextFrame w.buffer.stream = none)) ∧
    (∀ c : ClientStream, c.Within → c.Sends w.received →
      Along (FrameSession.step parse limits) (Receives parse limits w.received) (init resolving)
        actions →
      w.inbound.outputs = c.replies parse ∧ w.inbound.inboundClosed = c.ending.isSome ∧
      w.inbound.dispatched <+: c.texts.filterMap parse ∧
      (c.ending = none → w.inbound.dispatched ++ w.inbound.waiting.map (·.message) =
        c.texts.filterMap parse)) ∧
    ∀ ping : ClientControl, nextFrame (controlFrame WEBSOCKET_OPCODE_PONG ping.payload) =
      some (.frame ⟨true, 0, WEBSOCKET_OPCODE_PONG, false, 0, ping.payload⟩, []) := by
  have hw : Ok parse w := runActions_invariant (I := Ok parse)
    (fun _ _ _ hs _ h => hs.step h) actions (ok_init resolving) (along_true _ _) hrun
  have hpart : w.inbound.dispatched <+: (reference parse w.received).texts.filterMap parse := by
    obtain hopen | ⟨-, hpart⟩ := hw.inbound
    · rw [← hopen.messages]
      exact prefix_append _ _
    · exact hpart
  refine ⟨hpart, ?_, fun c hwithin hsends halong => ?_, nextFrame_pong⟩
  · obtain hopen | ⟨hclosed, -⟩ := hw.inbound
    · have hstream := hw.buffers
      rw [Buffers, if_neg (by simp [hopen.isOpen])] at hstream
      refine .inr ⟨hopen.messages, hopen.replies, hstream.2, ?_⟩
      rw [hstream.2]
      exact Framer.next_rest (f := wireFramer) w.received
    · exact .inl hclosed
  · obtain ⟨⟨pending, hreference⟩, hcaps⟩ := reference_sends parse hwithin hsends
    have hexact : Exact parse w := runActions_invariant (I := Exact parse)
      (fun _ _ _ hs hok h => hs.step hcaps hok h) actions (exact_init resolving) halong hrun
    rw [hreference] at hpart
    obtain hopen | ⟨hclosed, hended, hreplies⟩ := hexact.inbound
    · rw [hreference] at hopen
      have hnotEnded : c.ending.isSome = false := hopen.notClosed
      exact ⟨hopen.replies, hopen.isOpen.trans hnotEnded.symm, hpart, fun _ => hopen.messages⟩
    · rw [hreference] at hended hreplies
      have hsome : c.ending.isSome = true := hended
      refine ⟨hreplies, hclosed.trans hsome.symm, hpart, fun hnone => ?_⟩
      rw [hnone] at hsome
      cases hsome

end FrameSession

end

/-! ## A pair of braces -/

/-- A decoder that knows one message. -/
def parseBraces (bytes : List UInt8) : Option Unit := if bytes = [0x7B, 0x7D] then some () else none

def someLimits : InboundQueueLimits := ⟨8, 1024⟩

def zeroKey : MaskingKey := ⟨[0, 0, 0, 0], rfl⟩

/-- The message in two fragments, with a ping between them. -/
def bracesStream : ClientStream :=
  ⟨[.message ⟨[0x7B], [([⟨true, [], by decide⟩], [0x7D])]⟩], none⟩

def bracesBytes : List UInt8 :=
  [0x01, 0x81, 0, 0, 0, 0, 0x7B, 0x89, 0x80, 0, 0, 0, 0, 0x80, 0x81, 0, 0, 0, 0, 0x7D]

/-- It arrives cut within the first mask. -/
def bracesArrive : List SessionAction :=
  [.data (bracesBytes.take 4), .data (bracesBytes.drop 4), .turn]

theorem bracesStream_sends : bracesStream.Sends bracesBytes :=
  ⟨bracesStream.frames.map (·, zeroKey), rfl, rfl⟩

theorem bracesArrive_receives :
    Along (FrameSession.step parseBraces someLimits)
      (FrameSession.Receives parseBraces someLimits bracesBytes) (.init false) bracesArrive :=
  ⟨⟨⟨bracesBytes.drop 4, rfl⟩, by decide, by decide⟩, ⟨⟨[], rfl⟩, by decide, by decide⟩, trivial,
    trivial⟩

theorem bracesStream_within : bracesStream.Within := by
  refine ⟨fun item h => ?_, fun _ h => absurd h (Option.not_mem_none _)⟩
  rw [mem_singleton.mp h]
  exact ⟨by decide, by decide⟩

theorem decoding_follows_reference_braces :
    ∃ w, runActions (FrameSession.step parseBraces someLimits) (.init false) bracesArrive = some w ∧
      w.inbound.dispatched = [()] ∧
      w.inbound.outputs = [[0x8A, 0]] ∧
      w.inbound.dispatched <+:
        (reference parseBraces w.received).texts.filterMap parseBraces ∧
      w.inbound.outputs = bracesStream.replies parseBraces := by
  obtain ⟨w, hrun, hreceived, hdispatched, houtputs⟩ : ∃ w,
      runActions (FrameSession.step parseBraces someLimits) (.init false) bracesArrive = some w ∧
        w.received = bracesBytes ∧ w.inbound.dispatched = [()] ∧
        w.inbound.outputs = [[0x8A, 0]] := ⟨_, rfl, rfl, rfl, rfl⟩
  obtain ⟨hpart, -, hstream, -⟩ := FrameSession.decoding_follows_reference hrun
  rw [hreceived] at hstream
  exact ⟨w, hrun, hdispatched, houtputs, hpart,
    (hstream bracesStream bracesStream_within bracesStream_sends bracesArrive_receives).1⟩

/-- **An unmasked frame is dispatched.** A strict decoder refuses it; and a message
    that a close follows at once is not dispatched, though it was sent. -/
theorem unmasked_frame_dispatched :
    (∃ w, runActions (FrameSession.step parseBraces someLimits) (.init false)
        [.data [0x81, 0x02, 0x7B, 0x7D], .turn] = some w ∧
      w.inbound.dispatched = [()] ∧
      (strictReference parseBraces [0x81, 0x02, 0x7B, 0x7D]).texts = []) ∧
    ∃ w, runActions (FrameSession.step parseBraces someLimits) (.init false)
        [.data [0x81, 0x82, 0, 0, 0, 0, 0x7B, 0x7D, 0x88, 0x80, 0, 0, 0, 0], .turn] = some w ∧
      w.inbound.dispatched = [] ∧
      (strictReference parseBraces
        [0x81, 0x82, 0, 0, 0, 0, 0x7B, 0x7D, 0x88, 0x80, 0, 0, 0, 0]).texts = [[0x7B, 0x7D]] :=
  ⟨⟨_, rfl, rfl, rfl⟩, _, rfl, rfl, rfl⟩

end Velocious
