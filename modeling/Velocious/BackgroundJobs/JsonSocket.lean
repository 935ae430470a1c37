/-
  Framing of JSON messages on a socket (src/background-jobs/json-socket.js).

  * A chunk is appended to the buffer, and `drain` takes whole lines off it. The message listener
    runs within the loop: it may hand the next chunk to `_onData`, and may throw.
  * What is emitted is what the whole text says line by line, wherever it is split: `drain_spec`, and
    `framing` for the text of messages that were sent.
-/
import Velocious.Foundation.Lines
import Velocious.Utils.StableJsonCanonical

namespace Velocious.JsonSocket

open Foundation Foundation.JsValue StableJson List

/-- Why a line fails. -/
inductive Fault where
  | unparsable (line : List Char)
  | listener

/-- What is emitted. -/
inductive Event where
  | message (message : JsValue)
  | error (fault : Fault)

/-- What a message listener does: it may receive the next chunk, any number of times, and returns or
throws. -/
inductive Reaction where
  | returns
  | throws
  | reenters (next : List Event → Reaction)

/-- A listener knows what was emitted so far. -/
abbrev Listener := List Event → JsValue → Reaction

/-- A socket, with the chunks that are still to be received. -/
structure Socket where
  buffer : List Char
  events : List Event
  pending : List (List Char)

def Socket.emit (s : Socket) (event : Event) : Socket := { s with events := s.events ++ [event] }

/-- The next chunk, `this.buffer += chunk`. -/
def Socket.takeChunk (s : Socket) : Option Socket :=
  match s.pending with
  | [] => none
  | chunk :: pending => some { s with buffer := s.buffer ++ chunk, pending }

def Socket.size (s : Socket) : ℕ :=
  s.buffer.length + (s.pending.map fun chunk => chunk.length + 1).sum

/-- A call of the listener, and whether it throws. -/
def react (onData : Socket → Option Socket) : Reaction → Socket → Option (Socket × Bool)
  | .returns, s => some (s, false)
  | .throws, s => some (s, true)
  | .reenters next, s =>
    match s.takeChunk with
    | none => react onData (next s.events) s
    | some s => (onData s).bind fun s => react onData (next s.events) s

section
variable (parse : List Char → Option JsValue) (listener : Listener)

/-- The loop of `_onData`. -/
def drain : ℕ → Socket → Option Socket
  | 0, _ => none
  | n + 1, s =>
    match nextLine s.buffer with
    | none => some s
    | some (line, rest) =>
      let line := trimChars line
      let s := { s with buffer := rest }
      if line = [] then drain n s
      else
        match parse line with
        | none => drain n (s.emit (.error (.unparsable line)))
        | some message =>
          let s := s.emit (.message message)
          (react (drain n) (listener s.events message) s).bind fun (s, threw) =>
            drain n (if threw then s.emit (.error .listener) else s)

/-- `_onData`, of at most so many chunks. -/
def receiveChunks : ℕ → Socket → Option Socket
  | 0, s => some s
  | n + 1, s =>
    match s.takeChunk with
    | none => some s
    | some s => (drain parse listener (s.size + 1) s).bind (receiveChunks n)

def receive (chunks : List (List Char)) : Option Socket :=
  receiveChunks parse listener chunks.length ⟨[], [], chunks⟩

/-! ## What a text says -/

/-- What a line says; one that is blank says nothing. -/
def lineEvent (line : List Char) : Option Event :=
  let line := trimChars line
  if line = [] then none
  else some ((parse line).elim (.error (.unparsable line)) .message)

def textEvents (text : List Char) : List Event :=
  (lineFramer.frames text).filterMap (lineEvent parse)

end

/-- An error of the listener's own. -/
def Event.isListenerFault : Event → Bool
  | .error .listener => true
  | .error (.unparsable _) | .message _ => false

/-- The events without the listener's own errors. -/
def Socket.told (s : Socket) : List Event := s.events.filter fun event => !event.isListenerFault

/-- A listener that does not throw. -/
inductive Reaction.Calm : Reaction → Prop
  | returns : Calm .returns
  | reenters {next} : (∀ events, (next events).Calm) → Calm (.reenters next)

section
variable {parse : List Char → Option JsValue} {listener : Listener} {s s' s'' : Socket}

theorem told_emit_fault : (s.emit (.error .listener)).told = s.told := by
  simp [Socket.told, Socket.emit, Event.isListenerFault]

theorem textEvents_line {line rest : List Char} {b : List Char} (h : nextLine b = some (line, rest))
    (c : List Char) :
    textEvents parse (b ++ c) = (lineEvent parse line).toList ++ textEvents parse (rest ++ c) := by
  have hnext : lineFramer.next (b ++ c) = some (line, rest ++ c) := lineFramer.extend c h
  rw [textEvents, Framer.frames_of_some hnext, filterMap_cons]
  cases lineEvent parse line <;> rfl

/-- What was told, and what the rest of the text says. -/
def Socket.story (s : Socket) (parse : List Char → Option JsValue) : List Event :=
  s.told ++ textEvents parse (s.buffer ++ s.pending.flatten)

/-- A later state of a socket. -/
structure Follows (parse : List Char → Option JsValue) (s s' : Socket) : Prop where
  size : s'.size ≤ s.size
  pending : s'.pending.length ≤ s.pending.length
  story : s'.story parse = s.story parse

theorem Follows.refl (s : Socket) : Follows parse s s := ⟨le_rfl, le_rfl, rfl⟩

theorem Follows.trans (h : Follows parse s s') (h' : Follows parse s' s'') : Follows parse s s'' :=
  ⟨h'.size.trans h.size, h'.pending.trans h.pending, h'.story.trans h.story⟩

theorem takeChunk_follows (h : s.takeChunk = some s') :
    Follows parse s s' ∧ s'.size < s.size ∧ s'.pending.length < s.pending.length ∧
      s'.events = s.events := by
  unfold Socket.takeChunk at h
  split at h
  · cases h
  · rename_i chunk pending hpending
    cases h
    have hsize : s.size = (s.buffer ++ chunk).length +
        (pending.map fun chunk => chunk.length + 1).sum + 1 := by
      simp only [Socket.size, hpending, map_cons, sum_cons, length_append]
      omega
    have hlt : pending.length < s.pending.length := by
      rw [hpending]
      exact Nat.lt_succ_self _
    refine ⟨⟨by rw [hsize]; exact Nat.le_succ _, hlt.le, ?_⟩,
      by rw [hsize]; exact Nat.lt_succ_self _, hlt, rfl⟩
    simp [Socket.story, Socket.told, hpending]

theorem fault_follows : Follows parse s (s.emit (.error .listener)) :=
  ⟨le_rfl, le_rfl, by rw [Socket.story, told_emit_fault]; rfl⟩

theorem line_follows {line rest : List Char} (h : nextLine s.buffer = some (line, rest))
    (hevents : s'.events = s.events ++ (lineEvent parse line).toList) (hbuffer : s'.buffer = rest)
    (hpending : s'.pending = s.pending) : Follows parse s s' ∧ s'.size < s.size := by
  have hlt : s'.size < s.size := by
    have hshorter := lineFramer.shorter h
    simp only [Socket.size, hbuffer, hpending]
    omega
  refine ⟨⟨hlt.le, by rw [hpending], ?_⟩, hlt⟩
  have htold : s'.told = s.told ++ (lineEvent parse line).toList := by
    rw [Socket.told, hevents, filter_append]
    unfold lineEvent
    dsimp only
    split
    · rfl
    · cases parse (trimChars line) <;> rfl
  rw [Socket.story, Socket.story, htold, hbuffer, hpending, textEvents_line h, append_assoc]

/-! ## The loop -/

def Socket.Quiet (s : Socket) : Prop := ∀ event ∈ s.events, event.isListenerFault = false

/-- What a call of `_onData` or of the listener does. -/
structure Ran (parse : List Char → Option JsValue) (calm : Prop) (s s' : Socket) : Prop where
  follows : Follows parse s s'
  quiet : calm → s.Quiet → s'.Quiet

theorem Ran.trans {calm : Prop} (h : Ran parse calm s s') (h' : Ran parse calm s' s'') :
    Ran parse calm s s'' :=
  ⟨h.follows.trans h'.follows, fun hcalm => h'.quiet hcalm ∘ h.quiet hcalm⟩

def Calm (listener : Listener) : Prop := ∀ events message, (listener events message).Calm

theorem react_spec {onData : Socket → Option Socket} {calm : Prop} {n : ℕ}
    (honData : ∀ s, s.size < n → ∃ s', onData s = some s' ∧ Ran parse calm s s')
    (reaction : Reaction) : ∀ s, s.size ≤ n → ∃ s' threw, react onData reaction s = some (s', threw) ∧
      Ran parse calm s s' ∧ (reaction.Calm → threw = false) := by
  induction reaction with
  | returns => exact fun s _ => ⟨s, false, rfl, ⟨.refl s, fun _ => id⟩, fun _ => rfl⟩
  | throws => exact fun s _ => ⟨s, true, rfl, ⟨.refl s, fun _ => id⟩, fun h => nomatch h⟩
  | reenters next ih =>
    intro s hsize
    cases htake : s.takeChunk with
    | none =>
      obtain ⟨s', threw, hreact, hran, hthrew⟩ := ih s.events s hsize
      refine ⟨s', threw, by rw [react, htake]; exact hreact, hran, ?_⟩
      rintro (_ | hnext)
      exact hthrew (hnext s.events)
    | some t =>
      obtain ⟨hfollows, hlt, -, hevents⟩ := @takeChunk_follows parse s t htake
      obtain ⟨t', honData', hran⟩ := honData t (by omega)
      have htaken : Ran parse calm s t := ⟨hfollows, fun _ hquiet => by rwa [Socket.Quiet, hevents]⟩
      have hsize' := (htaken.trans hran).follows.size
      obtain ⟨s', threw, hreact, hran', hthrew⟩ := ih t'.events t' (by omega)
      refine ⟨s', threw, ?_, (htaken.trans hran).trans hran', ?_⟩
      · rw [react, htake]
        simpa [honData'] using hreact
      · rintro (_ | hnext)
        exact hthrew (hnext t'.events)

/-- **The loop ends**, and what is told and still to be told stays the same. -/
theorem drain_spec {n : ℕ} : ∀ s, s.size < n → ∃ s', drain parse listener n s = some s' ∧
    Ran parse (Calm listener) s s' ∧ nextLine s'.buffer = none := by
  induction n with
  | zero => exact fun s h => absurd h (Nat.not_lt_zero _)
  | succ n ih =>
    intro s hsize
    cases hnext : nextLine s.buffer with
    | none => exact ⟨s, by rw [drain, hnext], ⟨.refl s, fun _ => id⟩, hnext⟩
    | some next =>
      obtain ⟨line, rest⟩ := next
      by_cases hblank : trimChars line = []
      · obtain ⟨hfollows, hlt⟩ := @line_follows parse s { s with buffer := rest } line rest hnext
          (by simp [lineEvent, hblank]) rfl rfl
        obtain ⟨s', hdrain, hran, hdone⟩ := ih { s with buffer := rest } (by omega)
        refine ⟨s', ?_, .trans ⟨hfollows, fun _ => id⟩ hran, hdone⟩
        rw [drain, hnext]
        simpa [hblank] using hdrain
      · cases hparse : parse (trimChars line) with
        | none =>
          set t := ({ s with buffer := rest } : Socket).emit (.error (.unparsable (trimChars line)))
            with ht
          obtain ⟨hfollows, hlt⟩ := @line_follows parse s t line rest hnext
            (by simp [ht, Socket.emit, lineEvent, hblank, hparse]) rfl rfl
          obtain ⟨s', hdrain, hran, hdone⟩ := ih t (by omega)
          refine ⟨s', ?_, .trans ⟨hfollows, fun _ hquiet => ?_⟩ hran, hdone⟩
          · rw [drain, hnext]
            simpa [hblank, hparse] using hdrain
          · exact forall_mem_append.mpr ⟨hquiet, by simp [Event.isListenerFault]⟩
        | some message =>
          set t := ({ s with buffer := rest } : Socket).emit (.message message) with ht
          obtain ⟨hfollows, hlt⟩ := @line_follows parse s t line rest hnext
            (by simp [ht, Socket.emit, lineEvent, hblank, hparse]) rfl rfl
          have honData : ∀ s, s.size < n → ∃ s', drain parse listener n s = some s' ∧
              Ran parse (Calm listener) s s' := fun s hs => by
            obtain ⟨s', hdrain, hran, -⟩ := ih s hs
            exact ⟨s', hdrain, hran⟩
          obtain ⟨t', threw, hreact, hran, hthrew⟩ :=
            react_spec honData (listener t.events message) t (by omega)
          have htold : Ran parse (Calm listener) s t :=
            ⟨hfollows, fun _ hquiet =>
              forall_mem_append.mpr ⟨hquiet, by simp [Event.isListenerFault]⟩⟩
          have hfault : Ran parse (Calm listener) t'
              (if threw then t'.emit (.error .listener) else t') := by
            refine ⟨?_, fun hcalm hquiet => ?_⟩
            · split
              · exact fault_follows
              · exact .refl t'
            · rw [hthrew (hcalm _ _)]
              exact hquiet
          have hlt' := (hran.trans hfault).follows.size
          obtain ⟨s', hdrain, hran', hdone⟩ :=
            ih (if threw then t'.emit (.error .listener) else t') (by omega)
          refine ⟨s', ?_, ((htold.trans hran).trans hfault).trans hran', hdone⟩
          rw [drain, hnext]
          simpa [hblank, hparse, ← ht, hreact] using hdrain

theorem receiveChunks_spec {n : ℕ} : ∀ s, s.pending.length ≤ n → nextLine s.buffer = none →
    ∃ s', receiveChunks parse listener n s = some s' ∧ Ran parse (Calm listener) s s' ∧
      s'.pending = [] ∧ nextLine s'.buffer = none := by
  induction n with
  | zero =>
    intro s hpending hdone
    exact ⟨s, rfl, ⟨.refl s, fun _ => id⟩, length_eq_zero_iff.mp (Nat.le_zero.mp hpending), hdone⟩
  | succ n ih =>
    intro s hpending hdone
    cases htake : s.takeChunk with
    | none =>
      refine ⟨s, by rw [receiveChunks, htake], ⟨.refl s, fun _ => id⟩, ?_, hdone⟩
      unfold Socket.takeChunk at htake
      split at htake
      · assumption
      · cases htake
    | some t =>
      obtain ⟨hfollows, -, hlt, hevents⟩ := @takeChunk_follows parse s t htake
      obtain ⟨t', hdrain, hran, hdone'⟩ := @drain_spec parse listener _ t (Nat.lt_succ_self _)
      have hless := hran.follows.pending
      obtain ⟨s', hreceive, hran', hfinal⟩ := ih t' (by omega) hdone'
      have htaken : Ran parse (Calm listener) s t :=
        ⟨hfollows, fun _ hquiet => by rwa [Socket.Quiet, hevents]⟩
      refine ⟨s', ?_, (htaken.trans hran).trans hran', hfinal⟩
      rw [receiveChunks, htake]
      simpa [hdrain] using hreceive

/-- **A text is told line by line**, however it is split. -/
theorem receive_spec (chunks : List (List Char)) : ∃ s, receive parse listener chunks = some s ∧
    s.told = textEvents parse chunks.flatten ∧ (Calm listener → s.events = s.told) := by
  obtain ⟨s, hreceive, hran, hpending, hdone⟩ :=
    @receiveChunks_spec parse listener chunks.length ⟨[], [], chunks⟩ le_rfl rfl
  refine ⟨s, hreceive, ?_, fun hcalm => ?_⟩
  · have hstory := hran.follows.story
    have hrest : textEvents parse (s.buffer ++ s.pending.flatten) = [] := by
      rw [hpending, flatten_nil, append_nil, textEvents, Framer.frames_of_none hdone]
      rfl
    rw [Socket.story, hrest] at hstory
    simpa [Socket.story, Socket.told] using hstory
  · have hquiet := hran.quiet hcalm (fun event hevent => by cases hevent)
    refine (filter_eq_self.mpr fun event hevent => ?_).symm
    simp [hquiet event hevent]

end

/-! ## Messages that were sent -/

/-- A line of the text: a message that was sent, or something else. -/
inductive Line where
  | sent (message : JsValue)
  | other (text : List Char)

/-- `send` writes `JSON.stringify(message)` and a line feed. -/
def Line.text : Line → List Char
  | sent message => write message ++ ['\n']
  | other text => text ++ ['\n']

/-- A message is a JSON value that `JSON.parse` reads back; another line is not JSON. -/
def Line.Valid (parse : List Char → Option JsValue) : Line → Prop
  | sent message => IsParsed message ∧ all isFiniteNumber message = true ∧
      parse (write message) = some (viaJson message)
  | other text => '\n' ∉ text ∧ parse (trimChars text) = none

/-- What is emitted for a line; -0 is received as the equal 0. -/
def Line.event : Line → Option Event
  | sent message => some (.message (unsign message))
  | other text =>
    if trimChars text = [] then none else some (.error (.unparsable (trimChars text)))

theorem viaJson_eq_unsign {v : JsValue} (hordinary : all isOrdinary v = true)
    (hfinite : all isFiniteNumber v = true) : viaJson v = unsign v := by
  induction v using induct with
  | null | bool _ | str _ => rfl
  | num x =>
    cases x with
    | finite _ | negativeZero => rfl
    | nan | infinity _ => cases hfinite
  | arr items ih =>
    obtain ⟨-, hitems⟩ := all_arr.mp hordinary
    obtain ⟨-, hnumbers⟩ := all_arr.mp hfinite
    rw [viaJson, relabel_arr, unsign_arr]
    exact congrArg _ (map_congr_left fun w hw => ih w hw (hitems w hw) (hnumbers w hw))
  | obj o fields ih =>
    obtain ⟨ho, hfields⟩ := all_obj.mp hordinary
    obtain ⟨-, hnumbers⟩ := all_obj.mp hfinite
    obtain rfl : o = true := ho
    rw [viaJson, relabel_obj, unsign_obj]
    refine congrArg _ (map_congr_left fun f hf => ?_)
    exact congrArg (Prod.mk f.1) (ih f hf (hfields f hf) (hnumbers f hf))

theorem Line.next {parse : List Char → Option JsValue} {line : Line} (h : line.Valid parse) :
    ∃ text, (∀ rest, nextLine (line.text ++ rest) = some (text, rest)) ∧
      lineEvent parse text = line.event := by
  cases line with
  | sent message =>
    obtain ⟨hparsed, hfinite, hread⟩ := h
    refine ⟨write message, fun rest => ?_, ?_⟩
    · rw [Line.text, append_assoc]
      exact nextLine_append (newline_notMem_write message) rest
    · simp [lineEvent, Line.event, trimChars_write, write_ne_nil, hread,
        viaJson_eq_unsign hparsed.ordinary hfinite]
  | other text =>
    obtain ⟨hfree, hread⟩ := h
    refine ⟨text, fun rest => ?_, ?_⟩
    · rw [Line.text, append_assoc]
      exact nextLine_append hfree rest
    · simp [lineEvent, Line.event, hread]

theorem textEvents_lines {parse : List Char → Option JsValue} {lines : List Line}
    (h : ∀ line ∈ lines, line.Valid parse) :
    textEvents parse (lines.flatMap Line.text) = lines.filterMap Line.event := by
  induction lines with
  | nil => rfl
  | cons line lines ih =>
    rw [forall_mem_cons] at h
    obtain ⟨text, hnext, hevent⟩ := Line.next h.1
    have hline := @textEvents_line parse text [] (line.text ++ []) (hnext [])
      (lines.flatMap Line.text)
    rw [append_nil, nil_append, hevent, ih h.2] at hline
    rw [flatMap_cons, hline, filterMap_cons]
    cases line.event <;> rfl

/-- **Messages are framed by lines**: for every listener and however the text is split, a message is
emitted for each one that was sent, in order, and between them an error for each other line that is
not blank; a listener that does not throw makes no other error. -/
theorem framing {parse : List Char → Option JsValue} {lines : List Line}
    (hlines : ∀ line ∈ lines, line.Valid parse) {chunks : List (List Char)}
    (hchunks : chunks.flatten = lines.flatMap Line.text) (listener : Listener) :
    ∃ s, receive parse listener chunks = some s ∧ s.told = lines.filterMap Line.event ∧
      (Calm listener → s.events = lines.filterMap Line.event) := by
  obtain ⟨s, hreceive, htold, hcalm⟩ := @receive_spec parse listener chunks
  rw [hchunks, textEvents_lines hlines] at htold
  exact ⟨s, hreceive, htold, fun h => (hcalm h).trans htold⟩

/-- A message within which the next chunk is received, and a line that is not JSON. -/
theorem framing_reentered :
    ∃ s, receive parse (fun _ _ => .reenters fun _ => .returns)
        ["true\nnu".toList, "ll\n?\n".toList] = some s ∧
      s.told = [.message (.bool true), .message .null, .error (.unparsable ['?'])] := by
  have hvalid : ∀ line ∈ [Line.sent (.bool true), .sent .null, .other ['?']], line.Valid parse := by
    simp only [mem_cons, not_mem_nil, or_false]
    rintro line (rfl | rfl | rfl)
    · exact ⟨⟨rfl, rfl⟩, rfl, parse_write _⟩
    · exact ⟨⟨rfl, rfl⟩, rfl, parse_write _⟩
    · exact ⟨by decide, by decide⟩
  obtain ⟨s, hreceive, htold, -⟩ := @framing parse _ hvalid ["true\nnu".toList, "ll\n?\n".toList]
    (by decide) (fun _ _ => .reenters fun _ => .returns)
  exact ⟨s, hreceive, htold⟩

/-- A blank line is not JSON, and nothing is emitted for it. -/
theorem blank_skipped :
    (Line.other [' ']).Valid parse ∧ receive parse (fun _ _ => .returns) [[' ', '\n']] =
      some ⟨[], [], []⟩ := by
  refine ⟨⟨by decide, by decide⟩, ?_⟩
  rfl

end Velocious.JsonSocket
