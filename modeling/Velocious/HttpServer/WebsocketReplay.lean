/-
  Replaying a channel's events to a subscriber
  (src/http-server/client/websocket-session.js) while they are published
  (src/http-server/websocket-events-host.js).

  A publish appends the event to the log, whose sequences strictly increase, and
  then dispatches it; it reaches the session some time later, in order. The
  subscriber reads its checkpoint and the latest sequence, adds its subscription,
  sends the stored events up to that ceiling, and then, if a live event came
  meanwhile, the stored events above it. A channel handler receives an event
  some time after it is sent to it.
-/
import Velocious.Foundation.Javascript
import Velocious.Foundation.Machine

namespace Velocious

open Foundation List

/-! ## The program -/

/-- A row of the event log. -/
structure ChannelEvent where
  id : String
  sequence : ℕ
  payload : Json

def getEventById (log : List ChannelEvent) (id : String) : Option ChannelEvent :=
  log.find? (·.id = id)

def latestSequence (log : List ChannelEvent) : Option ℕ := log.getLast?.map (·.sequence)

/-- `getEventsAfter`, without a ceiling. -/
def eventsAfter (log : List ChannelEvent) (sequence : ℕ) : List ChannelEvent :=
  log.filter (sequence < ·.sequence)

/-- `getEventsAfter`. -/
def eventsBetween (log : List ChannelEvent) (sequence upToSequence : ℕ) : List ChannelEvent :=
  (eventsAfter log sequence).filter (·.sequence ≤ upToSequence)

/-- Where a subscription is. -/
inductive ReplayStage where
  | subscribing
  | checked (checkpoint : ℕ)
  | bounded (checkpoint ceiling : ℕ)
  | replaying (checkpoint ceiling : ℕ) (buffered : Bool)
  | sending (ceiling : ℕ) (rest : List ChannelEvent) (buffered : Bool)
  | flushing (ceiling : ℕ)
  | resending (rest : List ChannelEvent)
  | live
  | gap

/-- The log and the publish in progress, the events on their way to the session,
    and the subscriber: what its handler has yet to receive, with whether the
    replay awaits it, and what it has received. -/
structure ReplayWorld where
  log : List ChannelEvent
  publishing : Option ChannelEvent
  dispatched : List ChannelEvent
  stage : ReplayStage
  handling : List (ChannelEvent × Bool)
  received : List ChannelEvent

/-- What happens next: a publish is persisted, dispatched, arrives; the handler
    receives an event; the subscription goes on. -/
inductive ReplayAction where
  | persist (event : ChannelEvent)
  | dispatch
  | arrive
  | handle (n : ℕ)
  | readCheckpoint
  | readCeiling
  | subscribe
  | readStored
  | send
  | finish
  | readLive
  | acknowledge

namespace ReplayWorld

/-- A log, with no publish in progress and a subscriber that begins. -/
def init (log : List ChannelEvent) : ReplayWorld := ⟨log, none, [], .subscribing, [], []⟩

/-- An event goes to the client, or to the handler of the subscription. -/
def emit (handler : Bool) (w : ReplayWorld) (event : ChannelEvent) (awaited : Bool) : ReplayWorld :=
  if handler then { w with handling := w.handling ++ [(event, awaited)] }
  else { w with received := w.received ++ [event] }

def sendLive (handler : Bool) (w : ReplayWorld) (event : ChannelEvent) : ReplayWorld :=
  match w.stage with
  | .subscribing | .checked _ | .bounded _ _ | .gap => w
  | .replaying checkpoint ceiling _ => { w with stage := .replaying checkpoint ceiling true }
  | .sending ceiling rest _ => { w with stage := .sending ceiling rest true }
  | .flushing _ | .resending _ | .live => w.emit handler event false

/-- The handler has received what the replay awaits. -/
def Settled (w : ReplayWorld) : Prop := ∀ h ∈ w.handling, h.2 = false

instance (w : ReplayWorld) : Decidable w.Settled :=
  inferInstanceAs (Decidable (∀ h ∈ w.handling, h.2 = false))

/-- One step. -/
def step (handler : Bool) (lastEventId : String) (w : ReplayWorld) :
    ReplayAction → Option ReplayWorld
  | .persist event =>
    match w.publishing with
    | none =>
      if ∀ e ∈ w.log, e.sequence < event.sequence then
        some { w with log := w.log ++ [event], publishing := some event }
      else none
    | some _ => none
  | .dispatch =>
    match w.publishing with
    | some event => some { w with publishing := none, dispatched := w.dispatched ++ [event] }
    | none => none
  | .arrive =>
    match w.dispatched with
    | event :: rest => some ({ w with dispatched := rest }.sendLive handler event)
    | [] => none
  | .handle n =>
    match w.handling[n]? with
    | some (event, _) =>
      some { w with handling := w.handling.eraseIdx n, received := w.received ++ [event] }
    | none => none
  | .readCheckpoint =>
    match w.stage with
    | .subscribing =>
      match getEventById w.log lastEventId with
      | some checkpoint => some { w with stage := .checked checkpoint.sequence }
      | none => some { w with stage := .gap }
    | _ => none
  | .readCeiling =>
    match w.stage with
    | .checked checkpoint =>
      some { w with stage := .bounded checkpoint ((latestSequence w.log).getD checkpoint) }
    | _ => none
  | .subscribe =>
    match w.stage with
    | .bounded checkpoint ceiling => some { w with stage := .replaying checkpoint ceiling false }
    | _ => none
  | .readStored =>
    match w.stage with
    | .replaying checkpoint ceiling buffered =>
      some { w with stage := .sending ceiling (eventsBetween w.log checkpoint ceiling) buffered }
    | _ => none
  | .send =>
    match w.stage with
    | .sending ceiling (event :: rest) buffered =>
      if w.Settled then some ({ w with stage := .sending ceiling rest buffered }.emit handler event true)
      else none
    | .resending (event :: rest) =>
      if w.Settled then some ({ w with stage := .resending rest }.emit handler event true) else none
    | _ => none
  | .finish =>
    match w.stage with
    | .sending ceiling [] buffered =>
      if w.Settled then some { w with stage := if buffered then .flushing ceiling else .live }
      else none
    | _ => none
  | .readLive =>
    match w.stage with
    | .flushing ceiling => some { w with stage := .resending (eventsAfter w.log ceiling) }
    | _ => none
  | .acknowledge =>
    match w.stage with
    | .resending [] => if w.Settled then some { w with stage := .live } else none
    | _ => none

/-- The events that have been persisted and have not reached the session. -/
def pending (w : ReplayWorld) : List ChannelEvent := w.dispatched ++ w.publishing.toList

/-- When the replay ends with nothing buffered, the events that have not reached
    the session are those above the ceiling; when it ends with live events
    buffered, none is on its way when they are read from the log, and none
    arrives until they are sent; a handler receives in order. -/
def Steady (w : ReplayWorld) : ReplayAction → Prop
  | .finish => ∀ ceiling rest, w.stage = .sending ceiling rest false →
      w.pending = eventsAfter w.log ceiling
  | .readLive => w.pending = []
  | .arrive => (∀ ceiling, w.stage ≠ .flushing ceiling) ∧
      ∀ event rest, w.stage ≠ .resending (event :: rest)
  | .handle n => n = 0
  | _ => True

/-- Nothing is on its way to the subscriber any more. -/
def Quiescent (w : ReplayWorld) : Prop :=
  w.stage = .live ∧ w.pending = [] ∧ w.handling = []

end ReplayWorld

def Increasing (log : List ChannelEvent) : Prop :=
  log.Pairwise fun e f => e.sequence < f.sequence

section
variable {log : List ChannelEvent} {event : ChannelEvent} {c k : ℕ}

theorem increasing_concat (h : Increasing log) (hnew : ∀ e ∈ log, e.sequence < event.sequence) :
    Increasing (log ++ [event]) := by
  refine pairwise_append.mpr ⟨h, pairwise_singleton _ _, fun e he f hf => ?_⟩
  rw [mem_singleton.mp hf]
  exact hnew e he

theorem le_latestSequence (h : Increasing log) (hevent : event ∈ log) :
    ∃ last ∈ log, latestSequence log = some last.sequence ∧ event.sequence ≤ last.sequence := by
  obtain ⟨init, last, rfl⟩ := eq_nil_or_concat log |>.resolve_left (ne_nil_of_mem hevent)
  rw [concat_eq_append] at h hevent ⊢
  refine ⟨last, by simp, by simp [latestSequence], ?_⟩
  obtain ⟨-, -, hlast⟩ := pairwise_append.mp h
  rcases mem_append.mp hevent with he | he
  · exact (hlast event he last mem_cons_self).le
  · rw [mem_singleton.mp he]

theorem eventsAfter_concat (hc : ∃ e ∈ log, e.sequence = c)
    (hnew : ∀ e ∈ log, e.sequence < event.sequence) :
    eventsAfter (log ++ [event]) c = eventsAfter log c ++ [event] := by
  obtain ⟨e, he, rfl⟩ := hc
  rw [eventsAfter, eventsAfter]
  simp [hnew e he]

theorem eventsBetween_concat (hk : ∃ e ∈ log, e.sequence = k)
    (hnew : ∀ e ∈ log, e.sequence < event.sequence) :
    eventsBetween (log ++ [event]) c k = eventsBetween log c k := by
  obtain ⟨e, he, rfl⟩ := hk
  have hlt := hnew e he
  have hnone : (eventsAfter [event] c).filter (·.sequence ≤ e.sequence) = [] := by
    refine filter_eq_nil_iff.mpr fun f hf => ?_
    obtain rfl := mem_singleton.mp (mem_filter.mp hf).1
    simpa using hlt
  rw [eventsBetween, eventsAfter, filter_append, filter_append, ← eventsAfter,
    ← eventsAfter, hnone, append_nil]
  rfl

theorem eventsBetween_append_eventsAfter (h : Increasing log) (hck : c ≤ k) :
    eventsBetween log c k ++ eventsAfter log k = eventsAfter log c := by
  induction log with
  | nil => rfl
  | cons e log ih =>
    obtain ⟨hhead, htail⟩ := pairwise_cons.mp h
    have ih := ih htail
    by_cases hc : c < e.sequence
    · by_cases hk : e.sequence ≤ k
      · simpa [eventsBetween, eventsAfter, hc, hk] using ih
      · -- everything from `e` on is above the ceiling
        have hnone : eventsBetween log c k = [] := by
          refine filter_eq_nil_iff.mpr fun f hf => ?_
          have hf := hhead f (mem_filter.mp hf).1
          simp only [decide_eq_true_eq]
          omega
        rw [hnone, nil_append] at ih
        have hlt : k < e.sequence := by omega
        have hnone' : List.filter (fun f => decide (f.sequence ≤ k)) (eventsAfter log c) = [] := hnone
        simp only [eventsAfter] at ih hnone'
        simp [eventsBetween, eventsAfter, hc, hlt, hnone', ih]
    · have hnot : ¬ k < e.sequence := by omega
      simpa [eventsBetween, eventsAfter, hc, hnot] using ih

end

/-! ## The invariant -/

namespace ReplayWorld

def sent (w : ReplayWorld) : List ChannelEvent := w.received ++ w.handling.map Prod.fst

/-- A ceiling that was read: at least the checkpoint, and in the log. -/
def Ceiling (log : List ChannelEvent) (c ceiling : ℕ) : Prop :=
  c ≤ ceiling ∧ ∃ e ∈ log, e.sequence = ceiling

/-- What has been sent at each stage, after checkpoint `c`. -/
def StageOk (log pending sent : List ChannelEvent) (c : ℕ) : ReplayStage → Prop
  | .subscribing => sent = []
  | .checked k => k = c ∧ sent = []
  | .bounded k ceiling | .replaying k ceiling _ => k = c ∧ sent = [] ∧ Ceiling log c ceiling
  | .sending ceiling rest _ => Ceiling log c ceiling ∧ sent ++ rest = eventsBetween log c ceiling
  | .flushing ceiling => Ceiling log c ceiling ∧ sent = eventsBetween log c ceiling
  | .resending rest => sent ++ rest ++ pending = eventsAfter log c
  | .live => sent ++ pending = eventsAfter log c
  | .gap => False

/-- The invariant of a replay. -/
structure Ok (handler : Bool) (lastEventId : String) (checkpoint : ChannelEvent)
    (w : ReplayWorld) : Prop where
  increasing : Increasing w.log
  found : getEventById w.log lastEventId = some checkpoint
  direct : handler = false → w.handling = []
  stage : StageOk w.log w.pending w.sent checkpoint.sequence w.stage

section
variable {handler : Bool} {lastEventId : String} {checkpoint event : ChannelEvent}
  {w w' : ReplayWorld}

theorem ok_init {log : List ChannelEvent} (hlog : Increasing log)
    (hfound : getEventById log lastEventId = some checkpoint) :
    Ok handler lastEventId checkpoint (init log) :=
  ⟨hlog, hfound, fun _ => rfl, rfl⟩

theorem Ok.mem (hw : Ok handler lastEventId checkpoint w) : checkpoint ∈ w.log :=
  mem_of_find?_eq_some hw.found

section
variable (awaited : Bool)
include awaited

theorem sent_emit (hdirect : handler = false → w.handling = []) :
    (w.emit handler event awaited).sent = w.sent ++ [event] := by
  unfold emit
  cases handler with
  | true => simp [sent]
  | false => simp [sent, hdirect rfl]

theorem direct_emit (hdirect : handler = false → w.handling = [])
    (h : handler = false) : (w.emit handler event awaited).handling = [] := by
  subst h
  exact hdirect rfl

@[simp] theorem emit_log : (w.emit handler event awaited).log = w.log := by
  unfold emit
  split <;> rfl

@[simp] theorem emit_pending :
    (w.emit handler event awaited).pending = w.pending := by
  unfold emit
  split <;> rfl

@[simp] theorem emit_stage : (w.emit handler event awaited).stage = w.stage := by
  unfold emit
  split <;> rfl

end

section
variable (hw : Ok handler lastEventId checkpoint w)
include hw

theorem Ok.emit (awaited : Bool) {w₁ : ReplayWorld}
    (hlog : w₁.log = w.log) (hhandling : w₁.handling = w.handling)
    (hstage : StageOk w₁.log w₁.pending (w₁.sent ++ [event]) checkpoint.sequence w₁.stage) :
    Ok handler lastEventId checkpoint (w₁.emit handler event awaited) := by
  have hdirect : handler = false → w₁.handling = [] := fun h => hhandling.trans (hw.direct h)
  constructor
  · rw [emit_log, hlog]
    exact hw.increasing
  · rw [emit_log, hlog]
    exact hw.found
  · exact direct_emit awaited hdirect
  · rw [sent_emit awaited hdirect, emit_log, emit_pending, emit_stage]
    exact hstage

theorem Ok.persist (hidle : w.publishing = none)
    (hnew : ∀ e ∈ w.log, e.sequence < event.sequence) :
    Ok handler lastEventId checkpoint
      { w with log := w.log ++ [event], publishing := some event } := by
  have hmem := hw.mem
  have hpending : w.pending = w.dispatched := by simp [pending, hidle]
  have hafter := eventsAfter_concat ⟨checkpoint, hmem, rfl⟩ hnew
  have hceiling : ∀ ceiling, Ceiling w.log checkpoint.sequence ceiling →
      Ceiling (w.log ++ [event]) checkpoint.sequence ceiling := by
    rintro ceiling ⟨hle, e, he, rfl⟩
    exact ⟨hle, e, mem_append_left _ he, rfl⟩
  have hok := hw.stage
  refine ⟨increasing_concat hw.increasing hnew, ?_, hw.direct, ?_⟩
  · rw [getEventById, find?_append, ← getEventById, hw.found]
    rfl
  · show StageOk (w.log ++ [event]) (w.dispatched ++ [event]) w.sent checkpoint.sequence w.stage
    cases hs : w.stage with
    | subscribing => rwa [hs] at hok
    | checked k => rwa [hs] at hok
    | bounded k ceiling =>
      rw [hs] at hok
      exact ⟨hok.1, hok.2.1, hceiling ceiling hok.2.2⟩
    | replaying k ceiling buffered =>
      rw [hs] at hok
      exact ⟨hok.1, hok.2.1, hceiling ceiling hok.2.2⟩
    | sending ceiling rest buffered =>
      rw [hs] at hok
      refine ⟨hceiling ceiling hok.1, ?_⟩
      rw [eventsBetween_concat hok.1.2 hnew]
      exact hok.2
    | flushing ceiling =>
      rw [hs] at hok
      refine ⟨hceiling ceiling hok.1, ?_⟩
      rw [eventsBetween_concat hok.1.2 hnew]
      exact hok.2
    | resending rest =>
      rw [hs] at hok
      show w.sent ++ rest ++ (w.dispatched ++ [event]) = _
      rw [hafter, ← hpending, ← append_assoc]
      exact congrArg (· ++ [event]) hok
    | live =>
      rw [hs] at hok
      show w.sent ++ (w.dispatched ++ [event]) = _
      rw [hafter, ← hpending, ← append_assoc]
      exact congrArg (· ++ [event]) hok
    | gap =>
      rw [hs] at hok
      exact hok

theorem Ok.arrive (hsteady : Steady w .arrive)
    {rest : List ChannelEvent} (hdispatched : w.dispatched = event :: rest) :
    Ok handler lastEventId checkpoint ({ w with dispatched := rest }.sendLive handler event) := by
  have hok := hw.stage
  obtain ⟨hflushing, hresending⟩ := hsteady
  cases hs : w.stage with
  | subscribing =>
    rw [hs] at hok
    exact ⟨hw.increasing, hw.found, hw.direct, hok⟩
  | checked k =>
    rw [hs] at hok
    exact ⟨hw.increasing, hw.found, hw.direct, hok⟩
  | bounded k ceiling =>
    rw [hs] at hok
    exact ⟨hw.increasing, hw.found, hw.direct, hok⟩
  | replaying k ceiling buffered =>
    rw [hs] at hok
    exact ⟨hw.increasing, hw.found, hw.direct, hok⟩
  | sending ceiling rest buffered =>
    rw [hs] at hok
    exact ⟨hw.increasing, hw.found, hw.direct, hok⟩
  | flushing ceiling => exact absurd hs (hflushing ceiling)
  | resending remaining =>
    rw [hs] at hok
    obtain rfl : remaining = [] := by
      cases remaining with
      | nil => rfl
      | cons e remaining => exact absurd hs (hresending e remaining)
    refine hw.emit false rfl rfl ?_
    show w.sent ++ [event] ++ [] ++ (rest ++ w.publishing.toList) = _
    rw [← hok]
    simp [pending, hdispatched]
  | live =>
    rw [hs] at hok
    refine hw.emit false rfl rfl ?_
    show w.sent ++ [event] ++ (rest ++ w.publishing.toList) = _
    rw [← hok]
    simp [pending, hdispatched]
  | gap =>
    rw [hs] at hok
    exact hok.elim

theorem Ok.ceiling :
    Ceiling w.log checkpoint.sequence ((latestSequence w.log).getD checkpoint.sequence) := by
  obtain ⟨last, hlast, hlatest, hle⟩ := le_latestSequence hw.increasing hw.mem
  rw [hlatest]
  exact ⟨hle, last, hlast, rfl⟩

theorem Ok.step {a : ReplayAction}
    (hsteady : Steady w a) (h : step handler lastEventId w a = some w') :
    Ok handler lastEventId checkpoint w' := by
  have hok := hw.stage
  cases a with
  | persist event =>
    dsimp only [ReplayWorld.step] at h
    split at h
    · rename_i hidle
      split at h
      · rename_i hnew
        cases h
        exact hw.persist hidle hnew
      · cases h
    · cases h
  | dispatch =>
    dsimp only [ReplayWorld.step] at h
    split at h
    · rename_i event hpublishing
      cases h
      refine ⟨hw.increasing, hw.found, hw.direct, ?_⟩
      have hpending : w.pending =
          { w with publishing := none, dispatched := w.dispatched ++ [event] }.pending := by
        simp [pending, hpublishing]
      rwa [hpending] at hok
    · cases h
  | arrive =>
    dsimp only [ReplayWorld.step] at h
    split at h
    · rename_i event rest hdispatched
      cases h
      exact hw.arrive hsteady hdispatched
    · cases h
  | handle n =>
    obtain rfl : n = 0 := hsteady
    dsimp only [ReplayWorld.step] at h
    split at h
    · rename_i event awaited hfirst
      cases h
      cases hhandling : w.handling with
      | nil =>
        rw [hhandling] at hfirst
        cases hfirst
      | cons first handling =>
        rw [hhandling] at hfirst
        cases hfirst
        refine ⟨hw.increasing, hw.found, fun hdirect => ?_, ?_⟩
        · have hnil := hw.direct hdirect
          rw [hhandling] at hnil
          cases hnil
        · have hsent : w.sent = (w.received ++ [event]) ++ handling.map Prod.fst := by
            simp [sent, hhandling]
          rw [hsent] at hok
          exact hok
    · cases h
  | readCheckpoint =>
    dsimp only [ReplayWorld.step] at h
    split at h
    · rename_i hs
      rw [hs] at hok
      rw [hw.found] at h
      cases h
      exact ⟨hw.increasing, hw.found, hw.direct, rfl, hok⟩
    · cases h
  | readCeiling =>
    dsimp only [ReplayWorld.step] at h
    split at h
    · rename_i hs
      rw [hs] at hok
      obtain ⟨rfl, hsent⟩ := hok
      cases h
      exact ⟨hw.increasing, hw.found, hw.direct, rfl, hsent, hw.ceiling⟩
    · cases h
  | subscribe =>
    dsimp only [ReplayWorld.step] at h
    split at h
    · rename_i hs
      rw [hs] at hok
      cases h
      exact ⟨hw.increasing, hw.found, hw.direct, hok⟩
    · cases h
  | readStored =>
    dsimp only [ReplayWorld.step] at h
    split at h
    · rename_i hs
      rw [hs] at hok
      obtain ⟨rfl, hsent, hceiling⟩ := hok
      cases h
      refine ⟨hw.increasing, hw.found, hw.direct, hceiling, ?_⟩
      show w.sent ++ _ = _
      rw [hsent, nil_append]
    · cases h
  | send =>
    dsimp only [ReplayWorld.step] at h
    split at h
    · rename_i ceiling event rest buffered hs
      rw [hs] at hok
      split at h
      · cases h
        refine hw.emit true rfl rfl ⟨hok.1, ?_⟩
        show w.sent ++ [event] ++ rest = _
        rw [← hok.2]
        simp
      · cases h
    · rename_i event rest hs
      rw [hs] at hok
      split at h
      · cases h
        refine hw.emit true rfl rfl ?_
        show w.sent ++ [event] ++ rest ++ w.pending = _
        rw [← hok]
        simp
      · cases h
    · cases h
  | finish =>
    dsimp only [ReplayWorld.step] at h
    split at h
    · rename_i ceiling buffered hs
      rw [hs] at hok
      obtain ⟨hceiling, hsent⟩ := hok
      rw [append_nil] at hsent
      split at h
      · cases h
        refine ⟨hw.increasing, hw.found, hw.direct, ?_⟩
        cases buffered with
        | true => exact ⟨hceiling, hsent⟩
        | false =>
          show w.sent ++ w.pending = _
          rw [hsent, hsteady ceiling [] hs]
          exact eventsBetween_append_eventsAfter hw.increasing hceiling.1
      · cases h
    · cases h
  | readLive =>
    dsimp only [ReplayWorld.step] at h
    split at h
    · rename_i ceiling hs
      rw [hs] at hok
      obtain ⟨hceiling, hsent⟩ := hok
      cases h
      refine ⟨hw.increasing, hw.found, hw.direct, ?_⟩
      have hpending : w.pending = [] := hsteady
      show w.sent ++ eventsAfter w.log ceiling ++ w.pending = _
      rw [hpending, append_nil, hsent]
      exact eventsBetween_append_eventsAfter hw.increasing hceiling.1
    · cases h
  | acknowledge =>
    dsimp only [ReplayWorld.step] at h
    split at h
    · rename_i hs
      rw [hs] at hok
      split at h
      · cases h
        refine ⟨hw.increasing, hw.found, hw.direct, ?_⟩
        show w.sent ++ w.pending = _
        rw [← hok, append_nil]
      · cases h
    · cases h

theorem Ok.sent_prefix :
    w.sent <+: eventsAfter w.log checkpoint.sequence := by
  have hok := hw.stage
  cases hs : w.stage with
  | subscribing =>
    rw [hs] at hok
    exact hok ▸ nil_prefix
  | checked k =>
    rw [hs] at hok
    exact hok.2 ▸ nil_prefix
  | bounded k ceiling =>
    rw [hs] at hok
    exact hok.2.1 ▸ nil_prefix
  | replaying k ceiling buffered =>
    rw [hs] at hok
    exact hok.2.1 ▸ nil_prefix
  | sending ceiling rest buffered =>
    rw [hs] at hok
    rw [← eventsBetween_append_eventsAfter hw.increasing hok.1.1, ← hok.2, append_assoc]
    exact prefix_append _ _
  | flushing ceiling =>
    rw [hs] at hok
    rw [← eventsBetween_append_eventsAfter hw.increasing hok.1.1, ← hok.2]
    exact prefix_append _ _
  | resending rest =>
    rw [hs] at hok
    rw [← hok, append_assoc]
    exact prefix_append _ _
  | live =>
    rw [hs] at hok
    rw [← hok]
    exact prefix_append _ _
  | gap =>
    rw [hs] at hok
    exact hok.elim

end

/-- **The replay meets the live events.** For a subscriber whose `lastEventId` is
    in the log, in every interleaving that meets the condition, it has received
    the beginning of the events above its checkpoint, each once and in sequence
    order, and all of them once nothing is on its way. -/
theorem replay_meets_live {log : List ChannelEvent} {actions : List ReplayAction}
    (hlog : Increasing log) (hcheckpoint : getEventById log lastEventId = some checkpoint)
    (hsteady : Along (ReplayWorld.step handler lastEventId) Steady (init log) actions)
    (hrun : runActions (ReplayWorld.step handler lastEventId) (init log) actions = some w) :
    w.received <+: eventsAfter w.log checkpoint.sequence ∧
      (w.Quiescent → w.received = eventsAfter w.log checkpoint.sequence) := by
  have hw : Ok handler lastEventId checkpoint w :=
    runActions_invariant (I := Ok handler lastEventId checkpoint)
      (fun _ _ _ hs ha h => hs.step ha h) actions (ok_init hlog hcheckpoint) hsteady hrun
  refine ⟨(prefix_append _ _).trans hw.sent_prefix, ?_⟩
  rintro ⟨hlive, hpending, hhandling⟩
  have hok := hw.stage
  rw [hlive] at hok
  have hsent : w.sent = w.received := by simp [sent, hhandling]
  rw [← hok, hsent, hpending, append_nil]

end

end ReplayWorld

/-! ## An event in the window -/

def firstEvent : ChannelEvent := ⟨"a", 1, .null⟩
def secondEvent : ChannelEvent := ⟨"b", 2, .null⟩

def publishBefore : List ReplayAction :=
  [.persist secondEvent, .dispatch, .arrive, .readCheckpoint, .readCeiling, .subscribe,
    .readStored, .send, .finish]

/-- It reaches the session after the ceiling was read, before the subscription is
    added. -/
def publishInWindow : List ReplayAction :=
  [.readCheckpoint, .readCeiling, .persist secondEvent, .dispatch, .arrive, .subscribe,
    .readStored, .finish]

/-- It is stored before the ceiling is read, and reaches the session after the
    replay. -/
def arriveAfterReplay : List ReplayAction :=
  [.readCheckpoint, .persist secondEvent, .dispatch, .readCeiling, .subscribe, .readStored, .send,
    .finish, .arrive]

theorem publishBefore_steady :
    Along (ReplayWorld.step false "a") ReplayWorld.Steady (.init [firstEvent]) publishBefore := by
  refine ⟨trivial, trivial, ⟨nofun, nofun⟩, trivial, trivial, trivial, trivial, trivial, ?_,
    trivial⟩
  rintro _ _ ⟨⟩
  rfl

theorem replay_meets_live_before :
    ∃ w, runActions (ReplayWorld.step false "a") (.init [firstEvent]) publishBefore = some w ∧
      w.received = [secondEvent] ∧
      (w.received <+: eventsAfter w.log firstEvent.sequence ∧
        (w.Quiescent → w.received = eventsAfter w.log firstEvent.sequence)) :=
  ⟨_, rfl, rfl, @ReplayWorld.replay_meets_live false "a" firstEvent _ [firstEvent] publishBefore
    (pairwise_singleton _ _) rfl publishBefore_steady rfl⟩

/-- **An event in the window is lost.** It reaches the session after the ceiling
    was read and before the subscription is added; and one that is replayed
    before it reaches the session is received twice. -/
theorem dropped_in_the_window :
    (∃ w, runActions (ReplayWorld.step false "a") (.init [firstEvent]) publishInWindow = some w ∧
      w.Quiescent ∧ w.received = [] ∧ eventsAfter w.log 1 = [secondEvent]) ∧
    ∃ w, runActions (ReplayWorld.step false "a") (.init [firstEvent]) arriveAfterReplay = some w ∧
      w.Quiescent ∧ w.received = [secondEvent, secondEvent] :=
  ⟨⟨_, rfl, ⟨rfl, rfl, rfl⟩, rfl, rfl⟩, _, rfl, ⟨rfl, rfl, rfl⟩, rfl⟩

end Velocious
