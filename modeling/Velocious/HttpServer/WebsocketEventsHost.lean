/-
  Ordered publishing of websocket events (src/http-server/websocket-events-host.js).

  Every `publish` and `broadcastV2` chains onto the tail of its channel: it persists the event, then
  dispatches it to the handlers, when the publish before it on the channel has succeeded, and fails
  when that one has failed. A tail that succeeded leaves the map, unless a newer one took its place;
  one that failed stays.

  Between the steps of a publish any others may run. Publishes are numbered in call order.
-/
import Velocious.Foundation.EntryMap
import Velocious.Foundation.Machine

namespace Velocious

open Foundation List

/-- A registered worker handler. -/
structure WorkerHandler where
  id : ℕ
  configuration : ℕ
  websocketV2BroadcastDispatchKey : ℕ
  deriving DecidableEq

/-- What a publish sends. -/
inductive PublishContent (π : Type) where
  | event (payload : π)
  | broadcastV2 (broadcastParams body : π) (configuration : ℕ)

/-- Where a publish is; `stored` is the event's row in the event log, once it has one. -/
inductive PublishPhase where
  | queued
  | persisting (stored : Option ℕ)
  | finished (ok : Bool)
  | settled (ok : Bool)
  deriving DecidableEq

def PublishPhase.failed : PublishPhase → Bool
  | finished ok | settled ok => !ok
  | queued | persisting _ => false

def PublishPhase.isOver : PublishPhase → Bool
  | finished _ | settled _ => true
  | queued | persisting _ => false

/-- The publish is over, and did not fail. -/
def PublishPhase.succeeded (phase : PublishPhase) : Bool := phase.isOver && !phase.failed

/-- A call of publish. -/
structure Publish (π : Type) where
  channel : String
  content : PublishContent π
  previousTail : Option ℕ
  phase : PublishPhase

/-- An event that a handler was given. -/
structure Dispatch where
  channel : String
  publish : ℕ
  handler : ℕ
  eventId : Option ℕ
  deriving DecidableEq

/-- An event that was persisted. -/
structure LoggedEvent where
  channel : String
  publish : ℕ
  deriving DecidableEq

/-- A call of `awaitPendingBroadcasts`: the tails it waits for, and whether it resolved. -/
structure PendingBroadcasts where
  before : ℕ
  snapshot : List ℕ
  outcome : Option Bool

/-- The host, its log and its workers. -/
structure EventsHost (π : Type) where
  handlers : List WorkerHandler
  publishes : List (Publish π)
  publishQueuesByChannel : EntryMap String ℕ
  eventLog : List LoggedEvent
  dispatched : List Dispatch
  awaits : List PendingBroadcasts

/-- What can happen. -/
inductive HostAct (π : Type) where
  | register (handler : WorkerHandler)
  | unregister (id : ℕ)
  | publish (channel : String) (content : PublishContent π)
  | start (i : ℕ)
  | store (i : ℕ)
  /-- persisting is over; if it succeeded, the event is dispatched, and the handler at `failAt` throws -/
  | persisted (i : ℕ) (ok : Bool) (failAt : Option ℕ)
  | settle (i : ℕ)
  | removeTail (i : ℕ)
  | awaitPendingBroadcasts
  | resolve (b : ℕ)

namespace EventsHost

variable {π : Type}

def start : EventsHost π := ⟨[], [], .empty, [], [], []⟩

/-- A handler joins the targets unless one with its dispatch key is among them. -/
def addTarget (targets : List WorkerHandler) (handler : WorkerHandler) : List WorkerHandler :=
  if targets.any (·.websocketV2BroadcastDispatchKey = handler.websocketV2BroadcastDispatchKey)
  then targets else targets ++ [handler]

/-- `handlers`, or one handler for each dispatch target of a configuration. -/
def targets (handlers : List WorkerHandler) : PublishContent π → List WorkerHandler
  | .event _ => handlers
  | .broadcastV2 _ _ configuration =>
    (handlers.filter (·.configuration = configuration)).foldl addTarget []

def setPhase (w : EventsHost π) (i : ℕ) (phase : PublishPhase) : EventsHost π :=
  { w with publishes := w.publishes.modify i fun p => { p with phase } }

def phase? (w : EventsHost π) (i : ℕ) : Option PublishPhase := (w.publishes[i]?).map (·.phase)

/-- The result of a settled tail; a channel without a tail has nothing to wait for. -/
def tailResult (w : EventsHost π) : Option ℕ → Option Bool
  | none => some true
  | some k =>
    match w.phase? k with
    | some (.settled ok) => some ok
    | some .queued | some (.persisting _) | some (.finished _) | none => none

def queuePublish (w : EventsHost π) (channel : String) (content : PublishContent π) : EventsHost π :=
  { w with
    publishes := w.publishes ++
      [{ channel, content, previousTail := w.publishQueuesByChannel.get? channel, phase := .queued }]
    publishQueuesByChannel := w.publishQueuesByChannel.set channel w.publishes.length }

/-- The dispatch loop of a publish, up to the handler that throws. -/
def dispatch (w : EventsHost π) (i : ℕ) (p : Publish π) (stored : Option ℕ) (failAt : Option ℕ) :
    EventsHost π :=
  let handlers := targets w.handlers p.content
  let reached := handlers.take (failAt.getD handlers.length)
  { w.setPhase i (.finished (reached.length = handlers.length)) with
    dispatched := w.dispatched ++ reached.map fun handler => ⟨p.channel, i, handler.id, stored⟩ }

def step (w : EventsHost π) : HostAct π → Option (EventsHost π)
  | .register handler =>
    if w.handlers.any (·.id = handler.id) then none
    else some { w with handlers := w.handlers ++ [handler] }
  | .unregister id => some { w with handlers := w.handlers.filter (·.id ≠ id) }
  | .publish channel content => some (w.queuePublish channel content)
  | .start i =>
    match w.publishes[i]? with
    | some ⟨_, _, previousTail, .queued⟩ =>
      match w.tailResult previousTail with
      | some true => some (w.setPhase i (.persisting none))
      | some false => some (w.setPhase i (.finished false))
      | none => none
    | _ => none
  | .store i =>
    match w.publishes[i]? with
    | some ⟨channel, _, _, .persisting none⟩ =>
      some { w.setPhase i (.persisting (some w.eventLog.length)) with
             eventLog := w.eventLog ++ [⟨channel, i⟩] }
    | _ => none
  | .persisted i ok failAt =>
    match w.publishes[i]? with
    | some ⟨channel, content, previousTail, .persisting stored⟩ =>
      if ok then some (w.dispatch i ⟨channel, content, previousTail, .persisting stored⟩ stored failAt)
      else some (w.setPhase i (.finished false))
    | _ => none
  | .settle i =>
    match w.publishes[i]? with
    | some ⟨_, _, _, .finished ok⟩ => some (w.setPhase i (.settled ok))
    | _ => none
  | .removeTail i =>
    match w.publishes[i]? with
    | some ⟨channel, _, _, .settled true⟩ =>
      if w.publishQueuesByChannel.get? channel = some i then
        some { w with publishQueuesByChannel := w.publishQueuesByChannel.delete channel }
      else some w
    | _ => none
  | .awaitPendingBroadcasts =>
    some { w with awaits := w.awaits ++
      [⟨w.publishes.length, w.publishQueuesByChannel.values, none⟩] }
  | .resolve b =>
    match w.awaits[b]? with
    | some ⟨before, snapshot, none⟩ =>
      if snapshot.all fun k => (w.tailResult (some k)).isSome then
        some { w with awaits := w.awaits.set b ⟨before, snapshot,
          some (snapshot.all fun k => w.tailResult (some k) = some true)⟩ }
      else none
    | _ => none

/-! ## Publishes and tails -/

section
variable {ps : List (Publish π)} {w w' : EventsHost π} {i j k : ℕ} {c : String} {p q : Publish π}
  {phase : PublishPhase}

/-- The publishes of a channel before one have succeeded. -/
def Clear (ps : List (Publish π)) (i : ℕ) (c : String) : Prop :=
  ∀ j p, j < i → ps[j]? = some p → p.channel = c → p.phase = .settled true

def Over (ps : List (Publish π)) (i : ℕ) (c : String) : Prop :=
  ∀ j p, j < i → ps[j]? = some p → p.channel = c → ∃ ok, p.phase = .settled ok

theorem Clear.over (h : Clear ps i c) : Over ps i c := fun j p hj hp hc => ⟨true, h j p hj hp hc⟩

/-- What the publishes and the tails say about each other. -/
structure Chained (w : EventsHost π) : Prop where
  first : ∀ {i : ℕ} {p : Publish π}, w.publishes[i]? = some p → p.previousTail = none →
    Clear w.publishes i p.channel
  next : ∀ {i k : ℕ} {p : Publish π}, w.publishes[i]? = some p → p.previousTail = some k → k < i ∧
    (∃ q, w.publishes[k]? = some q ∧ q.channel = p.channel) ∧
      ∀ (j : ℕ) (q : Publish π), k < j → j < i → w.publishes[j]? = some q → q.channel ≠ p.channel
  ran : ∀ {i : ℕ} {p : Publish π}, w.publishes[i]? = some p → p.phase ≠ .queued →
    p.phase.failed = false → Clear w.publishes i p.channel
  earlier : ∀ {i : ℕ} {p : Publish π}, w.publishes[i]? = some p → p.phase ≠ .queued →
    Over w.publishes i p.channel
  tail : ∀ {c : String} {k : ℕ}, w.publishQueuesByChannel.get? c = some k →
    (∃ q, w.publishes[k]? = some q ∧ q.channel = c) ∧
      ∀ (j : ℕ) (q : Publish π), k < j → w.publishes[j]? = some q → q.channel ≠ c
  noTail : ∀ {c : String}, w.publishQueuesByChannel.get? c = none → ∀ i, Clear w.publishes i c

theorem publish_setPhase (h : (w.setPhase i phase).publishes[k]? = some q) :
    ∃ p, w.publishes[k]? = some p ∧ q.channel = p.channel ∧ q.previousTail = p.previousTail ∧
      (k = i ∧ q.phase = phase ∨ k ≠ i ∧ q = p) := by
  rw [setPhase, getElem?_modify] at h
  obtain ⟨p, hp, rfl⟩ := Option.map_eq_some_iff.mp h
  refine ⟨p, hp, ?_⟩
  rcases eq_or_ne k i with rfl | hne
  · rw [if_pos rfl]
    exact ⟨rfl, rfl, .inl ⟨rfl, rfl⟩⟩
  · rw [if_neg hne.symm]
    exact ⟨rfl, rfl, .inr ⟨hne, rfl⟩⟩

theorem publish_setPhase_of (i : ℕ) (phase : PublishPhase) (h : w.publishes[k]? = some p) :
    ∃ q, (w.setPhase i phase).publishes[k]? = some q ∧ q.channel = p.channel := by
  rw [setPhase, getElem?_modify, h]
  refine ⟨_, rfl, ?_⟩
  split <;> rfl

theorem Clear.setPhase (h : Clear w.publishes j c) (hi : w.publishes[i]? = some p)
    (hp : ∀ ok, p.phase ≠ .settled ok) : Clear (w.setPhase i phase).publishes j c := by
  intro k q hk hq hc
  obtain ⟨p', hp', hchannel, -, ⟨rfl, -⟩ | ⟨-, rfl⟩⟩ := publish_setPhase hq
  · cases hi.symm.trans hp'
    exact absurd (h k p hk hi (hchannel ▸ hc)) (hp true)
  · exact h k q hk hp' hc

theorem Over.setPhase (h : Over w.publishes j c) (hi : w.publishes[i]? = some p)
    (hp : ∀ ok, p.phase ≠ .settled ok) : Over (w.setPhase i phase).publishes j c := by
  intro k q hk hq hc
  obtain ⟨p', hp', hchannel, -, ⟨rfl, -⟩ | ⟨-, rfl⟩⟩ := publish_setPhase hq
  · cases hi.symm.trans hp'
    obtain ⟨ok, hok⟩ := h k p hk hi (hchannel ▸ hc)
    exact absurd hok (hp ok)
  · exact h k q hk hp' hc

theorem Chained.setPhase (h : Chained w) (hi : w.publishes[i]? = some p)
    (hp : ∀ ok, p.phase ≠ .settled ok)
    (hran : phase.failed = false → Clear w.publishes i p.channel)
    (hover : Over w.publishes i p.channel) : Chained (w.setPhase i phase) := by
  have hnone : ∀ (k : ℕ) (c : String) (j : ℕ),
      (∀ j' q, k < j' → j' < j → w.publishes[j']? = some q → q.channel ≠ c) →
      ∀ j' q, k < j' → j' < j → (w.setPhase i phase).publishes[j']? = some q → q.channel ≠ c := by
    intro k c j hother j' q hj hj' hq
    obtain ⟨p', hp', hchannel, -⟩ := publish_setPhase hq
    rw [hchannel]
    exact hother j' p' hj hj' hp'
  refine ⟨fun {k q} hq hprevious => ?_, fun {k k' q} hq hprevious => ?_, fun {k q} hq hqueued hfail => ?_,
    fun {k q} hq hqueued => ?_, fun {c k} htail => ?_, fun {c} htail j => ?_⟩
  · obtain ⟨p', hp', hchannel, hprev, -⟩ := publish_setPhase hq
    rw [hchannel]
    exact (h.first hp' (hprev ▸ hprevious)).setPhase hi hp
  · obtain ⟨p', hp', hchannel, hprev, -⟩ := publish_setPhase hq
    obtain ⟨hlt, ⟨r, hr, hrchannel⟩, hother⟩ := h.next hp' (hprev ▸ hprevious)
    obtain ⟨r', hr', hr'channel⟩ := publish_setPhase_of i phase hr
    rw [hchannel]
    exact ⟨hlt, ⟨r', hr', hr'channel.trans hrchannel⟩, hnone k' p'.channel k hother⟩
  · obtain ⟨p', hp', hchannel, -, ⟨rfl, hphase⟩ | ⟨-, rfl⟩⟩ := publish_setPhase hq
    · cases hi.symm.trans hp'
      rw [hchannel]
      exact (hran (hphase ▸ hfail)).setPhase hi hp
    · exact (h.ran hp' hqueued hfail).setPhase hi hp
  · obtain ⟨p', hp', hchannel, -, ⟨rfl, -⟩ | ⟨-, rfl⟩⟩ := publish_setPhase hq
    · cases hi.symm.trans hp'
      rw [hchannel]
      exact hover.setPhase hi hp
    · exact (h.earlier hp' hqueued).setPhase hi hp
  · obtain ⟨⟨r, hr, hrchannel⟩, hother⟩ := h.tail htail
    obtain ⟨r', hr', hr'channel⟩ := publish_setPhase_of i phase hr
    refine ⟨⟨r', hr', hr'channel.trans hrchannel⟩, fun j q hj hq => ?_⟩
    obtain ⟨p', hp', hchannel, -⟩ := publish_setPhase hq
    rw [hchannel]
    exact hother j p' hj hp'
  · exact (h.noTail htail j).setPhase hi hp

variable {x : Publish π}

theorem publish_concat (h : (ps ++ [x])[j]? = some q) :
    ps[j]? = some q ∨ j = ps.length ∧ q = x := by
  rw [getElem?_append] at h
  split at h
  · exact .inl h
  · rw [getElem?_singleton] at h
    split at h
    · exact .inr ⟨by omega, (Option.some.inj h).symm⟩
    · cases h

theorem lt_of_publish (h : ps[j]? = some q) : j < ps.length := (List.getElem?_eq_some_iff.mp h).1

theorem publish_append (h : ps[j]? = some q) : (ps ++ [x])[j]? = some q :=
  (getElem?_append_left (lt_of_publish h)).trans h

theorem Clear.concat (h : Clear ps i c) (hi : i ≤ ps.length) : Clear (ps ++ [x]) i c := by
  intro j q hj hq hc
  rcases publish_concat hq with hq | ⟨rfl, -⟩
  · exact h j q hj hq hc
  · omega

theorem Over.concat (h : Over ps i c) (hi : i ≤ ps.length) : Over (ps ++ [x]) i c := by
  intro j q hj hq hc
  rcases publish_concat hq with hq | ⟨rfl, -⟩
  · exact h j q hj hq hc
  · omega

theorem Chained.queuePublish (h : Chained w) (channel : String) (content : PublishContent π) :
    Chained (w.queuePublish channel content) := by
  have hnew : w.publishQueuesByChannel.get? channel = none →
      Clear w.publishes w.publishes.length channel := fun hnone => h.noTail hnone _
  refine ⟨fun {k q} hq hprevious => ?_, fun {k k' q} hq hprevious => ?_, fun {k q} hq hqueued hfail => ?_,
    fun {k q} hq hqueued => ?_, fun {c k} htail => ?_, fun {c} htail j => ?_⟩
  · rcases publish_concat hq with hq | ⟨rfl, rfl⟩
    · exact (h.first hq hprevious).concat (lt_of_publish hq).le
    · exact (hnew hprevious).concat le_rfl
  · rcases publish_concat hq with hq | ⟨rfl, rfl⟩
    · obtain ⟨hlt, ⟨r, hr, hrchannel⟩, hother⟩ := h.next hq hprevious
      refine ⟨hlt, ⟨r, publish_append hr, hrchannel⟩, fun j q' hj hj' hq' => ?_⟩
      rcases publish_concat hq' with hq' | ⟨rfl, -⟩
      · exact hother j q' hj hj' hq'
      · exact absurd (lt_of_publish hq) (by omega)
    · obtain ⟨⟨r, hr, hrchannel⟩, hother⟩ := h.tail hprevious
      refine ⟨lt_of_publish hr, ⟨r, publish_append hr, hrchannel⟩, fun j q' hj hj' hq' => ?_⟩
      rcases publish_concat hq' with hq' | ⟨rfl, -⟩
      · exact hother j q' hj hq'
      · exact absurd hj' (Nat.lt_irrefl _)
  · rcases publish_concat hq with hq | ⟨rfl, rfl⟩
    · exact (h.ran hq hqueued hfail).concat (lt_of_publish hq).le
    · exact absurd rfl hqueued
  · rcases publish_concat hq with hq | ⟨rfl, rfl⟩
    · exact (h.earlier hq hqueued).concat (lt_of_publish hq).le
    · exact absurd rfl hqueued
  · rw [EventsHost.queuePublish, EntryMap.get?_set] at htail
    split at htail
    · rename_i hc
      cases htail
      refine ⟨⟨_, getElem?_concat_length, hc.symm⟩, fun j q hj hq => ?_⟩
      have hlt : j < (w.publishes ++ [_]).length := lt_of_publish hq
      rw [length_append, length_singleton] at hlt
      omega
    · rename_i hc
      obtain ⟨⟨r, hr, hrchannel⟩, hother⟩ := h.tail htail
      refine ⟨⟨r, publish_append hr, hrchannel⟩, fun j q hj hq => ?_⟩
      rcases publish_concat hq with hq | ⟨-, rfl⟩
      · exact hother j q hj hq
      · exact Ne.symm hc
  · rw [EventsHost.queuePublish, EntryMap.get?_set] at htail
    split at htail
    · cases htail
    · rename_i hc
      intro j' q hj hq hchannel
      rcases publish_concat hq with hq | ⟨-, rfl⟩
      · exact h.noTail htail j j' q hj hq hchannel
      · exact absurd hchannel.symm hc

section
variable (h : Chained w) (hi : w.publishes[i]? = some p) (hp : p.phase = .settled true)
  (htail : w.publishQueuesByChannel.get? p.channel = some i)
include h hi hp htail

theorem Chained.allClear (n : ℕ) :
    Clear w.publishes n p.channel := by
  intro j q hj hq hc
  rcases lt_trichotomy j i with hlt | rfl | hgt
  · exact h.ran hi (by rw [hp]; nofun) (by rw [hp]; rfl) j q hlt hq hc
  · cases hi.symm.trans hq
    exact hp
  · exact absurd hc ((h.tail htail).2 j q hgt hq)

theorem Chained.removeTail :
    Chained { w with publishQueuesByChannel := w.publishQueuesByChannel.delete p.channel } := by
  refine ⟨h.first, h.next, h.ran, h.earlier, fun {c k} hk => ?_, fun {c} hnone j => ?_⟩
  · rw [EntryMap.get?_delete] at hk
    split at hk
    · cases hk
    · exact h.tail hk
  · rw [EntryMap.get?_delete] at hnone
    split at hnone
    · rename_i hc
      rw [hc]
      exact h.allClear hi hp htail j
    · exact h.noTail hnone j

end

theorem Chained.tailResult (h : Chained w) {ok : Bool} (hi : w.publishes[i]? = some p)
    (hresult : w.tailResult p.previousTail = some ok) :
    Over w.publishes i p.channel ∧ (ok = true → Clear w.publishes i p.channel) := by
  cases hprevious : p.previousTail with
  | none =>
    have hclear := h.first hi hprevious
    exact ⟨hclear.over, fun _ => hclear⟩
  | some k =>
    rw [hprevious, EventsHost.tailResult, phase?] at hresult
    obtain ⟨hlt, ⟨q, hq, hqchannel⟩, hother⟩ := h.next hi hprevious
    rw [hq] at hresult
    have hsettled : q.phase = .settled ok := by
      cases hphase : q.phase with
      | settled ok' =>
        simp only [Option.map_some, hphase] at hresult
        rw [Option.some.inj hresult]
      | queued | persisting | finished => simp [hphase] at hresult
    have hbetween : ∀ j r, k < j → j < i → w.publishes[j]? = some r → r.channel ≠ p.channel := hother
    constructor
    · intro j r hj hr hc
      rcases lt_trichotomy j k with hlt | rfl | hgt
      · exact h.earlier hq (by rw [hsettled]; nofun) j r hlt hr (hc.trans hqchannel.symm)
      · cases hq.symm.trans hr
        exact ⟨ok, hsettled⟩
      · exact absurd hc (hbetween j r hgt hj hr)
    · rintro rfl j r hj hr hc
      rcases lt_trichotomy j k with hlt | rfl | hgt
      · exact h.ran hq (by rw [hsettled]; nofun) (by rw [hsettled]; rfl) j r hlt hr
          (hc.trans hqchannel.symm)
      · cases hq.symm.trans hr
        exact hsettled
      · exact absurd hc (hbetween j r hgt hj hr)

/-- What the logs say about the publishes. -/
structure Logged (w : EventsHost π) : Prop where
  logged : ∀ e ∈ w.eventLog, (∃ p, w.publishes[e.publish]? = some p ∧ p.channel = e.channel ∧
    p.phase ≠ .queued ∧ p.phase ≠ .persisting none) ∧ Clear w.publishes e.publish e.channel
  logOrder : w.eventLog.Pairwise fun d e => d.channel = e.channel → d.publish < e.publish
  stored : ∀ {i e : ℕ} {p : Publish π}, w.publishes[i]? = some p → p.phase = .persisting (some e) →
    w.eventLog[e]? = some ⟨p.channel, i⟩
  dispatched : ∀ d ∈ w.dispatched, (∃ p, w.publishes[d.publish]? = some p ∧ p.channel = d.channel ∧
    p.phase.isOver = true) ∧ Clear w.publishes d.publish d.channel ∧
      ∀ e, d.eventId = some e → w.eventLog[e]? = some ⟨d.channel, d.publish⟩
  order : w.dispatched.Pairwise fun d e => d.channel = e.channel → d.publish ≤ e.publish
  once : (w.dispatched.map fun d => (d.publish, d.handler)).Nodup
  handlers : (w.handlers.map (·.id)).Nodup

/-- The step of a publish: its next phase, and what it adds to the logs. -/
structure Adds (w : EventsHost π) (i : ℕ) (p : Publish π) (phase : PublishPhase)
    (ls : List LoggedEvent) (ds : List Dispatch) : Prop where
  notQueued : phase ≠ .queued
  notReset : phase = .persisting none → p.phase = .queued
  isOver : p.phase.isOver = true → phase.isOver = true
  stored : ∀ e, phase = .persisting (some e) → (w.eventLog ++ ls)[e]? = some ⟨p.channel, i⟩
  logs : ls = [] ∨ ls = [⟨p.channel, i⟩] ∧ p.phase = .persisting none ∧ phase ≠ .persisting none
  dispatches : ∀ d ∈ ds, p.phase.isOver = false ∧ p.phase ≠ .queued ∧ phase.isOver = true ∧
    d.channel = p.channel ∧ d.publish = i ∧
      ∀ e, d.eventId = some e → w.eventLog[e]? = some ⟨p.channel, i⟩
  handlers : (ds.map (·.handler)).Nodup

theorem le_of_clear (hi : w.publishes[i]? = some p) (hp : ∀ ok, p.phase ≠ .settled ok)
    (hclear : Clear w.publishes k p.channel) : k ≤ i := by
  by_contra hlt
  exact hp true (hclear i p (by omega) hi rfl)

theorem Logged.add {ls : List LoggedEvent} {ds : List Dispatch} (h : Logged w) (hc : Chained w)
    (hi : w.publishes[i]? = some p) (hp : ∀ ok, p.phase ≠ .settled ok)
    (ha : Adds w i p phase ls ds) :
    Logged { w.setPhase i phase with
      eventLog := w.eventLog ++ ls, dispatched := w.dispatched ++ ds } := by
  have hself : ∃ q, (w.setPhase i phase).publishes[i]? = some q ∧ q.channel = p.channel ∧
      q.phase = phase := by
    refine ⟨{ p with phase }, ?_, rfl, rfl⟩
    rw [setPhase, getElem?_modify, hi]
    simp
  have hother : ∀ {k : ℕ} {q : Publish π}, w.publishes[k]? = some q → k ≠ i →
      (w.setPhase i phase).publishes[k]? = some q := by
    intro k q hq hne
    rw [setPhase, getElem?_modify, hq]
    simp [hne.symm]
  have hrunning : p.phase.isOver = false → p.phase ≠ .queued → Clear w.publishes i p.channel := by
    intro hover hqueued
    refine hc.ran hi hqueued ?_
    cases hphase : p.phase with
    | queued | persisting => rfl
    | finished | settled => rw [hphase] at hover; cases hover
  have hlog : ∀ e ∈ ls, e = ⟨p.channel, i⟩ ∧ p.phase = .persisting none ∧ phase ≠ .persisting none := by
    intro e he
    rcases ha.logs with rfl | ⟨rfl, hphase, hnot⟩
    · cases he
    · exact ⟨mem_singleton.mp he, hphase, hnot⟩
  refine ⟨?_, ?_, ?_, ?_, ?_, ?_, h.handlers⟩
  · intro e he
    rcases mem_append.mp he with he | he
    · obtain ⟨⟨q, hq, hqc, hqueued, hnone⟩, hclear⟩ := h.logged e he
      refine ⟨?_, hclear.setPhase hi hp⟩
      rcases eq_or_ne e.publish i with heq | hne
      · obtain ⟨q', hq', hq'c, hq'phase⟩ := hself
        rw [heq] at hq ⊢
        cases hi.symm.trans hq
        refine ⟨q', hq', hq'c.trans hqc, hq'phase ▸ ha.notQueued, fun hreset => ?_⟩
        exact hqueued (ha.notReset (hq'phase.symm.trans hreset))
      · exact ⟨q, hother hq hne, hqc, hqueued, hnone⟩
    · obtain ⟨rfl, hphase, hnot⟩ := hlog e he
      obtain ⟨q', hq', hq'c, hq'phase⟩ := hself
      refine ⟨⟨q', hq', hq'c, hq'phase ▸ ha.notQueued, hq'phase ▸ hnot⟩, ?_⟩
      exact (hrunning (by rw [hphase]; rfl) (by rw [hphase]; nofun)).setPhase hi hp
  · refine pairwise_append.mpr ⟨h.logOrder, ?_, fun d hd e he hchannel => ?_⟩
    · rcases ha.logs with rfl | ⟨rfl, -⟩
      · exact .nil
      · exact pairwise_singleton _ _
    · obtain ⟨rfl, hphase, -⟩ := hlog e he
      obtain ⟨⟨q, hq, -, -, hnone⟩, hclear⟩ := h.logged d hd
      have hchannel' : d.channel = p.channel := hchannel
      rw [hchannel'] at hclear
      refine lt_of_le_of_ne (le_of_clear hi hp hclear) fun heq => hnone ?_
      rw [show d.publish = i from heq] at hq
      cases hi.symm.trans hq
      exact hphase
  · intro k e q hq hphase
    obtain ⟨p', hp', hqc, -, ⟨rfl, hqphase⟩ | ⟨-, rfl⟩⟩ := publish_setPhase hq
    · cases hi.symm.trans hp'
      rw [hqc]
      exact ha.stored e (hqphase.symm.trans hphase)
    · have hold := h.stored hp' hphase
      exact (List.getElem?_append_left (List.getElem?_eq_some_iff.mp hold).1).trans hold
  · intro d hd
    rcases mem_append.mp hd with hd | hd
    · obtain ⟨⟨q, hq, hqc, hover⟩, hclear, hevent⟩ := h.dispatched d hd
      refine ⟨?_, hclear.setPhase hi hp, fun e he => ?_⟩
      · rcases eq_or_ne d.publish i with heq | hne
        · obtain ⟨q', hq', hq'c, hq'phase⟩ := hself
          rw [heq] at hq ⊢
          cases hi.symm.trans hq
          exact ⟨q', hq', hq'c.trans hqc, hq'phase ▸ ha.isOver hover⟩
        · exact ⟨q, hother hq hne, hqc, hover⟩
      · have hold := hevent e he
        exact (List.getElem?_append_left (List.getElem?_eq_some_iff.mp hold).1).trans hold
    · obtain ⟨hover, hqueued, hover', hchannel, rfl, hevent⟩ := ha.dispatches d hd
      obtain ⟨q', hq', hq'c, hq'phase⟩ := hself
      refine ⟨⟨q', hq', hq'c.trans hchannel.symm, hq'phase ▸ hover'⟩, ?_, fun e he => ?_⟩
      · rw [hchannel]
        exact (hrunning hover hqueued).setPhase hi hp
      · have hold := hevent e he
        rw [hchannel]
        exact (List.getElem?_append_left (List.getElem?_eq_some_iff.mp hold).1).trans hold
  · refine pairwise_append.mpr ⟨h.order, ?_, fun d hd e he hchannel => ?_⟩
    · refine pairwise_of_forall_mem_list fun d hd e he _ => ?_
      rw [(ha.dispatches d hd).2.2.2.2.1, (ha.dispatches e he).2.2.2.2.1]
    · obtain ⟨-, -, -, hec, rfl, -⟩ := ha.dispatches e he
      obtain ⟨-, hclear, -⟩ := h.dispatched d hd
      rw [hchannel.trans hec] at hclear
      exact le_of_clear hi hp hclear
  · rw [map_append]
    refine nodup_append.mpr ⟨h.once, ?_, ?_⟩
    · refine List.Nodup.of_map Prod.snd ?_
      rw [map_map]
      exact ha.handlers
    · intro x hx y hy hxy
      obtain ⟨d, hd, rfl⟩ := mem_map.mp hx
      obtain ⟨e, he, rfl⟩ := mem_map.mp hy
      obtain ⟨hover, -, -, -, hei, -⟩ := ha.dispatches e he
      obtain ⟨⟨q, hq, -, hqover⟩, -⟩ := h.dispatched d hd
      -- the publish of an earlier dispatch is over
      rw [(Prod.mk.inj hxy).1, hei, hi] at hq
      cases hq
      rw [hover] at hqover
      cases hqover

/-- What a call of `awaitPendingBroadcasts` waits for, and what it says. -/
structure Awaits (w : EventsHost π) (b : PendingBroadcasts) : Prop where
  before_le : b.before ≤ w.publishes.length
  snapshot_lt : ∀ k ∈ b.snapshot, k < b.before
  covered : ∀ (j : ℕ) (p : Publish π), j < b.before → w.publishes[j]? = some p →
    p.phase = .settled true ∨
      ∃ k ∈ b.snapshot, j ≤ k ∧ ∃ q, w.publishes[k]? = some q ∧ q.channel = p.channel
  outcome : ∀ ok, b.outcome = some ok → ∀ (j : ℕ) (p : Publish π), j < b.before →
    w.publishes[j]? = some p → (∃ r, p.phase = .settled r) ∧ (ok = true → p.phase = .settled true)

variable {b : PendingBroadcasts}

theorem Awaits.setPhase (h : Awaits w b) (hi : w.publishes[i]? = some p)
    (hp : ∀ ok, p.phase ≠ .settled ok) : Awaits (w.setPhase i phase) b := by
  refine ⟨?_, h.snapshot_lt, fun j q hj hq => ?_, fun ok hok j q hj hq => ?_⟩
  · rw [EventsHost.setPhase, length_modify]
    exact h.before_le
  · obtain ⟨p', hp', hchannel, -, hcase⟩ := publish_setPhase hq
    have hcovered : (∃ k ∈ b.snapshot, j ≤ k ∧ ∃ q, w.publishes[k]? = some q ∧ q.channel = p'.channel) →
        ∃ k ∈ b.snapshot, j ≤ k ∧
          ∃ r, (w.setPhase i phase).publishes[k]? = some r ∧ r.channel = q.channel := by
      rintro ⟨k, hk, hjk, r, hr, hrc⟩
      obtain ⟨r', hr', hr'c⟩ := publish_setPhase_of i phase hr
      exact ⟨k, hk, hjk, r', hr', hr'c.trans (hrc.trans hchannel.symm)⟩
    rcases hcase with ⟨rfl, -⟩ | ⟨-, rfl⟩
    · cases hi.symm.trans hp'
      exact .inr (hcovered ((h.covered j p hj hi).resolve_left (hp true)))
    · exact (h.covered j q hj hp').imp_right hcovered
  · obtain ⟨p', hp', -, -, ⟨rfl, -⟩ | ⟨-, rfl⟩⟩ := publish_setPhase hq
    · obtain ⟨⟨r, hr⟩, -⟩ := h.outcome ok hok j p hj hi
      exact absurd hr (hp r)
    · exact h.outcome ok hok j q hj hp'

theorem Awaits.queuePublish (h : Awaits w b) (channel : String)
    (content : PublishContent π) : Awaits (w.queuePublish channel content) b := by
  have hle := h.before_le
  have hold : ∀ {j : ℕ} {q : Publish π}, j < b.before →
      (w.queuePublish channel content).publishes[j]? = some q → w.publishes[j]? = some q := by
    intro j q hj hq
    rcases publish_concat hq with hq | ⟨rfl, -⟩
    · exact hq
    · omega
  refine ⟨?_, h.snapshot_lt, fun j q hj hq => ?_, fun ok hok j q hj hq => h.outcome ok hok j q hj (hold hj hq)⟩
  · rw [EventsHost.queuePublish, length_append]
    omega
  · refine (h.covered j q hj (hold hj hq)).imp_right ?_
    rintro ⟨k, hk, hjk, r, hr, hrc⟩
    exact ⟨k, hk, hjk, r, publish_append hr, hrc⟩

theorem Chained.awaits (h : Chained w) :
    Awaits w ⟨w.publishes.length, w.publishQueuesByChannel.values, none⟩ := by
  refine ⟨le_rfl, fun k hk => ?_, fun j p hj hp => ?_, fun ok hok => by cases hok⟩
  · obtain ⟨c, hc⟩ := EntryMap.mem_values.mp hk
    obtain ⟨⟨q, hq, -⟩, -⟩ := h.tail hc
    exact lt_of_publish hq
  · cases htail : w.publishQueuesByChannel.get? p.channel with
    | none => exact .inl (h.noTail htail (j + 1) j p (Nat.lt_succ_self j) hp rfl)
    | some k =>
      obtain ⟨hk, hlast⟩ := h.tail htail
      refine .inr ⟨k, EntryMap.mem_values.mpr ⟨_, htail⟩, ?_, hk⟩
      by_contra hlt
      exact hlast j p (by omega) hp rfl

theorem tailResult_settled {ok : Bool} (h : w.tailResult (some k) = some ok) :
    ∃ q, w.publishes[k]? = some q ∧ q.phase = .settled ok := by
  rw [tailResult, phase?] at h
  cases hq : w.publishes[k]? with
  | none => simp [hq] at h
  | some q =>
    refine ⟨q, rfl, ?_⟩
    cases hphase : q.phase with
    | settled ok' =>
      simp only [hq, Option.map_some, hphase] at h
      rw [Option.some.inj h]
    | queued | persisting | finished => simp [hq, hphase] at h

theorem Awaits.resolve (h : Awaits w b) (hc : Chained w)
    (hsettled : (b.snapshot.all fun k => (w.tailResult (some k)).isSome) = true) :
    Awaits w { b with outcome := some (b.snapshot.all fun k => w.tailResult (some k) = some true) } := by
  refine ⟨h.before_le, h.snapshot_lt, h.covered, fun ok hok j p hj hp => ?_⟩
  have hresult : ∀ k ∈ b.snapshot, ∃ r q, w.publishes[k]? = some q ∧ q.phase = .settled r ∧
      (ok = true → r = true) := by
    intro k hk
    obtain ⟨r, hr⟩ := Option.isSome_iff_exists.mp (all_eq_true.mp hsettled k hk)
    obtain ⟨q, hq, hphase⟩ := tailResult_settled hr
    refine ⟨r, q, hq, hphase, ?_⟩
    rintro rfl
    have htrue := all_eq_true.mp (Option.some.inj hok) k hk
    exact Option.some.inj (hr.symm.trans (of_decide_eq_true htrue))
  rcases h.covered j p hj hp with hok | ⟨k, hk, hjk, q, hq, hqc⟩
  · exact ⟨⟨true, hok⟩, fun _ => hok⟩
  · obtain ⟨r, q', hq', hphase, hrok⟩ := hresult k hk
    cases hq.symm.trans hq'
    rcases Nat.lt_or_eq_of_le hjk with hlt | rfl
    · refine ⟨hc.earlier hq (by rw [hphase]; nofun) j p hlt hp hqc.symm, fun htrue => ?_⟩
      have hr := hrok htrue
      subst hr
      exact hc.ran hq (by rw [hphase]; nofun) (by rw [hphase]; rfl) j p hlt hp hqc.symm
    · cases hq.symm.trans hp
      refine ⟨⟨r, hphase⟩, fun htrue => ?_⟩
      rw [hphase, hrok htrue]

/-! ## Steps -/

/-- What every step keeps. -/
structure Inv (w : EventsHost π) : Prop where
  chained : Chained w
  logged : Logged w
  awaits : ∀ b ∈ w.awaits, Awaits w b

theorem inv_start : Inv (start : EventsHost π) where
  chained := by
    refine ⟨fun h => ?_, fun h => ?_, fun h => ?_, fun h => ?_, fun h => ?_, fun _ i j p _ hp => ?_⟩
    · cases h
    · cases h
    · cases h
    · cases h
    · cases h
    · cases hp
  logged := by
    refine ⟨fun e he => ?_, .nil, fun h => ?_, fun d hd => ?_, .nil, .nil, .nil⟩
    · cases he
    · cases h
    · cases hd
  awaits b hb := by cases hb

theorem Chained.congr (h : Chained w) (hpublishes : w'.publishes = w.publishes)
    (htails : w'.publishQueuesByChannel = w.publishQueuesByChannel) : Chained w' := by
  refine ⟨?_, ?_, ?_, ?_, ?_, ?_⟩
  · rw [hpublishes]
    exact h.first
  · rw [hpublishes]
    exact h.next
  · rw [hpublishes]
    exact h.ran
  · rw [hpublishes]
    exact h.earlier
  · rw [hpublishes, htails]
    exact h.tail
  · rw [hpublishes, htails]
    exact h.noTail

theorem Awaits.congr (h : Awaits w b) (hpublishes : w'.publishes = w.publishes) : Awaits w' b := by
  refine ⟨?_, h.snapshot_lt, ?_, ?_⟩
  · rw [hpublishes]
    exact h.before_le
  · rw [hpublishes]
    exact h.covered
  · rw [hpublishes]
    exact h.outcome

theorem Inv.congr (h : Inv w) (hpublishes : w'.publishes = w.publishes) (htails : Chained w')
    (hlog : w'.eventLog = w.eventLog) (hdispatched : w'.dispatched = w.dispatched)
    (hhandlers : (w'.handlers.map (·.id)).Nodup) (hawaits : ∀ b ∈ w'.awaits, Awaits w b) : Inv w' := by
  refine ⟨htails, ⟨?_, ?_, ?_, ?_, ?_, ?_, hhandlers⟩, fun b hb => (hawaits b hb).congr hpublishes⟩
  · rw [hlog, hpublishes]
    exact h.logged.logged
  · rw [hlog]
    exact h.logged.logOrder
  · rw [hlog, hpublishes]
    exact h.logged.stored
  · rw [hdispatched, hlog, hpublishes]
    exact h.logged.dispatched
  · rw [hdispatched]
    exact h.logged.order
  · rw [hdispatched]
    exact h.logged.once

theorem Inv.add {ls : List LoggedEvent} {ds : List Dispatch} (h : Inv w)
    (hi : w.publishes[i]? = some p) (hp : ∀ ok, p.phase ≠ .settled ok)
    (hran : phase.failed = false → Clear w.publishes i p.channel)
    (hover : Over w.publishes i p.channel) (ha : Adds w i p phase ls ds) :
    Inv { w.setPhase i phase with
      eventLog := w.eventLog ++ ls, dispatched := w.dispatched ++ ds } := by
  have hawaits : ∀ b ∈ w.awaits, Awaits (w.setPhase i phase) b := fun b hb =>
    (h.awaits b hb).setPhase hi hp
  exact ⟨(h.chained.setPhase hi hp hran hover).congr rfl rfl, h.logged.add h.chained hi hp ha,
    fun b hb => (hawaits b hb).congr rfl⟩

theorem Inv.setPhase (h : Inv w) (hi : w.publishes[i]? = some p) (hp : ∀ ok, p.phase ≠ .settled ok)
    (hran : phase.failed = false → Clear w.publishes i p.channel)
    (hover : Over w.publishes i p.channel) (ha : Adds w i p phase [] []) : Inv (w.setPhase i phase) := by
  have hadd := h.add hi hp hran hover ha
  rw [append_nil, append_nil] at hadd
  exact hadd

theorem targets_nodup {handlers : List WorkerHandler} (h : (handlers.map (·.id)).Nodup)
    (content : PublishContent π) : ((targets handlers content).map (·.id)).Nodup := by
  cases content with
  | event payload => exact h
  | broadcastV2 params body configuration =>
    have hsub : ∀ (l acc : List WorkerHandler), ∃ kept, kept.Sublist l ∧
        l.foldl addTarget acc = acc ++ kept := by
      intro l
      induction l with
      | nil => exact fun acc => ⟨[], .slnil, (append_nil acc).symm⟩
      | cons handler l ih =>
        intro acc
        rw [foldl_cons, addTarget]
        split
        · obtain ⟨kept, hkept, heq⟩ := ih acc
          exact ⟨kept, hkept.cons handler, heq⟩
        · obtain ⟨kept, hkept, heq⟩ := ih (acc ++ [handler])
          exact ⟨handler :: kept, hkept.cons_cons handler, by rw [heq, append_assoc]; rfl⟩
    obtain ⟨kept, hkept, heq⟩ := hsub (handlers.filter (·.configuration = configuration)) []
    rw [targets, heq]
    exact ((hkept.trans filter_sublist).map _).nodup h

theorem Inv.dispatch {stored failAt : Option ℕ} (h : Inv w) (hi : w.publishes[i]? = some p)
    (hp : p.phase = .persisting stored) : Inv (w.dispatch i p stored failAt) := by
  have hnot : ∀ ok, p.phase ≠ .settled ok := by
    rw [hp]
    nofun
  have hclear : Clear w.publishes i p.channel :=
    h.chained.ran hi (by rw [hp]; nofun) (by rw [hp]; rfl)
  obtain ⟨ok, hok⟩ : ∃ ok : Bool, ok = decide (((targets w.handlers p.content).take
      (failAt.getD (targets w.handlers p.content).length)).length =
        (targets w.handlers p.content).length) := ⟨_, rfl⟩
  have hadds : Adds w i p (.finished ok) []
      (((targets w.handlers p.content).take (failAt.getD (targets w.handlers p.content).length)).map
        fun handler => ⟨p.channel, i, handler.id, stored⟩) := by
    refine ⟨nofun, nofun, fun _ => rfl, nofun, .inl rfl, fun d hd => ?_, ?_⟩
    · obtain ⟨handler, -, rfl⟩ := mem_map.mp hd
      refine ⟨by rw [hp]; rfl, by rw [hp]; nofun, rfl, rfl, rfl, ?_⟩
      rintro e rfl
      exact h.logged.stored hi hp
    · rw [map_map]
      exact (((take_sublist _ _).map _).nodup (targets_nodup h.logged.handlers p.content))
  have hadd := h.add hi hnot (fun _ => hclear) hclear.over hadds
  rw [append_nil, hok] at hadd
  exact hadd

theorem Inv.store (h : Inv w) (hi : w.publishes[i]? = some p) (hp : p.phase = .persisting none) :
    Inv { w.setPhase i (.persisting (some w.eventLog.length)) with
      eventLog := w.eventLog ++ [⟨p.channel, i⟩] } := by
  have hnot : ∀ ok, p.phase ≠ .settled ok := by
    rw [hp]
    nofun
  have hclear : Clear w.publishes i p.channel :=
    h.chained.ran hi (by rw [hp]; nofun) (by rw [hp]; rfl)
  have hadds : Adds w i p (.persisting (some w.eventLog.length)) [⟨p.channel, i⟩] [] := by
    refine ⟨nofun, nofun, fun hover => ?_, fun e he => ?_, .inr ⟨rfl, hp, nofun⟩, fun d hd => ?_, .nil⟩
    · rw [hp] at hover
      cases hover
    · cases PublishPhase.persisting.inj he
      exact getElem?_concat_length
    · cases hd
  have hadd := h.add hi hnot (fun _ => hclear) hclear.over hadds
  rw [append_nil] at hadd
  exact hadd

theorem Inv.queuePublish (h : Inv w) (channel : String) (content : PublishContent π) :
    Inv (w.queuePublish channel content) := by
  have hl := h.logged
  have hlt : ∀ {k : ℕ} {q : Publish π}, w.publishes[k]? = some q → k ≤ w.publishes.length :=
    fun hq => (lt_of_publish hq).le
  refine ⟨h.chained.queuePublish channel content, ⟨fun e he => ?_, hl.logOrder, fun {k e q} hq hphase => ?_,
    fun d hd => ?_, hl.order, hl.once, hl.handlers⟩, fun b hb => (h.awaits b hb).queuePublish channel content⟩
  · obtain ⟨⟨q, hq, hrest⟩, hclear⟩ := hl.logged e he
    exact ⟨⟨q, publish_append hq, hrest⟩, hclear.concat (hlt hq)⟩
  · rcases publish_concat hq with hq | ⟨rfl, rfl⟩
    · exact hl.stored hq hphase
    · cases hphase
  · obtain ⟨⟨q, hq, hrest⟩, hclear, hevent⟩ := hl.dispatched d hd
    exact ⟨⟨q, publish_append hq, hrest⟩, hclear.concat (hlt hq), hevent⟩

theorem Inv.finish (h : Inv w) (hi : w.publishes[i]? = some p) (hp : ∀ ok, p.phase ≠ .settled ok)
    (hqueued : phase ≠ .queued) (hpersisting : ∀ stored, phase ≠ .persisting stored)
    (hover : p.phase.isOver = true → phase.isOver = true)
    (hran : phase.failed = false → Clear w.publishes i p.channel)
    (hearlier : Over w.publishes i p.channel) : Inv (w.setPhase i phase) :=
  h.setPhase hi hp hran hearlier ⟨hqueued, fun hreset => absurd hreset (hpersisting none), hover,
    fun _ he => absurd he (hpersisting _), .inl rfl, fun _ hd => absurd hd not_mem_nil, .nil⟩

theorem inv_step {a : HostAct π} (h : Inv w) (hstep : step w a = some w') : Inv w' := by
  have hl := h.logged
  cases a with
  | register handler =>
    simp only [step] at hstep
    split at hstep
    · cases hstep
    · rename_i hnew
      cases hstep
      refine h.congr rfl (h.chained.congr rfl rfl) rfl rfl ?_ h.awaits
      rw [map_append]
      refine nodup_append.mpr ⟨hl.handlers, nodup_singleton _, ?_⟩
      intro id hid id' hid' heq
      obtain ⟨handler', hmem, rfl⟩ := mem_map.mp hid
      refine hnew (any_eq_true.mpr ⟨handler', hmem, decide_eq_true ?_⟩)
      exact heq.trans (mem_singleton.mp hid')
  | unregister id =>
    cases hstep
    exact h.congr rfl (h.chained.congr rfl rfl) rfl rfl ((filter_sublist.map _).nodup hl.handlers)
      h.awaits
  | publish channel content =>
    cases hstep
    exact h.queuePublish channel content
  | start i =>
    simp only [step] at hstep
    split at hstep
    · rename_i channel content previousTail hi
      have hnot : ∀ ok, (⟨channel, content, previousTail, .queued⟩ : Publish π).phase ≠ .settled ok :=
        nofun
      split at hstep
      · rename_i hresult
        cases hstep
        obtain ⟨hover, hclear⟩ := h.chained.tailResult hi hresult
        exact h.setPhase hi hnot (fun _ => hclear rfl) hover
          ⟨nofun, fun _ => rfl, nofun, nofun, .inl rfl, fun _ hd => absurd hd not_mem_nil, .nil⟩
      · rename_i hresult
        cases hstep
        obtain ⟨hover, -⟩ := h.chained.tailResult hi hresult
        exact h.finish hi hnot nofun nofun (fun _ => rfl) nofun hover
      · cases hstep
    · cases hstep
  | store i =>
    simp only [step] at hstep
    split at hstep
    · rename_i channel content previousTail hi
      cases hstep
      exact h.store hi rfl
    · cases hstep
  | persisted i ok failAt =>
    simp only [step] at hstep
    split at hstep
    · rename_i channel content previousTail stored hi
      split at hstep
      · cases hstep
        exact h.dispatch hi rfl
      · cases hstep
        have hclear := h.chained.ran hi nofun rfl
        exact h.finish hi nofun nofun nofun (fun _ => rfl) nofun hclear.over
    · cases hstep
  | settle i =>
    simp only [step] at hstep
    split at hstep
    · rename_i channel content previousTail ok hi
      cases hstep
      refine h.finish hi nofun nofun nofun (fun _ => rfl) (fun hfail => ?_) (h.chained.earlier hi nofun)
      exact h.chained.ran hi nofun hfail
    · cases hstep
  | removeTail i =>
    simp only [step] at hstep
    split at hstep
    · rename_i channel content previousTail hi
      split at hstep
      · rename_i htail
        cases hstep
        exact h.congr rfl (h.chained.removeTail hi rfl htail) rfl rfl hl.handlers h.awaits
      · cases hstep
        exact h
    · cases hstep
  | awaitPendingBroadcasts =>
    cases hstep
    refine h.congr rfl (h.chained.congr rfl rfl) rfl rfl hl.handlers fun b hb => ?_
    rcases mem_append.mp hb with hb | hb
    · exact h.awaits b hb
    · obtain rfl := mem_singleton.mp hb
      exact h.chained.awaits
  | resolve b =>
    simp only [step] at hstep
    split at hstep
    · rename_i before snapshot hb
      split at hstep
      · rename_i hsettled
        cases hstep
        refine h.congr rfl (h.chained.congr rfl rfl) rfl rfl hl.handlers fun b' hb' => ?_
        rcases mem_or_eq_of_mem_set hb' with hb' | rfl
        · exact h.awaits b' hb'
        · exact (h.awaits _ (mem_of_getElem? hb)).resolve h.chained hsettled
      · cases hstep
    · cases hstep

theorem inv_run {as : List (HostAct π)} (h : runActions step start as = some w) : Inv w :=
  runActions_keeps (fun _ _ _ hi hs => inv_step hi hs) inv_start h

end

/-! ## Runs -/

def about : HostAct π → Option ℕ
  | .start i | .store i | .persisted i _ _ | .settle i | .removeTail i => some i
  | .register _ | .unregister _ | .publish _ _ | .awaitPendingBroadcasts | .resolve _ => none

section
variable {w w' : EventsHost π} {i : ℕ} {p : Publish π} {phase : PublishPhase}

theorem publish_self (hi : w.publishes[i]? = some p) :
    (w.setPhase i phase).publishes[i]? = some { p with phase } := by
  rw [setPhase, getElem?_modify, hi]
  simp

/-- A publish of its own steps succeeds. -/
def Succeeds (w : EventsHost π) (i : ℕ) : Prop :=
  ∃ as w', (∀ a ∈ as, about a = some i) ∧ runActions step w as = some w' ∧
    ∃ p, w'.publishes[i]? = some p ∧ p.phase = .settled true

theorem Succeeds.cons {a : HostAct π} (ha : about a = some i) (hstep : step w a = some w')
    (h : Succeeds w' i) : Succeeds w i := by
  obtain ⟨as, w'', has, hrun, hp⟩ := h
  refine ⟨a :: as, w'', fun b hb => ?_, runActions_cons.mpr ⟨w', hstep, hrun⟩, hp⟩
  rcases mem_cons.mp hb with rfl | hb
  · exact ha
  · exact has b hb

theorem succeeds_of_finished (hi : w.publishes[i]? = some p) (hp : p.phase = .finished true) :
    Succeeds w i := by
  obtain ⟨channel, content, previousTail, phase⟩ := p
  obtain rfl : phase = .finished true := hp
  have hsettled : Succeeds (w.setPhase i (.settled true)) i :=
    ⟨[], _, nofun, rfl, _, publish_self hi, rfl⟩
  refine hsettled.cons (a := .settle i) rfl ?_
  simp only [step, hi]

theorem succeeds_of_persisting {stored : Option ℕ} (hi : w.publishes[i]? = some p)
    (hp : p.phase = .persisting stored) : Succeeds w i := by
  obtain ⟨channel, content, previousTail, phase⟩ := p
  obtain rfl : phase = .persisting stored := hp
  have hdispatched : Succeeds (w.dispatch i ⟨channel, content, previousTail, .persisting stored⟩ stored
      none) i := succeeds_of_finished (publish_self hi) (by simp)
  refine hdispatched.cons (a := .persisted i true none) rfl ?_
  simp only [step, hi]
  rfl

/-- **Only the publishes before it on its channel can hold up a publish.** -/
theorem Inv.succeeds (h : Inv w) (hi : w.publishes[i]? = some p) (hp : p.phase.failed = false)
    (hclear : Clear w.publishes i p.channel) : Succeeds w i := by
  cases hphase : p.phase with
  | queued =>
    have hresult : w.tailResult p.previousTail = some true := by
      cases hprevious : p.previousTail with
      | none => rfl
      | some k =>
        obtain ⟨hlt, ⟨q, hq, hqc⟩, -⟩ := h.chained.next hi hprevious
        rw [tailResult, phase?, hq]
        simp [hclear k q hlt hq hqc]
    obtain ⟨channel, content, previousTail, phase⟩ := p
    obtain rfl : phase = .queued := hphase
    have hstarted : Succeeds (w.setPhase i (.persisting none)) i :=
      succeeds_of_persisting (publish_self hi) rfl
    refine hstarted.cons (a := .start i) rfl ?_
    have hresult' : w.tailResult previousTail = some true := hresult
    simp [step, hi, hresult']
  | persisting stored => exact succeeds_of_persisting hi hphase
  | finished ok =>
    rw [hphase] at hp
    obtain rfl : ok = true := by simpa [PublishPhase.failed] using hp
    exact succeeds_of_finished hi hphase
  | settled ok =>
    rw [hphase] at hp
    obtain rfl : ok = true := by simpa [PublishPhase.failed] using hp
    exact ⟨[], w, nofun, rfl, p, hi, hphase⟩

theorem Inv.tail_removed {a : HostAct π} {c : String} {k : ℕ} (h : Inv w)
    (hstep : step w a = some w') (hk : w.publishQueuesByChannel.get? c = some k)
    (hnone : w'.publishQueuesByChannel.get? c = none) (n : ℕ) : Clear w.publishes n c := by
  have hsame : w'.publishQueuesByChannel = w.publishQueuesByChannel → Clear w.publishes n c := by
    intro heq
    rw [heq, hk] at hnone
    cases hnone
  cases a with
  | register handler =>
    simp only [step] at hstep
    split at hstep
    · cases hstep
    · exact hsame (Option.some.inj hstep ▸ rfl)
  | unregister id | awaitPendingBroadcasts => exact hsame (Option.some.inj hstep ▸ rfl)
  | publish channel content =>
    cases hstep
    rw [EventsHost.queuePublish, EntryMap.get?_set] at hnone
    split at hnone
    · cases hnone
    · rw [hk] at hnone
      cases hnone
  | start i =>
    simp only [step] at hstep
    split at hstep
    · split at hstep
      · exact hsame (Option.some.inj hstep ▸ rfl)
      · exact hsame (Option.some.inj hstep ▸ rfl)
      · cases hstep
    · cases hstep
  | store i =>
    simp only [step] at hstep
    split at hstep
    · exact hsame (Option.some.inj hstep ▸ rfl)
    · cases hstep
  | persisted i ok failAt =>
    simp only [step] at hstep
    split at hstep
    · split at hstep
      · exact hsame (Option.some.inj hstep ▸ rfl)
      · exact hsame (Option.some.inj hstep ▸ rfl)
    · cases hstep
  | settle i =>
    simp only [step] at hstep
    split at hstep
    · exact hsame (Option.some.inj hstep ▸ rfl)
    · cases hstep
  | removeTail i =>
    simp only [step] at hstep
    split at hstep
    · rename_i channel content previousTail hi
      split at hstep
      · rename_i htail
        cases hstep
        rw [EntryMap.get?_delete] at hnone
        split at hnone
        · rename_i hc
          rw [hc]
          exact h.chained.allClear hi rfl htail n
        · rw [hk] at hnone
          cases hnone
      · exact hsame (Option.some.inj hstep ▸ rfl)
    · cases hstep
  | resolve b =>
    simp only [step] at hstep
    split at hstep
    · split at hstep
      · exact hsame (Option.some.inj hstep ▸ rfl)
      · cases hstep
    · cases hstep

/-- The handlers that are to receive an event: all of them, and of a broadcast one for each dispatch
    key of its configuration. -/
def Receivers (handlers receivers : List WorkerHandler) : PublishContent π → Prop
  | .event _ => receivers = handlers
  | .broadcastV2 _ _ configuration =>
    (∀ g ∈ receivers, g ∈ handlers ∧ g.configuration = configuration) ∧
    (receivers.map (·.websocketV2BroadcastDispatchKey)).Nodup ∧
    ∀ h ∈ handlers, h.configuration = configuration →
      ∃ g ∈ receivers, g.websocketV2BroadcastDispatchKey = h.websocketV2BroadcastDispatchKey

theorem foldl_addTarget (l acc : List WorkerHandler)
    (hacc : (acc.map (·.websocketV2BroadcastDispatchKey)).Nodup) :
    (∀ g ∈ l.foldl addTarget acc, g ∈ acc ∨ g ∈ l) ∧
    ((l.foldl addTarget acc).map (·.websocketV2BroadcastDispatchKey)).Nodup ∧
    ∀ h, h ∈ acc ∨ h ∈ l → ∃ g ∈ l.foldl addTarget acc,
      g.websocketV2BroadcastDispatchKey = h.websocketV2BroadcastDispatchKey := by
  induction l generalizing acc with
  | nil =>
    exact ⟨fun g hg => .inl hg, hacc, fun h hh => ⟨h, hh.resolve_right not_mem_nil, rfl⟩⟩
  | cons handler l ih =>
    rw [foldl_cons, addTarget]
    split
    · next hany =>
      obtain ⟨hfrom, hnodup, hall⟩ := ih acc hacc
      refine ⟨fun g hg => (hfrom g hg).imp_right (mem_cons_of_mem _), hnodup, fun h hh => ?_⟩
      rcases hh with hh | hh
      · exact hall h (.inl hh)
      · rcases mem_cons.mp hh with rfl | hh
        · obtain ⟨g, hg, hkey⟩ := any_eq_true.mp hany
          obtain ⟨g', hg', hkey'⟩ := hall g (.inl hg)
          exact ⟨g', hg', hkey'.trans (of_decide_eq_true hkey)⟩
        · exact hall h (.inr hh)
    · next hnone =>
      have hnew : ((acc ++ [handler]).map (·.websocketV2BroadcastDispatchKey)).Nodup := by
        rw [map_append, nodup_append]
        refine ⟨hacc, nodup_singleton _, ?_⟩
        rintro key hkey _ hself rfl
        obtain ⟨g, hg, rfl⟩ := mem_map.mp hkey
        exact hnone (any_eq_true.mpr ⟨g, hg, decide_eq_true (mem_singleton.mp hself)⟩)
      obtain ⟨hfrom, hnodup, hall⟩ := ih (acc ++ [handler]) hnew
      refine ⟨fun g hg => ?_, hnodup, fun h hh => hall h ?_⟩
      · rcases hfrom g hg with hg | hg
        · rcases mem_append.mp hg with hg | hg
          · exact .inl hg
          · exact .inr (mem_singleton.mp hg ▸ mem_cons_self)
        · exact .inr (mem_cons_of_mem _ hg)
      · rcases hh with hh | hh
        · exact .inl (mem_append_left _ hh)
        · rcases mem_cons.mp hh with rfl | hh
          · exact .inl (mem_append_right _ mem_cons_self)
          · exact .inr hh

theorem receivers_targets (handlers : List WorkerHandler) (content : PublishContent π) :
    Receivers handlers (targets handlers content) content := by
  cases content with
  | event payload => rfl
  | broadcastV2 params body configuration =>
    obtain ⟨hfrom, hnodup, hall⟩ :=
      foldl_addTarget (handlers.filter (·.configuration = configuration)) [] nodup_nil
    refine ⟨fun g hg => ?_, hnodup, fun h hh hconfiguration => ?_⟩
    · have hg := (hfrom g hg).resolve_left not_mem_nil
      simpa using hg
    · exact hall h (.inr (mem_filter.mpr ⟨hh, decide_eq_true hconfiguration⟩))

/-- **A publish succeeds by dispatching its event to all that are to receive it.** -/
theorem dispatched_of_succeeded {a : HostAct π} {p' : Publish π} (hstep : step w a = some w')
    (hi : w.publishes[i]? = some p) (hi' : w'.publishes[i]? = some p')
    (hbefore : p.phase.succeeded = false) (hafter : p'.phase.succeeded = true) :
    ∃ receivers stored, Receivers w.handlers receivers p.content ∧ w'.dispatched =
      w.dispatched ++ receivers.map fun handler => ⟨p.channel, i, handler.id, stored⟩ := by
  have hsame : w'.publishes ≠ w.publishes := by
    intro heq
    rw [heq, hi] at hi'
    cases hi'
    rw [hbefore] at hafter
    cases hafter
  have hset : ∀ j phase, w'.publishes = (w.setPhase j phase).publishes →
      i = j ∧ phase.succeeded = true := by
    intro j phase heq
    obtain ⟨q, hq, -, -, ⟨rfl, hphase⟩ | ⟨-, rfl⟩⟩ := publish_setPhase (heq ▸ hi')
    · exact ⟨rfl, hphase ▸ hafter⟩
    · cases hi.symm.trans hq
      rw [hbefore] at hafter
      cases hafter
  cases a with
  | register handler =>
    simp only [step] at hstep
    split at hstep
    · cases hstep
    · exact absurd (Option.some.inj hstep ▸ rfl) hsame
  | unregister id | awaitPendingBroadcasts => exact absurd (Option.some.inj hstep ▸ rfl) hsame
  | publish channel content =>
    cases hstep
    rcases publish_concat hi' with hold | ⟨-, rfl⟩
    · cases hi.symm.trans hold
      rw [hbefore] at hafter
      cases hafter
    · cases hafter
  | start j =>
    simp only [step] at hstep
    split at hstep
    · split at hstep
      · cases (hset j (.persisting none) (Option.some.inj hstep ▸ rfl)).2
      · cases (hset j (.finished false) (Option.some.inj hstep ▸ rfl)).2
      · cases hstep
    · cases hstep
  | store j =>
    simp only [step] at hstep
    split at hstep
    · cases (hset j (.persisting (some w.eventLog.length)) (Option.some.inj hstep ▸ rfl)).2
    · cases hstep
  | persisted j ok failAt =>
    simp only [step] at hstep
    split at hstep
    · next channel content previousTail stored hj =>
      split at hstep
      · cases hstep
        obtain ⟨rfl, hreached⟩ := hset j _ rfl
        cases hi.symm.trans hj
        refine ⟨targets w.handlers content, stored, receivers_targets _ _, ?_⟩
        -- the loop ran to its end
        have hlength : ((targets w.handlers content).take
            (failAt.getD (targets w.handlers content).length)).length =
            (targets w.handlers content).length := by
          simpa [PublishPhase.succeeded, PublishPhase.isOver, PublishPhase.failed] using hreached
        have hall : (targets w.handlers content).take
            (failAt.getD (targets w.handlers content).length) = targets w.handlers content :=
          (take_sublist _ _).eq_of_length hlength
        simp only [EventsHost.dispatch, hall]
      · cases (hset j (.finished false) (Option.some.inj hstep ▸ rfl)).2
    · cases hstep
  | settle j =>
    simp only [step] at hstep
    split at hstep
    · next ok hj =>
      obtain ⟨rfl, hsettled⟩ := hset j (.settled ok) (Option.some.inj hstep ▸ rfl)
      cases hi.symm.trans hj
      exact absurd (hbefore.symm.trans hsettled) nofun
    · cases hstep
  | removeTail j =>
    simp only [step] at hstep
    split at hstep
    · split at hstep
      · exact absurd (Option.some.inj hstep ▸ rfl) hsame
      · exact absurd (Option.some.inj hstep ▸ rfl) hsame
    · cases hstep
  | resolve b =>
    simp only [step] at hstep
    split at hstep
    · split at hstep
      · exact absurd (Option.some.inj hstep ▸ rfl) hsame
      · cases hstep
    · cases hstep

/-- What holds of a host in every run. -/
structure InOrder (w : EventsHost π) : Prop where
  persisted : w.eventLog.Pairwise fun d e => d.channel = e.channel → d.publish < e.publish
  dispatched : w.dispatched.Pairwise fun d e => d.channel = e.channel → d.publish ≤ e.publish
  once : (w.dispatched.map fun d => (d.publish, d.handler)).Nodup
  persisted_after : ∀ e ∈ w.eventLog, Clear w.publishes e.publish e.channel
  dispatched_after : ∀ d ∈ w.dispatched, Clear w.publishes d.publish d.channel ∧
    ∀ e, d.eventId = some e → w.eventLog[e]? = some ⟨d.channel, d.publish⟩
  /-- a publish comes to succeed when its event is dispatched to all that are to receive it -/
  received : ∀ a w' i p p', step w a = some w' → w.publishes[i]? = some p →
    w'.publishes[i]? = some p' → p.phase.succeeded = false → p'.phase.succeeded = true →
    ∃ receivers stored, Receivers w.handlers receivers p.content ∧ w'.dispatched =
      w.dispatched ++ receivers.map fun handler => ⟨p.channel, i, handler.id, stored⟩
  /-- nothing but a publish before it on its channel prevents an event -/
  not_blocked : ∀ i p, w.publishes[i]? = some p → p.phase.failed = false →
    Clear w.publishes i p.channel → Succeeds w i
  /-- a tail is removed when no unfinished publish of its channel remains -/
  tail_removed : ∀ a w' c k, step w a = some w' → w.publishQueuesByChannel.get? c = some k →
    w'.publishQueuesByChannel.get? c = none → ∀ n, Clear w.publishes n c
  /-- `awaitPendingBroadcasts` answers when every publish before it is over, and rejects if one
      failed -/
  awaited : ∀ b ∈ w.awaits, ∀ ok, b.outcome = some ok → ∀ j p, j < b.before →
    w.publishes[j]? = some p → (∃ r, p.phase = .settled r) ∧ (ok = true → p.phase = .settled true)

/-- **The events of a channel are persisted and dispatched in publish order, and only a failed one
    stops them.** -/
theorem publishing_in_order {as : List (HostAct π)} (h : runActions step start as = some w) :
    InOrder w := by
  have hinv := inv_run h
  have hl := hinv.logged
  refine ⟨hl.logOrder, hl.order, hl.once, fun e he => (hl.logged e he).2,
    fun d hd => (hl.dispatched d hd).2,
    fun a w' i p p' hstep hi hi' => dispatched_of_succeeded hstep hi hi',
    fun i p hi hp hclear => hinv.succeeds hi hp hclear,
    fun a w' c k hstep hk hnone n => hinv.tail_removed hstep hk hnone n,
    fun b hb ok hok => (hinv.awaits b hb).outcome ok hok⟩

end

/-- Two publishes on one channel: the first is delivered, then the second fails. -/
def sampleRun : List (HostAct Unit) :=
  [.register ⟨0, 0, 0⟩, .publish "news" (.event ()), .publish "news" (.broadcastV2 () () 0),
    .awaitPendingBroadcasts, .start 0, .store 0, .persisted 0 true none, .settle 0, .removeTail 0,
    .start 1, .persisted 1 false none, .settle 1, .resolve 0]

theorem publishing_in_order_sample : ∃ w, runActions step start sampleRun = some w ∧ InOrder w ∧
    w.dispatched = [⟨"news", 0, 0, some 0⟩] ∧ w.awaits.map (·.outcome) = [some false] := by
  obtain ⟨w, hw⟩ : ∃ w, runActions step start sampleRun = some w := ⟨_, rfl⟩
  refine ⟨w, hw, publishing_in_order hw, ?_⟩
  cases hw
  exact ⟨by decide, by decide⟩

end EventsHost

end Velocious
