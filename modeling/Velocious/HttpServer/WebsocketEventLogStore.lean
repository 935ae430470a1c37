/-
  The event log of the websocket channels (src/http-server/websocket-event-log-store.js), which the
  events host writes (src/http-server/websocket-events-host.js) and a subscriber that resumes
  reads (src/http-server/client/websocket-session.js).

  The publishes of a channel follow each other. Each asks whether the channel is of interest, and
  appends its event to the log if it is; then the event goes to the handlers, and is published.
  An interest ends `retentionMs` after it was marked, a row expires `retentionMs` after it was
  written. A cleanup reads what has expired, in an order that the database chooses, and deletes
  one row at a time. A new row's sequence is above those of the rows: SQLite gives the number of
  the last row again once that row is deleted.
-/
import Velocious.Foundation.EntryMap
import Velocious.Foundation.Machine

namespace Velocious.EventLogStore

open Foundation List

/-! ## The program -/

/-- A row of `websocket_channel_events`. -/
structure EventRow (π : Type) where
  sequence : ℕ
  id : String
  channel : String
  payload : π
  createdAt : ℤ

/-- An event that has gone to the handlers, with its id if it was persisted. -/
structure PublishedEvent (π : Type) where
  channel : String
  payload : π
  id : Option String

/-- Where the publish of a channel is. -/
inductive PublishStage (π : Type) where
  | asking (payload : π)
  | persisting (payload : π)
  | inserting (payload : π) (createdAt : ℤ)

/-- A cleanup: what it still is to delete; the channels when it has read them. -/
structure Cleanup where
  now : ℤ
  events : List String
  channels : Option (List String)

/-- The store, its table and its clock. -/
structure StoreWorld (π : Type) where
  now : ℤ
  interestedChannels : EntryMap String ℤ
  replayChannels : EntryMap String ℤ
  events : List (EventRow π)
  queue : String → List π
  current : String → Option (PublishStage π)
  marks : List (String × ℤ)
  cleanups : List Cleanup
  published : List (PublishedEvent π)

/-- What can happen. -/
inductive StoreAction (π : Type) where
  | publish (channel : String) (payload : π)
  | check (channel : String)
  | ask (channel : String)
  | append (channel : String)
  | insert (channel id : String) (sequence : ℕ)
  | markChannelInterested (channel : String)
  | upsert (n : ℕ)
  | cleanupExpired (now : ℤ) (events : List String)
  | expireChannels (n : ℕ) (channels : List String)
  | deleteEvent (n : ℕ)
  | deleteChannel (n : ℕ)
  | tick (milliseconds : ℤ)

/-- What `_prepareReplayState` answers to a subscriber with a last event id. -/
inductive Resume where
  | replayGap
  | replaying (checkpointSequence ceilingSequence : ℕ)
  deriving DecidableEq

def channelInterestCached (now : ℤ) (interestedChannels : EntryMap String ℤ) (channel : String) :
    Bool × EntryMap String ℤ :=
  match interestedChannels.get? channel with
  | none => (false, interestedChannels)
  | some interestedUntil =>
    if interestedUntil = 0 then (false, interestedChannels)
    else if now < interestedUntil then (true, interestedChannels)
    else (false, interestedChannels.delete channel)

variable {π : Type}

namespace StoreWorld

def init (now : ℤ) : StoreWorld π :=
  ⟨now, .empty, .empty, [], fun _ => [], fun _ => none, [], [], []⟩

def getEventById (w : StoreWorld π) (channel id : String) : Option (EventRow π) :=
  w.events.find? fun row => row.channel = channel && row.id = id

def channelEvents (w : StoreWorld π) (channel : String) : List (EventRow π) :=
  w.events.filter (·.channel = channel)

def latestSequence (w : StoreWorld π) (channel : String) : Option ℕ :=
  (w.channelEvents channel).getLast?.map (·.sequence)

/-- `getEventsAfter`, without a ceiling. -/
def getEventsAfter (w : StoreWorld π) (channel : String) (sequence : ℕ) : List (EventRow π) :=
  (w.channelEvents channel).filter (sequence < ·.sequence)

def prepareReplayState (w : StoreWorld π) (channel lastEventId : String) : Resume :=
  match w.getEventById channel lastEventId with
  | none => .replayGap
  | some checkpoint =>
    .replaying checkpoint.sequence
      (((w.latestSequence channel).filter (· ≠ 0)).getD checkpoint.sequence)

def expiredEvents (retentionMs : ℤ) (w : StoreWorld π) (now : ℤ) : List String :=
  (w.events.filter (·.createdAt ≤ now - retentionMs)).map (·.id)

def expiredChannels (w : StoreWorld π) (now : ℤ) : List String :=
  w.replayChannels.keys.filter fun channel => (w.replayChannels.get? channel).any (· ≤ now)

/-- The publish of a channel ends: its event goes to the handlers. -/
def dispatch (w : StoreWorld π) (channel : String) (payload : π) (id : Option String) :
    StoreWorld π :=
  { w with
    current := Function.update w.current channel none
    published := w.published ++ [⟨channel, payload, id⟩] }

def setCurrent (w : StoreWorld π) (channel : String) (stage : PublishStage π) : StoreWorld π :=
  { w with current := Function.update w.current channel (some stage) }

def insertRow (w : StoreWorld π) (row : EventRow π) : StoreWorld π :=
  { w with events := w.events ++ [row] }

def step (retentionMs : ℤ) (w : StoreWorld π) : StoreAction π → Option (StoreWorld π)
  | .publish channel payload =>
    some { w with queue := Function.update w.queue channel (w.queue channel ++ [payload]) }
  | .check channel =>
    match w.current channel, w.queue channel with
    | none, payload :: rest =>
      let (cached, interestedChannels) := channelInterestCached w.now w.interestedChannels channel
      let w := { w with queue := Function.update w.queue channel rest, interestedChannels }
      if cached then some (w.setCurrent channel (.persisting payload))
      else if interestedChannels.keys.length = 0 then some (w.dispatch channel payload none)
      else some (w.setCurrent channel (.asking payload))
    | _, _ => none
  | .ask channel =>
    match w.current channel with
    | some (.asking payload) =>
      if (w.replayChannels.get? channel).any (w.now < ·) then
        some (w.setCurrent channel (.persisting payload))
      else some (w.dispatch channel payload none)
    | _ => none
  | .append channel =>
    match w.current channel with
    | some (.persisting payload) => some (w.setCurrent channel (.inserting payload w.now))
    | _ => none
  | .insert channel id sequence =>
    match w.current channel with
    | some (.inserting payload createdAt) =>
      if (∀ row ∈ w.events, row.sequence < sequence) ∧
          ∀ event ∈ w.published, event.id ≠ some id then
        some ((w.insertRow ⟨sequence, id, channel, payload, createdAt⟩).dispatch channel payload
          (some id))
      else none
    | _ => none
  | .markChannelInterested channel =>
    let interestedUntil := w.now + retentionMs
    some { w with
      interestedChannels := w.interestedChannels.set channel interestedUntil
      marks := w.marks ++ [(channel, interestedUntil)] }
  | .upsert n =>
    match w.marks[n]? with
    | some (channel, interestedUntil) =>
      some { w with
        replayChannels := w.replayChannels.set channel interestedUntil
        marks := w.marks.eraseIdx n }
    | none => none
  | .cleanupExpired now events =>
    if events.Perm (expiredEvents retentionMs w now) then
      some { w with cleanups := w.cleanups ++ [⟨now, events, none⟩] }
    else none
  | .expireChannels n channels =>
    match w.cleanups[n]? with
    | some ⟨now, events, none⟩ =>
      if channels.Perm (w.expiredChannels now) then
        some { w with cleanups := w.cleanups.set n ⟨now, events, some channels⟩ }
      else none
    | _ => none
  | .deleteEvent n =>
    match w.cleanups[n]? with
    | some ⟨now, id :: events, some channels⟩ =>
      some { w with
        events := w.events.filter (·.id ≠ id)
        cleanups := w.cleanups.set n ⟨now, events, some channels⟩ }
    | _ => none
  | .deleteChannel n =>
    match w.cleanups[n]? with
    | some ⟨now, [], some (channel :: channels)⟩ =>
      some { w with
        replayChannels := w.replayChannels.delete channel
        cleanups := w.cleanups.set n ⟨now, [], some channels⟩ }
    | _ => none
  | .tick milliseconds => some { w with now := w.now + milliseconds }

/-- The events of a channel that have been published, in order. -/
def publishedOn (w : StoreWorld π) (channel : String) : List (PublishedEvent π) :=
  w.published.filter (·.channel = channel)

/-- What was published after a checkpoint that is found is in the log after it. -/
def Covers (w : StoreWorld π) : Prop :=
  ∀ channel lastEventId checkpoint ceiling,
    w.prepareReplayState channel lastEventId = .replaying checkpoint ceiling →
      ∀ before event after, w.publishedOn channel = before ++ event :: after →
        event.id = some lastEventId → ∀ later ∈ after,
          ∃ row ∈ w.getEventsAfter channel checkpoint,
            later.id = some row.id ∧ later.payload = row.payload

/-- The channel's interest, as it was last marked, has not ended. -/
def Interested (w : StoreWorld π) (channel : String) : Prop :=
  ∃ interestedUntil, w.interestedChannels.get? channel = some interestedUntil ∧
    interestedUntil ≠ 0 ∧ w.now < interestedUntil

/-- A publish on a channel that has rows finds it of interest, and an event is not written as
    older than those rows; a cleanup is given the rows of a channel oldest first. -/
def Steady (w : StoreWorld π) : StoreAction π → Prop
  | .check channel => (∃ row ∈ w.events, row.channel = channel) → w.Interested channel
  | .append channel => ∀ row ∈ w.events, row.channel = channel → row.createdAt ≤ w.now
  | .cleanupExpired _ events => events.Pairwise fun first second =>
      ∀ row ∈ w.events, row.id = first → ∀ other ∈ w.events, other.id = second →
        row.channel = other.channel → row.sequence < other.sequence
  | _ => True

end StoreWorld

/-! ## The invariant -/

def EventRow.published (row : EventRow π) : PublishedEvent π :=
  ⟨row.channel, row.payload, some row.id⟩

/-- What is to be deleted of each channel goes oldest first. -/
def OldestFirst (events : List (EventRow π)) (ids : List String) : Prop :=
  ∀ before id after, ids = before ++ id :: after → ∀ row ∈ events, row.id = id →
    ∀ older ∈ events, older.channel = row.channel → older.sequence < row.sequence →
      older.id ∈ before

theorem OldestFirst.tail {events : List (EventRow π)} {id : String} {ids : List String}
    (h : OldestFirst events (id :: ids)) : OldestFirst (events.filter (·.id ≠ id)) ids := by
  rintro before id' after rfl row hrow hid older holder hchannel hlt
  obtain ⟨hrow, -⟩ := mem_filter.mp hrow
  obtain ⟨holder, hne⟩ := mem_filter.mp holder
  have hmem := h (id :: before) id' after rfl row hrow hid older holder hchannel hlt
  exact (mem_cons.mp hmem).resolve_left (of_decide_eq_true hne)

theorem OldestFirst.of_subset {events events' : List (EventRow π)} {ids : List String}
    (h : OldestFirst events ids) (hsub : ∀ row ∈ events', row ∈ events) :
    OldestFirst events' ids := by
  intro before id after hids row hrow hid older holder hchannel hlt
  exact h before id after hids row (hsub row hrow) hid older (hsub older holder) hchannel hlt

namespace StoreWorld

variable {w w' : StoreWorld π} {channel id : String} {payload : π} {retentionMs : ℤ}

/-- The events that are published have ids of their own; the log is the latest of them on each
    channel, and ages in its order. -/
structure Kept (w : StoreWorld π) : Prop where
  increasing : w.events.Pairwise fun a b => a.sequence < b.sequence
  distinct : w.published.Pairwise fun a b => ∀ id, a.id = some id → b.id ≠ some id
  suffix : ∀ channel, (w.channelEvents channel).map EventRow.published <:+ w.publishedOn channel
  aged : ∀ a ∈ w.events, ∀ b ∈ w.events, a.channel = b.channel → a.sequence < b.sequence →
    a.createdAt ≤ b.createdAt
  stamped : ∀ channel payload createdAt, w.current channel = some (.inserting payload createdAt) →
    ∀ row ∈ w.channelEvents channel, row.createdAt ≤ createdAt
  unasked : ∀ channel payload, w.current channel = some (.asking payload) →
    w.channelEvents channel = []
  cleanups : ∀ c ∈ w.cleanups, OldestFirst w.events c.events ∧
    ∀ id ∈ c.events, ∃ event ∈ w.published, event.id = some id

theorem kept_init (now : ℤ) : Kept (init now : StoreWorld π) where
  increasing := .nil
  distinct := .nil
  suffix := fun _ => suffix_refl _
  aged := nofun
  stamped := nofun
  unasked := nofun
  cleanups := nofun

theorem mem_channelEvents {row : EventRow π} :
    row ∈ w.channelEvents channel ↔ row ∈ w.events ∧ row.channel = channel := by
  rw [channelEvents, mem_filter, decide_eq_true_eq]

namespace Kept

theorem mem_published (hk : Kept w) {row : EventRow π} (hrow : row ∈ w.events) :
    row.published ∈ w.published := by
  have hmem : row.published ∈ (w.channelEvents row.channel).map EventRow.published :=
    mem_map_of_mem (mem_channelEvents.mpr ⟨hrow, rfl⟩)
  exact (mem_filter.mp ((hk.suffix row.channel).subset hmem)).1

theorem published_eq (hk : Kept w) {a b : PublishedEvent π} (ha : a ∈ w.published)
    (hb : b ∈ w.published) (hid : a.id = some id) (hid' : b.id = some id) : a = b := by
  by_contra hne
  have hsymm : Std.Symm fun a b : PublishedEvent π => ∀ id, a.id = some id → b.id ≠ some id :=
    ⟨fun _ _ h id hb ha => h id ha hb⟩
  exact hk.distinct.forall ha hb hne id hid hid'

theorem row_eq (hk : Kept w) {a b : EventRow π} (ha : a ∈ w.events) (hb : b ∈ w.events)
    (hid : a.id = b.id) : a = b := by
  have hsame := hk.published_eq (hk.mem_published ha) (hk.mem_published hb) rfl
    (congrArg some hid.symm)
  have hchannel : b.channel = a.channel := (congrArg PublishedEvent.channel hsame).symm
  by_contra hne
  have hpairwise : (w.channelEvents a.channel).Pairwise fun a b => a.id ≠ b.id := by
    have hsub := (hk.distinct.sublist filter_sublist).sublist (hk.suffix a.channel).sublist
    exact (pairwise_map.mp hsub).imp fun h heq => h _ rfl (congrArg some heq.symm)
  have hsymm : Std.Symm fun a b : EventRow π => a.id ≠ b.id := ⟨fun _ _ h => h.symm⟩
  exact hpairwise.forall (mem_channelEvents.mpr ⟨ha, rfl⟩) (mem_channelEvents.mpr ⟨hb, hchannel⟩)
    hne hid

end Kept

/-- **What the log is asked for** follows from the invariant. -/
theorem Kept.covers (hk : Kept w) : w.Covers := by
  intro channel lastEventId checkpoint ceiling hresume before event after hsplit hevent later hlater
  have hfound : ∃ row, w.getEventById channel lastEventId = some row ∧ checkpoint = row.sequence := by
    unfold prepareReplayState at hresume
    split at hresume
    · cases hresume
    next row hrow => exact ⟨row, hrow, (Resume.replaying.inj hresume).1.symm⟩
  obtain ⟨row, hrow, rfl⟩ := hfound
  have hmatch := find?_some hrow
  have hmem := mem_of_find?_eq_some hrow
  rw [Bool.and_eq_true, decide_eq_true_eq, decide_eq_true_eq] at hmatch
  obtain ⟨hchannel, hid⟩ := hmatch
  -- the rows of the channel are the end of what was published on it
  obtain ⟨pre, post, hrows⟩ := append_of_mem (mem_channelEvents.mpr ⟨hmem, hchannel⟩)
  obtain ⟨old, hold⟩ := hk.suffix channel
  have hevents : (old ++ pre.map EventRow.published) ++ row.published ::
      post.map EventRow.published = before ++ event :: after := by
    rw [← hsplit, ← hold, hrows, map_append, map_cons, append_assoc]
  have hdistinct : (before ++ event :: after).Pairwise
      fun a b : PublishedEvent π => ∀ id, a.id = some id → b.id ≠ some id := by
    rw [← hsplit]
    exact hk.distinct.sublist filter_sublist
  obtain ⟨-, hafter, hbefore⟩ := pairwise_append.mp hdistinct
  have hrowid : row.published.id = some lastEventId := congrArg some hid
  have hsame : before = old ++ pre.map EventRow.published ∧ event = row.published ∧
      after = post.map EventRow.published := by
    refine (append_cons_inj_of_notMem ?_ ?_).mp hevents.symm
    · intro hin
      exact hbefore _ hin event mem_cons_self _ hrowid hevent
    · intro hin
      exact (pairwise_cons.mp hafter).1 _ hin _ hevent hrowid
  rw [hsame.2.2] at hlater
  obtain ⟨row', hrow', rfl⟩ := mem_map.mp hlater
  refine ⟨row', mem_filter.mpr ⟨?_, decide_eq_true ?_⟩, rfl, rfl⟩
  · rw [hrows]
    exact mem_append_right _ (mem_cons_of_mem _ hrow')
  · have hincreasing := hk.increasing.sublist
      (filter_sublist (l := w.events) (p := fun r => decide (r.channel = channel)))
    rw [show w.events.filter (fun r => decide (r.channel = channel)) = pre ++ row :: post from hrows]
      at hincreasing
    exact (pairwise_cons.mp (pairwise_append.mp hincreasing).2.1).1 row' hrow'

/-! ## Steps -/

theorem publishedOn_dispatch (eventId : Option String) :
    (w.dispatch channel payload eventId).publishedOn channel =
      w.publishedOn channel ++ [⟨channel, payload, eventId⟩] := by
  simp [dispatch, publishedOn]

variable {other : String}

theorem publishedOn_dispatch_of_ne (h : other ≠ channel) (eventId : Option String) :
    (w.dispatch channel payload eventId).publishedOn other = w.publishedOn other := by
  simp [dispatch, publishedOn, h.symm]

theorem channelEvents_insertRow (row : EventRow π) :
    (w.insertRow row).channelEvents row.channel = w.channelEvents row.channel ++ [row] := by
  simp [insertRow, channelEvents]

theorem channelEvents_insertRow_of_ne {row : EventRow π}
    (h : other ≠ row.channel) : (w.insertRow row).channelEvents other = w.channelEvents other := by
  simp [insertRow, channelEvents, h.symm]

theorem current_of_dispatch {eventId : Option String} {stage : PublishStage π}
    (h : (w.dispatch channel payload eventId).current other = some stage) :
    other ≠ channel ∧ w.current other = some stage := by
  have hne : other ≠ channel := by
    rintro rfl
    have hnone : (w.dispatch other payload eventId).current other = none := Function.update_self ..
    rw [hnone] at h
    cases h
  exact ⟨hne, (Function.update_of_ne hne _ _).symm.trans h⟩

theorem current_of_setCurrent {stage stage' : PublishStage π}
    (h : (w.setCurrent channel stage).current other = some stage') :
    other = channel ∧ stage' = stage ∨ w.current other = some stage' := by
  by_cases hother : other = channel
  · subst hother
    left
    have hself : (w.setCurrent other stage).current other = some stage := Function.update_self ..
    rw [hself] at h
    exact ⟨rfl, (Option.some.inj h).symm⟩
  · right
    exact (Function.update_of_ne hother _ _).symm.trans h

namespace Kept

section
variable (hk : Kept w)
include hk

theorem setCurrent (stage : PublishStage π)
    (hstamped : ∀ payload createdAt, stage = .inserting payload createdAt →
      ∀ row ∈ w.channelEvents channel, row.createdAt ≤ createdAt)
    (hunasked : ∀ payload, stage = .asking payload → w.channelEvents channel = []) :
    Kept (w.setCurrent channel stage) where
  __ := hk
  stamped := by
    intro other payload createdAt hcurrent
    rcases current_of_setCurrent hcurrent with ⟨rfl, hstage⟩ | hbefore
    · exact hstamped payload createdAt hstage.symm
    · exact hk.stamped other payload createdAt hbefore
  unasked := by
    intro other payload hcurrent
    rcases current_of_setCurrent hcurrent with ⟨rfl, hstage⟩ | hbefore
    · exact hunasked payload hstage.symm
    · exact hk.unasked other payload hbefore

theorem dispatch (hempty : w.channelEvents channel = []) :
    Kept (w.dispatch channel payload none) where
  __ := hk
  distinct := by
    refine pairwise_append.mpr ⟨hk.distinct, pairwise_singleton _ _, ?_⟩
    rintro a - b hb id -
    rw [mem_singleton.mp hb]
    nofun
  suffix := by
    intro other
    by_cases hother : other = channel
    · subst hother
      show (w.channelEvents other).map _ <:+ _
      rw [hempty]
      exact nil_suffix
    · rw [publishedOn_dispatch_of_ne hother]
      exact hk.suffix other
  stamped := fun other payload createdAt hcurrent =>
    hk.stamped other payload createdAt (current_of_dispatch hcurrent).2
  unasked := fun other payload hcurrent => hk.unasked other payload (current_of_dispatch hcurrent).2
  cleanups := by
    intro c hc
    obtain ⟨hfirst, hids⟩ := hk.cleanups c hc
    refine ⟨hfirst, fun id hid => ?_⟩
    obtain ⟨event, hevent, heq⟩ := hids id hid
    exact ⟨event, mem_append_left _ hevent, heq⟩

theorem insert {createdAt : ℤ} {sequence : ℕ}
    (hcurrent : w.current channel = some (.inserting payload createdAt))
    (hsequence : ∀ row ∈ w.events, row.sequence < sequence) (hfresh : ∀ event ∈ w.published, event.id ≠ some id) :
    Kept ((w.insertRow ⟨sequence, id, channel, payload, createdAt⟩).dispatch channel payload
      (some id)) where
  increasing := by
    refine pairwise_append.mpr ⟨hk.increasing, pairwise_singleton _ _, ?_⟩
    intro a ha b hb
    rw [mem_singleton.mp hb]
    exact hsequence a ha
  distinct := by
    refine pairwise_append.mpr ⟨hk.distinct, pairwise_singleton _ _, ?_⟩
    intro a ha b hb other hother hsame
    rw [mem_singleton.mp hb] at hsame
    exact hfresh a ha (hother.trans hsame.symm)
  suffix := by
    intro other
    by_cases hother : other = channel
    · subst hother
      rw [publishedOn_dispatch]
      obtain ⟨old, hold⟩ := hk.suffix other
      refine ⟨old, ?_⟩
      show old ++ ((w.insertRow ⟨sequence, id, other, payload, createdAt⟩).channelEvents other).map
        EventRow.published = w.publishedOn other ++ _
      rw [channelEvents_insertRow ⟨sequence, id, other, payload, createdAt⟩, map_append,
        ← append_assoc, hold]
      rfl
    · rw [publishedOn_dispatch_of_ne hother]
      show ((w.insertRow _).channelEvents other).map _ <:+ w.publishedOn other
      rw [channelEvents_insertRow_of_ne hother]
      exact hk.suffix other
  aged := by
    intro a ha b hb hchannel hlt
    rcases mem_append.mp hb with hb | hb
    · have hlt' := hsequence b hb
      rcases mem_append.mp ha with ha | ha
      · exact hk.aged a ha b hb hchannel hlt
      · rw [mem_singleton.mp ha] at hlt
        exact absurd hlt (by show ¬ sequence < b.sequence; omega)
    · rw [mem_singleton.mp hb] at hchannel hlt ⊢
      rcases mem_append.mp ha with ha | ha
      · exact hk.stamped channel payload createdAt hcurrent a
          (mem_channelEvents.mpr ⟨ha, hchannel⟩)
      · rw [mem_singleton.mp ha]
  stamped := by
    intro other payload' createdAt' hother row hrow
    obtain ⟨hne, hbefore⟩ := current_of_dispatch hother
    obtain ⟨hrow, hchannel⟩ := mem_channelEvents.mp hrow
    rcases mem_append.mp hrow with hold | hnew
    · exact hk.stamped other payload' createdAt' hbefore row (mem_channelEvents.mpr ⟨hold, hchannel⟩)
    · rw [mem_singleton.mp hnew] at hchannel
      exact absurd hchannel.symm hne
  unasked := by
    intro other payload' hother
    obtain ⟨hne, hbefore⟩ := current_of_dispatch hother
    show (w.insertRow _).channelEvents other = _
    rw [channelEvents_insertRow_of_ne hne]
    exact hk.unasked other payload' hbefore
  cleanups := by
    intro c hc
    obtain ⟨hfirst, hids⟩ := hk.cleanups c hc
    refine ⟨?_, fun id hid => ?_⟩
    · rintro before old after hsplit row hrow hid older holder hchannel hlt
      obtain ⟨event, hevent, heq⟩ := hids old (by rw [hsplit]; simp)
      rcases mem_append.mp hrow with hrow | hrow
      · have hlt' := hsequence row hrow
        rcases mem_append.mp holder with holder | holder
        · exact hfirst before old after hsplit row hrow hid older holder hchannel hlt
        · rw [mem_singleton.mp holder] at hlt
          exact absurd hlt (by show ¬ sequence < row.sequence; omega)
      · rw [mem_singleton.mp hrow] at hid
        exact absurd (heq.trans (congrArg some hid.symm)) (hfresh event hevent)
    · obtain ⟨event, hevent, heq⟩ := hids id hid
      exact ⟨event, mem_append_left _ hevent, heq⟩

theorem oldestFirst {now : ℤ} {events : List String}
    (hperm : events.Perm (expiredEvents retentionMs w now))
    (hsteady : w.Steady (.cleanupExpired now events)) : OldestFirst w.events events := by
  rintro before id after rfl row hrow rfl older holder hchannel hlt
  have hexpired : row.createdAt ≤ now - retentionMs := by
    have hmem : row.id ∈ expiredEvents retentionMs w now := hperm.subset (by simp)
    obtain ⟨expired, hin, hid⟩ := mem_map.mp hmem
    obtain ⟨hin, hcutoff⟩ := mem_filter.mp hin
    rw [← hk.row_eq hin hrow hid]
    exact of_decide_eq_true hcutoff
  have hage := hk.aged older holder row hrow hchannel hlt
  have hmem : older.id ∈ before ++ row.id :: after :=
    hperm.symm.subset (mem_map_of_mem (mem_filter.mpr
      ⟨holder, decide_eq_true (hage.trans hexpired)⟩))
  have hafter := (pairwise_cons.mp (pairwise_append.mp hsteady).2.1).1
  rcases mem_append.mp hmem with hbefore | hrest
  · exact hbefore
  rcases mem_cons.mp hrest with hsame | hlater
  · rw [hk.row_eq holder hrow hsame] at hlt
    exact absurd hlt (lt_irrefl _)
  · exact absurd (hafter _ hlater row hrow rfl older holder rfl hchannel.symm) hlt.not_gt

theorem suffix_filter {ids : List String} (hfirst : OldestFirst w.events (id :: ids))
    (channel : String) :
    (w.channelEvents channel).filter (·.id ≠ id) <:+ w.channelEvents channel := by
  by_cases hmem : ∃ row ∈ w.channelEvents channel, row.id = id
  · obtain ⟨row, hrow, hid⟩ := hmem
    obtain ⟨hin, hchannel⟩ := mem_channelEvents.mp hrow
    have hincreasing : (w.channelEvents channel).Pairwise fun a b => a.sequence < b.sequence :=
      hk.increasing.sublist filter_sublist
    have hevents : ∀ other ∈ w.channelEvents channel, other ∈ w.events ∧ other.channel = channel :=
      fun other hother => mem_channelEvents.mp hother
    obtain ⟨pre, post, hsplit⟩ := append_of_mem hrow
    rw [hsplit] at hincreasing hevents ⊢
    obtain ⟨-, hpost, hpre⟩ := pairwise_append.mp hincreasing
    have hnil : pre = [] := by
      refine eq_nil_iff_forall_not_mem.mpr fun older hold => ?_
      obtain ⟨holder, hsame⟩ := hevents older (mem_append_left _ hold)
      have hbefore := hfirst [] id ids rfl row hin hid older holder (hsame.trans hchannel.symm)
        (hpre older hold row mem_cons_self)
      cases hbefore
    have hkeep : post.filter (·.id ≠ id) = post := by
      refine filter_eq_self.mpr fun later hlater => decide_eq_true fun hsame => ?_
      have hlt := (pairwise_cons.mp hpost).1 later hlater
      obtain ⟨hin', -⟩ := hevents later (mem_append_right _ (mem_cons_of_mem _ hlater))
      rw [hk.row_eq hin' hin (hsame.trans hid.symm)] at hlt
      exact lt_irrefl _ hlt
    rw [hnil, nil_append, filter_cons_of_neg (by simp [hid]), hkeep]
    exact suffix_cons row post
  · have hkeep : (w.channelEvents channel).filter (·.id ≠ id) = w.channelEvents channel :=
      filter_eq_self.mpr fun row hrow => decide_eq_true fun hid => hmem ⟨row, hrow, hid⟩
    rw [hkeep]

theorem deleteEvent {n : ℕ} {now : ℤ} {ids : List String}
    {channels : Option (List String)} (hn : w.cleanups[n]? = some ⟨now, id :: ids, channels⟩) :
    Kept { w with
      events := w.events.filter (·.id ≠ id)
      cleanups := w.cleanups.set n ⟨now, ids, channels⟩ } := by
  have hfirst := hk.cleanups _ (mem_of_getElem? hn)
  have hsub : ∀ row ∈ w.events.filter (·.id ≠ id), row ∈ w.events :=
    fun row hrow => (mem_filter.mp hrow).1
  have hchannel : ∀ channel, (w.events.filter (·.id ≠ id)).filter (·.channel = channel) =
      (w.channelEvents channel).filter (·.id ≠ id) := by
    intro channel
    rw [channelEvents, filter_filter, filter_filter]
    exact filter_congr fun row _ => Bool.and_comm _ _
  refine ⟨hk.increasing.sublist filter_sublist,
    hk.distinct, fun channel => ?_,
    fun a ha b hb => hk.aged a (hsub a ha) b (hsub b hb), ?_, fun channel payload hcurrent => ?_, ?_⟩
  · show ((w.events.filter _).filter _).map _ <:+ _
    rw [hchannel]
    exact ((hk.suffix_filter hfirst.1 channel).map _).trans (hk.suffix channel)
  · intro channel payload createdAt hcurrent row hrow
    obtain ⟨hrow, hon⟩ := mem_filter.mp hrow
    exact hk.stamped channel payload createdAt hcurrent row
      (mem_filter.mpr ⟨hsub row hrow, hon⟩)
  · show (w.events.filter _).filter _ = _
    rw [hchannel, hk.unasked channel payload hcurrent]
    rfl
  · intro c hc
    rcases mem_or_eq_of_mem_set hc with hold | rfl
    · obtain ⟨hother, hids⟩ := hk.cleanups c hold
      exact ⟨hother.of_subset hsub, hids⟩
    · exact ⟨hfirst.1.tail, fun id' hid => hfirst.2 id' (mem_cons_of_mem _ hid)⟩

end

end Kept

theorem cached_of_interested (h : w.Interested channel) :
    (channelInterestCached w.now w.interestedChannels channel).1 = true := by
  obtain ⟨interestedUntil, hget, hne, hlt⟩ := h
  rw [channelInterestCached, hget]
  simp only [hne, if_false, hlt, if_true]

theorem Kept.check (hk : Kept w) (hsteady : w.Steady (.check channel))
    (h : step retentionMs w (.check channel) = some w') : Kept w' := by
  have hempty : (channelInterestCached w.now w.interestedChannels channel).1 = false →
      w.channelEvents channel = [] := by
    intro hcached
    refine eq_nil_iff_forall_not_mem.mpr fun row hrow => ?_
    have hinterest := hsteady ⟨row, mem_channelEvents.mp hrow⟩
    rw [cached_of_interested hinterest] at hcached
    cases hcached
  simp only [step] at h
  split at h
  next payload rest hcurrent hqueue =>
    have hk' : Kept { w with
        queue := Function.update w.queue channel rest
        interestedChannels := (channelInterestCached w.now w.interestedChannels channel).2 } :=
      ⟨hk.increasing, hk.distinct, hk.suffix, hk.aged, hk.stamped, hk.unasked,
        hk.cleanups⟩
    split at h
    · cases h
      exact hk'.setCurrent _ nofun nofun
    next hcached =>
      have hnone := hempty (Bool.eq_false_iff.mpr hcached)
      split at h
      · cases h
        exact hk'.dispatch hnone
      · cases h
        exact hk'.setCurrent _ nofun fun _ _ => hnone
  · cases h

/-- **A step of a steady run** keeps the log to the end of what was published. -/
theorem Kept.step (hk : Kept w) {a : StoreAction π} (hsteady : w.Steady a)
    (h : step retentionMs w a = some w') : Kept w' := by
  cases a with
  | publish channel payload =>
    cases h
    exact ⟨hk.increasing, hk.distinct, hk.suffix, hk.aged, hk.stamped, hk.unasked,
      hk.cleanups⟩
  | check channel => exact hk.check hsteady h
  | ask channel =>
    simp only [StoreWorld.step] at h
    split at h
    next payload hcurrent =>
      split at h
      · cases h
        exact hk.setCurrent _ (by simp) (by simp)
      · cases h
        exact hk.dispatch (hk.unasked channel payload hcurrent)
    · cases h
  | append channel =>
    simp only [StoreWorld.step] at h
    split at h
    next payload hcurrent =>
      cases h
      refine hk.setCurrent _ ?_ (by simp)
      rintro payload' createdAt hstage row hrow
      obtain ⟨-, rfl⟩ := PublishStage.inserting.inj hstage
      obtain ⟨hin, hchannel⟩ := mem_channelEvents.mp hrow
      exact hsteady row hin hchannel
    · cases h
  | insert channel id sequence =>
    simp only [StoreWorld.step] at h
    split at h
    next payload createdAt hcurrent =>
      split at h
      next hguard =>
        cases h
        exact hk.insert hcurrent hguard.1 hguard.2
      · cases h
    · cases h
  | markChannelInterested channel =>
    cases h
    exact ⟨hk.increasing, hk.distinct, hk.suffix, hk.aged, hk.stamped, hk.unasked,
      hk.cleanups⟩
  | upsert n =>
    simp only [StoreWorld.step] at h
    split at h
    · cases h
      exact ⟨hk.increasing, hk.distinct, hk.suffix, hk.aged, hk.stamped, hk.unasked,
        hk.cleanups⟩
    · cases h
  | cleanupExpired now events =>
    simp only [StoreWorld.step] at h
    split at h
    next hperm =>
      cases h
      refine ⟨hk.increasing, hk.distinct, hk.suffix, hk.aged, hk.stamped, hk.unasked,
        fun c hc => ?_⟩
      rcases mem_append.mp hc with hold | hnew
      · exact hk.cleanups c hold
      · rw [mem_singleton.mp hnew]
        refine ⟨hk.oldestFirst hperm hsteady, fun id hid => ?_⟩
        obtain ⟨row, hrow, rfl⟩ := mem_map.mp (hperm.subset hid)
        exact ⟨_, hk.mem_published (mem_filter.mp hrow).1, rfl⟩
    · cases h
  | expireChannels n channels =>
    simp only [StoreWorld.step] at h
    split at h
    next now events hn =>
      split at h
      · cases h
        refine ⟨hk.increasing, hk.distinct, hk.suffix, hk.aged, hk.stamped, hk.unasked,
          fun c hc => ?_⟩
        rcases mem_or_eq_of_mem_set hc with hold | rfl
        · exact hk.cleanups c hold
        · have hread := hk.cleanups _ (mem_of_getElem? hn)
          exact hread
      · cases h
    · cases h
  | deleteEvent n =>
    simp only [StoreWorld.step] at h
    split at h
    next now id events channels hn =>
      cases h
      exact hk.deleteEvent hn
    · cases h
  | deleteChannel n =>
    simp only [StoreWorld.step] at h
    split at h
    next now channel channels hn =>
      cases h
      refine ⟨hk.increasing, hk.distinct, hk.suffix, hk.aged, hk.stamped, hk.unasked,
        fun c hc => ?_⟩
      rcases mem_or_eq_of_mem_set hc with hold | rfl
      · exact hk.cleanups c hold
      · exact ⟨(hk.cleanups _ (mem_of_getElem? hn)).1, by simp⟩
    · cases h
  | tick milliseconds =>
    cases h
    exact ⟨hk.increasing, hk.distinct, hk.suffix, hk.aged, hk.stamped, hk.unasked,
      hk.cleanups⟩

/-- **The log covers every resume** that it accepts, in a steady run. -/
theorem log_covers_resumes (retentionMs now : ℤ) {actions : List (StoreAction π)}
    {w : StoreWorld π} (hsteady : Along (StoreWorld.step retentionMs) Steady (init now) actions)
    (h : runActions (StoreWorld.step retentionMs) (init now) actions = some w) : w.Covers :=
  (runActions_invariant (fun _ _ _ hk hs h => Kept.step hk hs h) actions (kept_init now) hsteady
    h).covers

/-- Two events that are published while the channel is of interest, a cleanup in which the first
    one expires, and a third event after the channel was marked again. -/
def renewedInterest : List (StoreAction ℕ) :=
  [.markChannelInterested "news", .upsert 0, .publish "news" 1, .check "news", .append "news",
    .insert "news" "a" 1, .tick 5, .publish "news" 2, .check "news", .append "news",
    .insert "news" "b" 2, .tick 5, .cleanupExpired 10 ["a"], .expireChannels 0 ["news"],
    .deleteEvent 0, .markChannelInterested "news", .publish "news" 3, .check "news",
    .append "news", .insert "news" "c" 3]

theorem log_covers_resumes_renewed :
    ∃ w : StoreWorld ℕ, runActions (StoreWorld.step 10) (init 0) renewedInterest = some w ∧
      w.prepareReplayState "news" "b" = .replaying 2 3 ∧ w.Covers := by
  have hsteady : Along (StoreWorld.step 10) Steady (init 0) renewedInterest := by
    refine ⟨trivial, trivial, trivial, fun _ => ⟨10, by decide, by decide, by decide⟩, ?_, trivial,
      trivial, trivial, fun _ => ⟨10, by decide, by decide, by decide⟩, ?_, trivial, trivial, ?_,
      trivial, trivial, trivial, trivial, fun _ => ⟨20, by decide, by decide, by decide⟩, ?_,
      trivial, trivial⟩
    · rintro row hrow
      cases hrow
    · rintro row hrow -
      rw [mem_singleton.mp hrow]
      decide
    · exact pairwise_singleton _ _
    · rintro row hrow -
      rw [mem_singleton.mp hrow]
      decide
  obtain ⟨w, hw⟩ : ∃ w, runActions (StoreWorld.step 10) (init 0) renewedInterest = some w :=
    ⟨_, rfl⟩
  refine ⟨w, hw, ?_, log_covers_resumes 10 0 hsteady hw⟩
  cases hw
  rfl

/-- The interest ends ten milliseconds after it was marked, and the first event five after that:
    the second one is published in between. -/
theorem interest_ends_first :
    ∃ w : StoreWorld ℕ, runActions (StoreWorld.step 10) (init 0)
      [.markChannelInterested "news", .upsert 0, .tick 5, .publish "news" 1, .check "news",
        .append "news", .insert "news" "a" 1, .tick 5, .publish "news" 2, .check "news"] = some w ∧
      ¬ w.Covers := by
  refine ⟨_, rfl, fun h => ?_⟩
  obtain ⟨row, hrow, -⟩ := h "news" "a" 1 1 rfl [] _ _ rfl rfl _ List.mem_cons_self
  cases hrow

end StoreWorld

end Velocious.EventLogStore
