/-
  What holds in every state of the local dispatcher.

  * `Sound` is what is asked of a state: the capacity, that each claimed handoff is performed once
    and has one owner until its acknowledgement was accepted, that nothing is claimed after a stop,
    and that an available job is never forgotten.
  * What is kept has three parts: who owns the handoffs (`Ledger`), what runs beside what
    (`Phases`), and what the drain, or the timers, take care of (`Draining`).
  * The drain's functions change only the drain's own fields (`Drains`); each of them pays what the
    drain owes (`draining_wake`, `draining_endDrain` and the like).
-/
import Velocious.BackgroundJobs.LocalDispatcher
import Velocious.BackgroundJobs.LocalStore.Queries

namespace Velocious.LocalDispatcher

open Foundation LocalStore List

/-! ## What is asked of a state -/

namespace World

/-- The handoffs that the in-flight set owns. -/
def flying (w : World) : List String := w.inFlight.map fun p => p.handoff.handoffId

def Awaiting (w : World) (handoffId : String) : Prop :=
  ∃ e ∈ w.pendingAcknowledgements.values, e.handoff.handoffId = handoffId

/-- After a stop has resolved, nothing is claimed until a start is called. -/
def Halts (log : List DispatchEvent) : Prop :=
  ∀ before between after handoffId,
    log = before ++ .stopResolved :: between ++ .claimed handoffId :: after →
      .startCalled ∈ between

/-- What is asked of the dispatcher in every state. -/
structure Sound (c : Configuration) (w : World) : Prop where
  capacity : w.inFlight.length ≤ c.maxConcurrentInlineJobs
  performedOnce : w.performances = w.claims ∧ w.claims.Nodup
  owned : w.flying.Nodup ∧
    ∀ handoffId ∈ w.claims, handoffId ∉ w.accepted →
      Xor (handoffId ∈ w.flying) (w.Awaiting handoffId)
  halted : Halts w.log
  woken : w.accepting = true → w.drainPromise = none →
    w.ownedPerformanceCount < c.maxConcurrentInlineJobs →
    (∃ row ∈ w.store.jobs, claimable w.store.concurrency w.now row) →
    w.recoveryTimer.isSome ∨ w.elapsed w.scheduledTimer

/-- The claimed handoffs and their owners. -/
structure Ledger (c : Configuration) (w : World) : Prop where
  once : w.performances = w.claims
  fresh : w.claims.Nodup
  accepted : ∀ h ∈ w.accepted, h ∈ w.claims
  capacity : w.inFlight.length ≤ c.maxConcurrentInlineJobs
  distinct : w.flying.Nodup
  running : ∀ p ∈ w.inFlight, p.handoff.handoffId ∈ w.claims ∧
    p.handoff.handoffId ∉ w.accepted ∧
    leaseOf w.store.jobs p.job.id = some p.handoff.handoffId
  pending : ∀ k e, w.pendingAcknowledgements.get? k = some e → e.job.id = k ∧
    e.handoff.handoffId ∈ w.claims ∧ e.handoff.handoffId ∉ w.flying ∧
    (e.handoff.handoffId ∉ w.accepted → leaseOf w.store.jobs k = some e.handoff.handoffId)
  owned : ∀ h ∈ w.claims, h ∉ w.accepted → h ∈ w.flying ∨
    ∃ k e, w.pendingAcknowledgements.get? k = some e ∧ e.handoff.handoffId = h

/-- What a pass has left: acknowledgements that are still pending, or were accepted since. -/
def PassOk (w : World) (rest : List PendingAcknowledgement) : Prop :=
  ∀ e ∈ rest, e.handoff.handoffId ∈ w.claims ∧ e.handoff.handoffId ∉ w.flying ∧
    ∀ e', w.pendingAcknowledgements.get? e.job.id = some e' →
      e' = e ∨ e'.handoff.handoffId ∈ w.accepted

/-- Whether a stop has resolved after the last call of `start`. -/
def isHalted (log : List DispatchEvent) : Bool :=
  log.foldl (fun halted event =>
    match event with
    | .stopResolved => true
    | .startCalled => false
    | _ => halted) false

theorem started_of_not_halted {before between : List DispatchEvent}
    (h : isHalted (before ++ .stopResolved :: between) = false) : .startCalled ∈ between := by
  have hfold : ∀ {between : List DispatchEvent}, (between.foldl (fun halted event =>
      match event with
      | .stopResolved => true
      | .startCalled => false
      | _ => halted) true) = false → .startCalled ∈ between := by
    intro between
    induction between with
    | nil => exact nofun
    | cons event rest ih =>
      intro h
      cases event with
      | startCalled => exact mem_cons_self
      | _ => exact mem_cons_of_mem _ (ih h)
  refine hfold ?_
  rwa [isHalted, foldl_append] at h

theorem Halts.append {log : List DispatchEvent} (h : Halts log) (event : DispatchEvent)
    (hclaimed : ∀ handoffId, event = .claimed handoffId → isHalted log = false) :
    Halts (log ++ [event]) := by
  intro before between after handoffId heq
  rcases eq_nil_or_concat after with rfl | ⟨rest, last, rfl⟩
  · obtain ⟨hlog, hevent⟩ := append_inj' heq rfl
    have hrunning := hclaimed handoffId (singleton_inj.mp hevent)
    rw [hlog] at hrunning
    exact started_of_not_halted hrunning
  · rw [concat_eq_append, ← cons_append, ← append_assoc] at heq
    exact h _ _ _ _ (append_inj' heq rfl).1

def StopOk (w : World) : StopStage → Prop
  | .drain id => ∀ drain, w.drainPromise = some drain → drain.id = id
  | .performances handoffIds => w.drainPromise = none ∧ ∀ h ∈ w.flying, h ∈ handoffIds
  | .retrying rest => w.drainPromise = none ∧ w.inFlight = [] ∧ w.PassOk rest ∧
    ∀ k e, w.pendingAcknowledgements.get? k = some e → e.handoff.handoffId ∉ w.accepted → e ∈ rest

/-- How the calls on the dispatcher overlap. -/
structure Phases (w : World) : Prop where
  accepting : w.accepting = true → w.started = true ∧ w.stops = []
  starting : w.startPromise ≠ none → w.started = false ∧ w.stops = []
  rested : w.started = false → w.accepting = false ∧ w.drainPromise = none ∧ w.inFlight = [] ∧
    ∀ h ∈ w.claims, h ∈ w.accepted
  queued : w.wakeQueued = true → ∃ id, w.drainPromise = some ⟨id, .queued⟩
  stops : ∀ stage ∈ w.stops, w.StopOk stage
  halted : isHalted w.log = true → w.started = false ∧ w.startPromise = none
  halts : Halts w.log

/-! ## What the drain owes -/

/-- No available job is forgotten while no drain runs. -/
def Watched (c : Configuration) (w : World) : Prop :=
  w.recoveryTimer.isSome ∨ c.maxConcurrentInlineJobs ≤ w.ownedPerformanceCount ∨
    ∀ t, w.now ≤ t → (∃ row ∈ w.store.jobs, claimable w.store.concurrency t row) →
      ∃ at', w.scheduledTimer = some at' ∧ at' ≤ t

/-- Why a drain stopped looking. -/
def Exhausted (c : Configuration) (w : World) : Option ℤ → Prop
  | none => c.maxConcurrentInlineJobs ≤ w.ownedPerformanceCount
  | some lookedAt => ∀ row ∈ w.store.jobs, claimable w.store.concurrency lookedAt row = false

def StageOk (c : Configuration) (w : World) : DrainStage → Prop
  | .queued => True
  | .retrying rest => w.PassOk rest
  | .looking | .claiming _ => w.inFlight.length < c.maxConcurrentInlineJobs
  | .arming lookedAt => w.accepting = true → w.redrain = true ∨ w.Exhausted c lookedAt

/-- What the drain, or the timers, take care of. -/
def Draining (c : Configuration) (w : World) : Prop :=
  match w.drainPromise with
  | none => w.accepting = true → w.Watched c
  | some drain => w.StageOk c drain.stage

/-- The invariant of the runs. -/
structure Inv (c : Configuration) (w : World) : Prop where
  ledger : w.Ledger c
  phases : w.Phases
  draining : w.Draining c

/-- The drain's own fields are all that changed. -/
structure Drains (w w' : World) : Prop where
  frame : w' = { w with
    drainPromise := w'.drainPromise
    redrain := w'.redrain
    wakeQueued := w'.wakeQueued
    idleWaiters := w'.idleWaiters
    scheduledTimer := w'.scheduledTimer
    recoveryTimer := w'.recoveryTimer
    drains := w'.drains }
  /-- a drain is queued only by a dispatcher that accepts jobs -/
  kept : w.accepting = false → ∀ drain', w'.drainPromise = some drain' →
    ∃ drain, w.drainPromise = some drain ∧ drain.id = drain'.id
  queued : w'.wakeQueued = true → ∃ id, w'.drainPromise = some ⟨id, .queued⟩

section
variable {c : Configuration} {w w' w'' : World}

theorem Drains.trans (h : Drains w w') (h' : Drains w' w'') : Drains w w'' where
  frame := by
    rw [h'.frame, h.frame]
  kept := by
    intro ha drain'' hd''
    have ha' : w'.accepting = false := by
      rw [h.frame]
      exact ha
    obtain ⟨drain', hd', hid'⟩ := h'.kept ha' drain'' hd''
    obtain ⟨drain, hd, hid⟩ := h.kept ha drain' hd'
    exact ⟨drain, hd, hid.trans hid'⟩
  queued := h'.queued

theorem Ledger.drains (hl : w.Ledger c) (h : Drains w w') : w'.Ledger c := by
  rw [h.frame]
  exact ⟨hl.once, hl.fresh, hl.accepted, hl.capacity, hl.distinct, hl.running, hl.pending, hl.owned⟩

theorem Phases.drains (hp : w.Phases) (h : Drains w w') : w'.Phases := by
  obtain ⟨hframe, hkept, hqueued⟩ := h
  rw [hframe]
  have hnone : w.accepting = false → w.drainPromise = none → w'.drainPromise = none := by
    intro ha hd
    cases hd' : w'.drainPromise with
    | none => rfl
    | some drain' =>
      obtain ⟨drain, hsome, -⟩ := hkept ha drain' hd'
      rw [hd] at hsome
      cases hsome
  refine ⟨hp.accepting, hp.starting, fun hs => ?_, hqueued, fun stage hstage => ?_, hp.halted,
    hp.halts⟩
  · obtain ⟨ha, hd, hrest⟩ := hp.rested hs
    exact ⟨ha, hnone ha hd, hrest⟩
  · have ha : w.accepting = false := by
      by_contra hne
      have hempty := (hp.accepting (by simpa using hne)).2
      rw [show w.stops = [] from hempty] at hstage
      cases hstage
    have hok := hp.stops stage hstage
    cases stage with
    | drain id =>
      intro drain' hd'
      obtain ⟨drain, hd, hid⟩ := hkept ha drain' hd'
      exact hid.symm.trans (hok drain hd)
    | performances handoffIds => exact ⟨hnone ha hok.1, hok.2⟩
    | retrying rest => exact ⟨hnone ha hok.1, hok.2⟩

end

/-! ## The drain's functions -/

section
variable {c : Configuration} {w : World}

section
variable (hq : w.wakeQueued = true → ∃ id, w.drainPromise = some ⟨id, .queued⟩)
include hq

theorem drains_wake :
    Drains w w.wake := by
  unfold wake
  split
  · exact ⟨rfl, fun _ drain hd => ⟨drain, hd, rfl⟩, hq⟩
  · next ha =>
    split
    · exact ⟨rfl, fun _ drain hd => ⟨drain, hd, rfl⟩, hq⟩
    · refine ⟨rfl, fun hna => ?_, fun _ => ⟨w.drains, rfl⟩⟩
      simp [hna] at ha

theorem drains_armRecoveryTimer :
    Drains w w.armRecoveryTimer := by
  unfold armRecoveryTimer
  split <;> exact ⟨rfl, fun _ drain hd => ⟨drain, hd, rfl⟩, hq⟩

end

theorem wakeQueued_armRecoveryTimer : w.armRecoveryTimer.wakeQueued = w.wakeQueued := by
  unfold armRecoveryTimer
  split <;> rfl

section
variable (hq : w.wakeQueued = false)
include hq

theorem queued_of_idle :
    w.wakeQueued = true → ∃ id, w.drainPromise = some ⟨id, .queued⟩ := by
  intro h
  rw [hq] at h
  cases h

theorem drains_endDrain : Drains w w.endDrain := by
  unfold endDrain
  split
  · have hended : Drains w { w with drainPromise := none, redrain := false } :=
      ⟨rfl, fun _ _ => nofun, queued_of_idle hq⟩
    exact hended.trans (drains_wake (queued_of_idle hq))
  · refine ⟨rfl, fun _ _ => nofun, fun h => ?_⟩
    rw [show w.wakeQueued = true from h] at hq
    cases hq

theorem drains_failDrain : Drains w w.failDrain :=
  (drains_armRecoveryTimer (queued_of_idle hq)).trans
    (drains_endDrain (wakeQueued_armRecoveryTimer.trans hq))

theorem drains_setStage (stage : DrainStage) :
    Drains w (w.setStage stage) := by
  refine ⟨rfl, fun _ drain' hd' => ?_, fun h => ?_⟩
  · obtain ⟨drain, hd, rfl⟩ := Option.map_eq_some_iff.mp hd'
    exact ⟨drain, hd, rfl⟩
  · rw [show w.wakeQueued = true from h] at hq
    cases hq

theorem drains_armScheduledTimer (lookedAt : Option ℤ) :
    Drains w (w.armScheduledTimer lookedAt) := by
  have hcleared : Drains w { w with scheduledTimer := none } :=
    ⟨rfl, fun _ drain hd => ⟨drain, hd, rfl⟩, queued_of_idle hq⟩
  simp only [armScheduledTimer]
  split
  · exact hcleared.trans (drains_setStage (w := { w with scheduledTimer := none }) hq _)
  · exact hcleared.trans (drains_endDrain (w := { w with scheduledTimer := none }) hq)

theorem drains_loop : Drains w (w.loop c) := by
  unfold loop
  split
  · exact drains_setStage hq _
  · exact drains_armScheduledTimer hq none

theorem drains_retryAcknowledgements (rest : List PendingAcknowledgement) : Drains w
    (w.retryAcknowledgements c rest) := by
  cases rest with
  | nil => exact drains_loop hq
  | cons e rest => exact drains_setStage hq _

end

/-! ### What they owe -/

theorem draining_wake (hq : w.wakeQueued = true → ∃ id, w.drainPromise = some ⟨id, .queued⟩)
    (hstage : ∀ drain, w.drainPromise = some drain →
      { w with redrain := w.redrain || w.accepting }.StageOk c drain.stage) :
    w.wake.Draining c := by
  cases hd : w.drainPromise with
  | none =>
    have hidle : w.wakeQueued = false := by
      by_contra h
      obtain ⟨id, hid⟩ := hq (by simpa using h)
      rw [hd] at hid
      cases hid
    cases ha : w.accepting with
    | false => simp [Draining, wake, ha, hd]
    | true => simp [Draining, wake, ha, hd, hidle, StageOk]
  | some drain =>
    have hok := hstage drain hd
    unfold Draining
    cases ha : w.accepting with
    | false =>
      rw [show (w.redrain || w.accepting) = w.redrain by simp [ha]] at hok
      rw [show w.wake = w by simp [wake, ha], hd]
      exact hok
    | true =>
      rw [show (w.redrain || w.accepting) = true by simp [ha]] at hok
      rw [show w.wake = { w with redrain := true } by simp [wake, ha, hd]]
      simp only [hd]
      exact hok

theorem draining_endDrain (hq : w.wakeQueued = false)
    (h : w.accepting = true → w.redrain = false → w.Watched c) : w.endDrain.Draining c := by
  unfold endDrain
  split
  · refine draining_wake (w := { w with drainPromise := none, redrain := false })
      (queued_of_idle hq) fun drain hd => ?_
    cases hd
  · next hno =>
    intro ha
    refine h ha ?_
    rw [show w.accepting = true from ha] at hno
    simpa using hno

theorem draining_failDrain (hq : w.wakeQueued = false) : w.failDrain.Draining c := by
  refine draining_endDrain (wakeQueued_armRecoveryTimer.trans hq) fun ha _ => .inl ?_
  unfold armRecoveryTimer at ha ⊢
  split
  · next h =>
    rw [if_pos h] at ha
    simpa [ha] using h
  · rfl

theorem draining_setStage {stage : DrainStage} (hd : w.drainPromise ≠ none)
    (h : w.StageOk c stage) : (w.setStage stage).Draining c := by
  obtain ⟨drain, hd⟩ := Option.ne_none_iff_exists'.mp hd
  simp only [setStage, hd]
  cases stage <;> exact h

theorem draining_armScheduledTimer {lookedAt : Option ℤ} (hq : w.wakeQueued = false)
    (hd : w.drainPromise ≠ none) (h : w.accepting = true → w.redrain = true ∨ w.Exhausted c lookedAt) :
    (w.armScheduledTimer lookedAt).Draining c := by
  simp only [armScheduledTimer]
  split
  · refine draining_setStage hd ?_
    cases lookedAt <;> exact h
  · next ha =>
    refine draining_endDrain hq fun ha' => ?_
    exact absurd ha' ha

theorem draining_loop (hq : w.wakeQueued = false) (hd : w.drainPromise ≠ none) :
    (w.loop c).Draining c := by
  unfold loop
  split
  · next h =>
    refine draining_setStage hd ?_
    have hlt : w.ownedPerformanceCount < c.maxConcurrentInlineJobs := by simp_all
    exact lt_of_le_of_lt (Nat.le_add_right _ _) hlt
  · next h =>
    refine draining_armScheduledTimer hq hd fun ha => .inr ?_
    rw [ha] at h
    simpa [Exhausted] using h

theorem draining_retryAcknowledgements {rest : List PendingAcknowledgement}
    (hq : w.wakeQueued = false) (hd : w.drainPromise ≠ none) (h : w.PassOk rest) :
    (w.retryAcknowledgements c rest).Draining c := by
  cases rest with
  | nil => exact draining_loop hq hd
  | cons e rest => exact draining_setStage hd h

end

section
variable {c : Configuration} {w w' : World}

theorem acknowledge_cases (e : PendingAcknowledgement) (outcome : CallOutcome) :
    w.acknowledge c e outcome = (false, w) ∨
      ∃ returns store, w.acknowledge c e outcome =
          (returns, { w with store, accepted := w.accepted ++ [e.handoff.handoffId] }) ∧
        ∀ id l, leaseOf w.store.jobs id = some l → l ≠ e.handoff.handoffId →
          leaseOf store.jobs id = some l := by
  unfold acknowledge
  split
  · exact .inl rfl
  · split
    · exact .inl rfl
    · next store hexec =>
      refine .inr ⟨_, store, rfl, fun id l h hne => ?_⟩
      have hstore := congrArg Prod.snd hexec
      rw [← show _ = store from hstore]
      cases e.acknowledgement with
      | completed => exact markCompleted_lease_kept c.sha256 h hne
      | failed error => exact markFailed_lease_kept c.sha256 h hne
      | rescheduled delayMs => exact markRescheduled_lease_kept c.sha256 h hne

variable {i : ℕ}

theorem exists_split_of_getElem? {α : Type} {l : List α} {a : α} (h : l[i]? = some a) :
    ∃ xs ys, l = xs ++ a :: ys ∧ l.eraseIdx i = xs ++ ys ∧ ∀ b, l.set i b = xs ++ b :: ys := by
  obtain ⟨hi, rfl⟩ := List.getElem?_eq_some_iff.mp h
  refine ⟨l.take i, l.drop (i + 1), ?_, eraseIdx_eq_take_drop_succ l i, fun b => ?_⟩
  · rw [← drop_eq_getElem_cons hi, take_append_drop]
  · exact set_eq_take_append_cons_drop.trans (if_pos hi)

variable {p : Performance}

theorem mem_flying_eraseIdx (hd : w.flying.Nodup) (hp : w.inFlight[i]? = some p) (h : String) :
    h ∈ (w.inFlight.eraseIdx i).map (fun p => p.handoff.handoffId) ↔
      h ∈ w.flying ∧ h ≠ p.handoff.handoffId := by
  obtain ⟨xs, ys, hl, herase, -⟩ := exists_split_of_getElem? hp
  rw [herase, map_append]
  rw [flying, hl, map_append] at hd ⊢
  have hnotMem := (nodup_cons.mp (nodup_middle.mp hd)).1
  constructor
  · intro hmem
    refine ⟨?_, ?_⟩
    · rcases mem_append.mp hmem with hx | hy
      · exact mem_append_left _ hx
      · exact mem_append_right _ (mem_cons_of_mem _ hy)
    · rintro rfl
      exact hnotMem hmem
  · rintro ⟨hmem, hne⟩
    rcases mem_append.mp hmem with hx | hy
    · exact mem_append_left _ hx
    · exact mem_append_right _ ((mem_cons.mp hy).resolve_left hne)

/-! ### The ledger -/

section
variable (hl : w.Ledger c)
include hl

theorem Ledger.congr (hclaims : w'.claims = w.claims)
    (hperformances : w'.performances = w.performances) (haccepted : w'.accepted = w.accepted)
    (hinFlight : w'.inFlight = w.inFlight)
    (hpending : w'.pendingAcknowledgements = w.pendingAcknowledgements)
    (hlease : ∀ id l, leaseOf w.store.jobs id = some l → leaseOf w'.store.jobs id = some l) :
    w'.Ledger c where
  once := by rw [hclaims, hperformances, hl.once]
  fresh := hclaims ▸ hl.fresh
  accepted := by
    rw [haccepted, hclaims]
    exact hl.accepted
  capacity := hinFlight ▸ hl.capacity
  distinct := by
    rw [flying, hinFlight]
    exact hl.distinct
  running p hp := by
    rw [hinFlight] at hp
    obtain ⟨hclaimed, hnot, hheld⟩ := hl.running p hp
    rw [hclaims, haccepted]
    exact ⟨hclaimed, hnot, hlease _ _ hheld⟩
  pending k e he := by
    rw [hpending] at he
    obtain ⟨hk, hclaimed, hflying, hheld⟩ := hl.pending k e he
    rw [flying, hinFlight, hclaims, haccepted]
    exact ⟨hk, hclaimed, hflying, fun hnot => hlease _ _ (hheld hnot)⟩
  owned h := by
    rw [hclaims, haccepted, flying, hinFlight, hpending]
    exact hl.owned h

theorem Ledger.restore (hempty : w.inFlight = [])
    (hall : ∀ h ∈ w.claims, h ∈ w.accepted) (store : Db) : { w with store }.Ledger c := by
  refine ⟨hl.once, hl.fresh, hl.accepted, hl.capacity, hl.distinct, fun p hp => ?_, ?_, hl.owned⟩
  · rw [show w.inFlight = [] from hempty] at hp
    cases hp
  · intro k e he
    obtain ⟨hk, hclaimed, hflying, -⟩ := hl.pending k e he
    exact ⟨hk, hclaimed, hflying, fun hnot => absurd (hall _ hclaimed) hnot⟩

theorem Ledger.accept {h : String} (store : Db) (hclaimed : h ∈ w.claims)
    (hflying : h ∉ w.flying) (hlease : ∀ id l, leaseOf w.store.jobs id = some l → l ≠ h →
      leaseOf store.jobs id = some l) :
    { w with store, accepted := w.accepted ++ [h] }.Ledger c := by
  refine ⟨hl.once, hl.fresh, ?_, hl.capacity, hl.distinct, fun p hp => ?_, ?_, ?_⟩
  · intro h' hmem
    rcases mem_append.mp hmem with hold | hnew
    · exact hl.accepted h' hold
    · exact mem_singleton.mp hnew ▸ hclaimed
  · obtain ⟨hc, hnot, hheld⟩ := hl.running p hp
    have hne : p.handoff.handoffId ≠ h := by
      rintro rfl
      exact hflying (mem_map_of_mem hp)
    exact ⟨hc, by simp [hnot, hne], hlease _ _ hheld hne⟩
  · intro k e he
    obtain ⟨hk, hc, hf, hheld⟩ := hl.pending k e he
    refine ⟨hk, hc, hf, fun hnot => ?_⟩
    rw [mem_append, not_or, mem_singleton] at hnot
    exact hlease _ _ (hheld hnot.1) hnot.2
  · intro h' hmem hnot
    rw [mem_append, not_or] at hnot
    exact hl.owned h' hmem hnot.1

theorem Ledger.deleteAcknowledgement {jobId : String}
    (haccepted : ∀ e, w.pendingAcknowledgements.get? jobId = some e →
      e.handoff.handoffId ∈ w.accepted) : (w.deleteAcknowledgement jobId).Ledger c := by
  refine ⟨hl.once, hl.fresh, hl.accepted, hl.capacity, hl.distinct, hl.running, ?_, ?_⟩
  · intro k e he
    rw [World.deleteAcknowledgement, EntryMap.get?_delete] at he
    split at he
    · cases he
    · exact hl.pending k e he
  · intro h hmem hnot
    refine (hl.owned h hmem hnot).imp id ?_
    rintro ⟨k, e, he, rfl⟩
    refine ⟨k, e, ?_, rfl⟩
    rw [World.deleteAcknowledgement, EntryMap.get?_delete, if_neg, he]
    rintro rfl
    exact hnot (haccepted e he)

theorem Ledger.land (hp : w.inFlight[i]? = some p)
    {store : Db} (hlease : ∀ id l, leaseOf w.store.jobs id = some l → l ≠ p.handoff.handoffId →
      leaseOf store.jobs id = some l) :
    { w with
      store
      accepted := w.accepted ++ [p.handoff.handoffId]
      inFlight := w.inFlight.eraseIdx i }.Ledger c := by
  have hclaimed := (hl.running p (mem_of_getElem? hp)).1
  have hflying := mem_flying_eraseIdx hl.distinct hp
  refine ⟨hl.once, hl.fresh, ?_, ?_, ?_, ?_, ?_, ?_⟩
  · intro h hmem
    rcases mem_append.mp hmem with hold | hnew
    · exact hl.accepted h hold
    · exact mem_singleton.mp hnew ▸ hclaimed
  · exact (length_eraseIdx_le _ _).trans hl.capacity
  · exact hl.distinct.sublist ((eraseIdx_sublist _ _).map _)
  · intro q hq
    obtain ⟨hc, hnot, hheld⟩ := hl.running q (eraseIdx_subset hq)
    have hne := ((hflying _).mp (mem_map_of_mem hq)).2
    exact ⟨hc, by simp [hnot, hne], hlease _ _ hheld hne⟩
  · intro k e he
    obtain ⟨hk, hc, hf, hheld⟩ := hl.pending k e he
    refine ⟨hk, hc, fun hmem => hf ((hflying _).mp hmem).1, fun hnot => ?_⟩
    rw [mem_append, not_or, mem_singleton] at hnot
    exact hlease _ _ (hheld hnot.1) hnot.2
  · intro h hmem hnot
    rw [mem_append, not_or, mem_singleton] at hnot
    exact (hl.owned h hmem hnot.1).imp (fun hf => (hflying h).mpr ⟨hf, hnot.2⟩) id

theorem Ledger.retain (hp : w.inFlight[i]? = some p)
    {store : Db} {accepted : List String} {e : PendingAcknowledgement}
    (hhandoff : e.handoff = p.handoff) (hjob : e.job = p.job)
    (hold : ∀ h ∈ w.accepted, h ∈ accepted)
    (hnew : ∀ h ∈ accepted, h ∈ w.accepted ∨ h = p.handoff.handoffId)
    (hlease : ∀ id l, leaseOf w.store.jobs id = some l →
      l ≠ p.handoff.handoffId ∨ p.handoff.handoffId ∉ accepted → leaseOf store.jobs id = some l) :
    { w with
      store
      accepted
      inFlight := w.inFlight.eraseIdx i
      pendingAcknowledgements := w.pendingAcknowledgements.set p.job.id e }.Ledger c := by
  obtain ⟨hclaimed, -, hheldp⟩ := hl.running p (mem_of_getElem? hp)
  have hflying := mem_flying_eraseIdx hl.distinct hp
  refine ⟨hl.once, hl.fresh, ?_, ?_, ?_, ?_, ?_, ?_⟩
  · intro h hmem
    rcases hnew h hmem with h' | rfl
    · exact hl.accepted h h'
    · exact hclaimed
  · exact (length_eraseIdx_le _ _).trans hl.capacity
  · exact hl.distinct.sublist ((eraseIdx_sublist _ _).map _)
  · intro q hq
    obtain ⟨hc, hnot, hheld⟩ := hl.running q (eraseIdx_subset hq)
    have hne := ((hflying _).mp (mem_map_of_mem hq)).2
    exact ⟨hc, fun hmem => (hnew _ hmem).elim hnot hne, hlease _ _ hheld (.inl hne)⟩
  · intro k e' he'
    rw [EntryMap.get?_set] at he'
    split at he'
    · next hk =>
      cases he'
      rw [hjob, hhandoff, hk]
      refine ⟨rfl, hclaimed, fun hmem => ((hflying _).mp hmem).2 rfl, fun hnot => ?_⟩
      exact hlease _ _ hheldp (.inr hnot)
    · obtain ⟨hk, hc, hf, hheld⟩ := hl.pending k e' he'
      refine ⟨hk, hc, fun hmem => hf ((hflying _).mp hmem).1, fun hnot => ?_⟩
      refine hlease _ _ (hheld fun h => hnot (hold _ h)) (.inl ?_)
      intro heq
      exact hf (heq ▸ mem_map_of_mem (mem_of_getElem? hp))
  · intro h hmem hnot
    by_cases hh : h = p.handoff.handoffId
    · exact .inr ⟨p.job.id, e, EntryMap.get?_set_self, by rw [hhandoff, hh]⟩
    · rcases hl.owned h hmem (fun hmem' => hnot (hold _ hmem')) with hf | ⟨k, e', he', rfl⟩
      · exact .inl ((hflying h).mpr ⟨hf, hh⟩)
      · refine .inr ⟨k, e', ?_, rfl⟩
        rw [EntryMap.get?_set, if_neg, he']
        -- the job of `p` is held by `p`, and that of `e'` by `e'`
        rintro rfl
        have hheld := (hl.pending _ e' he').2.2.2 fun h => hnot (hold _ h)
        rw [hheldp] at hheld
        exact hh (Option.some.inj hheld).symm

end

theorem claims_granted (w : World) (store : Db) (handoff : Handoff) (job : JobRow) :
    (w.granted store handoff job).claims = w.claims ++ [handoff.handoffId] := by
  simp [claims, granted, startPerformance]

theorem performances_granted (w : World) (store : Db) (handoff : Handoff) (job : JobRow) :
    (w.granted store handoff job).performances = w.performances ++ [handoff.handoffId] := by
  simp [performances, granted, startPerformance]

theorem flying_granted (w : World) (store : Db) (handoff : Handoff) (job : JobRow) :
    (w.granted store handoff job).flying = w.flying ++ [handoff.handoffId] := by
  simp [flying, granted, startPerformance]

theorem Ledger.claim (hl : w.Ledger c) {handoff : Handoff} (job : JobRow) (store : Db)
    (hfresh : handoff.handoffId ∉ w.claims) (hroom : w.inFlight.length < c.maxConcurrentInlineJobs)
    (hgranted : leaseOf store.jobs job.id = some handoff.handoffId)
    (hlease : ∀ id l, leaseOf w.store.jobs id = some l → leaseOf store.jobs id = some l) :
    (w.granted store handoff job).Ledger c := by
  have hclaims := claims_granted w store handoff job
  have hflying := flying_granted w store handoff job
  have hnotFlying : handoff.handoffId ∉ w.flying := by
    intro hmem
    obtain ⟨p, hp, heq⟩ := mem_map.mp hmem
    exact hfresh (heq ▸ (hl.running p hp).1)
  have hnodup : ∀ {l : List String}, l.Nodup → handoff.handoffId ∉ l →
      (l ++ [handoff.handoffId]).Nodup := fun hl' hnot =>
    nodup_append.mpr ⟨hl', nodup_singleton _, fun a ha b hb hab =>
      hnot (mem_singleton.mp hb ▸ hab ▸ ha)⟩
  refine ⟨?_, ?_, ?_, ?_, ?_, ?_, ?_, ?_⟩
  · rw [hclaims, performances_granted, hl.once]
  · rw [hclaims]
    exact hnodup hl.fresh hfresh
  · intro h hmem
    rw [hclaims]
    exact mem_append_left _ (hl.accepted h hmem)
  · simpa [granted, startPerformance] using hroom
  · rw [hflying]
    exact hnodup hl.distinct hnotFlying
  · intro p hp
    rw [hclaims]
    rcases mem_append.mp hp with hold | hnew
    · obtain ⟨hc, hnot, hheld⟩ := hl.running p hold
      exact ⟨mem_append_left _ hc, hnot, hlease _ _ hheld⟩
    · obtain rfl := mem_singleton.mp hnew
      exact ⟨mem_append_right _ (mem_singleton_self _),
        fun hmem => hfresh (hl.accepted _ hmem), hgranted⟩
  · intro k e he
    obtain ⟨hk, hc, hf, hheld⟩ := hl.pending k e he
    rw [hclaims, hflying]
    refine ⟨hk, mem_append_left _ hc, fun hmem => ?_, fun hnot => hlease _ _ (hheld hnot)⟩
    rcases mem_append.mp hmem with hold | hnew
    · exact hf hold
    · exact hfresh (mem_singleton.mp hnew ▸ hc)
  · intro h hmem hnot
    rw [hclaims] at hmem
    rw [hflying]
    rcases mem_append.mp hmem with hold | hnew
    · exact (hl.owned h hold hnot).imp (mem_append_left _) id
    · exact .inl (mem_append_right _ hnew)

end

/-! ### Passes -/

section
variable {c : Configuration} {w w' : World} {rest : List PendingAcknowledgement}

theorem PassOk.mono (h : w.PassOk rest) (hclaims : ∀ h ∈ w.claims, h ∈ w'.claims)
    (hflying : ∀ h ∈ w'.flying, h ∈ w.flying ∨ h ∉ w.claims)
    (hpending : ∀ e ∈ rest, ∀ e', w'.pendingAcknowledgements.get? e.job.id = some e' →
      w.pendingAcknowledgements.get? e.job.id = some e' ∨ e'.handoff.handoffId ∈ w'.accepted)
    (haccepted : ∀ h ∈ w.accepted, h ∈ w'.accepted) : w'.PassOk rest := by
  intro e he
  obtain ⟨hclaimed, hnot, hsame⟩ := h e he
  refine ⟨hclaims _ hclaimed, fun hmem => ?_, fun e' he' => ?_⟩
  · exact (hflying _ hmem).elim hnot fun hfresh => hfresh hclaimed
  · rcases hpending e he e' he' with hold | haccepted'
    · exact (hsame e' hold).imp id (haccepted _)
    · exact .inr haccepted'

theorem PassOk.tail {e : PendingAcknowledgement} (h : w.PassOk (e :: rest)) : w.PassOk rest :=
  fun e' he' => h e' (mem_cons_of_mem _ he')

theorem Ledger.passOk (hl : w.Ledger c) : w.PassOk w.pendingAcknowledgements.values := by
  intro e he
  obtain ⟨k, hk⟩ := EntryMap.mem_values.mp he
  obtain ⟨hjob, hclaimed, hnot, -⟩ := hl.pending k e hk
  refine ⟨hclaimed, hnot, fun e' he' => .inl ?_⟩
  rw [hjob, hk] at he'
  exact (Option.some.inj he').symm

variable {store : Db}

theorem PassOk.deletes {e : PendingAcknowledgement} (h : w.PassOk (e :: rest))
    (e' : PendingAcknowledgement) (he' : w.pendingAcknowledgements.get? e.job.id = some e') :
    e'.handoff.handoffId ∈
      { w with store, accepted := w.accepted ++ [e.handoff.handoffId] }.accepted := by
  rcases (h e (mem_cons_self)).2.2 e' he' with rfl | hmem
  · exact mem_append_right _ (mem_singleton_self _)
  · exact mem_append_left _ hmem

theorem PassOk.accept {h : String} (hpass : w.PassOk rest) :
    { w with store, accepted := w.accepted ++ [h] }.PassOk rest :=
  hpass.mono (fun _ h => h) (fun _ h => .inl h) (fun _ _ _ h => .inl h)
    fun _ h => mem_append_left _ h

theorem PassOk.deleteAcknowledgement {jobId : String} (hpass : w.PassOk rest) :
    (w.deleteAcknowledgement jobId).PassOk rest := by
  refine hpass.mono (fun _ h => h) (fun _ h => .inl h) (fun e _ e' he' => .inl ?_) fun _ h => h
  rw [World.deleteAcknowledgement, EntryMap.get?_delete] at he'
  split at he'
  · cases he'
  · exact he'

theorem PassOk.drains (hpass : w.PassOk rest) (h : Drains w w') : w'.PassOk rest := by
  rw [h.frame]
  exact hpass

theorem StopOk.mono {stage : StopStage} (h : w.StopOk stage)
    (hdrain : w'.drainPromise = w.drainPromise) (hclaims : ∀ h ∈ w.claims, h ∈ w'.claims)
    (hflying : ∀ h ∈ w'.flying, h ∈ w.flying)
    (hpending : w.inFlight = [] → ∀ k e, w'.pendingAcknowledgements.get? k = some e →
      w.pendingAcknowledgements.get? k = some e)
    (haccepted : ∀ h ∈ w.accepted, h ∈ w'.accepted) : w'.StopOk stage := by
  cases stage with
  | drain id => exact fun drain hd => h drain (hdrain ▸ hd)
  | performances handoffIds =>
    exact ⟨hdrain.trans h.1, fun h' hmem => h.2 h' (hflying h' hmem)⟩
  | retrying rest =>
    obtain ⟨hd, hempty, hpass, hall⟩ := h
    refine ⟨hdrain.trans hd, ?_, ?_, fun k e he hnot => ?_⟩
    · by_contra hne
      obtain ⟨p, hp⟩ := exists_mem_of_ne_nil _ hne
      have hmem := hflying _ (mem_map_of_mem hp)
      rw [flying, hempty] at hmem
      cases hmem
    · exact hpass.mono hclaims (fun h' hmem => .inl (hflying h' hmem))
        (fun e he e' he' => .inl (hpending hempty _ _ he')) haccepted
    · exact hall k e (hpending hempty k e he) fun hmem => hnot (haccepted _ hmem)

variable {drain : Drain}

section
variable (hp : w.Phases) (hd : w.drainPromise = some drain)
include hp hd

theorem Phases.beside_drain {redrain : Bool} {inFlight : List Performance}
    {pendingAcknowledgements : EntryMap String PendingAcknowledgement}
    {log : List DispatchEvent} {accepted : List String} (hlog : isHalted log = isHalted w.log)
    (hhalts : Halts log) :
    { w with redrain, inFlight, pendingAcknowledgements, store, log, accepted }.Phases := by
  have hsome : w.drainPromise ≠ none := by
    rw [hd]
    exact nofun
  refine ⟨hp.accepting, hp.starting, fun hs => ?_, hp.queued, fun stage hstage => ?_, fun h => ?_,
    hhalts⟩
  · exact absurd (hp.rested hs).2.1 hsome
  · have hok := hp.stops stage hstage
    cases stage with
    | drain id => exact hok
    | performances handoffIds => exact absurd hok.1 hsome
    | retrying rest => exact absurd hok.1 hsome
  · exact hp.halted (hlog ▸ h)

theorem Phases.not_halted :
    isHalted w.log = false := by
  by_contra h
  have hnone := (hp.rested (hp.halted (by simpa using h)).1).2.1
  rw [hd] at hnone
  cases hnone

theorem Phases.idle (hstage : drain.stage ≠ .queued) : w.wakeQueued = false := by
  by_contra h
  obtain ⟨id, hid⟩ := hp.queued (by simpa using h)
  rw [hd] at hid
  cases hid
  exact hstage rfl

end

theorem Inv.of_drains (hl : w.Ledger c) (hp : w.Phases) (h : Drains w w')
    (hd : w'.Draining c) : w'.Inv c :=
  ⟨hl.drains h, hp.drains h, hd⟩

theorem Inv.wakes (hl : w.Ledger c) (hp : w.Phases)
    (hstage : ∀ drain, w.drainPromise = some drain →
      { w with redrain := w.redrain || w.accepting }.StageOk c drain.stage) : w.wake.Inv c :=
  .of_drains hl hp (drains_wake hp.queued) (draining_wake hp.queued hstage)

theorem StageOk.woken {stage : DrainStage} (h : w.StageOk c stage)
    (hlength : w'.inFlight.length ≤ w.inFlight.length)
    (hpass : ∀ rest, stage = .retrying rest → w.PassOk rest → w'.PassOk rest) :
    { w' with redrain := w'.redrain || w'.accepting }.StageOk c stage := by
  cases stage with
  | queued => trivial
  | retrying rest => exact hpass rest rfl h
  | looking | claiming job => exact lt_of_le_of_lt hlength h
  | arming lookedAt =>
    intro ha
    simp [show w'.accepting = true from ha]

theorem Draining.mono (h : w.Draining c) (hdrain : w'.drainPromise = w.drainPromise)
    (hlength : w'.inFlight.length = w.inFlight.length)
    (hpass : ∀ rest, w.PassOk rest → w'.PassOk rest)
    (hrest : w'.accepting = true → w.accepting = true ∧ w'.redrain = w.redrain ∧
      w'.recoveryTimer = w.recoveryTimer ∧ w'.scheduledTimer = w.scheduledTimer ∧
      w'.pendingAcknowledgements = w.pendingAcknowledgements ∧ w'.store = w.store ∧
      w.now ≤ w'.now) : w'.Draining c := by
  have howned : w'.pendingAcknowledgements = w.pendingAcknowledgements →
      w'.ownedPerformanceCount = w.ownedPerformanceCount := by
    intro hpending
    rw [ownedPerformanceCount, ownedPerformanceCount, hlength, hpending]
  unfold Draining at h ⊢
  rw [hdrain]
  cases hd : w.drainPromise with
  | none =>
    rw [hd] at h
    intro ha
    obtain ⟨ha', -, hrecovery, hscheduled, hpending, hstore, hnow⟩ := hrest ha
    rw [Watched, hrecovery, hscheduled, howned hpending, hstore]
    refine (h ha').imp id fun hlater => hlater.imp id fun hlater t hle => ?_
    exact hlater t (hnow.trans hle)
  | some drain =>
    rw [hd] at h
    simp only at h ⊢
    cases hstage : drain.stage with
    | queued => trivial
    | retrying rest =>
      rw [hstage] at h
      exact hpass rest h
    | looking | claiming job =>
      rw [hstage] at h
      exact hlength.trans_lt h
    | arming lookedAt =>
      rw [hstage] at h
      intro ha
      obtain ⟨ha', hredrain, -, -, hpending, hstore, -⟩ := hrest ha
      rw [hredrain]
      refine (h ha').imp id fun hexhausted => ?_
      cases lookedAt with
      | none =>
        rw [Exhausted, howned hpending]
        exact hexhausted
      | some at' =>
        rw [Exhausted, hstore]
        exact hexhausted

theorem Inv.stage (h : w.Inv c) (hd : w.drainPromise = some drain) : w.StageOk c drain.stage := by
  have hdraining := h.draining
  unfold Draining at hdraining
  rwa [hd] at hdraining

theorem Inv.resolveIdleWaiters (h : w.Inv c) : w.resolveIdleWaiters.Inv c :=
  .of_drains h.ledger h.phases ⟨rfl, fun _ drain hd => ⟨drain, hd, rfl⟩, h.phases.queued⟩
    h.draining

end

end World

end Velocious.LocalDispatcher
