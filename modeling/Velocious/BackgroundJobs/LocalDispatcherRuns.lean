/-
  Runs of the local dispatcher.

  * `Undisturbed` is the condition on a step. A start and a stop do not overlap; while a pass
    still has an acknowledgement of a job, no later performance of that job fails to be
    acknowledged; and no job becomes due between a drain's last look and its timer query.
  * `Inv.step`: an undisturbed step keeps the dispatcher in order, one lemma for each function.
-/
import Velocious.BackgroundJobs.LocalDispatcherInvariants

namespace Velocious.LocalDispatcher

open Foundation LocalStore List

namespace World

/-- The acknowledgements that the drain's pass has left. -/
def retried (w : World) : List PendingAcknowledgement :=
  match w.drainPromise with
  | some ⟨_, .retrying rest⟩ => rest
  | _ => []

/-- The condition on a step. -/
def Undisturbed (c : Configuration) (w : World) : DispatchAction → Prop
  | .start => w.started = true ∨ w.startPromise ≠ none ∨ w.stops = []
  | .stop => w.startPromise = none
  | .acknowledged i outcome =>
    ∀ handoff job acknowledgement, w.inFlight[i]? = some ⟨handoff, job, some acknowledgement⟩ →
      -- the acknowledgement returns or takes effect, or no other one of the job is retried
      handoff.handoffId ∈ (w.acknowledge c ⟨acknowledgement, handoff, job⟩ outcome).2.accepted ∨
        ∀ e ∈ w.retried, e.job.id ≠ job.id
  | .drainStep .answers _ =>
    ∀ id lookedAt, w.drainPromise = some ⟨id, .arming (some lookedAt)⟩ → w.redrain = false →
      ∀ row ∈ w.store.jobs, row.status = .queued → row.scheduledAtMs ≤ w.now →
        row.scheduledAtMs ≤ lookedAt
  | _ => True

/-! ## A step of the drain -/

section
variable {c : Configuration} {w : World}

theorem Inv.retried (h : w.Inv c) {drain : Drain} (hd : w.drainPromise = some drain)
    {e : PendingAcknowledgement} {rest : List PendingAcknowledgement}
    (hstage : drain.stage = .retrying (e :: rest)) (outcome : CallOutcome) (handoffId : String) :
    (w.drainStep c outcome handoffId (.retrying (e :: rest))).Inv c := by
  have hq : w.wakeQueued = false := h.phases.idle hd (by rw [hstage]; nofun)
  have hsome : w.drainPromise ≠ none := by simp [hd]
  have hpass : w.PassOk (e :: rest) := by
    have hok := h.stage hd
    rwa [hstage] at hok
  obtain ⟨hclaimed, hflying, -⟩ := hpass e mem_cons_self
  -- from a state whose drain is this one, the rest of the pass is retried
  have hgoOn : ∀ {w₁ : World}, w₁.Ledger c → w₁.Phases → w₁.wakeQueued = false →
      w₁.drainPromise ≠ none → w₁.PassOk rest → (w₁.retryAcknowledgements c rest).Inv c :=
    fun hl hp hq hd hpass => .of_drains hl hp (drains_retryAcknowledgements hq rest)
      (draining_retryAcknowledgements hq hd hpass)
  have hfailed : ∀ {w₁ : World}, w₁.Ledger c → w₁.Phases → w₁.wakeQueued = false →
      w₁.drainPromise ≠ none → w₁.PassOk rest →
      (w₁.armRecoveryTimer.retryAcknowledgements c rest).Inv c := by
    intro w₁ hl hp hq hd hpass
    have hdrains := drains_armRecoveryTimer (queued_of_idle hq)
    refine hgoOn (hl.drains hdrains) (hp.drains hdrains)
      (wakeQueued_armRecoveryTimer.trans hq) ?_ (hpass.drains hdrains)
    unfold armRecoveryTimer
    split <;> exact hd
  unfold drainStep
  rcases acknowledge_cases (c := c) (w := w) e outcome with hnothing | ⟨returns, store, heq, hlease⟩
  · simp only [hnothing]
    exact hfailed h.ledger h.phases hq hsome hpass.tail
  · simp only [heq]
    have hl := h.ledger.accept store hclaimed hflying hlease
    have hp : { w with store, accepted := w.accepted ++ [e.handoff.handoffId] }.Phases :=
      h.phases.beside_drain hd rfl h.phases.halts
    cases returns with
    | false => exact hfailed hl hp hq hsome hpass.tail.accept
    | true =>
      exact hgoOn (hl.deleteAcknowledgement hpass.deletes) (hp.beside_drain hd rfl h.phases.halts) hq hsome
        hpass.tail.accept.deleteAcknowledgement

variable {drain : Drain}

theorem Inv.looked (h : w.Inv c) (hd : w.drainPromise = some drain)
    (hstage : drain.stage = .looking) (outcome : CallOutcome) : (w.looked c outcome).Inv c := by
  have hq : w.wakeQueued = false := h.phases.idle hd (by rw [hstage]; nofun)
  have hsome : w.drainPromise ≠ none := by simp [hd]
  have hroom := h.stage hd
  rw [hstage] at hroom
  have hfail : w.failDrain.Inv c :=
    .of_drains h.ledger h.phases (drains_failDrain hq) (draining_failDrain hq)
  unfold World.looked
  split
  · split
    · exact hfail
    · next hnone =>
      exact .of_drains h.ledger h.phases (drains_armScheduledTimer hq _)
        (draining_armScheduledTimer hq hsome fun _ => .inr (nextAvailableJob_none hnone))
    · exact .of_drains h.ledger h.phases (drains_setStage hq _) (draining_setStage hsome hroom)
  · exact hfail

theorem Inv.claimed (h : w.Inv c) (hd : w.drainPromise = some drain)
    {job : JobRow} (hstage : drain.stage = .claiming job) (outcome : CallOutcome)
    {handoffId : String} (hfresh : handoffId ∉ w.claims) :
    (w.claimed c job outcome handoffId).Inv c := by
  have hq : w.wakeQueued = false := h.phases.idle hd (by rw [hstage]; nofun)
  have hsome : w.drainPromise ≠ none := by simp [hd]
  have hroom : w.inFlight.length < c.maxConcurrentInlineJobs := by
    have hok := h.stage hd
    rwa [hstage] at hok
  have hfail : w.failDrain.Inv c :=
    .of_drains h.ledger h.phases (drains_failDrain hq) (draining_failDrain hq)
  have hkept : ∀ {id l}, leaseOf w.store.jobs id = some l → leaseOf ((Tx.markHandedOff job.id
      handoffId none w.now w.now).exec c.sha256 w.store).2.jobs id = some l :=
    markHandedOff_lease_kept c.sha256
  unfold World.claimed
  split
  · split
    · next handoff store hexec =>
      rw [hexec] at hkept
      obtain ⟨hid, -, hgranted⟩ := exec_granted c.sha256 hexec
      have hl := h.ledger.claim job store (hid ▸ hfresh) hroom
        (hid ▸ hgranted) fun _ _ => hkept
      have hrunning : isHalted w.log = false := h.phases.not_halted hd
      have hhalts := (h.phases.halts.append (.claimed handoff.handoffId) fun _ _ => hrunning).append
        (.performed handoff.handoffId) nofun
      have hp : (w.granted store handoff job).Phases :=
        h.phases.beside_drain hd (by simp [isHalted]) hhalts
      exact .of_drains hl hp (drains_loop hq) (draining_loop hq hsome)
    · next store _ hexec =>
      rw [hexec] at hkept
      have hl : { w with store, redrain := true }.Ledger c :=
        h.ledger.congr rfl rfl rfl rfl rfl fun _ _ => hkept
      have hp : { w with store, redrain := true }.Phases := h.phases.beside_drain hd rfl h.phases.halts
      exact .of_drains hl hp
        (drains_armScheduledTimer (w := { w with store, redrain := true }) hq none)
        (draining_armScheduledTimer (w := { w with store, redrain := true }) hq hsome
          fun _ => .inl rfl)
    · exact hfail
  · exact hfail

theorem armed_by {job : JobRow} {t : ℤ} (hnow : w.now ≤ t) (hat : job.scheduledAtMs ≤ t) :
    w.now + max 0 (min (job.scheduledAtMs - w.now) maxTimerMs) ≤ t := by
  omega

theorem Inv.armed (h : w.Inv c) (hd : w.drainPromise = some drain)
    {lookedAt : Option ℤ} (hstage : drain.stage = .arming lookedAt) {outcome : CallOutcome}
    (hdue : outcome = .answers → ∀ at', lookedAt = some at' → w.redrain = false →
      ∀ row ∈ w.store.jobs, row.status = .queued → row.scheduledAtMs ≤ w.now →
        row.scheduledAtMs ≤ at') : (w.armed outcome).Inv c := by
  have hq : w.wakeQueued = false := h.phases.idle hd (by rw [hstage]; nofun)
  have hok := h.stage hd
  rw [hstage] at hok
  have hfail : w.failDrain.Inv c :=
    .of_drains h.ledger h.phases (drains_failDrain hq) (draining_failDrain hq)
  unfold World.armed
  split
  · next houtcome =>
    -- a job that is claimable later is not due yet, unless the capacity is used up
    have hlater : w.accepting = true → w.redrain = false →
        c.maxConcurrentInlineJobs ≤ w.ownedPerformanceCount ∨ ∀ t, ∀ row ∈ w.store.jobs,
          claimable w.store.concurrency t row → row.status = .queued ∧ row.scheduledAtMs ≤ t ∧
            w.now < row.scheduledAtMs := by
      intro ha hr
      have hexhausted := (hok ha).resolve_left (by simp [hr])
      cases lookedAt with
      | none => exact .inl hexhausted
      | some at' =>
        refine .inr fun t row hrow hclaimable => ?_
        simp only [claimable, Bool.and_eq_true, decide_eq_true_eq] at hclaimable
        obtain ⟨⟨hqueued, hat⟩, hslot⟩ := hclaimable
        refine ⟨hqueued, hat, ?_⟩
        by_contra hle
        have hbefore := hdue houtcome at' rfl hr row hrow hqueued (not_lt.mp hle)
        have hnot := hexhausted row hrow
        simp [claimable, hqueued, hbefore, hslot] at hnot
    split
    · exact hfail
    · next hnone =>
      refine .of_drains h.ledger h.phases (drains_endDrain hq) (draining_endDrain hq fun ha hr => ?_)
      refine .inr ((hlater ha hr).imp id fun hlater t _ => ?_)
      rintro ⟨row, hrow, hclaimable⟩
      obtain ⟨hqueued, -, hlt⟩ := hlater t row hrow hclaimable
      exact absurd (nextScheduledJob_none hnone row hrow hqueued) (not_le.mpr hlt)
    · next nextJob hnext =>
      refine .of_drains (w := { w with scheduledTimer := some (w.now +
          max 0 (min (nextJob.scheduledAtMs - w.now) maxTimerMs)) })
        (h.ledger.congr rfl rfl rfl rfl rfl fun _ _ h => h) ?_ (drains_endDrain hq)
        (draining_endDrain hq fun ha hr => ?_)
      · exact h.phases.drains ⟨rfl, fun _ drain hd => ⟨drain, hd, rfl⟩, h.phases.queued⟩
      · refine .inr ((hlater ha hr).imp id fun hlater t hnow => ?_)
        rintro ⟨row, hrow, hclaimable⟩
        obtain ⟨hqueued, hat, hlt⟩ := hlater t row hrow hclaimable
        exact ⟨_, rfl, armed_by hnow ((nextScheduledJob_some hnext row hrow hqueued hlt).trans hat)⟩
  · exact hfail

theorem Inv.drainStep (h : w.Inv c) (hd : w.drainPromise = some drain)
    {outcome : CallOutcome} {handoffId : String} (hfresh : handoffId ∉ w.claims)
    (hok : w.Undisturbed c (.drainStep outcome handoffId)) :
    (w.drainStep c outcome handoffId drain.stage).Inv c := by
  cases hstage : drain.stage with
  | queued =>
    have hp : { w with wakeQueued := false }.Phases :=
      h.phases.drains ⟨rfl, fun _ drain hd => ⟨drain, hd, rfl⟩, nofun⟩
    have hsome : w.drainPromise ≠ none := by simp [hd]
    exact .of_drains (w := { w with wakeQueued := false })
      (h.ledger.congr rfl rfl rfl rfl rfl fun _ _ h => h) hp (drains_retryAcknowledgements rfl _)
      (draining_retryAcknowledgements rfl hsome h.ledger.passOk)
  | retrying rest =>
    cases rest with
    | nil =>
      have hq : w.wakeQueued = false := h.phases.idle hd (by rw [hstage]; nofun)
      exact .of_drains h.ledger h.phases (drains_loop hq) (draining_loop hq (by simp [hd]))
    | cons e rest => exact h.retried hd hstage outcome handoffId
  | looking => exact h.looked hd hstage outcome
  | claiming job => exact h.claimed hd hstage outcome hfresh
  | arming lookedAt =>
    refine h.armed hd hstage fun houtcome at' hat => ?_
    subst houtcome hat
    refine hok drain.id at' ?_
    rw [hd, ← hstage]

end

section
variable {c : Configuration} {w : World}

theorem Inv.settlePerformance (h : w.Inv c) {i : ℕ} {p : Performance}
    (hp : w.inFlight[i]? = some p) {acknowledgement : Acknowledgement} {outcome : CallOutcome}
    (hok : p.handoff.handoffId ∈
        (w.acknowledge c ⟨acknowledgement, p.handoff, p.job⟩ outcome).2.accepted ∨
      ∀ e ∈ w.retried, e.job.id ≠ p.job.id) :
    (w.settlePerformance c i p acknowledgement outcome).Inv c := by
  have hmem := mem_of_getElem? hp
  have hflies := mem_flying_eraseIdx h.ledger.distinct hp
  have hnot := (h.ledger.running p hmem).2.1
  have hne : w.inFlight ≠ [] := ne_nil_of_mem hmem
  -- the performance leaves; what is pending changes only at its job
  have hleave : ∀ {accepted : List String} {store : Db}
      {pending : EntryMap String PendingAcknowledgement},
      (∀ h ∈ w.accepted, h ∈ accepted) →
      (∀ e ∈ w.retried, ∀ e', pending.get? e.job.id = some e' →
        w.pendingAcknowledgements.get? e.job.id = some e' ∨ e'.handoff.handoffId ∈ accepted) →
      { w with
        store, accepted
        inFlight := w.inFlight.eraseIdx i
        pendingAcknowledgements := pending }.Ledger c →
      { w with
        store, accepted
        inFlight := w.inFlight.eraseIdx i
        pendingAcknowledgements := pending }.wake.resolveIdleWaiters.Inv c := by
    intro accepted store pending haccepted hpending hl
    refine Inv.resolveIdleWaiters (.wakes hl ?_ fun drain hd => ?_)
    · refine ⟨h.phases.accepting, h.phases.starting, fun hs => ?_, h.phases.queued,
        fun stage hstage => ?_, h.phases.halted, h.phases.halts⟩
      · exact absurd (h.phases.rested hs).2.2.1 hne
      · exact (h.phases.stops stage hstage).mono rfl (fun _ h => h)
          (fun h' hmem' => ((hflies h').mp hmem').1) (fun hempty => absurd hempty hne) haccepted
    · refine (h.stage hd).woken (length_eraseIdx_le _ _) fun rest hrest hpass => ?_
      have hretried : w.retried = rest := by
        unfold World.retried
        rw [show w.drainPromise = some ⟨drain.id, .retrying rest⟩ from hrest ▸ hd]
      exact hpass.mono (fun _ h => h) (fun h' hmem' => .inl ((hflies h').mp hmem').1)
        (fun e he => hpending e (hretried ▸ he)) haccepted
  unfold World.settlePerformance
  rcases acknowledge_cases (c := c) (w := w) ⟨acknowledgement, p.handoff, p.job⟩ outcome with
    hnothing | ⟨returns, store, heq, hlease⟩
  · rw [hnothing] at hok
    have hother := hok.resolve_left hnot
    simp only [hnothing]
    refine hleave (fun _ h => h) (fun e he e' he' => .inl ?_)
      (h.ledger.retain hp rfl rfl (fun _ h => h) (fun _ h => .inl h) fun _ _ h _ => h)
    rwa [EntryMap.get?_set, if_neg (hother e he)] at he'
  · simp only [heq]
    have hold : ∀ h ∈ w.accepted, h ∈ w.accepted ++ [p.handoff.handoffId] :=
      fun _ h => mem_append_left _ h
    cases returns with
    | true => exact hleave hold (fun _ _ _ h => .inl h) (h.ledger.land hp hlease)
    | false =>
      refine hleave hold (fun e he e' he' => ?_) (h.ledger.retain hp rfl rfl hold
        (fun h' hmem' => ?_) fun id l hl hor => hlease id l hl ?_)
      · rw [EntryMap.get?_set] at he'
        split at he'
        · cases he'
          exact .inr (mem_append_right _ (mem_singleton_self _))
        · exact .inl he'
      · exact (mem_append.mp hmem').imp id mem_singleton.mp
      · exact hor.resolve_right fun hnot' =>
          hnot' (mem_append_right _ (mem_singleton_self _))

theorem Inv.performed (h : w.Inv c) {i : ℕ} {handoff : Handoff} {job : JobRow}
    {before after : Option Acknowledgement} (hp : w.inFlight[i]? = some ⟨handoff, job, before⟩) :
    { w with inFlight := w.inFlight.set i ⟨handoff, job, after⟩ }.Inv c := by
  obtain ⟨xs, ys, hl, -, hset⟩ := exists_split_of_getElem? hp
  have hflying : { w with inFlight := w.inFlight.set i ⟨handoff, job, after⟩ }.flying =
      w.flying := by
    simp only [flying, hset]
    rw [hl]
    simp
  have hlength : (w.inFlight.set i ⟨handoff, job, after⟩).length = w.inFlight.length :=
    length_set ..
  have hmem := mem_of_getElem? hp
  have hne : w.inFlight ≠ [] := ne_nil_of_mem hmem
  refine ⟨⟨h.ledger.once, h.ledger.fresh, h.ledger.accepted, ?_, ?_, ?_, ?_, ?_⟩, ?_, ?_⟩
  · exact hlength.le.trans h.ledger.capacity
  · rw [hflying]
    exact h.ledger.distinct
  · intro q hq
    rcases mem_or_eq_of_mem_set hq with hq | rfl
    · exact h.ledger.running q hq
    · exact h.ledger.running ⟨handoff, job, before⟩ hmem
  · rw [hflying]
    exact h.ledger.pending
  · rw [hflying]
    exact h.ledger.owned
  · refine ⟨h.phases.accepting, h.phases.starting, fun hs => ?_, h.phases.queued,
      fun stage hstage => ?_, h.phases.halted, h.phases.halts⟩
    · exact absurd (h.phases.rested hs).2.2.1 hne
    · exact (h.phases.stops stage hstage).mono rfl (fun _ h => h)
        (fun h' hmem' => hflying ▸ hmem') (fun hempty => absurd hempty hne) fun _ h => h
  · refine h.draining.mono rfl hlength (fun rest hpass => ?_)
      fun ha => ⟨ha, rfl, rfl, rfl, rfl, rfl, le_rfl⟩
    exact hpass.mono (fun _ h => h) (fun h' hmem' => .inl (hflying ▸ hmem'))
      (fun _ _ _ h => .inl h) fun _ h => h

end

section
variable {c : Configuration} {w : World}

section
variable (h : w.Inv c)
include h

theorem Inv.starts (hstart : w.startPromise ≠ none) (store : Db)
    (startPromise : Option StartStage) : { w with store, startPromise }.Inv c := by
  obtain ⟨hs, hstops⟩ := h.phases.starting hstart
  obtain ⟨ha, hd, hempty, hall⟩ := h.phases.rested hs
  refine ⟨(h.ledger.restore hempty hall store).congr rfl rfl rfl rfl rfl fun _ _ h => h, ?_, ?_⟩
  · refine ⟨h.phases.accepting, fun _ => ⟨hs, hstops⟩, h.phases.rested, h.phases.queued,
      h.phases.stops, fun hhalted => ?_, h.phases.halts⟩
    exact absurd (h.phases.halted hhalted).2 hstart
  · simp [Draining, hd, ha]

theorem Inv.accepts (hstart : w.startPromise ≠ none) (store : Db) :
    { w with store, accepting := true, started := true, startPromise := none }.wake.Inv c := by
  obtain ⟨hs, hstops⟩ := h.phases.starting hstart
  obtain ⟨-, hd, hempty, hall⟩ := h.phases.rested hs
  refine .wakes ((h.ledger.restore hempty hall store).congr rfl rfl rfl rfl rfl fun _ _ h => h)
    ?_ fun drain hsome => ?_
  · refine ⟨fun _ => ⟨rfl, hstops⟩, fun hne => absurd rfl hne, nofun, h.phases.queued, ?_,
      fun hhalted => absurd (h.phases.halted hhalted).2 hstart, h.phases.halts⟩
    intro stage hstage
    rw [show w.stops = [] from hstops] at hstage
    cases hstage
  · rw [show w.drainPromise = none from hd] at hsome
    cases hsome

theorem Inv.startStep {stage : StartStage} (hstart : w.startPromise = some stage)
    (outcome : CallOutcome) (stack : String) (dbOrder : String → ℕ) :
    (w.startStep c outcome stack dbOrder stage).Inv c := by
  have hne : w.startPromise ≠ none := by simp [hstart]
  cases stage with
  | initializing => exact h.starts hne w.store _
  | reconciling =>
    simp only [World.startStep]
    split
    · cases outcome <;> exact h.starts hne _ _
    · exact h.starts hne w.store none
  | recovering =>
    simp only [World.startStep]
    split
    · cases outcome with
      | answers => exact h.accepts hne _
      | throws => exact h.starts hne w.store none
      | throwsAfterEffect => exact h.starts hne _ none
    · exact h.starts hne w.store none

theorem Inv.start (hok : w.Undisturbed c .start) : w.start.Inv c := by
  have hclaims : { w with log := w.log ++ [DispatchEvent.startCalled] }.claims = w.claims := by
    simp [claims]
  have hperformances : { w with log := w.log ++ [DispatchEvent.startCalled] }.performances =
      w.performances := by
    simp [performances]
  have hunhalted : isHalted (w.log ++ [.startCalled]) = false := by simp [isHalted]
  have hhalts := h.phases.halts.append .startCalled (by simp)
  have hpasses : ∀ {rest}, w.PassOk rest →
      { w with log := w.log ++ [DispatchEvent.startCalled] }.PassOk rest := fun hpass =>
    hpass.mono (fun _ hmem => hclaims ▸ hmem) (fun _ h => .inl h) (fun _ _ _ h => .inl h)
      fun _ h => h
  have hcalled : { w with log := w.log ++ [DispatchEvent.startCalled] }.Inv c := by
    refine ⟨h.ledger.congr hclaims hperformances rfl rfl rfl fun _ _ h => h, ?_, ?_⟩
    · refine ⟨h.phases.accepting, h.phases.starting, fun hs => ?_, h.phases.queued,
        fun stage hstage => ?_, fun hhalted => ?_, hhalts⟩
      · obtain ⟨ha, hd, hempty, hall⟩ := h.phases.rested hs
        exact ⟨ha, hd, hempty, hclaims ▸ hall⟩
      · exact (h.phases.stops stage hstage).mono rfl (fun _ hmem => hclaims ▸ hmem) (fun _ h => h)
          (fun _ _ _ h => h) fun _ h => h
      · rw [hunhalted] at hhalted
        cases hhalted
    · exact h.draining.mono rfl rfl (fun _ => hpasses)
        fun ha => ⟨ha, rfl, rfl, rfl, rfl, rfl, le_rfl⟩
  simp only [World.start]
  split
  · exact hcalled
  · next hno =>
    simp only [Bool.or_eq_true, not_or, Bool.not_eq_true, Option.isSome_eq_false_iff,
      Option.isNone_iff_eq_none] at hno
    have hstops : w.stops = [] := by
      rcases hok with hs | hstart | hstops
      · rw [show w.started = false from hno.1] at hs
        cases hs
      · exact absurd hno.2 hstart
      · exact hstops
    refine ⟨hcalled.ledger.congr rfl rfl rfl rfl rfl fun _ _ h => h, ?_, hcalled.draining⟩
    refine ⟨hcalled.phases.accepting, fun _ => ⟨hno.1, hstops⟩, hcalled.phases.rested,
      hcalled.phases.queued, hcalled.phases.stops, fun hhalted => ?_, hhalts⟩
    rw [show isHalted (w.log ++ [.startCalled]) = true from hhalted] at hunhalted
    cases hunhalted

theorem Inv.stopPerformances (hd : w.drainPromise = none) :
    w.StopOk w.stopPerformances := by
  unfold World.stopPerformances
  split
  · next hempty =>
    refine ⟨hd, isEmpty_iff.mp hempty, h.ledger.passOk, fun k e he _ => ?_⟩
    exact EntryMap.mem_values.mpr ⟨k, he⟩
  · exact ⟨hd, fun _ hmem => hmem⟩

theorem Inv.stop (hok : w.startPromise = none) : w.stop.Inv c := by
  refine ⟨h.ledger.congr rfl rfl rfl rfl rfl fun _ _ h => h, ?_, ?_⟩
  · refine ⟨nofun, fun hne => absurd hok hne, fun hs => ?_, h.phases.queued, ?_, h.phases.halted,
      h.phases.halts⟩
    · obtain ⟨-, hrest⟩ := h.phases.rested hs
      exact ⟨rfl, hrest⟩
    · intro stage hstage
      rcases mem_append.mp hstage with hold | hnew
      · have hstop := h.phases.stops stage hold
        cases stage <;> exact hstop
      · obtain rfl := mem_singleton.mp hnew
        cases hd : w.drainPromise with
        | none =>
          have hstop := h.stopPerformances hd
          cases hstage : w.stopPerformances <;> rw [hstage] at hstop <;> exact hstop
        | some drain =>
          intro drain' hd'
          rw [show w.drainPromise = some drain' from hd'] at hd
          exact congrArg Drain.id (Option.some.inj hd)
  · exact h.draining.mono rfl rfl (fun _ hpass => hpass) nofun

end

end

section
variable {c : Configuration} {w : World} {i : ℕ}

variable {stage : StopStage}

theorem Phases.setStops (hp : w.Phases) (hstage : stage ∈ w.stops)
    {stops : List StopStage} (hstops : ∀ stage ∈ stops, stage ∈ w.stops ∨ w.StopOk stage) :
    { w with stops }.Phases := by
  have hne : w.stops ≠ [] := ne_nil_of_mem hstage
  refine ⟨fun ha => absurd (hp.accepting ha).2 hne, fun hs => absurd (hp.starting hs).2 hne,
    hp.rested, hp.queued, fun stage' hmem => ?_, hp.halted, hp.halts⟩
  have hok : w.StopOk stage' := (hstops stage' hmem).elim (hp.stops stage') id
  cases stage' <;> exact hok

theorem Phases.draining_stop (hp : w.Phases) (hstage : stage ∈ w.stops)
    (hd : w.drainPromise = none) : w.Draining c := by
  unfold Draining
  rw [hd]
  exact fun ha => absurd (hp.accepting ha).2 (ne_nil_of_mem hstage)

theorem Inv.setStop (h : w.Inv c) {stage' : StopStage} (hstage : stage ∈ w.stops)
    (hok : w.StopOk stage') : (w.setStop i stage').Inv c := by
  refine ⟨h.ledger.congr rfl rfl rfl rfl rfl fun _ _ h => h, ?_, h.draining⟩
  refine h.phases.setStops hstage fun stage'' hmem => ?_
  rcases mem_or_eq_of_mem_set hmem with hold | rfl
  · exact .inl hold
  · exact .inr hok

theorem Inv.stopped (h : w.Inv c) (hstage : StopStage.retrying [] ∈ w.stops) :
    (w.stopped i).Inv c := by
  obtain ⟨hd, hempty, -, hall⟩ := h.phases.stops _ hstage
  have ha : w.accepting = false := by
    by_contra hne
    exact ne_nil_of_mem hstage (h.phases.accepting (by simpa using hne)).2
  have hstart : w.startPromise = none := by
    by_contra hne
    exact ne_nil_of_mem hstage (h.phases.starting hne).2
  have haccepted : ∀ h ∈ w.claims, h ∈ w.accepted := by
    intro handoffId hmem
    by_contra hnot
    rcases h.ledger.owned handoffId hmem hnot with hflying | ⟨k, e, he, rfl⟩
    · rw [flying, hempty] at hflying
      cases hflying
    · cases hall k e he hnot
  have hclaims : { w with log := w.log ++ [DispatchEvent.stopResolved] }.claims = w.claims := by
    simp [claims]
  have hperformances : { w with log := w.log ++ [DispatchEvent.stopResolved] }.performances =
      w.performances := by
    simp [performances]
  refine Inv.resolveIdleWaiters ⟨?_, ?_, ?_⟩
  · exact h.ledger.congr hclaims hperformances rfl rfl rfl fun _ _ h => h
  · refine ⟨fun ha' => ?_, fun hne => absurd hstart hne,
      fun _ => ⟨ha, hd, hempty, hclaims ▸ haccepted⟩, by simp, fun stage hmem => ?_,
      fun _ => ⟨rfl, hstart⟩, h.phases.halts.append .stopResolved (by simp)⟩
    · rw [show w.accepting = true from ha'] at ha
      cases ha
    · exact (h.phases.stops stage (eraseIdx_subset hmem)).mono rfl
        (fun _ hmem' => hclaims ▸ hmem') (fun _ h => h) (fun _ _ _ h => h) fun _ h => h
  · simp [Draining, hd, ha]

theorem Inv.stopRetried (h : w.Inv c) {e : PendingAcknowledgement}
    {rest : List PendingAcknowledgement} (hstage : w.stops[i]? = some (.retrying (e :: rest)))
    (outcome : CallOutcome) {w' : World}
    (hstep : w.stopStep c i outcome (.retrying (e :: rest)) = some w') : w'.Inv c := by
  have hmem := mem_of_getElem? hstage
  obtain ⟨hd, hempty, hpass, hall⟩ := h.phases.stops _ hmem
  obtain ⟨hclaimed, hflying, -⟩ := hpass e mem_cons_self
  -- the stop rejects, in a state that is otherwise in order
  have hrejects : ∀ {w₁ : World}, w₁.Ledger c → w₁.Phases → w₁.drainPromise = none →
      .retrying (e :: rest) ∈ w₁.stops → { w₁ with stops := w₁.stops.eraseIdx i }.Inv c := by
    intro w₁ hl hp hd₁ hmem₁
    refine ⟨hl.congr rfl rfl rfl rfl rfl fun _ _ h => h, ?_, hp.draining_stop hmem₁ hd₁⟩
    exact hp.setStops hmem₁ fun stage' hmem' => .inl (eraseIdx_subset hmem')
  unfold stopStep at hstep
  rcases acknowledge_cases (c := c) (w := w) e outcome with hnothing | ⟨returns, store, heq, hlease⟩
  · simp only [hnothing] at hstep
    cases hstep
    exact hrejects h.ledger h.phases hd hmem
  · simp only [heq] at hstep
    have hl := h.ledger.accept store hclaimed hflying hlease
    have hold : ∀ h ∈ w.accepted, h ∈ w.accepted ++ [e.handoff.handoffId] :=
      fun _ h => mem_append_left _ h
    have hp : { w with store, accepted := w.accepted ++ [e.handoff.handoffId] }.Phases := by
      refine ⟨h.phases.accepting, h.phases.starting, fun hs => ?_, h.phases.queued,
        fun stage hmem' => ?_, h.phases.halted, h.phases.halts⟩
      · obtain ⟨ha, hd, hempty, haccepted⟩ := h.phases.rested hs
        exact ⟨ha, hd, hempty, fun h hmem => hold h (haccepted h hmem)⟩
      · exact (h.phases.stops stage hmem').mono rfl (fun _ h => h) (fun _ h => h)
          (fun _ _ _ h => h) hold
    cases returns with
    | false =>
      cases hstep
      exact hrejects hl hp hd hmem
    | true =>
      cases hstep
      have hdeleted : ∀ k e', ((({ w with
            store
            accepted := w.accepted ++ [e.handoff.handoffId] } : World).deleteAcknowledgement
          e.job.id).pendingAcknowledgements.get? k) = some e' →
          k ≠ e.job.id ∧ w.pendingAcknowledgements.get? k = some e' := by
        intro k e' he'
        rw [World.deleteAcknowledgement, EntryMap.get?_delete] at he'
        split at he'
        · cases he'
        · next hne => exact ⟨hne, he'⟩
      have hp' : (({ w with
            store
            accepted := w.accepted ++ [e.handoff.handoffId] } : World).deleteAcknowledgement
          e.job.id).Phases := by
        refine ⟨hp.accepting, hp.starting, hp.rested, hp.queued, fun stage hmem' => ?_,
          hp.halted, hp.halts⟩
        exact (hp.stops stage hmem').mono rfl (fun _ h => h) (fun _ h => h)
          (fun _ k e' he' => (hdeleted k e' he').2) fun _ h => h
      refine Inv.setStop ⟨hl.deleteAcknowledgement hpass.deletes, hp', hp'.draining_stop hmem hd⟩
        hmem ⟨hd, hempty, hpass.tail.accept.deleteAcknowledgement, fun k e' he' hnot => ?_⟩
      obtain ⟨hne, he⟩ := hdeleted k e' he'
      refine (mem_cons.mp (hall k e' he fun h => hnot (hold _ h))).resolve_left ?_
      rintro rfl
      exact hne (h.ledger.pending k e' he).1.symm

theorem Inv.stopStep (h : w.Inv c) (hstage : w.stops[i]? = some stage)
    (outcome : CallOutcome) {w' : World} (hstep : w.stopStep c i outcome stage = some w') :
    w'.Inv c := by
  have hmem := mem_of_getElem? hstage
  have hok := h.phases.stops stage hmem
  cases stage with
  | drain id =>
    simp only [World.stopStep] at hstep
    split at hstep
    · cases hstep
    · next hno =>
      cases hstep
      have hd : w.drainPromise = none := by
        cases hd : w.drainPromise with
        | none => rfl
        | some drain => simp [hd, hok drain hd] at hno
      exact h.setStop hmem (h.stopPerformances hd)
  | performances handoffIds =>
    simp only [World.stopStep] at hstep
    split at hstep
    · cases hstep
    · next hno =>
      cases hstep
      have hempty : w.inFlight = [] := by
        by_contra hne
        obtain ⟨p, hp⟩ := exists_mem_of_ne_nil _ hne
        refine hno (any_eq_true.mpr ⟨p, hp, ?_⟩)
        simpa using hok.2 _ (mem_map_of_mem hp)
      exact h.setStop hmem ⟨hok.1, hempty, h.ledger.passOk,
        fun k e he _ => EntryMap.mem_values.mpr ⟨k, he⟩⟩
  | retrying rest =>
    cases rest with
    | nil =>
      cases hstep
      exact h.stopped hmem
    | cons e rest => exact h.stopRetried hstage outcome hstep

end

/-! ## Runs -/

section
variable {c : Configuration} {w w' : World}

theorem inv_init (c : Configuration) (store : Db) (now : ℤ) : (init store now).Inv c := by
  refine ⟨?_, ?_, ?_⟩
  · refine ⟨rfl, nodup_nil, fun _ h => ?_, Nat.zero_le _, nodup_nil, fun _ h => ?_,
      fun _ _ h => ?_, fun _ h => ?_⟩ <;> cases h
  · refine ⟨fun h => ?_, fun h => absurd rfl h, fun _ => ⟨rfl, rfl, rfl, fun _ h => ?_⟩,
      fun h => ?_, fun _ h => ?_, fun h => ?_, fun before _ _ _ heq => ?_⟩
    · cases h
    · cases h
    · cases h
    · cases h
    · cases h
    · cases before <;> cases heq
  · intro h
    cases h

theorem Inv.wakeAfter (h : w.Inv c) {store : Db} {scheduledTimer recoveryTimer : Option ℤ}
    (hlease : ∀ id l, leaseOf w.store.jobs id = some l → leaseOf store.jobs id = some l) :
    { w with store, scheduledTimer, recoveryTimer }.wake.Inv c := by
  refine .wakes (h.ledger.congr rfl rfl rfl rfl rfl hlease) ?_ fun drain hd => ?_
  · refine ⟨h.phases.accepting, h.phases.starting, h.phases.rested, h.phases.queued,
      fun stage hstage => ?_, h.phases.halted, h.phases.halts⟩
    exact (h.phases.stops stage hstage).mono rfl (fun _ h => h) (fun _ h => h)
      (fun _ _ _ h => h) fun _ h => h
  · exact (h.stage hd).woken le_rfl fun _ _ hpass => hpass

theorem Inv.step (h : w.Inv c) (a : DispatchAction) (hok : w.Undisturbed c a)
    (hstep : w.step c a = some w') : w'.Inv c := by
  cases a with
  | enqueue input dbOrder =>
    simp only [World.step] at hstep
    split at hstep
    · next store hexec =>
      cases hstep
      refine h.wakeAfter fun id l hl => ?_
      rw [← show _ = store from congrArg Prod.snd hexec]
      exact enqueue_lease_kept c.sha256 hl
    · cases hstep
      exact h
  | wake =>
    cases hstep
    exact h.wakeAfter fun _ _ h => h
  | start =>
    cases hstep
    exact h.start hok
  | startStep outcome stack dbOrder =>
    obtain ⟨stage, hstage, rfl⟩ := Option.map_eq_some_iff.mp hstep
    exact h.startStep hstage outcome stack dbOrder
  | stop =>
    cases hstep
    exact h.stop hok
  | stopStep i outcome =>
    obtain ⟨stage, hstage, hstep⟩ := Option.bind_eq_some_iff.mp hstep
    exact h.stopStep hstage outcome hstep
  | waitForIdle =>
    cases hstep
    split
    · exact h
    · exact .of_drains h.ledger h.phases ⟨rfl, fun _ drain hd => ⟨drain, hd, rfl⟩, h.phases.queued⟩
        h.draining
  | drainStep outcome handoffId =>
    simp only [World.step] at hstep
    split at hstep
    · cases hstep
    · next hfresh =>
      obtain ⟨drain, hd, rfl⟩ := Option.map_eq_some_iff.mp hstep
      exact h.drainStep hd hfresh hok
  | performed i acknowledgement =>
    simp only [World.step] at hstep
    split at hstep
    · next handoff job hp =>
      cases hstep
      exact h.performed hp
    · cases hstep
  | acknowledged i outcome =>
    simp only [World.step] at hstep
    split at hstep
    · next handoff job acknowledgement hp =>
      cases hstep
      exact h.settlePerformance hp (hok handoff job acknowledgement hp)
    · cases hstep
  | scheduledTimer =>
    simp only [World.step] at hstep
    split at hstep
    · cases hstep
      exact h.wakeAfter fun _ _ h => h
    · cases hstep
  | recoveryTimer =>
    simp only [World.step] at hstep
    split at hstep
    · cases hstep
      exact h.wakeAfter fun _ _ h => h
    · cases hstep
  | tick ms =>
    cases hstep
    refine ⟨h.ledger.congr rfl rfl rfl rfl rfl fun _ _ h => h, ?_, ?_⟩
    · refine ⟨h.phases.accepting, h.phases.starting, h.phases.rested, h.phases.queued,
        fun stage hstage => ?_, h.phases.halted, h.phases.halts⟩
      exact (h.phases.stops stage hstage).mono rfl (fun _ h => h) (fun _ h => h)
        (fun _ _ _ h => h) fun _ h => h
    · exact h.draining.mono rfl rfl (fun _ hpass => hpass) fun ha =>
        ⟨ha, rfl, rfl, rfl, rfl, rfl, by simp⟩

theorem Inv.sound (h : w.Inv c) : w.Sound c where
  capacity := h.ledger.capacity
  performedOnce := ⟨h.ledger.once, h.ledger.fresh⟩
  owned := by
    refine ⟨h.ledger.distinct, fun handoffId hmem hnot => ?_⟩
    have hdisjoint : handoffId ∈ w.flying → ¬w.Awaiting handoffId := by
      rintro hflying ⟨e, he, rfl⟩
      obtain ⟨k, hk⟩ := EntryMap.mem_values.mp he
      exact (h.ledger.pending k e hk).2.2.1 hflying
    rcases h.ledger.owned handoffId hmem hnot with hflying | ⟨k, e, he, hid⟩
    · exact .inl ⟨hflying, hdisjoint hflying⟩
    · have hawaiting : w.Awaiting handoffId := ⟨e, EntryMap.mem_values.mpr ⟨k, he⟩, hid⟩
      exact .inr ⟨hawaiting, fun hflying => hdisjoint hflying hawaiting⟩
  halted := h.phases.halts
  woken := by
    intro ha hd hroom hclaimable
    have hdraining := h.draining
    unfold Draining at hdraining
    rw [hd] at hdraining
    rcases hdraining ha with hrecovery | hfull | hlater
    · exact .inl hrecovery
    · exact absurd hroom (not_lt.mpr hfull)
    · obtain ⟨at', htimer, hle⟩ := hlater w.now le_rfl hclaimable
      exact .inr (by simpa [elapsed, htimer] using hle)

/-- **The dispatcher stays in order.** In every run whose starts and stops do not overlap, in which
    no job's later acknowledgement fails while an earlier one is retried, and in which no job
    becomes due between a drain's last look and its timer query: the performances stay within the
    capacity, each claimed handoff is performed once and has one owner until its acknowledgement
    was accepted, nothing is claimed between a stop and the next start, and an available job is
    always waited for. -/
theorem local_dispatcher (c : Configuration) (store : Db) (now : ℤ) (as : List DispatchAction)
    (hok : Along (World.step c) (World.Undisturbed c) (init store now) as)
    (hrun : runActions (World.step c) (init store now) as = some w) : w.Sound c :=
  (runActions_invariant (fun _ a _ h hok hstep => h.step a hok hstep) as (inv_init c store now)
    hok hrun).sound

end

/-- One job at a time, and no queue that is configured. -/
def oneAtATime : Configuration := ⟨1, [], fun _ => 0, id⟩

/-- A job is enqueued, claimed, performed and completed. -/
def completedRun : List DispatchAction :=
  [.start, .startStep .answers "" fun _ => 0, .startStep .answers "" fun _ => 0,
    .startStep .answers "" fun _ => 0, .enqueue ⟨"job", [], {}, "1", 0, []⟩ fun _ => 0,
    .drainStep .answers "a", .drainStep .answers "a", .drainStep .answers "a",
    .performed 0 .completed, .acknowledged 0 .answers]

theorem local_dispatcher_completed : ∃ w,
    runActions (World.step oneAtATime) (init .empty 0) completedRun = some w ∧
      w.claims = ["a"] ∧ w.Sound oneAtATime := by
  obtain ⟨w, hw⟩ : ∃ w, runActions (World.step oneAtATime) (init .empty 0) completedRun = some w :=
    ⟨_, rfl⟩
  refine ⟨w, hw, ?_, local_dispatcher oneAtATime .empty 0 completedRun ?_ hw⟩
  · cases hw
    rfl
  · refine ⟨.inr (.inr rfl), trivial, trivial, trivial, trivial, ?_, ?_, ?_, trivial, ?_, trivial⟩
    · rintro id lookedAt ⟨⟩
    · rintro id lookedAt ⟨⟩
    · rintro id lookedAt ⟨⟩
    · intro handoff job acknowledgement _
      exact .inr fun e he => absurd (show e ∈ [] from he) not_mem_nil

/-- A stop is called, and resolves, while a start is in progress. -/
def stoppedRun : List DispatchAction :=
  [.enqueue ⟨"job", [], {}, "1", 0, []⟩ fun _ => 0, .start, .stop, .stopStep 0 .answers,
    .startStep .answers "" fun _ => 0, .startStep .answers "" fun _ => 0,
    .startStep .answers "" fun _ => 0, .drainStep .answers "a", .drainStep .answers "a",
    .drainStep .answers "a"]

/-- The start goes on, and the stopped dispatcher claims the job. -/
theorem stopped_while_starting : ∃ w,
    runActions (World.step oneAtATime) (init .empty 0) stoppedRun = some w ∧
      ¬w.Sound oneAtATime := by
  refine ⟨_, rfl, fun h => ?_⟩
  cases h.halted [.startCalled] [] [.performed "a"] "a" rfl

end World

end Velocious.LocalDispatcher
