/-
  The scheduler of recurring jobs (src/background-jobs/scheduler.js).

  An action is a call of `start` or `stop`, the configuration that a start awaits, a timer that
  elapses, an enqueue that ends, or time that passes; what runs between two awaits is one step.
  What a stop awaits are the enqueues in flight. `scheduler_runs` says when jobs are enqueued, and
  that a stop drains.
-/
import Velocious.BackgroundJobs.CronGaps
import Velocious.Foundation.Machine

namespace Velocious.Scheduler

open Foundation List Velocious.CronExpression Velocious.CronSchedule

/-! ## The scheduler -/

/-- The delay that `setTimeout` and `setInterval` keep: one out of range is a millisecond. -/
def timerDelay (delayMs : ℤ) : ℤ := if 1 ≤ delayMs ∧ delayMs ≤ 2147483647 then delayMs else 1

/-- When a job is due. -/
inductive Schedule where
  | every (intervalMs firstInMs : ℤ)
  | cron (parsed : ParsedCron)

/-- A configured job; its schedule as it is parsed, or the error that is thrown. -/
structure ScheduledJob (κ : Type) where
  jobKey : κ
  enabled : Bool
  schedule : Except String Schedule

/-- What a timer runs; the interval of a recurring job begins once its first timer has elapsed. -/
inductive Callback where
  | every (intervalMs : ℤ)
  | cron (parsed : ParsedCron) (nextDate : ℤ)

/-- An armed timer. -/
structure Timer (κ : Type) where
  jobKey : κ
  armedAt : TimeValue
  delayMs : ℤ
  callback : Callback

def Timer.dueAt {κ : Type} (t : Timer κ) : ℤ := t.armedAt.ms + timerDelay t.delayMs

/-- A call of `enqueueScheduledJob`, by the timer that made it. -/
structure Enqueue (κ : Type) where
  timer : Timer κ
  begunAt : TimeValue

/-- A scheduler and its clock. -/
structure World (κ : Type) where
  now : TimeValue
  stopped : Bool := false
  starts : ℕ := 0
  timers : List (Timer κ) := []
  pending : List (Enqueue κ) := []
  enqueues : List (Enqueue κ) := []

/-- What can happen. -/
inductive Action (κ : Type) where
  | start
  | configured (jobs : List (ScheduledJob κ))
  | stop
  | elapse (i : ℕ)
  | settle (i : ℕ)
  | pass (now : TimeValue)

namespace World

variable {κ : Type}

def arm (jobKey : κ) (delayMs : ℤ) (callback : Callback) (w : World κ) : World κ :=
  { w with timers := w.timers ++ [⟨jobKey, w.now, delayMs, callback⟩] }

section
variable (z : Zone)

/-- `scheduleNext` of `scheduleCronJob` -/
def scheduleNext (jobKey : κ) (parsed : ParsedCron) (w : World κ) : Except String (World κ) :=
  if w.stopped then .ok w
  else (nextCronFireDate z parsed w.now.ms).map fun nextDate =>
    w.arm jobKey (max 1 (nextDate - w.now.ms)) (.cron parsed nextDate)

def scheduleJob (job : ScheduledJob κ) (w : World κ) : Except String (World κ) :=
  job.schedule.bind fun
    | .every intervalMs firstInMs => .ok (w.arm job.jobKey firstInMs (.every intervalMs))
    | .cron parsed => w.scheduleNext z job.jobKey parsed

/-- The loop of `start`, which the first error ends. -/
def scheduleJobs : List (ScheduledJob κ) → World κ → World κ
  | [], w => w
  | job :: jobs, w =>
    if job.enabled then
      match w.scheduleJob z job with
      | .ok w => w.scheduleJobs jobs
      | .error _ => w
    else w.scheduleJobs jobs

/-- A cron callback goes on after its enqueue; an error leaves the job without a timer. -/
def rearm (jobKey : κ) (parsed : ParsedCron) (w : World κ) : World κ :=
  match w.scheduleNext z jobKey parsed with
  | .ok w => w
  | .error _ => w

end

variable [DecidableEq κ]

/-- `runScheduledJob`, up to its `await` -/
def runScheduledJob (t : Timer κ) (w : World κ) : Option (World κ) :=
  if w.stopped || w.pending.any (·.timer.jobKey = t.jobKey) then none
  else some { w with
    pending := w.pending ++ [⟨t, w.now⟩]
    enqueues := w.enqueues ++ [⟨t, w.now⟩] }

def elapsed (z : Zone) (t : Timer κ) (w : World κ) : World κ :=
  match t.callback with
  | .every intervalMs =>
    ((w.runScheduledJob t).getD w).arm t.jobKey intervalMs (.every intervalMs)
  | .cron parsed _ => (w.runScheduledJob t).getD (w.rearm z t.jobKey parsed)

/-- What follows an enqueue that ends, by its timer. -/
def settled (z : Zone) (t : Timer κ) (w : World κ) : World κ :=
  match t.callback with
  | .cron parsed _ => w.rearm z t.jobKey parsed
  | _ => w

def step (z : Zone) (w : World κ) : Action κ → Option (World κ)
  | .start => some { w with stopped := false, starts := w.starts + 1 }
  | .configured jobs =>
    if w.starts = 0 then none
    else some ({ w with starts := w.starts - 1 }.scheduleJobs z jobs)
  | .stop => some { w with stopped := true, timers := [] }
  | .elapse i => w.timers[i]?.bind fun t =>
    if t.dueAt ≤ w.now.ms then some ({ w with timers := w.timers.eraseIdx i }.elapsed z t)
    else none
  | .settle i => w.pending[i]?.map fun e =>
    { w with pending := w.pending.eraseIdx i }.settled z e.timer
  | .pass now => if w.now.ms ≤ now.ms then some { w with now } else none

end World

/-! ## Timers and enqueues -/

section
variable {κ : Type}

def Timer.cronKey (t : Timer κ) : Option κ :=
  match t.callback with
  | .cron _ _ => some t.jobKey
  | _ => none

/-- A cron timer is armed for the next date. -/
def Timer.Armed (z : Zone) (t : Timer κ) : Prop :=
  ∀ parsed nextDate, t.callback = .cron parsed nextDate →
    nextCronFireDate z parsed t.armedAt.ms = .ok nextDate ∧
      t.delayMs = max 1 (nextDate - t.armedAt.ms)

/-- A cron timer was armed after this enqueue of its job had begun. -/
def Enqueue.Precedes (e : Enqueue κ) (t : Timer κ) : Prop :=
  ∀ k, e.timer.cronKey = some k → t.cronKey = some k → e.begunAt.ms ≤ t.armedAt.ms

/-- The cron jobs that have a timer, or an enqueue in flight that arms the next one. -/
def World.cronKeys (w : World κ) : List κ :=
  (w.timers ++ w.pending.map Enqueue.timer).filterMap Timer.cronKey

/-- What every run keeps. -/
structure Sound (z : Zone) (w : World κ) : Prop where
  oneEach : (w.pending.map fun e => e.timer.jobKey).Nodup
  armed : ∀ t ∈ w.timers, t.armedAt.ms ≤ w.now.ms ∧ t.Armed z
  begun : ∀ e ∈ w.enqueues, e.timer.Armed z ∧ e.timer.dueAt ≤ e.begunAt.ms ∧
    e.begunAt.ms ≤ w.now.ms
  chains : w.cronKeys.Nodup
  precedes : ∀ e ∈ w.enqueues, ∀ t ∈ w.timers, e.Precedes t
  inOrder : w.enqueues.Pairwise fun e e' => e.Precedes e'.timer

variable {z : Zone} {w : World κ}

theorem Sound.sublist {timers : List (Timer κ)} {pending : List (Enqueue κ)} (hw : Sound z w)
    (htimers : timers <+ w.timers) (hpending : pending <+ w.pending) (stopped : Bool) (starts : ℕ) :
    Sound z { w with timers, pending, stopped, starts } where
  oneEach := hw.oneEach.sublist (hpending.map _)
  armed t ht := hw.armed t (htimers.subset ht)
  begun := hw.begun
  chains := hw.chains.sublist ((htimers.append (hpending.map _)).filterMap _)
  precedes e he t ht := hw.precedes e he t (htimers.subset ht)
  inOrder := hw.inOrder

theorem cronKeys_of_perm {w' : World κ} {t : Timer κ}
    (h : w'.timers ++ w'.pending.map Enqueue.timer ~
      t :: (w.timers ++ w.pending.map Enqueue.timer)) :
    w'.cronKeys ~ t.cronKey.toList ++ w.cronKeys := by
  refine (h.filterMap Timer.cronKey).trans (.of_eq ?_)
  rw [filterMap_cons]
  cases t.cronKey <;> rfl

theorem Timer.cronKey_eq {t : Timer κ} {k : κ} (h : t.cronKey = some k) : k = t.jobKey := by
  unfold Timer.cronKey at h
  split at h
  · exact (Option.some.inj h).symm
  · cases h

theorem chains_of_perm {w' : World κ} {t : Timer κ} (hw : w.cronKeys.Nodup)
    (h : w'.timers ++ w'.pending.map Enqueue.timer ~
      t :: (w.timers ++ w.pending.map Enqueue.timer))
    (hfree : t.cronKey ≠ none → t.jobKey ∉ w.cronKeys) : w'.cronKeys.Nodup := by
  rw [(cronKeys_of_perm h).nodup_iff]
  cases hk : t.cronKey with
  | none => exact hw
  | some k =>
    rw [hk] at hfree
    exact Timer.cronKey_eq hk ▸ nodup_cons.mpr ⟨hfree (Option.some_ne_none k), hw⟩

/-- What is left of the keys once a timer, or its enqueue, is taken out. -/
theorem free_of_perm {w' : World κ} {t : Timer κ} (hw : w'.cronKeys.Nodup)
    (h : w'.timers ++ w'.pending.map Enqueue.timer ~
      t :: (w.timers ++ w.pending.map Enqueue.timer)) :
    t.cronKey ≠ none → t.jobKey ∉ w.cronKeys := by
  intro hne
  obtain ⟨k, hk⟩ := Option.ne_none_iff_exists'.mp hne
  rw [(cronKeys_of_perm h).nodup_iff, hk] at hw
  exact Timer.cronKey_eq hk ▸ (nodup_cons.mp hw).1

section
variable {jobKey : κ} {delayMs : ℤ} {callback : Callback}

theorem arm_perm :
    (w.arm jobKey delayMs callback).timers ++
        (w.arm jobKey delayMs callback).pending.map Enqueue.timer ~
      ⟨jobKey, w.now, delayMs, callback⟩ :: (w.timers ++ w.pending.map Enqueue.timer) :=
  (perm_append_singleton _ _).append_right _

theorem Sound.arm (hw : Sound z w)
    (harmed : (⟨jobKey, w.now, delayMs, callback⟩ : Timer κ).Armed z)
    (hfree : (⟨jobKey, w.now, delayMs, callback⟩ : Timer κ).cronKey ≠ none →
      jobKey ∉ w.cronKeys) :
    Sound z (w.arm jobKey delayMs callback) where
  oneEach := hw.oneEach
  armed t ht := by
    rcases mem_append.mp ht with ht | ht
    · exact hw.armed t ht
    · obtain rfl := mem_singleton.mp ht
      exact ⟨le_rfl, harmed⟩
  begun := hw.begun
  chains := chains_of_perm hw.chains arm_perm hfree
  precedes e he t ht := by
    rcases mem_append.mp ht with ht | ht
    · exact hw.precedes e he t ht
    · obtain rfl := mem_singleton.mp ht
      exact fun k _ _ => (hw.begun e he).2.2
  inOrder := hw.inOrder

end

/-- The next date of a cron job is armed for, unless there is none to be found or all is stopped. -/
theorem scheduleNext_cases {jobKey : κ} {parsed : ParsedCron} :
    w.scheduleNext z jobKey parsed = .ok w ∨
    (∃ message, w.scheduleNext z jobKey parsed = .error message) ∨
    ∃ delayMs nextDate, w.scheduleNext z jobKey parsed =
        .ok (w.arm jobKey delayMs (.cron parsed nextDate)) ∧
      (⟨jobKey, w.now, delayMs, .cron parsed nextDate⟩ : Timer κ).Armed z := by
  unfold World.scheduleNext
  cases w.stopped with
  | true => exact .inl rfl
  | false =>
    cases hnext : nextCronFireDate z parsed w.now.ms with
    | error message => exact .inr (.inl ⟨message, rfl⟩)
    | ok nextDate =>
      refine .inr (.inr ⟨_, nextDate, rfl, ?_⟩)
      rintro _ _ ⟨⟩
      exact ⟨hnext, rfl⟩

theorem Sound.rearm {jobKey : κ} (hw : Sound z w) (hfree : jobKey ∉ w.cronKeys)
    (parsed : ParsedCron) : Sound z (w.rearm z jobKey parsed) := by
  unfold World.rearm
  rcases scheduleNext_cases with h | ⟨message, h⟩ | ⟨delayMs, nextDate, h, harmed⟩ <;> rw [h]
  · exact hw
  · exact hw
  · exact hw.arm harmed fun _ => hfree

/-- An enqueue that a timer begins, which was taken out. -/
theorem Sound.begin {t : Timer κ} (hw : Sound z w) (harmed : t.Armed z)
    (hdue : t.dueAt ≤ w.now.ms) (hfree : t.cronKey ≠ none → t.jobKey ∉ w.cronKeys)
    (hprecedes : ∀ e ∈ w.enqueues, e.Precedes t)
    (hnew : ∀ e ∈ w.pending, e.timer.jobKey ≠ t.jobKey) :
    Sound z { w with
      pending := w.pending ++ [⟨t, w.now⟩]
      enqueues := w.enqueues ++ [⟨t, w.now⟩] } where
  oneEach := by
    rw [map_append, nodup_append]
    refine ⟨hw.oneEach, nodup_singleton _, ?_⟩
    rintro _ hk k' hk' rfl
    obtain ⟨e, he, hek⟩ := mem_map.mp hk
    exact hnew e he (hek.trans (mem_singleton.mp hk'))
  armed := hw.armed
  begun e he := by
    rcases mem_append.mp he with he | he
    · exact hw.begun e he
    · obtain rfl := mem_singleton.mp he
      exact ⟨harmed, hdue, le_rfl⟩
  chains := by
    refine chains_of_perm (t := t) hw.chains ?_ hfree
    rw [map_append, ← append_assoc]
    exact perm_append_singleton _ _
  precedes e he t' ht' := by
    rcases mem_append.mp he with he | he
    · exact hw.precedes e he t' ht'
    · obtain rfl := mem_singleton.mp he
      intro k hk hk'
      have hmem : k ∈ w.cronKeys := mem_filterMap.mpr ⟨t', mem_append_left _ ht', hk'⟩
      exact absurd (Timer.cronKey_eq hk ▸ hmem) (hfree (by rw [hk]; exact Option.some_ne_none k))
  inOrder := by
    refine pairwise_append.mpr ⟨hw.inOrder, pairwise_singleton _ _, fun e he e' he' => ?_⟩
    obtain rfl := mem_singleton.mp he'
    exact hprecedes e he

theorem Sound.scheduleJobs {jobs : List (ScheduledJob κ)} : ∀ {w : World κ}, Sound z w →
    (jobs.map (·.jobKey)).Nodup → (∀ job ∈ jobs, job.jobKey ∉ w.cronKeys) →
    Sound z (w.scheduleJobs z jobs) := by
  induction jobs with
  | nil => exact fun hw _ _ => hw
  | cons job jobs ih =>
    intro w hw hkeys hfree
    obtain ⟨hjob, hkeys⟩ := nodup_cons.mp hkeys
    have hskip := ih hw hkeys fun job' hjob' => hfree job' (mem_cons_of_mem _ hjob')
    have harm : ∀ {delayMs callback},
        (⟨job.jobKey, w.now, delayMs, callback⟩ : Timer κ).Armed z →
        Sound z ((w.arm job.jobKey delayMs callback).scheduleJobs z jobs) := by
      intro delayMs callback harmed
      refine ih (hw.arm harmed fun _ => hfree job mem_cons_self) hkeys fun job' hjob' hmem => ?_
      rcases mem_append.mp ((cronKeys_of_perm arm_perm).mem_iff.mp hmem) with hk | hk
      · exact hjob (mem_map.mpr ⟨job', hjob', Timer.cronKey_eq (Option.mem_toList.mp hk)⟩)
      · exact hfree job' (mem_cons_of_mem _ hjob') hk
    unfold World.scheduleJobs World.scheduleJob
    split
    · cases job.schedule with
      | error message => exact hw
      | ok schedule =>
        cases schedule with
        | every intervalMs firstInMs => exact harm (by rintro _ _ ⟨⟩)
        | cron parsed =>
          simp only [Except.bind]
          rcases scheduleNext_cases with h | ⟨message, h⟩ | ⟨delayMs, nextDate, h, harmed⟩ <;>
            rw [h]
          · exact hskip
          · exact hw
          · exact harm harmed
    · exact hskip

section
variable [DecidableEq κ]

theorem Sound.elapsed {t : Timer κ} (hw : Sound z w) (harmed : t.Armed z)
    (hdue : t.dueAt ≤ w.now.ms) (hfree : t.cronKey ≠ none → t.jobKey ∉ w.cronKeys)
    (hprecedes : ∀ e ∈ w.enqueues, e.Precedes t) : Sound z (w.elapsed z t) := by
  have hrun : ∀ w', w.runScheduledJob t = some w' → Sound z w' := by
    intro w' h
    unfold World.runScheduledJob at h
    split at h
    · cases h
    · next hfirst =>
      cases h
      exact hw.begin harmed hdue hfree hprecedes (by simp_all)
  unfold World.elapsed
  cases hcallback : t.callback with
  | every intervalMs =>
    have hw' : Sound z ((w.runScheduledJob t).getD w) := by
      cases h : w.runScheduledJob t with
      | none => exact hw
      | some w' => exact hrun w' h
    exact hw'.arm (by rintro _ _ ⟨⟩) fun h => absurd rfl h
  | cron parsed nextDate =>
    cases h : w.runScheduledJob t with
    | none => exact hw.rearm (hfree (by simp [Timer.cronKey, hcallback])) parsed
    | some w' => exact hrun w' h

/-- The jobs are those of an object, whose keys are distinct, and nothing of an earlier start is
left when they are scheduled. -/
def Fresh (w : World κ) : Action κ → Prop
  | .configured jobs => (jobs.map (·.jobKey)).Nodup ∧ w.timers = [] ∧ w.pending = []
  | _ => True

theorem Sound.step {w' : World κ} {a : Action κ} (hw : Sound z w) (hfresh : Fresh w a)
    (h : w.step z a = some w') : Sound z w' := by
  cases a with
  | start =>
    cases h
    exact hw.sublist (.refl _) (.refl _) _ _
  | configured jobs =>
    obtain ⟨hkeys, htimers, hpending⟩ := hfresh
    obtain ⟨-, ⟨⟩⟩ := Option.ite_none_left_eq_some.mp h
    refine (hw.sublist (.refl _) (.refl _) w.stopped (w.starts - 1)).scheduleJobs hkeys
      fun job _ => ?_
    simp [World.cronKeys, htimers, hpending]
  | stop =>
    cases h
    exact hw.sublist (nil_sublist _) (.refl _) _ _
  | elapse i =>
    obtain ⟨t, ht, h⟩ := Option.bind_eq_some_iff.mp h
    obtain ⟨hdue, ⟨⟩⟩ := Option.ite_none_right_eq_some.mp h
    have hmem := mem_of_getElem? ht
    obtain ⟨hi, rfl⟩ := List.getElem?_eq_some_iff.mp ht
    refine (hw.sublist (eraseIdx_sublist _ _) (.refl _) w.stopped w.starts).elapsed
      (hw.armed _ hmem).2 hdue (free_of_perm hw.chains ?_) fun e he => hw.precedes e he _ hmem
    exact (getElem_cons_eraseIdx_perm hi).symm.append_right _
  | settle i =>
    obtain ⟨e, he, rfl⟩ := Option.map_eq_some_iff.mp h
    obtain ⟨hi, rfl⟩ := List.getElem?_eq_some_iff.mp he
    have hw' := hw.sublist (.refl _) (eraseIdx_sublist w.pending i) w.stopped w.starts
    unfold World.settled
    split
    · next parsed nextDate hcallback =>
      refine hw'.rearm (free_of_perm (w := { w with pending := w.pending.eraseIdx i }) hw.chains ?_
        (by simp [Timer.cronKey, hcallback])) parsed
      refine (((getElem_cons_eraseIdx_perm hi).symm.map Enqueue.timer).append_left _).trans ?_
      exact perm_middle
    · exact hw'
  | pass now =>
    obtain ⟨hle, ⟨⟩⟩ := Option.ite_none_right_eq_some.mp h
    exact ⟨hw.oneEach, fun t ht => ⟨(hw.armed t ht).1.trans hle, (hw.armed t ht).2⟩,
      fun e he => ⟨(hw.begun e he).1, (hw.begun e he).2.1, (hw.begun e he).2.2.trans hle⟩,
      hw.chains, hw.precedes, hw.inOrder⟩

end

/-! ## Whole runs -/

/-- Nothing is begun, and what is in flight was. -/
structure Drains (w w' : World κ) : Prop where
  stopped : w'.stopped = true
  pending : w'.pending <+ w.pending
  enqueues : w'.enqueues = w.enqueues

theorem Drains.trans {w₁ w₂ : World κ} (h : Drains w w₁) (h₁ : Drains w₁ w₂) : Drains w w₂ :=
  ⟨h₁.stopped, h₁.pending.trans h.pending, h₁.enqueues.trans h.enqueues⟩

theorem scheduleNext_stopped (hstopped : w.stopped = true) (jobKey : κ) (parsed : ParsedCron) :
    w.scheduleNext z jobKey parsed = .ok w :=
  if_pos hstopped

theorem scheduleJobs_drains (jobs : List (ScheduledJob κ)) : ∀ {w : World κ}, w.stopped = true →
    Drains w (w.scheduleJobs z jobs) := by
  induction jobs with
  | nil => exact fun hstopped => ⟨hstopped, .refl _, rfl⟩
  | cons job jobs ih =>
    intro w hstopped
    unfold World.scheduleJobs World.scheduleJob
    split
    · cases job.schedule with
      | error message => exact ⟨hstopped, .refl _, rfl⟩
      | ok schedule =>
        cases schedule with
        | every intervalMs firstInMs =>
          have hrest := ih (w := w.arm job.jobKey firstInMs (.every intervalMs)) hstopped
          exact ⟨hrest.stopped, hrest.pending, hrest.enqueues⟩
        | cron parsed =>
          simp only [Except.bind, scheduleNext_stopped hstopped]
          exact ih hstopped
    · exact ih hstopped

theorem rearm_drains (hstopped : w.stopped = true) (jobKey : κ) (parsed : ParsedCron) :
    Drains w (w.rearm z jobKey parsed) := by
  rw [World.rearm, scheduleNext_stopped hstopped]
  exact ⟨hstopped, .refl _, rfl⟩

/-- A cron job is enqueued for the first matching minute after its timer was armed, and not before
it, unless that is so far away that the timer elapses a millisecond later. -/
def Enqueue.OnTime (offset : ℤ) (e : Enqueue κ) : Prop :=
  ∀ parsed nextDate, e.timer.callback = .cron parsed nextDate →
    IsLeast (matching offset parsed e.timer.armedAt) nextDate ∧
    if nextDate - e.timer.armedAt.ms ≤ 2147483647 then nextDate ≤ e.begunAt.ms
    else e.timer.dueAt = e.timer.armedAt.ms + 1

theorem onTime_of_armed {offset : ℤ} {e : Enqueue κ} (harmed : e.timer.Armed (.fixed offset))
    (hdue : e.timer.dueAt ≤ e.begunAt.ms) : e.OnTime offset := by
  intro parsed nextDate hcallback
  obtain ⟨hnext, hdelay⟩ := harmed parsed nextDate hcallback
  have hleast := (isLeast_of_ok hnext).1
  have hlater : e.timer.armedAt.ms < nextDate := hleast.1.1
  refine ⟨hleast, ?_⟩
  unfold Timer.dueAt timerDelay at *
  split_ifs at * <;> omega

variable [DecidableEq κ]

theorem step_drains {w' : World κ} {a : Action κ} (hstopped : w.stopped = true)
    (ha : a ≠ .start) (h : w.step z a = some w') : Drains w w' := by
  cases a with
  | start => exact absurd rfl ha
  | configured jobs =>
    obtain ⟨-, ⟨⟩⟩ := Option.ite_none_left_eq_some.mp h
    have hjobs := scheduleJobs_drains (z := z) jobs
      (w := { w with starts := w.starts - 1 }) hstopped
    exact ⟨hjobs.stopped, hjobs.pending, hjobs.enqueues⟩
  | stop =>
    cases h
    exact ⟨rfl, .refl _, rfl⟩
  | elapse i =>
    obtain ⟨t, ht, h⟩ := Option.bind_eq_some_iff.mp h
    obtain ⟨hdue, ⟨⟩⟩ := Option.ite_none_right_eq_some.mp h
    have hdrop : Drains w { w with timers := w.timers.eraseIdx i } := ⟨hstopped, .refl _, rfl⟩
    have hrun : ({ w with timers := w.timers.eraseIdx i } : World κ).runScheduledJob t = none := by
      simp [World.runScheduledJob, hstopped]
    rw [World.elapsed, hrun]
    split
    · exact ⟨hstopped, .refl _, rfl⟩
    · exact hdrop.trans (rearm_drains hdrop.stopped _ _)
  | settle i =>
    obtain ⟨e, he, rfl⟩ := Option.map_eq_some_iff.mp h
    have herase : Drains w { w with pending := w.pending.eraseIdx i } :=
      ⟨hstopped, eraseIdx_sublist _ _, rfl⟩
    unfold World.settled
    split
    · exact herase.trans (rearm_drains herase.stopped _ _)
    · exact herase
  | pass now =>
    obtain ⟨-, ⟨⟩⟩ := Option.ite_none_right_eq_some.mp h
    exact ⟨hstopped, .refl _, rfl⟩

theorem runActions_drains (as : List (Action κ)) : ∀ {w w' : World κ}, w.stopped = true →
    .start ∉ as → runActions (World.step z) w as = some w' → Drains w w' := by
  induction as with
  | nil =>
    rintro w w' hstopped - ⟨⟩
    exact ⟨hstopped, .refl _, rfl⟩
  | cons a as ih =>
    intro w w' hstopped has h
    obtain ⟨w₁, h₁, h⟩ := runActions_cons.mp h
    have hfirst := step_drains hstopped (fun ha => has (ha ▸ mem_cons_self)) h₁
    exact hfirst.trans (ih hfirst.stopped (fun hmem => has (mem_cons_of_mem _ hmem)) h)

/-- A cron timer that has elapsed begins an enqueue, where its job has none in flight. -/
def Begins (z : Zone) (w : World κ) : Prop :=
  ∀ i t parsed nextDate, w.timers[i]? = some t → t.callback = .cron parsed nextDate →
    t.dueAt ≤ w.now.ms → (∀ e ∈ w.pending, e.timer.jobKey ≠ t.jobKey) →
    w.step z (.elapse i) = some { w with
      timers := w.timers.eraseIdx i
      pending := w.pending ++ [⟨t, w.now⟩]
      enqueues := w.enqueues ++ [⟨t, w.now⟩] }

/-- A cron enqueue that ends arms a timer for the next date, where there is one to be found. -/
def Rearms (z : Zone) (w : World κ) : Prop :=
  ∀ i e parsed firedFor nextDate, w.pending[i]? = some e →
    e.timer.callback = .cron parsed firedFor →
    nextCronFireDate z parsed w.now.ms = .ok nextDate →
    w.step z (.settle i) = some { w with
      pending := w.pending.eraseIdx i
      timers := w.timers ++
        [⟨e.timer.jobKey, w.now, max 1 (nextDate - w.now.ms), .cron parsed nextDate⟩] }

theorem begins_of_running (hrunning : w.stopped = false) : Begins z w := by
  intro i t parsed nextDate hi hcallback hdue hnone
  have hfree : ¬ ∃ e ∈ w.pending, e.timer.jobKey = t.jobKey := fun ⟨e, he, hk⟩ => hnone e he hk
  simp [World.step, hi, hdue, World.elapsed, hcallback, World.runScheduledJob, hrunning, hfree]

theorem rearms_of_running (hrunning : w.stopped = false) : Rearms z w := by
  intro i e parsed firedFor nextDate hi hcallback hnext
  simp [World.step, hi, World.settled, hcallback, World.rearm, World.scheduleNext, hrunning, hnext,
    Except.map, World.arm]

/-- **Recurring jobs.** In the runs in which a start finds nothing that an earlier one has left, at
a constant offset from UTC: a job has at most one enqueue in flight; a cron job is enqueued for the
first matching minute after its timer was armed, on time if that is at most 2^31 - 1 milliseconds
away, and its next timer is armed after the enqueue began; while the scheduler is running, a timer
of a cron job that elapses begins an enqueue, if the job has none in flight, and the end of that
enqueue arms the next timer; and from a stop on, until the next start, nothing is begun, and what is
in flight is what the stop awaits. -/
theorem scheduler_runs (offset : ℤ) (as : List (Action κ)) (now : TimeValue)
    (hrun : runActions (World.step (.fixed offset)) { now } as = some w)
    (hfresh : Along (World.step (.fixed offset)) Fresh { now } as) :
    (w.pending.map fun e => e.timer.jobKey).Nodup ∧
    (∀ e ∈ w.enqueues, e.OnTime offset) ∧
    (w.enqueues.Pairwise fun e e' => ∀ k, e.timer.cronKey = some k → e'.timer.cronKey = some k →
      e.begunAt.ms ≤ e'.timer.armedAt.ms) ∧
    (w.stopped = false → Begins (.fixed offset) w ∧ Rearms (.fixed offset) w) ∧
    ∀ bs w', .start ∉ bs → runActions (World.step (.fixed offset)) w (.stop :: bs) = some w' →
      w'.pending <+ w.pending ∧ w'.enqueues = w.enqueues := by
  have hw : Sound (.fixed offset) w := runActions_invariant
    (fun _ _ _ hw hfresh h => hw.step hfresh h) as
    ⟨by simp, by simp, by simp, by simp [World.cronKeys], by simp, .nil⟩ hfresh hrun
  refine ⟨hw.oneEach, fun e he => onTime_of_armed (hw.begun e he).1 (hw.begun e he).2.1, hw.inOrder,
    fun hrunning => ⟨begins_of_running hrunning, rearms_of_running hrunning⟩, fun bs w' hbs h => ?_⟩
  obtain ⟨w₁, ⟨⟩, h⟩ := runActions_cons.mp h
  have hdrains := runActions_drains bs (w := { w with stopped := true, timers := [] }) rfl hbs h
  exact ⟨hdrains.pending, hdrains.enqueues⟩

end

/-- A job that runs at one minute past midnight in January: its timer is armed at the start, and the
enqueue begins in that minute. -/
theorem scheduler_runs_once :
    let parsed : ParsedCron := ⟨{1}, {0}, ∅, {1}, ∅, false, false, "1 0 * 1 *"⟩
    let midnight : TimeValue := ⟨0, by decide⟩
    let minute : TimeValue := ⟨60000, by decide⟩
    let e : Enqueue ℕ := ⟨⟨1, midnight, 60000, .cron parsed 60000⟩, minute⟩
    ∃ w, runActions (World.step (.fixed 0)) { now := midnight }
        [.start, .configured [⟨1, true, .ok (.cron parsed)⟩], .pass minute, .elapse 0] = some w ∧
      w.enqueues = [e] ∧ e.OnTime 0 := by
  intro parsed midnight minute e
  have hsound := scheduler_runs (w := ⟨minute, false, 0, [], [e], [e]⟩) 0
    [.start, .configured [⟨1, true, .ok (.cron parsed)⟩], .pass minute, .elapse 0]
    midnight rfl ⟨trivial, ⟨by decide, rfl, rfl⟩, trivial, trivial, trivial⟩
  exact ⟨_, rfl, rfl, hsound.2.1 e (mem_singleton_self e)⟩

end Velocious.Scheduler
