/-
  What each transaction of the SQL background-jobs store does: its committed
  effect is a sequence of moves followed by one record of exactly the change
  they make to the counts, and its answer tells the events of those moves.

  `exec_outcome` is the statement for a call; the invariants of the store are
  derived from it and from the moves alone.
-/
import Velocious.BackgroundJobs.Store.Moves

namespace Velocious

open Foundation List

section
variable {s : Db}

theorem ensures_updateJobs_key {row : JobRow} {f : JobRow → JobRow}
    {hf : ∀ row, (f row).id = row.id} {Q : ℕ → Db → Prop} (id : String) (c : JobRow → Bool)
    (h : s.jobs.find? id = some row) :
    Ensures (updateJobs (fun row => row.id = id && c row) f hf) s Q ↔
      if c row then Q 1 { s with jobs := s.jobs.modify id f hf } else Q 0 s := by
  rw [ensures_updateJobs, Table.count_key c h, Table.update_key_eq c h]
  split <;> rfl

theorem ensures_updateJobs_status {row : JobRow} {f : JobRow → JobRow}
    {hf : ∀ row, (f row).id = row.id} {Q : ℕ → Db → Prop} {status : JobStatus}
    (h : s.jobs.find? row.id = some row) (hs : row.status = status)
    (hQ : Q 1 { s with jobs := s.jobs.modify row.id f hf }) :
    Ensures (updateJobs (fun r => r.id = row.id && r.status = status) f hf) s Q :=
  (ensures_updateJobs_key row.id (fun r => decide (r.status = status)) h).mpr (by simpa [hs] using hQ)

theorem ensures_reserveJobConcurrency {key : Option Key} {Q : Bool → Db → Prop} (hno : Q false s)
    (hyes : ∀ concurrency, Reserved s.concurrency key concurrency →
      Q true { s with concurrency }) :
    Ensures (reserveJobConcurrency key) s Q := by
  cases key with
  | none => exact ensures_pure.mpr (hyes _ .none)
  | some key =>
    simp only [reserveJobConcurrency, reserveConcurrency, ensures_bind, ensures_updateConcurrency,
      ensures_pure]
    rcases reserve_cases s.concurrency key with ⟨hc, hr⟩ | ⟨hc, hu⟩
    · rw [hc]
      exact hyes _ hr
    · rw [hc, hu]
      exact hno

theorem ensures_findOrInsertConcurrency {c : Concurrency}
    {Q : Option ConcurrencyRow → Db → Prop}
    (hnew : ∀ concurrency, s.concurrency.insert? ⟨c.key, c.maxConcurrency, 0⟩ = some concurrency →
      Q none { s with concurrency })
    (hold : ∀ row, s.concurrency.find? c.key = some row → Q (some row) s) :
    Ensures (findOrInsertConcurrency c) s Q := by
  simp only [findOrInsertConcurrency, ensures_bind, ensures_get]
  cases h : s.concurrency.find? c.key with
  | some row => simpa using hold row h
  | none =>
    refine ensures_tryCatch (by simpa using hnew) fun error _ => ?_
    simp [h]

theorem ensures_ensureConcurrency {c : Option Concurrency} {Q : PUnit → Db → Prop}
    (hnone : c = none → Q ⟨⟩ s)
    (hsome : ∀ c' concurrency, c = some c' → Ensured c' s.concurrency concurrency →
      Q ⟨⟩ { s with concurrency }) :
    Ensures (ensureConcurrency c) s Q := by
  cases c with
  | none => simpa [ensureConcurrency] using hnone rfl
  | some c =>
    have hfound : ∀ row, s.concurrency.find? c.key = some row → Q ⟨⟩ s := fun row h =>
      hsome c _ rfl (.same h)
    simp only [ensureConcurrency, ensures_ite]
    refine ⟨fun hq => ?_, fun _ => ?_⟩
    · refine ensures_bind.mpr (ensures_findOrInsertConcurrency (fun t ht => ?_) fun row h => ?_)
      · simpa using hsome c t rfl (.new ht)
      · have hcap := hsome c _ rfl (.cap h hq)
        simp only [ensures_ite, ensures_bind, ensures_updateConcurrency, ensures_pure]
        exact ⟨fun _ => hcap, fun _ => hfound row h⟩
    · refine ensures_bind.mpr (ensures_findOrInsertConcurrency (fun t ht => ?_) fun row h => ?_)
      · simpa using hsome c t rfl (.new ht)
      · simpa using fun _ => hfound row h

end

/-! ## Effects -/

/-- The committed effect of a transaction: moves, then one record of the change
    they make to the counts. -/
def Effect (s : Db) (events : List Event) (s' : Db) : Prop :=
  ∃ t : Db, Moves s.toJobTables events t.toJobTables ∧ t.countRevision = s.countRevision ∧
    t.broadcasts = s.broadcasts ∧ Recorded (jobCounts t.jobs - jobCounts s.jobs) t s'

theorem Effect.refl (s : Db) : Effect s [] s :=
  ⟨s, .nil, rfl, rfl, .none (sub_self _)⟩

theorem Effect.of_moves {s t : Db} {events : List Event}
    (hm : Moves s.toJobTables events t.toJobTables) (hr : t.countRevision = s.countRevision)
    (hb : t.broadcasts = s.broadcasts) (hc : jobCounts t.jobs = jobCounts s.jobs) :
    Effect s events t :=
  ⟨t, hm, hr, hb, .none (sub_eq_zero.mpr hc)⟩

theorem ensures_record {s t : Db} {events : List Event} {deltas : CountDeltas}
    {Q : PUnit → Db → Prop} (hm : Moves s.toJobTables events t.toJobTables)
    (hr : t.countRevision = s.countRevision) (hb : t.broadcasts = s.broadcasts)
    (hd : deltas = jobCounts t.jobs - jobCounts s.jobs)
    (hQ : ∀ s', Effect s events s' → Q ⟨⟩ s') : Ensures (recordCountDelta deltas) t Q :=
  ensures_recordCountDelta fun s' h => hQ s' ⟨t, hm, hr, hb, hd ▸ h⟩

section
variable {s : Db}

variable {row : JobRow}

theorem jobCounts_update_status {jobs : Jobs} (f : JobRow → JobRow)
    (hf : ∀ row, (f row).id = row.id) (h : jobs.find? row.id = some row) :
    statusTransitionDeltas row.status (f row).status =
      jobCounts (jobs.modify row.id f hf) - jobCounts jobs := by
  rw [jobCounts_modify f hf h, statusTransitionDeltas_eq]
  abel

/-- The counters become `concurrency` by registering at most one contract. -/
def Registers (t concurrency : ConcurrencyTable) : Prop :=
  ∀ u : JobTables, u.concurrency = t → Moves u [] { u with concurrency }

variable {preparedJob : PreparedBackgroundJob}

theorem ensures_insertPreparedJob {scheduleKey : Option Key} {Q : PUnit → Db → Prop}
    (h : ∀ concurrency jobs, Registers s.concurrency concurrency →
      (∀ key, (preparedJob.row scheduleKey).concurrencyKey = some key →
        ∃ c, concurrency.find? key = some c) →
      s.jobs.insert? (preparedJob.row scheduleKey) = some jobs →
      Q ⟨⟩ { s with concurrency, jobs }) :
    Ensures (insertPreparedJob preparedJob scheduleKey) s Q := by
  refine ensures_bind.mpr (ensures_ensureConcurrency (fun hn => ?_) fun c t hc ht => ?_)
  · refine ensures_insertJob.mpr fun jobs hj =>
      h s.concurrency jobs (fun u hu => hu ▸ .nil) ?_ hj
    simp [PreparedBackgroundJob.row, hn]
  · refine ensures_insertJob.mpr fun jobs hj =>
      h t jobs (fun u hu => (Move.register c (hu ▸ ht)).moves) ?_ hj
    rintro key hk
    have : key = c.key := by simpa [PreparedBackgroundJob.row, hc, eq_comm] using hk
    exact this ▸ ht.find?

theorem newRow_row (preparedJob : PreparedBackgroundJob) (scheduleKey : Option Key) :
    NewRow (preparedJob.row scheduleKey) :=
  ⟨rfl, rfl, rfl⟩

theorem Recorded.tables {deltas : CountDeltas} {t s' : Db} (h : Recorded deltas t s') :
    s'.toJobTables = t.toJobTables := by
  cases h <;> rfl

/-- A transaction that inserted one job without a schedule key, or changed nothing. -/
def InsertedOrUnchanged (s : Db) (newId : String) (jobId : String) (s' : Db) : Prop :=
  s' = s ∨ jobId = newId ∧ Effect s [.inserted newId] s' ∧ s.jobs.find? newId = none ∧
    s'.jobs.find? newId ≠ none

theorem ensures_inserted {t : Db} {concurrency : ConcurrencyTable} {jobs : Jobs}
    (hm : Registers s.concurrency concurrency)
    (hk : ∀ key, (preparedJob.row none).concurrencyKey = some key →
      ∃ c, concurrency.find? key = some c)
    (hj : s.jobs.insert? (preparedJob.row none) = some jobs)
    (ht : t.toJobTables = { s.toJobTables with concurrency, jobs })
    (hr : t.countRevision = s.countRevision) (hb : t.broadcasts = s.broadcasts) :
    Ensures (recordCountDelta enqueuedDeltas) t fun _ s' =>
      InsertedOrUnchanged s preparedJob.jobId preparedJob.jobId s' := by
  have hi : Move { s.toJobTables with concurrency } _ { s.toJobTables with concurrency, jobs } :=
    .insert (preparedJob.row none) (newRow_row _ _) rfl hk hj
  have hjobs : t.jobs = jobs := by rw [ht]
  refine ensures_recordCountDelta fun s' h => .inr ⟨rfl, ⟨t, ?_, hr, hb, ?_⟩, ?_, ?_⟩
  · rw [ht]
    exact (hm _ rfl).trans hi.moves
  · rw [hjobs, jobCounts_insert hj, add_sub_cancel_left]
    rwa [enqueuedDeltas_eq] at h
  · exact (Table.insert?_eq_some.mp hj).1
  · rw [h.tables, hjobs, Table.find?_insert? hj]
    simp [PreparedBackgroundJob.row]

theorem enqueue_effect {dbOrder : String → ℕ} {dedupe : Bool} :
    Ensures (enqueue dbOrder dedupe preparedJob) s (InsertedOrUnchanged s preparedJob.jobId) := by
  have hcover : Ensures (coveringJob dbOrder dedupe preparedJob) s fun _ s' => s' = s := by
    simp [coveringJob]
  simp only [enqueue, ensures_serializedCountMutation]
  refine ensures_bind.mpr (hcover.mono fun existing s' hs => ?_)
  subst hs
  cases existing with
  | some existing => exact ensures_pure.mpr (.inl rfl)
  | none =>
    simp only [ensures_bind, ensures_pure]
    exact ensures_insertPreparedJob fun concurrency jobs hm hk hj =>
      ensures_inserted hm hk hj rfl rfl rfl

/-! ## Leases -/

/-- The tables after a job left its lease. -/
def left (s : Db) (row : JobRow) (f : JobRow → JobRow) (hf : ∀ row, (f row).id = row.id) : Db :=
  { s with
    jobs := s.jobs.modify row.id f hf
    concurrency := released s.concurrency row.concurrencyKey
    scheduleKeys := if (f row).status.terminal then
      disowned s.scheduleKeys row.id row.scheduleKey else s.scheduleKeys }

variable {f : JobRow → JobRow}

theorem left_moves {hf : ∀ row, (f row).id = row.id}
    (h : s.jobs.find? row.id = some row) (hs : row.status = .handedOff) (hl : LeaseEnd row f) :
    Moves s.toJobTables [.ended row.id row.handoffId] (left s row f hf).toJobTables :=
  (Move.leave hf h hs hl).moves

theorem ensures_leave {row : JobRow} (f : JobRow → JobRow) (hf : ∀ row, (f row).id = row.id)
    {Q : PUnit → Db → Prop} (h : s.jobs.find? row.id = some row) (hs : row.status = .handedOff)
    (hl : LeaseEnd row f)
    (hQ : ∀ s', Effect s [.ended row.id row.handoffId] s' → Q ⟨⟩ s') :
    Ensures (recordStatusTransition .handedOff (f row).status) (left s row f hf) Q :=
  ensures_record (left_moves h hs hl) rfl rfl (hs ▸ jobCounts_update_status f hf h) hQ

theorem shouldAcceptReport_handedOff {job : JobRow} {report : Report}
    (h : shouldAcceptReport job report = true) : job.status = .handedOff := by
  simp only [shouldAcceptReport, Bool.and_eq_true, decide_eq_true_eq] at h
  exact h.1.1.1

variable {jobId : String} {now : ℤ}

theorem markHandedOff_effect {handoffId : String} {workerId : Option String} :
    Ensures (markHandedOff jobId handoffId workerId now) s fun handoff s' =>
      Effect s (handoff.toList.map fun handoff => .granted jobId handoff.handoffId) s' := by
  simp only [markHandedOff, ensures_serializedCountMutation, ensures_bind,
    ensures_getJobRowById]
  cases h : s.jobs.find? jobId with
  | none => simpa using Effect.refl s
  | some row =>
    obtain rfl := Table.key_of_find? h
    simp only [Option.map_some, ensures_ite]
    refine ⟨fun _ => by simpa using Effect.refl s, fun hq => ?_⟩
    have hq : row.status = .queued := not_not.mp hq
    refine ensures_bind.mpr (ensures_reserveJobConcurrency ?_ fun concurrency hc => ?_)
    · simpa using Effect.refl s
    · refine ensures_bind.mpr (ensures_updateJobs_status h hq ?_)
      simp only [ne_eq, not_true_eq_false, if_false, ensures_bind]
      refine ensures_record (Move.dispatch handoffId (orNull workerId) now h hq hc).moves rfl rfl ?_
        fun s' he => by simpa using he
      rw [← hq]
      exact jobCounts_update_status _ (handedOffRow_id handoffId (orNull workerId) now) h

theorem ensures_fenced {hf : ∀ row, (f row).id = row.id}
    {Q : ℕ → Db → Prop} (h : s.jobs.find? row.id = some row) (hno : Q 0 s)
    (hyes : Q 1 { s with jobs := s.jobs.modify row.id f hf }) :
    Ensures (updateJobs (activeHandoffConditions (normalizeJobRow row)) f hf) s Q := by
  refine (ensures_updateJobs_key row.id (fun r => decide (r.status = .handedOff) &&
    sqlEq r.handoffId (normalizeJobRow row).handoffId) h).mpr ?_
  split
  · exact hyes
  · exact hno

variable {report : Report}

theorem markCompleted_effect : Ensures (markCompleted jobId report now) s fun accepted s' =>
      Effect s (if accepted then [.ended jobId (leaseOf s.jobs jobId)] else []) s' := by
  simp only [markCompleted, ensures_serializedCountMutation, ensures_bind, ensures_getJobRowById]
  cases h : s.jobs.find? jobId with
  | none => simpa using Effect.refl s
  | some row =>
    obtain rfl := Table.key_of_find? h
    simp only [Option.map_some, ensures_ite, ensures_bind,
      ensures_lockConcurrencyRow]
    refine ⟨fun _ => by simpa using Effect.refl s, fun ha => ?_⟩
    have hs : row.status = .handedOff := @shouldAcceptReport_handedOff (normalizeJobRow row) report
      (by simpa using ha)
    refine ensures_fenced h (by simpa using Effect.refl s) ?_
    simp only [ne_eq, not_true_eq_false, false_implies, not_false_eq_true, true_implies, true_and,
      ensures_releaseScheduleOwnershipForJob, ensures_releaseConcurrency]
    refine ensures_leave (completedRow now) (completedRow_id now) h hs (.completed now)
      fun s' he => ?_
    simpa [leaseOf, h, JobRow.lease, hs] using he

theorem markRescheduled_effect {delayMs : JsNumber} :
    Ensures (markRescheduled jobId delayMs report now) s fun accepted s' =>
      Effect s (if accepted then [.ended jobId (leaseOf s.jobs jobId)] else []) s' := by
  simp only [markRescheduled, ensures_serializedCountMutation, ensures_bind, ensures_getJobRowById]
  cases h : s.jobs.find? jobId with
  | none => simpa using Effect.refl s
  | some row =>
    obtain rfl := Table.key_of_find? h
    simp only [Option.map_some, ensures_ite, ensures_bind,
      ensures_lockConcurrencyRow]
    refine ⟨fun _ => by simpa using Effect.refl s, fun ha => ?_⟩
    have hs : row.status = .handedOff := @shouldAcceptReport_handedOff (normalizeJobRow row) report
      (by simpa using ha)
    cases rescheduledBackgroundJobAtMs delayMs now with
    | error error => exact ensures_throw
    | ok scheduledAtMs =>
      refine ensures_bind.mpr (ensures_fenced h (by simpa using Effect.refl s) ?_)
      simp only [ne_eq, not_true_eq_false, if_false, ensures_bind, ensures_releaseConcurrency]
      refine ensures_leave (requeuedRow scheduledAtMs) (requeuedRow_id scheduledAtMs) h hs
        (.requeued scheduledAtMs) fun s' he => ?_
      simpa [leaseOf, h, JobRow.lease, hs] using he

theorem markReturnedToQueue_effect {handoffId : String} :
    Ensures (markReturnedToQueue jobId handoffId now) s fun _ s' =>
      Effect s (if leaseOf s.jobs jobId = some handoffId ∧ handoffId ≠ "" then
        [.ended jobId (leaseOf s.jobs jobId)] else []) s' := by
  simp only [markReturnedToQueue, ensures_serializedCountMutation, ensures_bind,
    ensures_getJobRowById]
  cases h : s.jobs.find? jobId with
  | none => simpa [leaseOf, h] using Effect.refl s
  | some row =>
    obtain rfl := Table.key_of_find? h
    simp only [Option.map_some, ensures_ite, ensures_pure, ensures_bind,
      ensures_lockConcurrencyRow]
    refine ⟨fun hr => ?_, fun ha => ?_⟩
    · rw [if_neg]
      · exact .refl s
      · rintro ⟨hl, hne⟩
        by_cases hs : row.status = .handedOff <;>
          simp_all [leaseOf, JobRow.lease, orNull]
    · have ha : (normalizeJobRow row).handoffId = some handoffId ∧
          (normalizeJobRow row).status = .handedOff := by
        simpa only [Bool.or_eq_true, decide_eq_true_eq, not_or, not_not] using ha
      have hs : row.status = .handedOff := ha.2
      obtain ⟨hid, hne⟩ := orNull_eq_some.mp ha.1
      have hl : leaseOf s.jobs row.id = some handoffId := by
        simp [leaseOf, h, JobRow.lease, hs, hid]
      rw [if_pos ⟨hl, hne⟩, hl]
      refine (ensures_updateJobs_key row.id (fun r => decide (r.status = .handedOff) &&
        sqlEq r.handoffId (some handoffId)) h).mpr ?_
      simp only [hs, hid, sqlEq_some, true_implies,
        not_true_eq_false, false_implies, and_true, ensures_releaseConcurrency]
      refine ensures_leave (requeuedRow now) (requeuedRow_id now) h hs (.requeued now)
        fun s' he => ?_
      rwa [hid] at he

theorem failureOf_status (job row : JobRow) (error : JobError) (markOrphaned : Bool) (now : ℤ) :
    (failureOf job error markOrphaned now row).status =
      failureStatus markOrphaned (shouldRetry job) := rfl

theorem terminal_failureStatus (markOrphaned shouldRetry : Bool) :
    (failureStatus markOrphaned shouldRetry).terminal = !shouldRetry := by
  cases markOrphaned <;> cases shouldRetry <;> rfl

theorem ensures_applyFailure {error : JobError} {markOrphaned : Bool}
    {Q : Option JobRow → Db → Prop} (c : JobRow → Bool) (h : s.jobs.find? row.id = some row)
    (hno : Q none s)
    (hyes : Q (some (failureOf row error markOrphaned now (normalizeJobRow row)))
      (left s row (failureOf row error markOrphaned now)
        (failureOf_id row error markOrphaned now))) :
    Ensures (applyFailure (normalizeJobRow row) error markOrphaned
      (fun r => r.id = row.id && c r) now) s Q := by
  simp only [applyFailure, ensures_bind, ensures_lockConcurrencyRow]
  refine (ensures_updateJobs_key row.id c h).mpr ?_
  split
  · simp only [ne_eq, not_true_eq_false, if_false, ensures_bind, ensures_ite, ensures_pure,
      ensures_releaseScheduleOwnershipForJob, ensures_releaseConcurrency]
    have ht : (failureOf row error markOrphaned now row).status.terminal = !shouldRetry row :=
      terminal_failureStatus markOrphaned (shouldRetry row)
    unfold left at hyes
    refine ⟨fun hr => ?_, fun hr => ?_⟩
    · have hr : (!shouldRetry row) = true := hr
      rw [ht, if_pos hr] at hyes
      exact hyes
    · have hr : ¬(!shouldRetry row) = true := hr
      rw [ht, if_neg hr] at hyes
      exact hyes
  · simpa using hno

theorem markFailed_effect {error : JobError} :
    Ensures (markFailed jobId error report now) s fun job s' =>
      Effect s (if job.isSome then [.ended jobId (leaseOf s.jobs jobId)] else []) s' := by
  simp only [markFailed, ensures_serializedCountMutation, ensures_bind, ensures_getJobRowById]
  cases h : s.jobs.find? jobId with
  | none => simpa using Effect.refl s
  | some row =>
    obtain rfl := Table.key_of_find? h
    simp only [Option.map_some, ensures_ite, ensures_bind]
    refine ⟨fun _ => by simpa using Effect.refl s, fun ha => ?_⟩
    have hs : row.status = .handedOff := @shouldAcceptReport_handedOff (normalizeJobRow row) report
      (by simpa using ha)
    refine ensures_applyFailure (fun r => decide (r.status = .handedOff) &&
      sqlEq r.handoffId (normalizeJobRow row).handoffId) h (by simpa using Effect.refl s) ?_
    simp only [ensures_bind, normalizeJobRow_status, hs]
    refine @ensures_leave s row (failureOf row error false now) (failureOf_id row error false now) _
      h hs (.failed error false now) fun s' he => ?_
    simpa [leaseOf, h, JobRow.lease, hs] using he

theorem orphanDeltas_cons {job : JobRow} {jobs : List JobRow} {retry : Bool}
    (h : job.status = failureStatus true retry) :
    orphanDeltas (job :: jobs) =
      (job.status.weight - JobStatus.handedOff.weight) + orphanDeltas jobs := by
  simp only [orphanDeltas, map_cons]
  funext b
  rw [h]
  cases retry <;> cases b <;> rfl

theorem left_find?_ne {hf : ∀ row, (f row).id = row.id}
    {id : String} (h : id ≠ row.id) : (left s row f hf).jobs.find? id = s.jobs.find? id := by
  simp [left, Table.find?_modify, h]

end

theorem ensures_orphanRows {now : String → ℤ} (rows : List JobRow) :
    ∀ {s : Db} {Q : List JobRow → Db → Prop},
      (∀ row ∈ rows, s.jobs.find? row.id = some row ∧ row.status = .handedOff) →
      (rows.map JobRow.id).Nodup →
      (∀ jobs t, (∀ job ∈ jobs, job.id ∈ rows.map JobRow.id) →
        Moves s.toJobTables (jobs.map fun job => .ended job.id (leaseOf s.jobs job.id))
          t.toJobTables →
        t.countRevision = s.countRevision → t.broadcasts = s.broadcasts →
        orphanDeltas jobs = jobCounts t.jobs - jobCounts s.jobs → Q jobs t) →
      Ensures (orphanRows now rows) s Q := by
  induction rows with
  | nil =>
    intro s Q _ _ hQ
    exact ensures_pure.mpr (hQ [] s (by simp) .nil rfl rfl (by simp [orphanDeltas]))
  | cons row rows ih =>
    intro s Q hrows hn hQ
    obtain ⟨h, hs⟩ := hrows row (by simp)
    obtain ⟨hid, hn⟩ := nodup_cons.mp hn
    simp only [orphanRows, ensures_bind, ensures_pure, normalizeJobRow_id]
    refine ensures_applyFailure (fun r => decide (r.status = .handedOff) &&
      sqlEq r.handedOffAtMs row.handedOffAtMs) h ?_ ?_
    · refine ih (fun r hr => hrows r (by simp [hr])) hn fun jobs t hmem hm hr hb hd => ?_
      exact hQ jobs t (fun job hj => by simpa using .inr (by simpa using hmem job hj)) hm hr hb hd
    · have hfid := failureOf_id row orphanError true (now row.id)
      have hfind : ∀ id ∈ rows.map JobRow.id,
          (left s row _ hfid).jobs.find? id = s.jobs.find? id :=
        fun id hmem => left_find?_ne fun he => hid (he ▸ hmem)
      refine ih (fun r hr => ?_) hn fun jobs t hmem hm hr hb hd => ?_
      · rw [hfind _ (mem_map_of_mem hr)]
        exact hrows r (by simp [hr])
      · refine hQ _ t ?_ ?_ hr hb ?_
        · rintro job (_ | ⟨_, hj⟩)
          · exact mem_cons_self ..
          · exact mem_cons_of_mem _ (hmem job hj)
        · have hl : leaseOf s.jobs row.id = row.handoffId := by
            simp [leaseOf, h, JobRow.lease, hs]
          have hlater : (jobs.map fun job => Event.ended job.id (leaseOf s.jobs job.id)) =
              jobs.map fun job => .ended job.id (leaseOf (left s row _ hfid).jobs job.id) :=
            map_congr_left fun job hj => by simp [leaseOf, hfind _ (hmem job hj)]
          simp only [Option.toList_some, singleton_append, map_cons, failureOf_id,
            normalizeJobRow_id, hl, hlater]
          exact (left_moves h hs (.failed orphanError true _)).trans hm
        · have hc := jobCounts_update_status _ hfid h
          rw [hs, statusTransitionDeltas_eq] at hc
          simp only [Option.toList_some, singleton_append]
          rw [orphanDeltas_cons (failureOf_status row _ orphanError true (now row.id)), hd]
          simp only [left, failureOf_status] at hc ⊢
          rw [hc]
          abel

theorem markOrphanedJobs_effect {s : Db} {orphanedAfterMs sweepNow : ℤ} {now : String → ℤ}
    {dbOrder : String → ℕ} :
    Ensures (markOrphanedJobs orphanedAfterMs sweepNow now dbOrder) s fun jobs s' =>
      Effect s (jobs.map fun job => .ended job.id (leaseOf s.jobs job.id)) s' := by
  simp only [markOrphanedJobs, ensures_serializedCountMutation, ensures_bind, ensures_selectJobs,
    ensures_pure]
  refine ensures_orphanRows _ (fun row hrow => ?_) ?_ fun jobs t _ hm hr hb hd => ?_
  · obtain ⟨hmem, hp⟩ := Table.mem_select.mp ((mem_insertionSort _).mp hrow)
    simp only [Bool.and_eq_true, decide_eq_true_eq] at hp
    exact ⟨Table.find?_of_mem hmem, hp.1⟩
  · refine ((perm_insertionSort _ _).map JobRow.id).nodup_iff.mpr ?_
    exact s.jobs.keys_nodup.sublist (filter_sublist.map _)
  · exact ensures_record hm hr hb hd fun _ h => h

end Velocious
