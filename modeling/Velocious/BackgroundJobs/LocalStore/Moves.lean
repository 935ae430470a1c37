/-
  The life of a local job: the abstract model of the local background-jobs
  store, and the moves each call makes.

  A `Move` is one indivisible change of the store: a contract is registered, a
  job is inserted, dispatched under a new lease, leaves its lease, is put under
  another contract while queued, the counters are recounted, or the store is
  cleared. `exec_moves`: a call either fails and changes nothing, or answers,
  and its effect is a sequence of moves whose events are `Tx.events`.
-/
import Velocious.BackgroundJobs.LocalStore.Operations

namespace Velocious.LocalStore

open Foundation List

def JobRow.lease (row : JobRow) : Option String :=
  if row.status = .handedOff then row.handoffId else none

def leaseOf (jobs : Jobs) (jobId : String) : Option String :=
  (jobs.find? jobId).bind JobRow.lease

/-- How a handed-off job's row may leave its lease. -/
inductive LeaseEnd (row : JobRow) : (JobRow → JobRow) → Prop where
  | completed (now : ℤ) : LeaseEnd row (completedRow now)
  | requeued (scheduledAtMs : ℤ) : LeaseEnd row (requeuedRow scheduledAtMs)
  | failed (error : JobError) (now : ℤ) : LeaseEnd row (failedRow row error now)

/-- A key that is registered, if there is one. -/
def Registered (concurrency : ConcurrencyTable) (key : Option Key) : Prop :=
  ∀ k, key = some k → ∃ c, concurrency.find? k = some c

/-- One change of the store, with what it did. -/
inductive Move : Db → List Event → Db → Prop where
  | register {s concurrency} (c : Concurrency) : Ensured c s.concurrency concurrency →
      Move s [] { s with concurrency }
  | insert {s jobs} (row : JobRow) : row.status = .queued → row.attempts = 0 →
      Registered s.concurrency row.concurrencyKey → s.jobs.insert? row = some jobs →
      Move s [.inserted row.id] { s with jobs }
  | dispatch {s concurrency row} (handoffId workerId : String) (now : ℤ) :
      s.jobs.find? row.id = some row → row.status = .queued →
      Reserved s.concurrency row.concurrencyKey concurrency →
      Move s [.granted row.id handoffId]
        ⟨s.jobs.modify row.id (handedOffRow handoffId workerId now) (handedOffRow_id _ _ _),
          concurrency⟩
  | leave {s row f} (hf : ∀ row, (f row).id = row.id) : s.jobs.find? row.id = some row →
      row.status = .handedOff → LeaseEnd row f →
      Move s [.ended row.id row.handoffId]
        ⟨s.jobs.modify row.id f hf, released s.concurrency row.concurrencyKey⟩
  | rekey {s row} (c : Option Concurrency) : s.jobs.find? row.id = some row →
      row.status = .queued → Registered s.concurrency (c.map Concurrency.key) →
      Move s [] { s with jobs := s.jobs.modify row.id (rekeyedRow c) (rekeyedRow_id c) }
  | recount {s} : Move s [] { s with
      concurrency := s.concurrency.update (fun _ => true) (recountRow s.jobs)
        (recountRow_key s.jobs) }
  | clear {s} : Move s [.deleted] .empty

abbrev Moves : Db → List Event → Db → Prop := Steps Move

theorem Move.moves {s s' : Db} {es : List Event} (h : Move s es s') : Moves s es s' := .single h

/-! ## Statements -/

section
variable {s : Db}

variable {row : JobRow}

theorem normalizeRow_ok {job : JobRow} (h : normalizeRow row = .ok job) :
    ∃ executionMode queue, job = { row with executionMode, queue } := by
  simp only [normalizeRow, bind, Except.bind] at h
  split at h
  · cases h
  · split at h
    · cases h
    · exact ⟨_, _, (Except.ok.inj h).symm⟩

variable {jobId : String}

theorem ensures_getJob {Q : Option JobRow → Db → Prop}
    (hnone : s.jobs.find? jobId = none → Q none s)
    (hsome : ∀ row executionMode queue, s.jobs.find? jobId = some row →
      Q (some { row with executionMode, queue }) s) :
    Ensures (getJob jobId) s Q := by
  simp only [getJob, ensures_bind, ensures_get]
  cases h : s.jobs.find? jobId with
  | none => exact ensures_pure.mpr (hnone h)
  | some row =>
    simp only [ensures_bind, ensures_lift, ensures_pure]
    intro job hjob
    obtain ⟨mode, queue, rfl⟩ := normalizeRow_ok hjob
    exact hsome row mode queue h

variable {f : JobRow → JobRow}

variable {Q : ℕ → Db → Prop}

@[simp] theorem ensures_updateJobs {p : JobRow → Bool} {hf : ∀ row, (f row).id = row.id} :
    Ensures (updateJobs p f hf) s Q ↔
      Q (s.jobs.count p) { s with jobs := s.jobs.update p f hf } := by
  simp [updateJobs]

theorem ensures_updateJobs_key {hf : ∀ row, (f row).id = row.id} (id : String) (c : JobRow → Bool)
    (h : s.jobs.find? id = some row) :
    Ensures (updateJobs (fun row => row.id = id && c row) f hf) s Q ↔
      if c row then Q 1 { s with jobs := s.jobs.modify id f hf } else Q 0 s := by
  rw [ensures_updateJobs, Table.count_key c h, Table.update_key_eq c h]
  split <;> rfl

variable {key : Option Key}

@[simp] theorem ensures_lockConcurrencyRow {Q : PUnit → Db → Prop} :
    Ensures (lockConcurrencyRow key) s Q ↔ Q ⟨⟩ s := by
  cases key with
  | none => simp [lockConcurrencyRow]
  | some key =>
    have h : (s.concurrency.modify key fun row => { row with activeCount := row.activeCount }) =
        s.concurrency := by
      simp [Table.modify, Table.update]
    simp [lockConcurrencyRow, h]

@[simp] theorem ensures_releaseConcurrency {Q : PUnit → Db → Prop} :
    Ensures (releaseConcurrency key) s Q ↔
      Q ⟨⟩ { s with concurrency := released s.concurrency key } := by
  simp [releaseConcurrency]

theorem ensures_reserveConcurrency {Q : Bool → Db → Prop} (hno : Q false s)
    (hyes : ∀ concurrency, Reserved s.concurrency key concurrency →
      Q true { s with concurrency }) :
    Ensures (reserveConcurrency key) s Q := by
  cases key with
  | none => exact ensures_pure.mpr (hyes _ .none)
  | some key =>
    simp only [reserveConcurrency, ensures_bind, ensures_get, ensures_set, ensures_pure]
    rcases reserve_cases s.concurrency key with ⟨hc, hr⟩ | ⟨hc, hu⟩
    · rw [hc]
      exact hyes _ hr
    · rw [hc, hu]
      exact hno

theorem ensures_ensureConcurrency {c : Concurrency} {Q : PUnit → Db → Prop}
    (h : ∀ concurrency, Ensured c s.concurrency concurrency → Q ⟨⟩ { s with concurrency }) :
    Ensures (ensureConcurrency c) s Q := by
  simp only [ensureConcurrency, ensures_bind, ensures_get]
  cases hi : s.concurrency.insert? ⟨c.key, c.maxConcurrency, 0⟩ with
  | some t =>
    have hu : (s.concurrency.upsert ⟨c.key, c.maxConcurrency, 0⟩ fun row =>
        { row with concurrencyKey := row.concurrencyKey }) = t := by
      simp [Table.upsert, hi]
    have hf : t.find? c.key = some ⟨c.key, c.maxConcurrency, 0⟩ := by
      rw [Table.find?_insert? hi, if_pos rfl]
    simpa [hu, hf] using h t (.new hi)
  | none =>
    obtain ⟨row, hrow⟩ := Table.insert?_eq_none.mp hi
    have hu : (s.concurrency.upsert ⟨c.key, c.maxConcurrency, 0⟩ fun row =>
        { row with concurrencyKey := row.concurrencyKey }) = s.concurrency := by
      simp [Table.upsert, hi, Table.modify, Table.update]
    simp only [hu, hrow, ensures_ite, ensures_pure, ensures_modify]
    refine ⟨fun _ => h _ (.same hrow), fun _ => ⟨fun _ => ensures_bind.mpr ensures_throw,
      fun hq => ?_⟩⟩
    exact h _ (.cap hrow (by simpa using hq))

/-! ## Calls -/

def EnqueueMoves (s : Db) (jobId : String) (s' : Db) : Prop :=
  Moves s (if s.jobs.find? jobId = none ∧ s'.jobs.find? jobId ≠ none then [.inserted jobId]
    else []) s'

theorem insertUnlessCovered_moves {dbOrder : String → ℕ} {dedupe : Bool}
    {preparedJob : PreparedJob} {concurrency : ConcurrencyTable}
    (hm : Moves s [] { s with concurrency })
    (hk : Registered concurrency (preparedJob.concurrency.map Concurrency.key)) :
    Ensures (insertUnlessCovered dbOrder dedupe preparedJob) { s with concurrency }
      (EnqueueMoves s) := by
  have hcover : Ensures (coveringJob dbOrder dedupe preparedJob) { s with concurrency }
      fun _ s' => s' = { s with concurrency } := by
    simp [coveringJob, selectJobs]
  refine ensures_bind.mpr (hcover.mono fun existing s' hs => ?_)
  subst hs
  simp only [ensures_bind, ensures_pure, ensures_ite, insertJob, ensures_get]
  refine ⟨fun hid => ?_, fun _ => ?_⟩
  · cases hj : s.jobs.insert? preparedJob.row with
    | none => exact ensures_throw
    | some jobs =>
      have hn : s.jobs.find? preparedJob.jobId = none := (Table.insert?_eq_some.mp hj).1
      have hf : jobs.find? preparedJob.jobId = some preparedJob.row := by
        rw [Table.find?_insert? hj]
        exact if_pos rfl
      simp only [EnqueueMoves, ensures_set, hid]
      rw [if_pos ⟨hn, by simp [hf]⟩]
      exact hm.trans (Move.insert (s := { s with concurrency }) preparedJob.row rfl rfl hk hj).moves
  · rw [EnqueueMoves, if_neg fun h => h.2 h.1]
    exact hm

theorem enqueue_moves (sha256 : String → String) {dbOrder : String → ℕ} {input : EnqueueInput} :
    Ensures (enqueue sha256 dbOrder input) s (EnqueueMoves s) := by
  refine ensures_bind.mpr (ensures_lift.mpr fun preparedJob _ => ?_)
  cases hc : preparedJob.concurrency with
  | none =>
    exact @insertUnlessCovered_moves s _ _ _ s.concurrency .nil (by simp [Registered, hc])
  | some c =>
    refine ensures_bind.mpr (ensures_ensureConcurrency fun t ht =>
      insertUnlessCovered_moves (Move.register c ht).moves ?_)
    rintro k hk
    obtain rfl : c.key = k := by simpa [hc] using hk
    exact ht.find?

variable {now : ℤ}

theorem markHandedOff_moves {handoffId : String} {workerId : Option String} {at' : ℤ} :
    Ensures (markHandedOff jobId handoffId workerId now at') s fun handoff s' =>
      Moves s (handoff.toList.map fun handoff => .granted jobId handoff.handoffId) s' := by
  refine ensures_bind.mpr (ensures_getJob (fun _ => ?_) fun row mode queue h => ?_)
  · exact ensures_pure.mpr .nil
  obtain rfl := Table.key_of_find? h
  simp only [ensures_ite, ensures_pure]
  refine ⟨fun _ => .nil, fun hq => ?_⟩
  have hq : row.status = .queued := by simp_all
  refine ensures_bind.mpr (ensures_reserveConcurrency ?_ fun concurrency hc => ?_)
  · simpa using Steps.nil
  · refine ensures_bind.mpr ((ensures_updateJobs_key (s := { s with concurrency }) row.id
      (fun r => decide (r.status = .queued)) h).mpr ?_)
    simp only [hq, not_true_eq_false, if_false, ensures_pure, ne_eq]
    exact (Move.dispatch handoffId _ at' h hq hc).moves

variable {handoffId : Option String}

theorem ensures_fenced {hf : ∀ row, (f row).id = row.id} (h : s.jobs.find? row.id = some row)
    (hno : Q 0 s)
    (hyes : row.status = .handedOff → Q 1 { s with jobs := s.jobs.modify row.id f hf }) :
    Ensures (updateJobs (leaseConditions row.id handoffId) f hf) s Q := by
  refine (ensures_updateJobs_key row.id (fun r => decide (r.status = .handedOff) &&
    sqlEq r.handoffId handoffId) h).mpr ?_
  split
  · next hc =>
    simp only [Bool.and_eq_true, decide_eq_true_eq] at hc
    exact hyes hc.1
  · exact hno

theorem leave_moves (hf : ∀ row, (f row).id = row.id)
    (h : s.jobs.find? row.id = some row) (hs : row.status = .handedOff) (hl : LeaseEnd row f) :
    Moves s [.ended row.id (leaseOf s.jobs row.id)]
      ⟨s.jobs.modify row.id f hf, released s.concurrency row.concurrencyKey⟩ := by
  have hlease : leaseOf s.jobs row.id = row.handoffId := by simp [leaseOf, h, JobRow.lease, hs]
  rw [hlease]
  exact (Move.leave hf h hs hl).moves

theorem acceptsHandoff_iff {job : JobRow} : acceptsHandoff job handoffId = true ↔
      job.status = .handedOff ∧ job.handoffId = handoffId ∧ ∃ l, handoffId = some l ∧ l ≠ "" := by
  simp only [acceptsHandoff, Bool.and_eq_true, decide_eq_true_eq, and_assoc]
  refine and_congr_right fun _ => ⟨fun ⟨ht, he⟩ => ⟨he, ?_⟩, fun ⟨he, l, hl, hne⟩ => ⟨?_, he⟩⟩
  · obtain ⟨l, hl⟩ := Option.isSome_iff_exists.mp ht
    obtain ⟨hl, hne⟩ := orNull_eq_some.mp hl
    exact ⟨l, he ▸ hl, hne⟩
  · exact Option.isSome_iff_exists.mpr ⟨l, orNull_eq_some.mpr ⟨he.trans hl, hne⟩⟩

theorem leaseOf_eq_some {jobs : Jobs} {l : String} (h : jobs.find? row.id = some row) :
    leaseOf jobs row.id = some l ↔ row.status = .handedOff ∧ row.handoffId = some l := by
  simp [leaseOf, h, JobRow.lease]

theorem markReturnedToQueue_moves {handoffId : String} :
    Ensures (markReturnedToQueue jobId handoffId now) s fun _ s' =>
      Moves s (if leaseOf s.jobs jobId = some handoffId ∧ handoffId ≠ "" then
        [.ended jobId (leaseOf s.jobs jobId)] else []) s' := by
  refine ensures_bind.mpr (ensures_getJob (fun hn => ?_) fun row mode queue h => ?_)
  · exact ensures_pure.mpr (by simpa [leaseOf, hn] using Steps.nil)
  obtain rfl := Table.key_of_find? h
  simp only [ensures_ite, ensures_pure]
  refine ⟨fun hno => ?_, fun ha => ?_⟩
  · rw [if_neg fun hl => ?_]
    · exact .nil
    · obtain ⟨hs, hid⟩ := (leaseOf_eq_some h).mp hl.1
      have ha : acceptsHandoff { row with executionMode := mode, queue } (some handoffId) = true :=
        acceptsHandoff_iff.mpr ⟨hs, hid, handoffId, rfl, hl.2⟩
      rw [ha] at hno
      cases hno
  · obtain ⟨hs, hid, l, hl, hne⟩ := acceptsHandoff_iff.mp (by simpa using ha)
    cases hl
    rw [if_pos ⟨(leaseOf_eq_some h).mpr ⟨hs, hid⟩, hne⟩]
    refine ensures_bind.mpr (ensures_lockConcurrencyRow.mpr (ensures_bind.mpr
      ((ensures_updateJobs_key row.id (fun r => decide (r.status = .handedOff) &&
        sqlEq r.handoffId (some handoffId)) h).mpr ?_)))
    have hs : row.status = .handedOff := hs
    have hid : row.handoffId = some handoffId := hid
    simp only [hs, hid, sqlEq_some, if_true, ensures_releaseConcurrency]
    exact leave_moves (requeuedRow_id now) h hs (.requeued now)

theorem markCompleted_moves : Ensures (markCompleted jobId handoffId now) s fun accepted s' =>
      Moves s (if accepted then [.ended jobId (leaseOf s.jobs jobId)] else []) s' := by
  refine ensures_bind.mpr (ensures_getJob (fun _ => ?_) fun row mode queue h => ?_)
  · exact ensures_pure.mpr .nil
  obtain rfl := Table.key_of_find? h
  simp only [ensures_ite, ensures_pure, ensures_bind, ensures_lockConcurrencyRow]
  refine ⟨fun _ => .nil, fun _ => ensures_fenced h ?_ fun hs => ?_⟩
  · exact ⟨fun _ => .nil, fun h => absurd (by decide) h⟩
  · simpa using leave_moves (completedRow_id now) h hs (.completed now)

theorem markRescheduled_moves {delayMs : JsNumber} :
    Ensures (markRescheduled jobId handoffId delayMs now) s fun accepted s' =>
      Moves s (if accepted then [.ended jobId (leaseOf s.jobs jobId)] else []) s' := by
  refine ensures_bind.mpr (ensures_getJob (fun _ => ?_) fun row mode queue h => ?_)
  · exact ensures_pure.mpr .nil
  obtain rfl := Table.key_of_find? h
  simp only [ensures_ite, ensures_pure, ensures_bind, ensures_lockConcurrencyRow, ensures_lift]
  refine ⟨fun _ => .nil, fun _ scheduledAtMs _ => ensures_fenced h ?_ fun hs => ?_⟩
  · exact ⟨fun _ => .nil, fun h => absurd (by decide) h⟩
  · simpa using leave_moves (requeuedRow_id scheduledAtMs) h hs (.requeued scheduledAtMs)

theorem ensures_applyFailure {error : JobError} {mode : ExecutionMode}
    {queue : String} {Q : Option JobRow → Db → Prop} (h : s.jobs.find? row.id = some row)
    (hno : Q none s)
    (hyes : row.status = .handedOff → Q (some (failedRow row error now
        { row with executionMode := mode, queue }))
      ⟨s.jobs.modify row.id (failedRow row error now) (failedRow_id row error now),
        released s.concurrency row.concurrencyKey⟩) :
    Ensures (applyFailure { row with executionMode := mode, queue } error now) s Q := by
  simp only [applyFailure, ensures_bind, ensures_lockConcurrencyRow]
  refine ensures_fenced h ?_ fun hs => ?_
  · simpa using hno
  · simp only [ne_eq, not_true_eq_false, if_false, ensures_bind, ensures_releaseConcurrency,
      ensures_pure]
    exact hyes hs

theorem markFailed_moves {error : JobError} :
    Ensures (markFailed jobId handoffId error now) s fun job s' =>
      Moves s (if job.isSome then [.ended jobId (leaseOf s.jobs jobId)] else []) s' := by
  refine ensures_bind.mpr (ensures_getJob (fun _ => ?_) fun row mode queue h => ?_)
  · exact ensures_pure.mpr .nil
  obtain rfl := Table.key_of_find? h
  simp only [ensures_ite, ensures_pure]
  refine ⟨fun _ => .nil, fun _ => ensures_applyFailure h .nil fun hs => ?_⟩
  exact leave_moves (failedRow_id row error now) h hs (.failed error now)

end

/-! ## Reconciliation and recovery -/

theorem update_queued {s : Db} {row : JobRow} {f : JobRow → JobRow}
    {hf : ∀ row, (f row).id = row.id} (h : s.jobs.find? row.id = some row)
    (hq : row.status = .queued) :
    s.jobs.update (fun r => r.id = row.id && r.status = .queued) f hf =
      s.jobs.modify row.id f hf := by
  rw [Table.update_key_eq (fun r => decide (r.status = .queued)) h]
  simp [hq]

theorem ensures_reconcileQueuedJobConcurrency {s : Db} {queues : Queues} {row job : JobRow}
    {Q : JobRow → Db → Prop} (h : s.jobs.find? row.id = some row) (hq : row.status = .queued)
    (hid : job.id = row.id)
    (hQ : ∀ job' s', job'.id = row.id → Moves s [] s' →
      (∀ id, id ≠ row.id → s'.jobs.find? id = s.jobs.find? id) → Q job' s') :
    Ensures (reconcileQueuedJobConcurrency queues job) s Q := by
  have hrekey : ∀ (c : Option Concurrency) (u : Db), u.jobs = s.jobs → Moves s [] u →
      Registered u.concurrency (c.map Concurrency.key) → ∀ job' : JobRow, job'.id = row.id →
      Q job' ⟨u.jobs.update (fun r => r.id = job.id && r.status = .queued) (rekeyedRow c)
        (rekeyedRow_id c), u.concurrency⟩ := by
    intro c u hu hm hk job' hid'
    rw [← hu] at h
    rw [hid, update_queued h hq]
    refine hQ _ _ hid' (hm.trans (Move.rekey c h hq hk).moves) fun id hne => ?_
    rw [← hu]
    rw [Table.find?_modify, if_neg hne]
  simp only [reconcileQueuedJobConcurrency, ensures_ite, ensures_pure, ensures_bind, ensures_lift]
  refine ⟨fun _ => hQ _ _ hid .nil fun _ _ => rfl, fun _ c _ => ?_⟩
  cases c with
  | none =>
    simp only [ensures_ite, ensures_bind, ensures_updateJobs, ensures_pure]
    refine ⟨fun _ => ?_, fun _ => hQ _ _ hid .nil fun _ _ => rfl⟩
    exact hrekey none s rfl .nil (by simp [Registered]) _ hid
  | some c =>
    refine ensures_bind.mpr (ensures_ensureConcurrency fun t ht => ?_)
    have hm : Moves s [] { s with concurrency := t } := (Move.register c ht).moves
    simp only [ensures_ite, ensures_bind, ensures_updateJobs, ensures_pure]
    refine ⟨fun _ => ?_, fun _ => hQ _ _ hid hm fun _ _ => rfl⟩
    refine hrekey (some c) { s with concurrency := t } rfl hm ?_ _ hid
    rintro k hk
    obtain rfl : c.key = k := by simpa using hk
    exact ht.find?

/-- The rows a loop still has to visit: as selected, one for each id. -/
structure Pending (status : JobStatus) (rows : List JobRow) (jobs : Jobs) : Prop where
  find : ∀ row ∈ rows, jobs.find? row.id = some row
  status : ∀ row ∈ rows, row.status = status
  nodup : (rows.map JobRow.id).Nodup

theorem pending_select {status : JobStatus} {jobs : Jobs} (dbOrder : String → ℕ) :
    Pending status ((jobs.select fun row => row.status = status).insertionSort
      fun a b => dbOrder a.id ≤ dbOrder b.id) jobs where
  find row hrow := Table.find?_of_mem (Table.mem_select.mp ((mem_insertionSort _).mp hrow)).1
  status row hrow := by
    simpa using (Table.mem_select.mp ((mem_insertionSort _).mp hrow)).2
  nodup := by
    refine ((perm_insertionSort _ _).map JobRow.id).nodup_iff.mpr ?_
    exact jobs.keys_nodup.sublist (filter_sublist.map _)

theorem Pending.tail {status : JobStatus} {row : JobRow} {rows : List JobRow} {jobs jobs' : Jobs}
    (h : Pending status (row :: rows) jobs)
    (hjobs : ∀ id, id ≠ row.id → jobs'.find? id = jobs.find? id) : Pending status rows jobs' where
  find r hr := by
    have hne : r.id ≠ row.id := fun he =>
      (nodup_cons.mp h.nodup).1 (he ▸ mem_map_of_mem hr)
    rw [hjobs _ hne]
    exact h.find r (mem_cons_of_mem _ hr)
  status r hr := h.status r (mem_cons_of_mem _ hr)
  nodup := (nodup_cons.mp h.nodup).2

variable {queues : Queues}

theorem reconcileQueuedRows_moves (rows : List JobRow) : ∀ {s : Db}, Pending .queued rows s.jobs →
      Ensures (reconcileQueuedRows queues rows) s fun _ s' => Moves s [] s' := by
  induction rows with
  | nil => exact fun _ => ensures_pure.mpr .nil
  | cons row rows ih =>
    intro s hp
    refine ensures_bind.mpr (ensures_lift.mpr fun job hjob => ensures_bind.mpr ?_)
    obtain ⟨mode, queue, rfl⟩ := normalizeRow_ok hjob
    refine ensures_reconcileQueuedJobConcurrency (hp.find row (by simp)) (hp.status row (by simp))
      rfl fun _ s' _ hm hother => ?_
    exact (ih (hp.tail hother)).mono fun _ s'' hm' => hm.trans hm'

theorem reconcileQueueConcurrency_moves {s : Db} {dbOrder : String → ℕ} :
    Ensures (reconcileQueueConcurrency queues dbOrder) s fun _ s' => Moves s [] s' := by
  simp only [reconcileQueueConcurrency, selectJobs, rebuildConcurrencyCounts, ensures_bind,
    ensures_get, ensures_pure, ensures_modify]
  exact (reconcileQueuedRows_moves _ (pending_select dbOrder)).mono fun _ s' hm =>
    hm.trans Move.recount.moves

theorem recoverRows_moves {stack : String} {now : String → ℤ} (rows : List JobRow) :
    ∀ {s : Db}, Pending .handedOff rows s.jobs →
      Ensures (recoverRows queues stack now rows) s fun jobs s' =>
        (∀ job ∈ jobs, job.id ∈ rows.map JobRow.id) ∧
        Moves s (jobs.map fun job => .ended job.id (leaseOf s.jobs job.id)) s' := by
  induction rows with
  | nil => exact fun _ => ensures_pure.mpr ⟨by simp, .nil⟩
  | cons row rows ih =>
    intro s hp
    refine ensures_bind.mpr (ensures_lift.mpr fun job hjob => ensures_bind.mpr ?_)
    obtain ⟨mode, queue, rfl⟩ := normalizeRow_ok hjob
    have h := hp.find row (by simp)
    refine ensures_applyFailure h ?_ fun hs => ?_
    · refine (ih (hp.tail fun _ _ => rfl)).mono fun jobs s' ⟨hids, hm⟩ => ⟨fun job hj => ?_, hm⟩
      exact mem_cons_of_mem _ (hids job hj)
    · have hleave := leave_moves (failedRow_id row (recoveryError stack) (now row.id)) h hs
        (.failed _ _)
      -- the rest of the loop, from the state after this job
      have hrest : ∀ (job : JobRow) (s' : Db), job.id = row.id →
          Moves s [.ended row.id (leaseOf s.jobs row.id)] s' →
          (∀ id, id ≠ row.id → s'.jobs.find? id = s.jobs.find? id) →
          Ensures (do return job :: (← recoverRows queues stack now rows)) s' fun jobs s'' =>
            (∀ job ∈ jobs, job.id ∈ (row :: rows).map JobRow.id) ∧
            Moves s (jobs.map fun job => .ended job.id (leaseOf s.jobs job.id)) s'' := by
        intro job s' hid hm hother
        refine ensures_bind.mpr ((ih (hp.tail hother)).mono fun jobs s'' ⟨hids, hm'⟩ =>
          ensures_pure.mpr ⟨?_, ?_⟩)
        · rintro job' (_ | ⟨_, hj⟩)
          · simp [hid]
          · exact mem_cons_of_mem _ (hids job' hj)
        · have hlater : (jobs.map fun job => Event.ended job.id (leaseOf s.jobs job.id)) =
              jobs.map fun job => .ended job.id (leaseOf s'.jobs job.id) := by
            refine map_congr_left fun job' hj => ?_
            have hne : job'.id ≠ row.id := fun he =>
              (nodup_cons.mp hp.nodup).1 (he ▸ hids job' hj)
            simp [leaseOf, hother _ hne]
          rw [map_cons, hid, hlater]
          exact hm.trans hm'
      have hother : ∀ id, id ≠ row.id → (s.jobs.modify row.id
          (failedRow row (recoveryError stack) (now row.id)) (failedRow_id _ _ _)).find? id =
          s.jobs.find? id := fun id hne => by rw [Table.find?_modify, if_neg hne]
      refine ensures_ite.mpr ⟨fun hq => ensures_bind.mpr ?_, fun _ => ?_⟩
      · refine @ensures_reconcileQueuedJobConcurrency _ queues
          (failedRow row (recoveryError stack) (now row.id) row) _ _ ?_ hq rfl
          fun job s' hid hm hother' => ?_
        · rw [failedRow_id, Table.find?_modify, if_pos rfl, h]
          rfl
        · refine hrest job s' hid (by simpa using hleave.trans hm) fun id hne => ?_
          rw [hother' id hne]
          exact hother id hne
      · exact hrest _ _ rfl hleave hother

theorem recoverHandedOffJobs_moves {s : Db} {stack : String} {now : String → ℤ}
    {dbOrder : String → ℕ} :
    Ensures (recoverHandedOffJobs queues stack now dbOrder) s fun jobs s' =>
      Moves s (jobs.map fun job => .ended job.id (leaseOf s.jobs job.id)) s' := by
  simp only [recoverHandedOffJobs, selectJobs, rebuildConcurrencyCounts, ensures_bind,
    ensures_get, ensures_pure]
  refine (recoverRows_moves _ (pending_select dbOrder)).mono fun jobs s' h => ?_
  simpa using h.2.trans Move.recount.moves

/-- The events of a call that answered, as its answer and the rows before and
    after it tell them. -/
def Tx.events (tx : Tx) (s : Db) (answer : Answer) (s' : Db) : List Event :=
  match tx, answer with
  | .enqueue _ _, .enqueued jobId =>
    if s.jobs.find? jobId = none ∧ s'.jobs.find? jobId ≠ none then [.inserted jobId] else []
  | .markHandedOff jobId _ _ _ _, .handoff handoff =>
    handoff.toList.map fun handoff => .granted jobId handoff.handoffId
  -- a return to the queue answers nothing: it is accepted when the named lease is held
  | .markReturnedToQueue jobId handoffId _, .done =>
    if leaseOf s.jobs jobId = some handoffId ∧ handoffId ≠ "" then
      [.ended jobId (leaseOf s.jobs jobId)] else []
  | .markCompleted jobId _ _, .accepted true => [.ended jobId (leaseOf s.jobs jobId)]
  | .markRescheduled jobId _ _ _, .accepted true => [.ended jobId (leaseOf s.jobs jobId)]
  | .markFailed jobId _ _ _, .failed (some _) => [.ended jobId (leaseOf s.jobs jobId)]
  | .recoverHandedOffJobs _ _ _ _, .recovered jobs =>
    jobs.map fun job => .ended job.id (leaseOf s.jobs job.id)
  | .clearAll, .done => [.deleted]
  | _, _ => []

section
variable (sha256 : String → String)

theorem body_moves (tx : Tx) (s : Db) :
    Ensures (tx.body sha256) s fun answer s' => Moves s (tx.events s answer s') s' := by
  cases tx with
  | enqueue => exact ensures_map.mpr (enqueue_moves sha256)
  | markHandedOff => exact ensures_map.mpr markHandedOff_moves
  | markReturnedToQueue => exact ensures_map.mpr markReturnedToQueue_moves
  | markCompleted =>
    refine ensures_map.mpr (markCompleted_moves.mono fun accepted s' hm => ?_)
    cases accepted <;> exact hm
  | markRescheduled =>
    refine ensures_map.mpr (markRescheduled_moves.mono fun accepted s' hm => ?_)
    cases accepted <;> exact hm
  | markFailed =>
    refine ensures_map.mpr (markFailed_moves.mono fun job s' hm => ?_)
    cases job <;> exact hm
  | recoverHandedOffJobs => exact ensures_map.mpr recoverHandedOffJobs_moves
  | reconcileQueueConcurrency => exact ensures_map.mpr reconcileQueueConcurrency_moves
  | clearAll => exact ensures_map.mpr (ensures_set.mpr Move.clear.moves)

/-- The events of a call; a failed call has none. -/
def Tx.eventsOf (tx : Tx) (s : Db) : List Event :=
  match tx.exec sha256 s with
  | (.ok answer, s') => tx.events s answer s'
  | (.error _, _) => []

/-- **The outcome of a call** is the one its events tell. -/
theorem exec_moves (tx : Tx) (s : Db) : Moves s (tx.eventsOf sha256 s) (tx.exec sha256 s).2 := by
  unfold Tx.eventsOf Tx.exec
  rcases (body_moves sha256 tx s).commit with ⟨e, he⟩ | ⟨answer, s', hc, hm⟩
  · rw [he]
    exact .nil
  · rw [hc]
    exact hm

def runEvents (s : Db) : List Tx → List Event
  | [] => []
  | tx :: txs => tx.eventsOf sha256 s ++ runEvents (tx.exec sha256 s).2 txs

theorem run_moves (txs : List Tx) : ∀ s : Db,
    Moves s (runEvents sha256 s txs) (run sha256 s txs) := by
  induction txs with
  | nil => exact fun s => .nil
  | cons tx txs ih => exact fun s => (exec_moves sha256 tx s).trans (ih _)

end

end Velocious.LocalStore
