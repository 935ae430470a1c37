/-
  The transactions of the SQL background-jobs store
  (src/background-jobs/store.js), each as one `StoreM` body.

  Clock readings, generated ids, the queue configuration and the order in which
  the database lists rows are arguments. A request is validated before its
  transaction starts; `Tx` names one call of one operation with all it depends
  on, `Tx.exec` runs it atomically, and `run` runs a list of calls.
-/
import Velocious.BackgroundJobs.Store.Statements

namespace Velocious

open Foundation

/-! ## Enqueue -/

/-- A validated enqueue. -/
structure PreparedBackgroundJob where
  argsJson : String
  concurrency : Option Concurrency
  createdAtMs : ℤ
  executionMode : ExecutionMode
  jobId : String
  jobName : String
  maxRetries : ℕ
  queue : String
  scheduledAtMs : ℤ
  timeoutMs : Option ℤ

def prepareJob (input : EnqueueInput) : Except VelociousError PreparedBackgroundJob := do
  let queue := normalizeBackgroundJobQueue input.options
  let concurrency ← normalizeBackgroundJobConcurrency input.options queue input.queues
  let executionMode ←
    normalizeBackgroundJobExecutionMode input.options .pooled backgroundJobExecutionModes
  let scheduledAtMs ←
    normalizeBackgroundJobScheduledAtMs input.options.scheduledAtMs input.createdAtMs
  let timeoutMs ← normalizeJobTimeoutMs input.options
  return {
    argsJson := (Json.arr input.args).stringify
    concurrency
    createdAtMs := input.createdAtMs
    executionMode
    jobId := input.jobId
    jobName := input.jobName
    maxRetries := normalizeBackgroundJobMaxRetries input.options.maxRetries
    queue
    scheduledAtMs
    timeoutMs }

/-- The row of a prepared job. -/
def PreparedBackgroundJob.row (preparedJob : PreparedBackgroundJob) (scheduleKey : Option Key) :
    JobRow where
  id := preparedJob.jobId
  jobName := preparedJob.jobName
  argsJson := preparedJob.argsJson
  executionMode := preparedJob.executionMode
  queue := preparedJob.queue
  maxRetries := preparedJob.maxRetries
  attempts := 0
  status := .queued
  scheduledAtMs := preparedJob.scheduledAtMs
  createdAtMs := preparedJob.createdAtMs
  scheduleKey := scheduleKey
  concurrencyKey := preparedJob.concurrency.map Concurrency.key
  maxConcurrency := preparedJob.concurrency.map Concurrency.maxConcurrency
  timeoutMs := preparedJob.timeoutMs
  handoffId := none

/-- The registration of a contract, before the job that carries it is inserted. -/
def ensureConcurrency (concurrency : Option Concurrency) : StoreM PUnit :=
  match concurrency with
  | none => pure ⟨⟩
  | some concurrency =>
    if concurrency.queueDerived then ensureQueueConcurrencyKey concurrency
    else ensureConcurrencyKey concurrency

def insertPreparedJob (preparedJob : PreparedBackgroundJob) (scheduleKey : Option Key) :
    StoreM PUnit := do
  ensureConcurrency preparedJob.concurrency
  insertJob (preparedJob.row scheduleKey)

/-- `{all: 1, queued: 1}`. -/
def enqueuedDeltas : CountDeltas := Bucket.all.amount 1 + Bucket.queued.amount 1

/-- The queued job a deduplicated enqueue is covered by: the earliest of the
    same name, arguments and queue scheduled no later. -/
def coveringJob (dbOrder : String → ℕ) (deduplicateWhileQueued : Bool)
    (preparedJob : PreparedBackgroundJob) : StoreM (Option JobRow) := do
  if !deduplicateWhileQueued then return none
  let rows ← selectJobs dbOrder fun row =>
    row.status = .queued && row.jobName = preparedJob.jobName
      && row.argsJson = preparedJob.argsJson && row.queue = preparedJob.queue
      && row.scheduledAtMs ≤ preparedJob.scheduledAtMs
  return (rows.insertionSort fun a b => a.scheduledAtMs ≤ b.scheduledAtMs).head?

/-- The transaction of an enqueue without an idempotency key. -/
def enqueue (dbOrder : String → ℕ) (deduplicateWhileQueued : Bool)
    (preparedJob : PreparedBackgroundJob) : StoreM String :=
  serializedCountMutation do
    match ← coveringJob dbOrder deduplicateWhileQueued preparedJob with
    | some existing => return existing.id
    | none =>
      insertPreparedJob preparedJob none
      recordCountDelta enqueuedDeltas
      return preparedJob.jobId

def cancelledRow (row : JobRow) : JobRow := { row with status := .cancelled }

@[simp] theorem cancelledRow_id (row : JobRow) : (cancelledRow row).id = row.id := rfl

/-! ## Schedule keys -/

def normalizeScheduleKey (scheduleKey : String) : Except VelociousError Key :=
  if h : scheduleKey ≠ "" ∧ jsLength scheduleKey ≤ 255 then pure ⟨scheduleKey, h.1⟩
  else throw ⟨"background job scheduleKey must be a non-empty string of at most 255 characters",
    none⟩

/-- `BackgroundJobReplacementResult`. -/
structure ReplacementResult where
  jobId : String
  previousJobId : Option String
  previousStatus : Option JobStatus
  deriving DecidableEq

/-- The queued owner cancelled, or the handed-off owner left running. -/
def replaceOwner (ownerJob : Option JobRow) : StoreM (Option (String × JobStatus)) := do
  match ownerJob with
  | none => return none
  | some ownerJob =>
    match ownerJob.status with
    | .queued =>
      let affectedRows ← updateJobs (fun row => row.id = ownerJob.id && row.status = .queued)
        cancelledRow cancelledRow_id
      if affectedRows = 1 then return some (ownerJob.id, .queued)
      match ← getJobRowById ownerJob.id with
      | some current => return if current.status = .handedOff then some (current.id, .handedOff) else none
      | none => return none
    | .handedOff => return some (ownerJob.id, .handedOff)
    | _ => return none

def scheduleOwner (scheduleKey : Key) : StoreM (Option String) := do
  return ((← get).scheduleKeys.find? scheduleKey).map ScheduleKeyRow.jobId

def scheduleOwnerJob (scheduleKey : Key) : StoreM (Option JobRow) := do
  match ← scheduleOwner scheduleKey with
  | some jobId => getJobRowById jobId
  | none => return none

def replaceScheduled (scheduleKey : Key) (preparedJob : PreparedBackgroundJob) :
    StoreM ReplacementResult :=
  serializedCountMutation do
    let ownerJob ← scheduleOwnerJob scheduleKey
    let previous ← replaceOwner ownerJob
    insertPreparedJob preparedJob (some scheduleKey)
    upsertScheduleKey scheduleKey preparedJob.jobId
    if previous.map Prod.snd ≠ some .queued then recordCountDelta enqueuedDeltas
    return ⟨preparedJob.jobId, previous.map Prod.fst, previous.map Prod.snd⟩

/-- What a cancellation answers. -/
inductive CancellationOutcome where
  | cancelled | handedOff | notFound
  deriving DecidableEq, Repr

/-- `BackgroundJobCancellationResult`. -/
structure CancellationResult where
  jobId : Option String
  outcome : CancellationOutcome
  deriving DecidableEq

/-- The owner given up without being cancelled. -/
def detachOwner (jobId : String) (scheduleKey : Key) : StoreM CancellationResult := do
  let currentJob ← getJobRowById jobId
  releaseScheduleOwnership jobId scheduleKey
  if currentJob.map JobRow.status = some .handedOff then return ⟨some jobId, .handedOff⟩
  return ⟨none, .notFound⟩

/-- The transaction of `cancelScheduled`. -/
def cancelScheduled (scheduleKey : Key) : StoreM CancellationResult :=
  serializedCountMutation do
    match ← scheduleOwner scheduleKey with
    | none => return ⟨none, .notFound⟩
    | some jobId =>
      let job ← getJobRowById jobId
      if job.map JobRow.status = some .queued then
        let affectedRows ← updateJobs (fun row => row.id = jobId && row.status = .queued)
          cancelledRow cancelledRow_id
        if affectedRows = 1 then
          releaseScheduleOwnership jobId scheduleKey
          recordStatusTransition .queued .cancelled
          return ⟨some jobId, .cancelled⟩
        else detachOwner jobId scheduleKey
      else detachOwner jobId scheduleKey

/-! ## Handoffs -/

/-- `BackgroundJobHandoff`. -/
structure Handoff where
  handoffId : String
  handedOffAtMs : ℤ
  deriving DecidableEq, Repr

def handedOffRow (handoffId : String) (workerId : Option String) (handedOffAtMs : ℤ)
    (row : JobRow) : JobRow :=
  { row with
    status := .handedOff
    handedOffAtMs := some handedOffAtMs
    handoffId := some handoffId
    workerId := workerId }

@[simp] theorem handedOffRow_id (handoffId : String) (workerId : Option String)
    (handedOffAtMs : ℤ) (row : JobRow) :
    (handedOffRow handoffId workerId handedOffAtMs row).id = row.id := rfl

/-- A slot for a job; a job without a key needs none. -/
def reserveJobConcurrency (key : Option Key) : StoreM Bool :=
  match key with
  | none => pure true
  | some key => reserveConcurrency key

/-- The transaction of `markHandedOff`. -/
def markHandedOff (jobId handoffId : String) (workerId : Option String) (handedOffAtMs : ℤ) :
    StoreM (Option Handoff) :=
  serializedCountMutation do
    match ← getJobRowById jobId with
    | none => return none
    | some queuedJob =>
      if queuedJob.status ≠ .queued then return none
      if !(← reserveJobConcurrency queuedJob.concurrencyKey) then return none
      let affectedRows ← updateJobs (fun row => row.id = jobId && row.status = .queued)
        (handedOffRow handoffId (orNull workerId) handedOffAtMs) (handedOffRow_id _ _ _)
      if affectedRows ≠ 1 then
        releaseConcurrency queuedJob.concurrencyKey
        return none
      recordStatusTransition .queued .handedOff
      return some ⟨handoffId, handedOffAtMs⟩

/-- What a report names besides the job: the lease it was given. -/
structure Report where
  handoffId : Option String := none
  workerId : Option String := none
  handedOffAtMs : Option JsNumber := none
  deriving DecidableEq, Repr

def handoffIdReportMatches (job : JobRow) (report : Report) : Bool :=
  match orNull job.handoffId with
  | none => true
  | some handoffId => report.handoffId = some handoffId

def workerReportMatches (job : JobRow) (report : Report) : Bool :=
  match orNull report.workerId, orNull job.workerId with
  | some workerId, some jobWorkerId => workerId = jobWorkerId
  | _, _ => true

def handoffReportMatches (job : JobRow) (report : Report) : Bool :=
  match report.handedOffAtMs, job.handedOffAtMs with
  | none, _ | some (.int 0), _ | some .nan, _ | _, none | _, some 0 => true
  | some reported, some handedOffAtMs => reported = .int handedOffAtMs

def shouldAcceptReport (job : JobRow) (report : Report) : Bool :=
  job.status = .handedOff && handoffIdReportMatches job report
    && workerReportMatches job report && handoffReportMatches job report

def activeHandoffConditions (job : JobRow) (row : JobRow) : Bool :=
  row.id = job.id && (row.status = .handedOff && sqlEq row.handoffId job.handoffId)

def completedRow (now : ℤ) (row : JobRow) : JobRow :=
  { row with
    status := .completed
    completedAtMs := some now }

@[simp] theorem completedRow_id (now : ℤ) (row : JobRow) : (completedRow now row).id = row.id := rfl

/-- The transaction of `markCompleted`. -/
def markCompleted (jobId : String) (report : Report) (now : ℤ) : StoreM Bool :=
  serializedCountMutation do
    match ← getJobRowById jobId with
    | none => return false
    | some job =>
      if !shouldAcceptReport job report then return false
      lockConcurrencyRow job.concurrencyKey
      let affectedRows ← updateJobs (activeHandoffConditions job) (completedRow now)
        (completedRow_id now)
      if affectedRows ≠ 1 then return false
      releaseScheduleOwnershipForJob job
      releaseConcurrency job.concurrencyKey
      recordStatusTransition .handedOff .completed
      return true

/-- A row put back on the queue without its lease. -/
def requeuedRow (scheduledAtMs : ℤ) (row : JobRow) : JobRow :=
  { row with
    status := .queued
    scheduledAtMs := scheduledAtMs
    handedOffAtMs := none
    handoffId := none
    workerId := none }

@[simp] theorem requeuedRow_id (scheduledAtMs : ℤ) (row : JobRow) :
    (requeuedRow scheduledAtMs row).id = row.id := rfl

/-- The transaction of `markRescheduled`. -/
def markRescheduled (jobId : String) (delayMs : JsNumber) (report : Report) (now : ℤ) :
    StoreM Bool :=
  serializedCountMutation do
    match ← getJobRowById jobId with
    | none => return false
    | some job =>
      if !shouldAcceptReport job report then return false
      lockConcurrencyRow job.concurrencyKey
      match rescheduledBackgroundJobAtMs delayMs now with
      | .error error => throw error
      | .ok scheduledAtMs =>
        let affectedRows ← updateJobs (activeHandoffConditions job) (requeuedRow scheduledAtMs)
          (requeuedRow_id scheduledAtMs)
        if affectedRows ≠ 1 then return false
        releaseConcurrency job.concurrencyKey
        recordStatusTransition .handedOff .queued
        return true

/-- The transaction of `markReturnedToQueue`. -/
def markReturnedToQueue (jobId handoffId : String) (now : ℤ) : StoreM PUnit :=
  serializedCountMutation do
    match ← getJobRowById jobId with
    | none => return
    | some job =>
      if job.handoffId ≠ some handoffId || job.status ≠ .handedOff then return
      lockConcurrencyRow job.concurrencyKey
      let affectedRows ← updateJobs
        (fun row => row.id = jobId && (row.status = .handedOff && sqlEq row.handoffId (some handoffId)))
        (requeuedRow now) (requeuedRow_id now)
      if affectedRows = 1 then
        releaseConcurrency job.concurrencyKey
        recordStatusTransition .handedOff .queued

/-! ## Failures -/

def failureStatus (markOrphaned shouldRetry : Bool) : JobStatus :=
  if shouldRetry then .queued else if markOrphaned then .orphaned else .failed

/-- `_failureUpdate`, applied to a row. -/
def failureUpdate (failureMessage : String) (markOrphaned : Bool) (nextAttempt : ℕ) (now : ℤ)
    (scheduledAt : ℤ) (shouldRetry : Bool) (row : JobRow) : JobRow :=
  { row with
    attempts := nextAttempt
    handedOffAtMs := none
    workerId := none
    lastError := some failureMessage
    orphanedAtMs := if markOrphaned then some now else row.orphanedAtMs
    status := failureStatus markOrphaned shouldRetry
    scheduledAtMs := if shouldRetry then scheduledAt else row.scheduledAtMs
    failedAtMs := if shouldRetry || markOrphaned then row.failedAtMs else some now }

/-- Whether the failure of a job at hand is retried. -/
def shouldRetry (job : JobRow) : Bool :=
  job.attempts + 1 ≤ normalizeBackgroundJobMaxRetries (some (.int job.maxRetries))

def failureOf (job : JobRow) (error : JobError) (markOrphaned : Bool) (now : ℤ) :
    JobRow → JobRow :=
  failureUpdate (normalizeBackgroundJobError error) markOrphaned (job.attempts + 1) now
    (if shouldRetry job then now + retryDelayMs (job.attempts + 1) else job.scheduledAtMs)
    (shouldRetry job)

@[simp] theorem failureOf_id (job : JobRow) (error : JobError) (markOrphaned : Bool) (now : ℤ)
    (row : JobRow) : (failureOf job error markOrphaned now row).id = row.id := rfl

/-- `_applyFailure`. The snapshot it returns sets on `job` the very fields the
    update sets on the row. -/
def applyFailure (job : JobRow) (error : JobError) (markOrphaned : Bool)
    (conditions : JobRow → Bool) (now : ℤ) : StoreM (Option JobRow) := do
  lockConcurrencyRow job.concurrencyKey
  let affectedRows ← updateJobs conditions (failureOf job error markOrphaned now)
    (failureOf_id job error markOrphaned now)
  if affectedRows ≠ 1 then return none
  if !shouldRetry job then releaseScheduleOwnershipForJob job
  releaseConcurrency job.concurrencyKey
  return some (failureOf job error markOrphaned now job)

/-- The transaction of `markFailed`. -/
def markFailed (jobId : String) (error : JobError) (report : Report) (now : ℤ) :
    StoreM (Option JobRow) :=
  serializedCountMutation do
    match ← getJobRowById jobId with
    | none => return none
    | some job =>
      if !shouldAcceptReport job report then return none
      let updatedJob ← applyFailure job error false (activeHandoffConditions job) now
      match updatedJob with
      | none => return none
      | some updatedJob =>
        recordStatusTransition job.status updatedJob.status
        return some updatedJob

/-- The lease pin of the orphan sweep: the row's handoff time. -/
def orphanConditions (job : JobRow) (row : JobRow) : Bool :=
  row.id = job.id && (row.status = .handedOff && sqlEq row.handedOffAtMs job.handedOffAtMs)

def orphanError : JobError := .text "Job orphaned after timeout"

/-- The sweep's loop over the rows it selected; `now` is the clock at each job. -/
def orphanRows (now : String → ℤ) : List JobRow → StoreM (List JobRow)
  | [] => return []
  | row :: rows => do
    let job := normalizeJobRow row
    let orphanedJob ← applyFailure job orphanError true (orphanConditions job) (now job.id)
    let orphanedJobs ← orphanRows now rows
    return orphanedJob.toList ++ orphanedJobs

/-- The sweep's deltas: every job left `handed_off` for its new status. -/
def orphanDeltas (orphanedJobs : List JobRow) : CountDeltas :=
  (orphanedJobs.map fun job =>
    Bucket.handedOff.amount (-1) + job.status.bucket?.elim 0 fun b => b.amount 1).sum

def markOrphanedJobs (orphanedAfterMs sweepNow : ℤ) (now : String → ℤ) (dbOrder : String → ℕ) :
    StoreM (List JobRow) :=
  serializedCountMutation do
    let cutoff := sweepNow - orphanedAfterMs
    let rows ← selectJobs dbOrder fun row =>
      row.status = .handedOff && row.handedOffAtMs.any (· ≤ cutoff)
    let orphanedJobs ← orphanRows now rows
    recordCountDelta (orphanDeltas orphanedJobs)
    return orphanedJobs

/-! ## Retention and clearing -/

/-- The statuses `pruneTerminalJobs` deletes. -/
inductive PrunedStatus where
  | completed | failed | orphaned
  deriving DecidableEq, Repr

def PrunedStatus.status : PrunedStatus → JobStatus
  | completed => .completed
  | failed => .failed
  | orphaned => .orphaned

/-- The timestamp column compared with the cutoff. -/
def PrunedStatus.column : PrunedStatus → JobRow → Option ℤ
  | completed => JobRow.completedAtMs
  | failed => JobRow.failedAtMs
  | orphaned => JobRow.orphanedAtMs

/-- One batch of `_pruneStatusBatches`. -/
def pruneStatusBatch (status : PrunedStatus) (cutoff : ℤ) (batchSize : ℕ)
    (dbOrder : String → ℕ) : StoreM ℕ :=
  serializedCountMutation do
    let rows ← selectJobs dbOrder fun row =>
      row.status = status.status && (status.column row).any (· ≤ cutoff)
    let ids := (rows.take batchSize).map JobRow.id
    if ids = [] then return 0
    let removed ← deleteJobs fun row => row.id ∈ ids
    recordCountDelta (Bucket.all.amount (-removed) +
      status.status.bucket?.elim 0 fun b => b.amount (-removed))
    return removed

def Bucket.counts (b : Bucket) (status : JobStatus) : Bool :=
  status.bucket? = some b || (b = .all && status.bucket?.isSome)

def jobCounts (jobs : Jobs) : CountDeltas := fun b => jobs.count fun row => b.counts row.status

/-- `countSnapshot`'s result. -/
structure CountSnapshot where
  counts : CountDeltas
  revision : ℤ
  total : ℕ

def countSnapshotOnLockedConnection : StoreM CountSnapshot := do
  let db ← get
  let revision ← countRevision
  return ⟨jobCounts db.jobs, revision, db.jobs.count fun _ => true⟩

def countSnapshot : StoreM CountSnapshot := serializedCountMutation countSnapshotOnLockedConnection

def clearAll : StoreM PUnit :=
  serializedCountMutation do
    let snapshot ← countSnapshotOnLockedConnection
    modify fun db => { db with
      mailOperations := .empty
      idempotencyKeys := .empty
      scheduleKeys := .empty
      jobs := .empty
      concurrency := .empty }
    recordCountDelta (-snapshot.counts)

/-- The transaction of `cancel`. -/
def cancel (jobId : String) : StoreM Bool :=
  serializedCountMutation do
    match ← getJobRowById jobId with
    | none => return false
    | some job =>
      if job.status ≠ .queued && job.status ≠ .handedOff then return false
      if job.status = .handedOff then lockConcurrencyRow job.concurrencyKey
      let affectedRows ← updateJobs (fun row => row.id = job.id && row.status = job.status)
        cancelledRow cancelledRow_id
      if affectedRows ≠ 1 then return false
      releaseScheduleOwnershipForJob job
      if job.status = .handedOff then releaseConcurrency job.concurrencyKey
      recordStatusTransition job.status .cancelled
      return true

end Velocious
