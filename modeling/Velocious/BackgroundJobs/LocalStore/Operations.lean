/-
  The local (SQLite) background-jobs store
  (src/background-jobs/local-store.js): its tables, its statements, its
  transactions, and runs of them.

  Clock readings, generated ids, the queue configuration and the order in which
  the database lists rows are arguments. `Tx` names one call of one operation
  with all it depends on, `Tx.exec` runs it atomically, and `run` runs a list
  of calls.
-/
import Velocious.Foundation.Transaction
import Velocious.BackgroundJobs.Counters
import Velocious.BackgroundJobs.Lifecycle

namespace Velocious.LocalStore

open Foundation

/-- A row of `velocious_local_background_jobs`. `argsJson` is the text of an
    array, so that parsing it back succeeds. -/
structure JobRow where
  id : String
  jobName : String
  argsJson : String
  argsDigest : String
  executionMode : ExecutionMode
  queue : String
  maxRetries : ℕ
  attempts : ℕ
  status : JobStatus
  scheduledAtMs : ℤ
  createdAtMs : ℤ
  concurrencyKey : Option Key
  maxConcurrency : Option ℤ
  handedOffAtMs : Option ℤ := none
  handoffId : Option String := none
  workerId : Option String := none
  completedAtMs : Option ℤ := none
  failedAtMs : Option ℤ := none
  lastError : Option String := none
  deriving DecidableEq

abbrev Jobs := Table JobRow JobRow.id

/-- The tables of the local store. -/
structure Db where
  jobs : Jobs
  concurrency : ConcurrencyTable
  deriving DecidableEq

def Db.empty : Db := ⟨.empty, .empty⟩

/-- The body of a mutation. -/
abbrev LocalM := Txn Db VelociousError

/-! ## Statements -/

def localExecutionModes : List ExecutionMode := [.inline]

def normalizeRow (row : JobRow) : Except VelociousError JobRow := do
  let executionMode ← normalizeBackgroundJobExecutionMode
    { executionMode := some row.executionMode.name } .inline localExecutionModes
  if executionMode ≠ .inline then
    throw ⟨"Local background job execution mode invariant was violated", none⟩
  return { row with
    executionMode
    queue := if row.queue = "" then defaultQueue else row.queue }

def getJob (jobId : String) : LocalM (Option JobRow) := do
  match (← get).jobs.find? jobId with
  | none => return none
  | some row => return some (← normalizeRow row)

/-- The rows matching `p`, in the order the database lists them. -/
def selectJobs (dbOrder : String → ℕ) (p : JobRow → Bool) : LocalM (List JobRow) := do
  return ((← get).jobs.select p).insertionSort fun a b => dbOrder a.id ≤ dbOrder b.id

def updateJobs (p : JobRow → Bool) (f : JobRow → JobRow) (hf : ∀ row, (f row).id = row.id) :
    LocalM ℕ := do
  let db ← get
  set { db with jobs := db.jobs.update p f hf }
  return db.jobs.count p

def insertJob (row : JobRow) : LocalM PUnit := do
  let db ← get
  match db.jobs.insert? row with
  | some jobs => set { db with jobs }
  | none => throw (uniqueViolation "velocious_local_background_jobs.id")

def ensureConcurrency (concurrency : Concurrency) : LocalM PUnit := do
  -- a conflicting row has its key written back
  modify fun db => { db with
    concurrency := db.concurrency.upsert ⟨concurrency.key, concurrency.maxConcurrency, 0⟩
      fun row => { row with concurrencyKey := row.concurrencyKey } }
  match (← get).concurrency.find? concurrency.key with
  | none => throw ⟨"Cannot read properties of undefined (reading 'max_concurrency')", none⟩
  | some existingRow =>
    if existingRow.maxConcurrency = concurrency.maxConcurrency then return
    if !concurrency.queueDerived then
      throw ⟨"Conflicting maxConcurrency for background job concurrencyKey: " ++
        concurrency.concurrencyKey, none⟩
    modify fun db => { db with
      concurrency := db.concurrency.modify concurrency.key (capRow concurrency.maxConcurrency)
        (capRow_key _) }

/-- `_reserveConcurrency`; a job without a key needs no slot. -/
def reserveConcurrency (key : Option Key) : LocalM Bool := do
  match key with
  | none => return true
  | some key =>
    let db ← get
    set { db with
      concurrency := db.concurrency.update
        (fun row => row.concurrencyKey = key && row.activeCount < row.maxConcurrency) reserveRow
        reserveRow_key }
    return db.concurrency.count
      (fun row => row.concurrencyKey = key && row.activeCount < row.maxConcurrency) = 1

def releaseConcurrency (key : Option Key) : LocalM PUnit :=
  modify fun db => { db with concurrency := released db.concurrency key }

/-- `_lockConcurrencyRow`: writes back the count it finds. -/
def lockConcurrencyRow (key : Option Key) : LocalM PUnit := do
  match key with
  | none => pure ⟨⟩
  | some key =>
    modify fun db => { db with
      concurrency := db.concurrency.modify key fun row =>
        { row with activeCount := row.activeCount } }

def recountRow (jobs : Jobs) (row : ConcurrencyRow) : ConcurrencyRow :=
  { row with
    activeCount := jobs.count fun job =>
      job.status = .handedOff && job.concurrencyKey = some row.concurrencyKey }

@[simp] theorem recountRow_key (jobs : Jobs) (row : ConcurrencyRow) :
    (recountRow jobs row).concurrencyKey = row.concurrencyKey := rfl

def rebuildConcurrencyCounts : LocalM PUnit :=
  modify fun db => { db with
    concurrency := db.concurrency.update (fun _ => true) (recountRow db.jobs)
      (recountRow_key db.jobs) }

/-- `PreparedLocalBackgroundJob`. -/
structure PreparedJob where
  argsDigest : String
  argsJson : String
  concurrency : Option Concurrency
  createdAtMs : ℤ
  executionMode : ExecutionMode
  jobId : String
  jobName : String
  maxRetries : ℕ
  queue : String
  scheduledAtMs : ℤ

section
variable (sha256 : String → String)

def prepareJob (input : EnqueueInput) : Except VelociousError PreparedJob := do
  if input.options.idempotencyKey.isSome then
    throw ⟨"idempotencyKey is not supported by the local background-jobs adapter", none⟩
  let queue := normalizeBackgroundJobQueue input.options
  let argsJson := (Json.arr input.args).stringify
  let executionMode ← normalizeBackgroundJobExecutionMode input.options .inline localExecutionModes
  if executionMode ≠ .inline then
    throw ⟨"Local background job execution mode invariant was violated", none⟩
  let concurrency ← normalizeBackgroundJobConcurrency input.options queue input.queues
  let scheduledAtMs ←
    normalizeBackgroundJobScheduledAtMs input.options.scheduledAtMs input.createdAtMs
  return {
    argsDigest := sha256 argsJson
    argsJson
    concurrency
    createdAtMs := input.createdAtMs
    executionMode
    jobId := input.jobId
    jobName := input.jobName
    maxRetries := normalizeBackgroundJobMaxRetries input.options.maxRetries
    queue
    scheduledAtMs }

/-- The row of a prepared job. -/
def PreparedJob.row (preparedJob : PreparedJob) : JobRow where
  id := preparedJob.jobId
  jobName := preparedJob.jobName
  argsJson := preparedJob.argsJson
  argsDigest := preparedJob.argsDigest
  executionMode := preparedJob.executionMode
  queue := preparedJob.queue
  maxRetries := preparedJob.maxRetries
  attempts := 0
  status := .queued
  scheduledAtMs := preparedJob.scheduledAtMs
  createdAtMs := preparedJob.createdAtMs
  concurrencyKey := preparedJob.concurrency.map Concurrency.key
  maxConcurrency := preparedJob.concurrency.map Concurrency.maxConcurrency

def coveringJob (dbOrder : String → ℕ) (deduplicateWhileQueued : Bool)
    (preparedJob : PreparedJob) : LocalM (Option JobRow) := do
  if !deduplicateWhileQueued then return none
  let rows ← selectJobs dbOrder fun row =>
    row.argsDigest = preparedJob.argsDigest && row.argsJson = preparedJob.argsJson
      && row.jobName = preparedJob.jobName && row.queue = preparedJob.queue
      && row.status = .queued && row.scheduledAtMs ≤ preparedJob.scheduledAtMs
  return (rows.insertionSort fun a b => a.scheduledAtMs < b.scheduledAtMs ∨
    (a.scheduledAtMs = b.scheduledAtMs ∧ a.createdAtMs ≤ b.createdAtMs)).head?

/-- The job an enqueue answers: the one that covers it, or its own, inserted. -/
def insertUnlessCovered (dbOrder : String → ℕ) (deduplicateWhileQueued : Bool)
    (preparedJob : PreparedJob) : LocalM String := do
  let existing ← coveringJob dbOrder deduplicateWhileQueued preparedJob
  let jobId := (existing.map JobRow.id).getD preparedJob.jobId
  if jobId = preparedJob.jobId then insertJob preparedJob.row
  return jobId

def enqueue (dbOrder : String → ℕ) (input : EnqueueInput) : LocalM String := do
  let preparedJob ← prepareJob sha256 input
  if let some concurrency := preparedJob.concurrency then ensureConcurrency concurrency
  insertUnlessCovered dbOrder input.options.deduplicateWhileQueued preparedJob

end

/-! ## Handoffs -/

/-- What a claim hands over. -/
structure Handoff where
  handoffId : String
  handedOffAtMs : ℤ
  deriving DecidableEq, Repr

def handedOffRow (handoffId workerId : String) (handedOffAtMs : ℤ) (row : JobRow) : JobRow :=
  { row with
    status := .handedOff
    handedOffAtMs := some handedOffAtMs
    handoffId := some handoffId
    workerId := some workerId }

@[simp] theorem handedOffRow_id (handoffId workerId : String) (handedOffAtMs : ℤ) (row : JobRow) :
    (handedOffRow handoffId workerId handedOffAtMs row).id = row.id := rfl

/-- `markHandedOff`; the clock is read for the schedule and for the handoff. -/
def markHandedOff (jobId handoffId : String) (workerId : Option String) (now handedOffAtMs : ℤ) :
    LocalM (Option Handoff) := do
  match ← getJob jobId with
  | none => return none
  | some job =>
    if job.status ≠ .queued || job.scheduledAtMs > now then return none
    if !(← reserveConcurrency job.concurrencyKey) then return none
    let affectedRows ← updateJobs (fun row => row.id = jobId && row.status = .queued)
      (handedOffRow handoffId ((orNull workerId).getD "local") handedOffAtMs)
      (handedOffRow_id _ _ _)
    if affectedRows ≠ 1 then
      releaseConcurrency job.concurrencyKey
      return none
    return some ⟨handoffId, handedOffAtMs⟩

def acceptsHandoff (job : JobRow) (handoffId : Option String) : Bool :=
  job.status = .handedOff && (orNull job.handoffId).isSome && job.handoffId = handoffId

/-- The fence of a report: the row still holds the lease. -/
def leaseConditions (jobId : String) (handoffId : Option String) (row : JobRow) : Bool :=
  row.id = jobId && (row.status = .handedOff && sqlEq row.handoffId handoffId)

/-- A row put back on the queue without its lease. -/
def requeuedRow (scheduledAtMs : ℤ) (row : JobRow) : JobRow :=
  { row with
    status := .queued
    scheduledAtMs := scheduledAtMs
    handedOffAtMs := none
    handoffId := none
    workerId := none }

@[simp] theorem requeuedRow_id (scheduledAtMs : ℤ) (row : JobRow) :
    (requeuedRow scheduledAtMs row).id = row.id := rfl

def markReturnedToQueue (jobId handoffId : String) (now : ℤ) : LocalM PUnit := do
  match ← getJob jobId with
  | none => return
  | some job =>
    if !acceptsHandoff job (some handoffId) then return
    lockConcurrencyRow job.concurrencyKey
    let affectedRows ← updateJobs (leaseConditions jobId (some handoffId)) (requeuedRow now)
      (requeuedRow_id now)
    if affectedRows = 1 then releaseConcurrency job.concurrencyKey

def completedRow (now : ℤ) (row : JobRow) : JobRow :=
  { row with
    status := .completed
    completedAtMs := some now }

@[simp] theorem completedRow_id (now : ℤ) (row : JobRow) : (completedRow now row).id = row.id := rfl

def markCompleted (jobId : String) (handoffId : Option String) (now : ℤ) : LocalM Bool := do
  match ← getJob jobId with
  | none => return false
  | some job =>
    if !acceptsHandoff job handoffId then return false
    lockConcurrencyRow job.concurrencyKey
    let affectedRows ← updateJobs (leaseConditions jobId handoffId) (completedRow now)
      (completedRow_id now)
    if affectedRows ≠ 1 then return false
    releaseConcurrency job.concurrencyKey
    return true

def markRescheduled (jobId : String) (handoffId : Option String) (delayMs : JsNumber) (now : ℤ) :
    LocalM Bool := do
  match ← getJob jobId with
  | none => return false
  | some job =>
    if !acceptsHandoff job handoffId then return false
    lockConcurrencyRow job.concurrencyKey
    let scheduledAtMs ← rescheduledBackgroundJobAtMs delayMs now
    let affectedRows ← updateJobs (leaseConditions jobId handoffId) (requeuedRow scheduledAtMs)
      (requeuedRow_id scheduledAtMs)
    if affectedRows ≠ 1 then return false
    releaseConcurrency job.concurrencyKey
    return true

/-- Whether the failure of a job at hand is retried. -/
def willRetry (job : JobRow) : Bool :=
  job.attempts + 1 ≤ normalizeBackgroundJobMaxRetries (some (.int job.maxRetries))

/-- What the failure of `job` at `now` does to its row. -/
def failedRow (job : JobRow) (error : JobError) (now : ℤ) (row : JobRow) : JobRow :=
  { row with
    attempts := job.attempts + 1
    handedOffAtMs := none
    handoffId := none
    lastError := some (normalizeBackgroundJobError error)
    status := if willRetry job then .queued else .failed
    workerId := none
    scheduledAtMs := if willRetry job then now + retryDelayMs (job.attempts + 1)
      else row.scheduledAtMs
    failedAtMs := if willRetry job then row.failedAtMs else some now }

@[simp] theorem failedRow_id (job : JobRow) (error : JobError) (now : ℤ) (row : JobRow) :
    (failedRow job error now row).id = row.id := rfl

/-- `_applyFailure`. The snapshot it returns sets on `job` the very fields the
    update sets on the row. -/
def applyFailure (job : JobRow) (error : JobError) (now : ℤ) : LocalM (Option JobRow) := do
  lockConcurrencyRow job.concurrencyKey
  let affectedRows ← updateJobs (leaseConditions job.id job.handoffId) (failedRow job error now)
    (failedRow_id job error now)
  if affectedRows ≠ 1 then return none
  releaseConcurrency job.concurrencyKey
  return some (failedRow job error now job)

def markFailed (jobId : String) (handoffId : Option String) (error : JobError) (now : ℤ) :
    LocalM (Option JobRow) := do
  match ← getJob jobId with
  | none => return none
  | some job =>
    if !acceptsHandoff job handoffId then return none
    applyFailure job error now

/-! ## Recovery and reconciliation -/

/-- A row under another concurrency contract. -/
def rekeyedRow (concurrency : Option Concurrency) (row : JobRow) : JobRow :=
  { row with
    concurrencyKey := concurrency.map Concurrency.key
    maxConcurrency := concurrency.map Concurrency.maxConcurrency }

@[simp] theorem rekeyedRow_id (concurrency : Option Concurrency) (row : JobRow) :
    (rekeyedRow concurrency row).id = row.id := rfl

def reconcileQueuedJobConcurrency (queues : Queues) (job : JobRow) : LocalM JobRow := do
  let currentIsQueueDerived := job.concurrencyKey.any fun key => queueDerivedKey key
  if job.concurrencyKey.isSome && !currentIsQueueDerived then return job
  match ← normalizeBackgroundJobConcurrency {} job.queue queues with
  | none =>
    if currentIsQueueDerived then
      let _ ← updateJobs (fun row => row.id = job.id && row.status = .queued) (rekeyedRow none)
        (rekeyedRow_id none)
    return rekeyedRow none job
  | some concurrency =>
    ensureConcurrency concurrency
    if job.concurrencyKey ≠ some concurrency.key
        || job.maxConcurrency ≠ some concurrency.maxConcurrency then
      let _ ← updateJobs (fun row => row.id = job.id && row.status = .queued)
        (rekeyedRow (some concurrency)) (rekeyedRow_id (some concurrency))
    return rekeyedRow (some concurrency) job

/-- The loop of `reconcileQueueConcurrency`. -/
def reconcileQueuedRows (queues : Queues) : List JobRow → LocalM PUnit
  | [] => return
  | row :: rows => do
    let _ ← reconcileQueuedJobConcurrency queues (← normalizeRow row)
    reconcileQueuedRows queues rows

def reconcileQueueConcurrency (queues : Queues) (dbOrder : String → ℕ) : LocalM PUnit := do
  let rows ← selectJobs dbOrder fun row => row.status = .queued
  reconcileQueuedRows queues rows
  rebuildConcurrencyCounts

def recoveryError (stack : String) : JobError :=
  .error stack "Local background job recovered after an interrupted dispatcher"

/-- The loop of `recoverHandedOffJobs`; `now` is the clock at each job. -/
def recoverRows (queues : Queues) (stack : String) (now : String → ℤ) :
    List JobRow → LocalM (List JobRow)
  | [] => return []
  | row :: rows => do
    let job ← normalizeRow row
    match ← applyFailure job (recoveryError stack) (now job.id) with
    | none => recoverRows queues stack now rows
    | some updated =>
      let reconciled ← if updated.status = .queued then
        reconcileQueuedJobConcurrency queues updated else pure updated
      return reconciled :: (← recoverRows queues stack now rows)

def recoverHandedOffJobs (queues : Queues) (stack : String) (now : String → ℤ)
    (dbOrder : String → ℕ) : LocalM (List JobRow) := do
  let rows ← selectJobs dbOrder fun row => row.status = .handedOff
  let recovered ← recoverRows queues stack now rows
  rebuildConcurrencyCounts
  return recovered

def clearAll : LocalM PUnit := set Db.empty

/-! ## Finding jobs -/

/-- Whether the concurrency of a job leaves room for another claim. -/
def hasFreeSlot (concurrency : ConcurrencyTable) (row : JobRow) : Bool :=
  row.concurrencyKey.all fun key =>
    (concurrency.find? key).any fun counter => counter.activeCount < counter.maxConcurrency

/-- Whether a job is queued, due and within its concurrency. -/
def claimable (concurrency : ConcurrencyTable) (now : ℤ) (row : JobRow) : Bool :=
  row.status = .queued && row.scheduledAtMs ≤ now && hasFreeSlot concurrency row

/-- The order in which claimable jobs are taken; `queuePriority` is 0 for a queue that has none. -/
def dispatchedBefore (queuePriority : String → ℚ) (a b : JobRow) : Prop :=
  queuePriority b.queue < queuePriority a.queue ∨
    queuePriority a.queue = queuePriority b.queue ∧
      (a.scheduledAtMs < b.scheduledAtMs ∨
        a.scheduledAtMs = b.scheduledAtMs ∧
          (a.createdAtMs < b.createdAtMs ∨ a.createdAtMs = b.createdAtMs ∧ a.id ≤ b.id))

instance (queuePriority : String → ℚ) : DecidableRel (dispatchedBefore queuePriority) :=
  fun _ _ => inferInstanceAs (Decidable (_ ∨ _))

def firstRow (rows : List JobRow) : LocalM (Option JobRow) := do
  match rows.head? with
  | none => return none
  | some row => return some (← normalizeRow row)

def nextAvailableJob (queuePriority : String → ℚ) (now : ℤ) : LocalM (Option JobRow) := do
  let db ← get
  firstRow <| (db.jobs.select (claimable db.concurrency now)).insertionSort
    (dispatchedBefore queuePriority)

def nextScheduledJob (now : ℤ) : LocalM (Option JobRow) := do
  let db ← get
  firstRow <| (db.jobs.select fun row => row.status = .queued && now < row.scheduledAtMs).insertionSort
    (dispatchedBefore fun _ => 0)

/-- One call of a store operation. -/
inductive Tx where
  | enqueue (input : EnqueueInput) (dbOrder : String → ℕ)
  | markHandedOff (jobId handoffId : String) (workerId : Option String) (now handedOffAtMs : ℤ)
  | markReturnedToQueue (jobId handoffId : String) (now : ℤ)
  | markCompleted (jobId : String) (handoffId : Option String) (now : ℤ)
  | markRescheduled (jobId : String) (handoffId : Option String) (delayMs : JsNumber) (now : ℤ)
  | markFailed (jobId : String) (handoffId : Option String) (error : JobError) (now : ℤ)
  | recoverHandedOffJobs (queues : Queues) (stack : String) (now : String → ℤ)
      (dbOrder : String → ℕ)
  | reconcileQueueConcurrency (queues : Queues) (dbOrder : String → ℕ)
  | clearAll

/-- What a call answers. -/
inductive Answer where
  | done
  | enqueued (jobId : String)
  | handoff (handoff : Option Handoff)
  | accepted (accepted : Bool)
  | failed (job : Option JobRow)
  | recovered (jobs : List JobRow)

section
variable (sha256 : String → String)

def Tx.body : Tx → LocalM Answer
  | enqueue input dbOrder => .enqueued <$> LocalStore.enqueue sha256 dbOrder input
  | markHandedOff jobId handoffId workerId now handedOffAtMs =>
    .handoff <$> LocalStore.markHandedOff jobId handoffId workerId now handedOffAtMs
  | markReturnedToQueue jobId handoffId now =>
    (fun _ => .done) <$> LocalStore.markReturnedToQueue jobId handoffId now
  | markCompleted jobId handoffId now =>
    .accepted <$> LocalStore.markCompleted jobId handoffId now
  | markRescheduled jobId handoffId delayMs now =>
    .accepted <$> LocalStore.markRescheduled jobId handoffId delayMs now
  | markFailed jobId handoffId error now =>
    .failed <$> LocalStore.markFailed jobId handoffId error now
  | recoverHandedOffJobs queues stack now dbOrder =>
    .recovered <$> LocalStore.recoverHandedOffJobs queues stack now dbOrder
  | reconcileQueueConcurrency queues dbOrder =>
    (fun _ => .done) <$> LocalStore.reconcileQueueConcurrency queues dbOrder
  | clearAll => (fun _ => .done) <$> LocalStore.clearAll

def Tx.exec (tx : Tx) (s : Db) : Except VelociousError Answer × Db := commit (tx.body sha256) s

/-- The store after a list of calls. -/
def run (s : Db) : List Tx → Db
  | [] => s
  | tx :: txs => run (tx.exec sha256 s).2 txs

end

end Velocious.LocalStore
