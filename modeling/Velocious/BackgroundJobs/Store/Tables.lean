/-
  The tables of the SQL background-jobs store (src/background-jobs/store.js).

  Every table is keyed, so primary keys hold by construction, and the keys the
  store only ever writes validated (concurrency and schedule keys) are
  non-empty strings by type. A `Db` holds the tables, the singleton
  count-revision row and the count deltas broadcast after commits.
-/
import Velocious.Foundation.Transaction
import Velocious.Mailer.DeliveryOperation
import Velocious.BackgroundJobs.Counters
import Velocious.BackgroundJobs.Lifecycle

namespace Velocious

open Foundation

/-- A row of `background_jobs`. -/
structure JobRow where
  id : String
  jobName : String
  argsJson : String
  executionMode : ExecutionMode
  queue : String
  maxRetries : ℕ
  attempts : ℕ
  status : JobStatus
  scheduledAtMs : ℤ
  createdAtMs : ℤ
  scheduleKey : Option Key
  concurrencyKey : Option Key
  maxConcurrency : Option ℤ
  timeoutMs : Option ℤ
  handoffId : Option String := none
  handedOffAtMs : Option ℤ := none
  workerId : Option String := none
  completedAtMs : Option ℤ := none
  failedAtMs : Option ℤ := none
  orphanedAtMs : Option ℤ := none
  lastError : Option String := none
  deriving DecidableEq

/-- A row of `background_job_schedule_keys`. -/
structure ScheduleKeyRow where
  scheduleKey : Key
  jobId : String
  deriving DecidableEq

/-- A row of `background_job_idempotency_keys`. -/
structure IdempotencyRow where
  scopeDigest : String
  requestDigest : String
  jobName : String
  queue : String
  idempotencyKey : String
  jobId : String
  createdAtMs : ℤ
  deriving DecidableEq

/-- A row of `mailer_delivery_operations`. -/
structure MailOperationRow where
  operationKey : String
  operationId : String
  payloadDigest : String
  backgroundJobId : String
  providerKind : String
  providerRetentionMs : ℤ
  createdAtMs : ℤ
  firstAttemptStartedAtMs : Option ℤ := none
  deriving DecidableEq

abbrev Jobs := Table JobRow JobRow.id
abbrev ScheduleKeys := Table ScheduleKeyRow ScheduleKeyRow.scheduleKey
abbrev IdempotencyKeys := Table IdempotencyRow IdempotencyRow.scopeDigest
abbrev MailOperations := Table MailOperationRow MailOperationRow.operationKey

/-! ## Count buckets -/

/-- `BACKGROUND_JOB_COUNT_BUCKETS`. -/
inductive Bucket where
  | all | queued | handedOff | completed | failed | orphaned
  deriving DecidableEq, Repr

instance : Fintype Bucket where
  elems := {.all, .queued, .handedOff, .completed, .failed, .orphaned}
  complete b := by cases b <;> decide

/-- Signed bucket changes; an omitted bucket is zero. -/
abbrev CountDeltas := Bucket → ℤ

def JobStatus.bucket? : JobStatus → Option Bucket
  | queued => some .queued
  | handedOff => some .handedOff
  | completed => some .completed
  | failed => some .failed
  | orphaned => some .orphaned
  | cancelled => none

def Bucket.amount (b : Bucket) (n : ℤ) : CountDeltas := fun b' => if b' = b then n else 0

/-- The body of a `background-job-count-delta` broadcast. -/
structure CountDelta where
  deltas : CountDeltas
  revision : ℤ
  deriving DecidableEq

/-- The tables the life of a job touches. -/
structure JobTables where
  jobs : Jobs
  concurrency : ConcurrencyTable
  scheduleKeys : ScheduleKeys
  deriving DecidableEq

/-- The store's database with the broadcasts its commits have sent. -/
structure Db extends JobTables where
  idempotencyKeys : IdempotencyKeys
  mailOperations : MailOperations
  countRevision : Option ℤ
  broadcasts : List CountDelta
  deriving DecidableEq

/-- The store as `ensureReady` creates it. -/
def Db.empty : Db where
  jobs := .empty
  concurrency := .empty
  scheduleKeys := .empty
  idempotencyKeys := .empty
  mailOperations := .empty
  countRevision := some 0
  broadcasts := []

/-! ## Reading rows -/

/-- `_normalizeJobRow`: empty strings read as NULL. -/
def normalizeJobRow (row : JobRow) : JobRow :=
  { row with
    handoffId := orNull row.handoffId
    workerId := orNull row.workerId
    lastError := orNull row.lastError
    queue := if row.queue = "" then defaultQueue else row.queue }

section normalize
variable (row : JobRow)

@[simp] theorem normalizeJobRow_id : (normalizeJobRow row).id = row.id := rfl
@[simp] theorem normalizeJobRow_status : (normalizeJobRow row).status = row.status := rfl
@[simp] theorem normalizeJobRow_attempts : (normalizeJobRow row).attempts = row.attempts := rfl
@[simp] theorem normalizeJobRow_maxRetries :
    (normalizeJobRow row).maxRetries = row.maxRetries := rfl
@[simp] theorem normalizeJobRow_concurrencyKey :
    (normalizeJobRow row).concurrencyKey = row.concurrencyKey := rfl
@[simp] theorem normalizeJobRow_scheduleKey :
    (normalizeJobRow row).scheduleKey = row.scheduleKey := rfl
@[simp] theorem normalizeJobRow_handedOffAtMs :
    (normalizeJobRow row).handedOffAtMs = row.handedOffAtMs := rfl
@[simp] theorem normalizeJobRow_handoffId :
    (normalizeJobRow row).handoffId = orNull row.handoffId := rfl

end normalize

end Velocious
