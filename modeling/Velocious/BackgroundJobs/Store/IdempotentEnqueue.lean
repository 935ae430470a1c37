/-
  The idempotent enqueue of the SQL background-jobs store
  (src/background-jobs/store.js, `_enqueueIdempotently` and its helpers).

  A caller's key owns a scope (job name, queue, key) in
  `background_job_idempotency_keys`, whose primary key is the digest of the
  scope; the row keeps the digest of the canonical request that created it.
  An enqueue either finds the owner and validates against it, or claims the
  scope and creates the job.
-/
import Velocious.BackgroundJobs.Store.Operations

namespace Velocious

open Foundation

section
variable (sha256 : String → String)

/-! ## Canonical requests -/

/-- The concurrency contract as it enters the canonical request. -/
def concurrencyJson : Option Concurrency → Json
  | none => .null
  | some concurrency => .obj [
      ("concurrencyKey", .str concurrency.concurrencyKey),
      ("maxConcurrency", .num (.int concurrency.maxConcurrency)),
      ("queueDerived", .bool concurrency.queueDerived)]

/-- The canonical request: everything that affects the job's behaviour, without
    generated ids and the time of an immediate enqueue. -/
def canonicalRequest (args : List Json) (options : BackgroundJobOptions)
    (preparedJob : PreparedBackgroundJob) : Json :=
  .obj ([
    ("args", .arr args),
    ("concurrency", concurrencyJson preparedJob.concurrency),
    ("executionMode", .str preparedJob.executionMode.name),
    ("format", .str "velocious-background-job-idempotency-v1"),
    ("jobName", .str preparedJob.jobName),
    ("maxRetries", .num (.int preparedJob.maxRetries)),
    ("queue", .str preparedJob.queue),
    ("scheduledAtMs",
      if options.scheduledAtMs.isNone then .null else .num (.int preparedJob.scheduledAtMs)),
    ("scheduling", .str (if options.scheduledAtMs.isNone then "immediate" else "scheduled"))] ++
    preparedJob.timeoutMs.toList.map fun timeoutMs => ("timeoutMs", .num (.int timeoutMs)))

def idempotencyRequestDigest (args : List Json) (options : BackgroundJobOptions)
    (preparedJob : PreparedBackgroundJob) : String :=
  sha256 (stableJsonStringify (canonicalRequest args options preparedJob))

def canonicalScope (idempotencyKey jobName queue : String) : Json :=
  .obj [
    ("format", .str "velocious-background-job-idempotency-scope-v1"),
    ("idempotencyKey", .str idempotencyKey),
    ("jobName", .str jobName),
    ("queue", .str queue)]

def idempotencyScopeDigest (idempotencyKey jobName queue : String) : String :=
  sha256 (stableJsonStringify (canonicalScope idempotencyKey jobName queue))

def normalizeIdempotencyKey (idempotencyKey : String) : Except VelociousError String :=
  if idempotencyKey = "" then
    throw ⟨"Background job idempotencyKey must be a non-empty string.",
      some "background-job-idempotency-key-invalid"⟩
  else pure idempotencyKey

/-- What an idempotent enqueue brings to its transaction. -/
structure IdempotentRequest where
  preparedJob : PreparedBackgroundJob
  ownership : IdempotencyRow
  mailOperation : Option MailerDeliveryOperation

/-- The part of `_enqueueIdempotently` before the transaction. -/
def idempotentRequest (input : EnqueueInput) (preparedJob : PreparedBackgroundJob)
    (idempotencyKey : String) : Except VelociousError IdempotentRequest := do
  let idempotencyKey ← normalizeIdempotencyKey idempotencyKey
  let ownership : IdempotencyRow :=
    { scopeDigest := idempotencyScopeDigest sha256 idempotencyKey preparedJob.jobName
        preparedJob.queue
      requestDigest := idempotencyRequestDigest sha256 input.args input.options preparedJob
      jobName := preparedJob.jobName
      queue := preparedJob.queue
      idempotencyKey
      jobId := preparedJob.jobId
      createdAtMs := preparedJob.createdAtMs }
  let mailOperation ← mailDeliveryOperationForJob preparedJob.jobName input.args
  if mailOperation.any (·.id ≠ idempotencyKey) then
    throw ⟨"Mail delivery operation id must equal its background job idempotency key.",
      some "mail-delivery-idempotency-key-mismatch"⟩
  return { preparedJob, ownership, mailOperation }

def idempotencyOwnership (scopeDigest : String) : StoreM (Option IdempotencyRow) := do
  return (← get).idempotencyKeys.find? scopeDigest

def insertIdempotencyKey (row : IdempotencyRow) : StoreM PUnit := do
  let db ← get
  match db.idempotencyKeys.insert? row with
  | some idempotencyKeys => set { db with idempotencyKeys }
  | none => throw (uniqueViolation "background_job_idempotency_keys.scope_digest")

/-- `_claimIdempotencyOwnership`: the owner that exists, or `none` when this
    call created it. -/
def claimIdempotencyOwnership (ownership : IdempotencyRow) : StoreM (Option IdempotencyRow) :=
  tryCatch
    (do
      insertIdempotencyKey ownership
      return none)
    fun error => do
      match ← idempotencyOwnership ownership.scopeDigest with
      | none => throw error
      | some raced => return some raced

/-- `_validateIdempotencyOwnership`'s test. -/
def sameRequest (existing ownership : IdempotencyRow) : Bool :=
  existing.jobName = ownership.jobName && existing.queue = ownership.queue
    && existing.idempotencyKey = ownership.idempotencyKey
    && existing.requestDigest = ownership.requestDigest

def idempotencyConflict : VelociousError :=
  ⟨"The background job idempotency key was already used for a different request.",
    some "background-job-idempotency-conflict"⟩

/-! ## Mail operations -/

def mailOperationRow (operation : MailerDeliveryOperation) (jobId : String) (createdAtMs : ℤ) :
    MailOperationRow where
  operationKey := mailDeliveryOperationKey sha256 operation.id
  operationId := operation.id
  payloadDigest := operation.payloadDigest
  backgroundJobId := jobId
  providerKind := operation.providerKind
  providerRetentionMs := operation.providerRetentionMs
  createdAtMs := createdAtMs

def mailDeliveryOperation (operationKey : String) : StoreM (Option MailOperationRow) := do
  return (← get).mailOperations.find? operationKey

def insertMailOperation (row : MailOperationRow) : StoreM PUnit := do
  let db ← get
  match db.mailOperations.insert? row with
  | some mailOperations => set { db with mailOperations }
  | none => throw (uniqueViolation "mailer_delivery_operations.operation_key")

/-- `_validateMailDeliveryOperationRow`'s test. -/
def sameMailOperation (existing : MailOperationRow) (operation : MailerDeliveryOperation)
    (jobId : String) : Bool :=
  existing.operationId = operation.id && existing.payloadDigest = operation.payloadDigest
    && existing.backgroundJobId = jobId && existing.providerKind = operation.providerKind
    && existing.providerRetentionMs = operation.providerRetentionMs

def mailConflict : VelociousError :=
  ⟨"The mail delivery operation was already used for a different payload or provider.",
    some "mail-delivery-idempotency-conflict"⟩

def validateMailDeliveryOperationRow (existing : MailOperationRow)
    (operation : MailerDeliveryOperation) (jobId : String) : StoreM PUnit :=
  if sameMailOperation existing operation jobId then pure ⟨⟩ else throw mailConflict

def validateMailDeliveryOperation (jobId : String)
    (mailOperation : Option MailerDeliveryOperation) : StoreM PUnit := do
  match mailOperation with
  | none => pure ⟨⟩
  | some operation =>
    match ← mailDeliveryOperation (mailDeliveryOperationKey sha256 operation.id) with
    | none =>
      throw ⟨"Background job idempotency ownership is missing its durable mail delivery operation",
        none⟩
    | some existing => validateMailDeliveryOperationRow existing operation jobId

/-- `_persistMailDeliveryOperation`; `read` finds the row of another transaction. -/
def persistMailDeliveryOperationBy (read : String → StoreM (Option MailOperationRow))
    (jobId : String) (createdAtMs : ℤ) (mailOperation : Option MailerDeliveryOperation) :
    StoreM PUnit := do
  match mailOperation with
  | none => pure ⟨⟩
  | some operation =>
    tryCatch (insertMailOperation (mailOperationRow sha256 operation jobId createdAtMs))
      fun error => do
        match ← read (mailDeliveryOperationKey sha256 operation.id) with
        | none => throw error
        | some existing => validateMailDeliveryOperationRow existing operation jobId

def persistMailDeliveryOperation (jobId : String) (createdAtMs : ℤ)
    (mailOperation : Option MailerDeliveryOperation) : StoreM PUnit :=
  persistMailDeliveryOperationBy sha256 mailDeliveryOperation jobId createdAtMs mailOperation

/-- An owner already exists: the exact replay answers its job, any other request fails. -/
def replayIdempotentEnqueue (request : IdempotentRequest) (existing : IdempotencyRow) :
    StoreM String := do
  if !sameRequest existing request.ownership then throw idempotencyConflict
  validateMailDeliveryOperation sha256 existing.jobId request.mailOperation
  return existing.jobId

/-- The scope was claimed: the job, its mail operation and the count delta. -/
def createIdempotentJob (request : IdempotentRequest) : StoreM String := do
  lockCountRevision
  insertPreparedJob request.preparedJob none
  persistMailDeliveryOperation sha256 request.preparedJob.jobId request.preparedJob.createdAtMs
    request.mailOperation
  recordCountDelta enqueuedDeltas
  return request.preparedJob.jobId

def enqueueIdempotently (request : IdempotentRequest) : StoreM String := do
  match ← idempotencyOwnership request.ownership.scopeDigest with
  | some existing => replayIdempotentEnqueue sha256 request existing
  | none =>
    match ← claimIdempotencyOwnership request.ownership with
    | some raced => replayIdempotentEnqueue sha256 request raced
    | none => createIdempotentJob sha256 request

end

end Velocious
