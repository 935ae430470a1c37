/-
  The semantics shared by the SQL and the local background-jobs store
  (src/background-jobs/job-semantics.js): how the options of an enqueue are
  validated and normalized, the reschedule and retry delays, and the
  concurrency contract a job resolves to.

  A `Concurrency` carries what the validation establishes: its key is not
  empty, its cap is positive, and the `queue:` prefix marks exactly the keys
  derived from the queue configuration.
-/
import Velocious.Utils.StableJson

namespace Velocious

open Foundation

/-- A thrown error: its message and, for safe errors, its code. -/
structure VelociousError where
  message : String
  code : Option String := none
  deriving DecidableEq, Repr

/-- The driver's error on a taken primary key. -/
def uniqueViolation (table : String) : VelociousError :=
  ⟨"UNIQUE constraint failed: " ++ table, none⟩

/-- How a job is run. -/
inductive ExecutionMode where
  | inline | forked | pooled | spawned
  deriving DecidableEq, Repr

/-- `BackgroundJobOptions`; `none` is an omitted option. -/
structure BackgroundJobOptions where
  executionMode : Option String := none
  forked : Bool := false
  maxRetries : Option JsNumber := none
  queue : Option String := none
  concurrencyKey : Option String := none
  maxConcurrency : Option JsNumber := none
  deduplicateWhileQueued : Bool := false
  idempotencyKey : Option String := none
  scheduledAtMs : Option JsNumber := none
  timeoutMs : Option JsNumber := none
  deriving DecidableEq, Repr

/-- The configured queues with their `maxConcurrent`, in key order. -/
abbrev Queues := List (String × Option JsNumber)

/-- The arguments of an enqueue, with the generated id, the clock and the
    queue configuration it sees. -/
structure EnqueueInput where
  jobName : String
  args : List Json
  options : BackgroundJobOptions
  jobId : String
  createdAtMs : ℤ
  queues : Queues

def defaultMaxRetries : ℕ := 10
def defaultQueue : String := "default"
def queueConcurrencyKeyPrefix : String := "queue:"
def maxJobTimeoutMs : ℤ := 2147483647

/-! ## Queue, execution mode, retries, timestamps -/

def normalizeBackgroundJobQueue (options : BackgroundJobOptions) : String :=
  match options.queue with
  | some queue => if trim queue ≠ "" then trim queue else defaultQueue
  | none => defaultQueue

def ExecutionMode.name : ExecutionMode → String
  | inline => "inline"
  | forked => "forked"
  | pooled => "pooled"
  | spawned => "spawned"

def backgroundJobExecutionModes : List ExecutionMode := [.inline, .forked, .pooled, .spawned]

def normalizeBackgroundJobExecutionMode (options : BackgroundJobOptions)
    (defaultExecutionMode : ExecutionMode) (supported : List ExecutionMode) :
    Except VelociousError ExecutionMode :=
  if options.forked then
    throw ⟨"The background job `forked` option was removed; pass `executionMode` (\"inline\", \"forked\", \"pooled\", or \"spawned\") instead", none⟩
  else
    let requested := match options.executionMode with
      | some mode => if mode = "" then defaultExecutionMode.name else mode
      | none => defaultExecutionMode.name
    match backgroundJobExecutionModes.find? fun mode => mode.name = requested with
    | none => throw ⟨"Invalid background job executionMode: " ++ requested, none⟩
    | some mode =>
      if mode ∈ supported then pure mode
      else throw ⟨"Background job executionMode \"" ++ mode.name ++
        "\" is not supported by the local background-jobs adapter", none⟩

/-- A retry cap: the floor of a finite non-negative number, else the default. -/
def normalizeBackgroundJobMaxRetries (maxRetries : Option JsNumber) : ℕ :=
  match maxRetries.bind JsNumber.floor? with
  | some n => if 0 ≤ n then n.toNat else defaultMaxRetries
  | none => defaultMaxRetries

def normalizeBackgroundJobScheduledAtMs (scheduledAtMs : Option JsNumber) (default : ℤ) :
    Except VelociousError ℤ :=
  match scheduledAtMs with
  | none => pure default
  | some x =>
    match x.safeInteger? with
    | some n =>
      if 0 ≤ n then pure n
      else throw ⟨"background job scheduledAtMs must be a non-negative safe integer", none⟩
    | none => throw ⟨"background job scheduledAtMs must be a non-negative safe integer", none⟩

def rescheduledBackgroundJobAtMs (delayMs : JsNumber) (nowMs : ℤ) : Except VelociousError ℤ :=
  match delayMs.safeInteger? with
  | some delay =>
    if delay < 0 then
      throw ⟨"background job reschedule delayMs must be a non-negative safe integer", none⟩
    else if |nowMs + delay| ≤ JsNumber.maxSafeInteger then pure (nowMs + delay)
    else throw ⟨"background job reschedule scheduledAtMs must be a safe integer", none⟩
  | none => throw ⟨"background job reschedule delayMs must be a non-negative safe integer", none⟩

/-- The failure backoff of the `retryCount`-th failed attempt, counted from one. -/
def retryDelayMs (retryCount : ℕ) : ℤ :=
  match retryCount with
  | 0 | 1 => 10 * 1000
  | 2 => 60 * 1000
  | 3 => 600 * 1000
  | 4 => 3600 * 1000
  | n => (n - 3) * 60 * 60 * 1000

def jobTimeoutValidationMessage : String :=
  "background job timeoutMs must be a finite non-positive number or an integer between 1 and 2147483647"

/-- `_normalizeJobTimeoutMs`: a positive timeout, zero for disabled, `none` when omitted. -/
def normalizeJobTimeoutMs (options : BackgroundJobOptions) : Except VelociousError (Option ℤ) :=
  match options.timeoutMs with
  | none => pure none
  | some x =>
    match x.floor?, x.integer? with
    | some floor, some n =>
      if n ≤ 0 then pure (some 0)
      else if floor ≤ maxJobTimeoutMs then pure (some n)
      else throw ⟨jobTimeoutValidationMessage, none⟩
    -- a fraction is non-positive exactly when its floor is negative
    | some floor, none =>
      if floor < 0 then pure (some 0) else throw ⟨jobTimeoutValidationMessage, none⟩
    | none, _ => throw ⟨jobTimeoutValidationMessage, none⟩

/-! ## Concurrency -/

def queueDerivedKey (key : String) : Bool := startsWith key queueConcurrencyKeyPrefix

/-- `ResolvedBackgroundJobConcurrency`. -/
structure Concurrency where
  concurrencyKey : String
  maxConcurrency : ℤ
  queueDerived : Bool
  key_ne_empty : concurrencyKey ≠ ""
  max_pos : 0 < maxConcurrency
  derived : queueDerivedKey concurrencyKey = queueDerived

def queueConcurrencyKey (queue : String) : String := queueConcurrencyKeyPrefix ++ queue

theorem queueDerivedKey_queue (queue : String) : queueDerivedKey (queueConcurrencyKey queue) = true :=
  startsWith_append _ _

theorem ne_empty_of_queueDerived {key : String} (h : queueDerivedKey key = true) : key ≠ "" := by
  rintro rfl
  revert h
  decide

/-- `_queueMaxConcurrency`: the configured positive integer cap of a queue. -/
def queueMaxConcurrency (queues : Queues) (queue : String) : Option ℤ :=
  match (queues.lookup queue).join.bind JsNumber.integer? with
  | some cap => if 0 < cap then some cap else none
  | none => none

theorem queueMaxConcurrency_pos {queues : Queues} {queue : String} {cap : ℤ}
    (h : queueMaxConcurrency queues queue = some cap) : 0 < cap := by
  unfold queueMaxConcurrency at h
  split at h
  · split at h <;> simp_all
  · cases h

/-- The contract derived from the configuration of a queue. -/
def queueConcurrency (queues : Queues) (queue : String) : Option Concurrency :=
  match h : queueMaxConcurrency queues queue with
  | none => none
  | some cap => some
    { concurrencyKey := queueConcurrencyKey queue
      maxConcurrency := cap
      queueDerived := true
      key_ne_empty := ne_empty_of_queueDerived (queueDerivedKey_queue queue)
      max_pos := queueMaxConcurrency_pos h
      derived := queueDerivedKey_queue queue }

/-- Resolves explicit or queue-derived concurrency. -/
def normalizeBackgroundJobConcurrency (options : BackgroundJobOptions) (queue : String)
    (queues : Queues) : Except VelociousError (Option Concurrency) :=
  if options.concurrencyKey.isSome || options.maxConcurrency.isSome then
    match options.concurrencyKey, options.maxConcurrency.bind JsNumber.integer? with
    | some key, some cap =>
      if h : key ≠ "" ∧ 0 < cap then
        if hq : queueDerivedKey key = true then
          throw ⟨"background job concurrencyKey must not start with the reserved \"queue:\" prefix, which is reserved for queue-derived concurrency caps", none⟩
        else pure <| some
          { concurrencyKey := key
            maxConcurrency := cap
            queueDerived := false
            key_ne_empty := h.1
            max_pos := h.2
            derived := by simpa using hq }
      else throw pairError
    | _, _ => throw pairError
  else pure (queueConcurrency queues queue)
where
  pairError : VelociousError :=
    ⟨"background job concurrencyKey and maxConcurrency must be paired; concurrencyKey must be non-empty and maxConcurrency must be a positive integer", none⟩

/-- What a failure report carries. -/
inductive JobError where
  | error (stack message : String)
  | text (message : String)
  | value (v : Json)

def normalizeBackgroundJobError : JobError → String
  | .error stack message => if stack = "" then message else stack
  | .text message => message
  | .value v => v.stringify

end Velocious
