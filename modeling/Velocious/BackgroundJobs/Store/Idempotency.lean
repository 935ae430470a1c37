/-
  Concurrent idempotent enqueues: the transaction of `_enqueueIdempotently`
  (src/background-jobs/store.js) statement by statement, for any number of
  callers, beside the store's other transactions.

  Reads see what is committed, or at REPEATABLE READ what was at the first read
  of their transaction; the driver opens a plain transaction, so its level is
  the database's default. The insertion of an ownership row whose primary key
  another open transaction has inserted waits for that transaction, and fails
  for any row that is committed. The statements from the count-revision lock on
  work on a private copy of the tables, which the commit publishes; every other
  writer of those tables takes the lock first, so it waits. A transaction may
  fail at any statement, which rolls it back.
-/
import Velocious.Foundation.Machine
import Velocious.BackgroundJobs.Store.Run

namespace Velocious

open Foundation

/-- An enqueue with an idempotency key that has passed its validation. -/
structure IdempotentEnqueue (sha256 : String → String) where
  input : EnqueueInput
  idempotencyKey : String
  preparedJob : PreparedBackgroundJob
  request : IdempotentRequest
  prepared : prepareJob input = .ok preparedJob
  valid : idempotentRequest sha256 input preparedJob idempotencyKey = .ok request

namespace IdempotentEnqueue
variable {sha256 : String → String} (e f : IdempotentEnqueue sha256)

def digest : String := e.request.ownership.scopeDigest

def jobId : String := e.preparedJob.jobId

def canonical : String :=
  stableJsonStringify (canonicalRequest e.input.args e.input.options e.preparedJob)

/-- Two enqueues carry the same job name, queue and key. -/
def SameScope : Prop :=
  e.preparedJob.jobName = f.preparedJob.jobName ∧ e.preparedJob.queue = f.preparedJob.queue ∧
    e.idempotencyKey = f.idempotencyKey

/-- Two enqueues carry the same canonical request, with the same mail operation
    in its arguments. -/
def SameRequest : Prop :=
  e.canonical = f.canonical ∧ e.request.mailOperation = f.request.mailOperation

end IdempotentEnqueue

/-- How an enqueue ended. -/
inductive EnqueueOutcome where
  | returned (jobId : String)
  | conflicted (error : VelociousError)
  | refused (error : VelociousError)
  /-- it was cut off: a lost connection, a deadlock, a dead process -/
  | failed

/-- The next statement of an enqueue, with the private tables it has written. -/
inductive EnqueueStage where
  | begun
  | unowned
  | raced
  | found (existing : IdempotencyRow)
  | claimed
  | locked (tables : Db)
  | inserted (tables : Db)
  | persisted (tables : Db)
  | recorded (tables : Db)
  | done (outcome : EnqueueOutcome)

/-- The transactions of the store beside idempotent enqueues and the test reset. -/
def Tx.ordinary : Tx → Bool
  | enqueue input _ => input.options.idempotencyKey.isNone
  | clearAll => false
  | _ => true

/-- What the reads of a transaction see: what is committed, or what was committed
    at its first read. -/
inductive Isolation where
  | readCommitted
  | repeatableRead

/-- The tables that a transaction reads where these are current. -/
def Isolation.view (snapshot current : Db) : Isolation → Db
  | readCommitted => current
  | repeatableRead => snapshot

/-- The committed tables, the tables at each enqueue's first read, the open
    claims, the holder of the count-revision lock, the stage of every enqueue,
    and which enqueues created a job. -/
structure EnqueueWorld (ι : Type) where
  db : Db
  snapshot : ι → Db
  claims : List ι
  lock : Option ι
  stage : ι → EnqueueStage
  created : List ι

/-- What can happen. -/
inductive EnqueueAction (ι : Type) where
  | statement (i : ι)
  | commit (i : ι)
  | fail (i : ι)
  | transaction (tx : Tx)

namespace EnqueueWorld
variable {ι : Type} [DecidableEq ι] {sha256 : String → String}

def init : EnqueueWorld ι where
  db := .empty
  snapshot _ := .empty
  claims := []
  lock := none
  stage _ := .begun
  created := []

/-- An enqueue moves on within its transaction. -/
def goto (w : EnqueueWorld ι) (i : ι) (stage : EnqueueStage) : EnqueueWorld ι :=
  { w with stage := Function.update w.stage i stage }

/-- The transaction of an enqueue ends, and its claim and lock with it. -/
def finish (w : EnqueueWorld ι) (i : ι) (outcome : EnqueueOutcome) : EnqueueWorld ι :=
  { w with
    claims := w.claims.erase i
    lock := if w.lock = some i then none else w.lock
    stage := Function.update w.stage i (.done outcome) }

/-- A statement of a creation. -/
def create (w : EnqueueWorld ι) (i : ι) (statement : StoreM PUnit) (tables : Db)
    (next : Db → EnqueueStage) : EnqueueWorld ι :=
  match statement.run tables with
  | .ok (_, tables) => w.goto i (next tables)
  | .error error => w.finish i (.refused error)

variable (callers : ι → IdempotentEnqueue sha256) (isolation : ι → Isolation)

/-- The first read of a transaction. -/
def takeSnapshot (w : EnqueueWorld ι) (i : ι) : EnqueueWorld ι :=
  { w with snapshot := Function.update w.snapshot i w.db }

/-- The next statement of an enqueue, unless it waits. -/
def statement (w : EnqueueWorld ι) (i : ι) : Option (EnqueueWorld ι) :=
  let request := (callers i).request
  match w.stage i with
  | .begun =>
    match w.db.idempotencyKeys.find? (callers i).digest with
    | some existing => some ((w.takeSnapshot i).goto i (.found existing))
    | none => some ((w.takeSnapshot i).goto i .unowned)
  | .unowned =>
    if w.claims.any fun j => (callers j).digest = (callers i).digest then none
    else match w.db.idempotencyKeys.insert? request.ownership with
      | some _ => some { w.goto i .claimed with claims := i :: w.claims }
      | none => some (w.goto i .raced)
  | .raced =>
    match ((isolation i).view (w.snapshot i) w.db).idempotencyKeys.find? (callers i).digest with
    | some raced => some (w.goto i (.found raced))
    | none => some (w.finish i
        (.refused (uniqueViolation "background_job_idempotency_keys.scope_digest")))
  | .found existing =>
    match (replayIdempotentEnqueue sha256 request existing).run ((isolation i).view (w.snapshot i) w.db) with
    | .ok (jobId, _) => some (w.finish i (.returned jobId))
    | .error error => some (w.finish i (.conflicted error))
  | .claimed =>
    if w.lock.isSome then none else some { w.goto i (.locked w.db) with lock := some i }
  | .locked tables => some (w.create i (insertPreparedJob request.preparedJob none) tables .inserted)
  | .inserted tables =>
    let read (key : String) := pure (((isolation i).view (w.snapshot i) tables).mailOperations.find? key)
    some (w.create i (persistMailDeliveryOperationBy sha256 read request.preparedJob.jobId
      request.preparedJob.createdAtMs request.mailOperation) tables .persisted)
  | .persisted tables => some (w.create i (recordCountDelta enqueuedDeltas) tables .recorded)
  | .recorded _ | .done _ => none

/-- The commit publishes the private tables with the claimed ownership row. -/
def commit (w : EnqueueWorld ι) (i : ι) : Option (EnqueueWorld ι) :=
  match w.stage i with
  | .recorded tables =>
    (w.db.idempotencyKeys.insert? (callers i).request.ownership).map fun idempotencyKeys =>
      { w.finish i (.returned (callers i).jobId) with
        db := { tables with idempotencyKeys }
        created := w.created ++ [i] }
  | _ => none

/-- One step. -/
def step (w : EnqueueWorld ι) : EnqueueAction ι → Option (EnqueueWorld ι)
  | .statement i => w.statement callers isolation i
  | .commit i => w.commit callers i
  | .fail i =>
    match w.stage i with
    | .done _ => none
    | _ => some (w.finish i .failed)
  | .transaction tx =>
    if w.lock.isSome || !tx.ordinary then none else some { w with db := (tx.exec sha256 w.db).2 }

/-- An enqueue that has lost the insertion reads what is committed. -/
def RereadsCommitted (w : EnqueueWorld ι) : EnqueueAction ι → Prop
  | .statement i => w.stage i = .raced → isolation i = .readCommitted
  | .commit _ | .fail _ | .transaction _ => True

end EnqueueWorld

end Velocious
