/-
  Runs of the SQL background-jobs store: a `Tx` is one call of one operation
  with all it depends on, `Tx.exec` validates it and runs its transaction
  atomically, and `run` runs a list of calls.
-/
import Velocious.BackgroundJobs.Store.IdempotentEnqueue

namespace Velocious

open Foundation

/-- One call of a store operation. `markOrphanedJobs` reads the clock once for
    its cutoff and once for each job; a call of `pruneTerminalJobs` is a
    sequence of `pruneStatusBatch` calls. -/
inductive Tx where
  | enqueue (input : EnqueueInput) (dbOrder : String → ℕ)
  | replaceScheduled (scheduleKey : String) (input : EnqueueInput)
  | cancelScheduled (scheduleKey : String)
  | markHandedOff (jobId handoffId : String) (workerId : Option String) (now : ℤ)
  | markCompleted (jobId : String) (report : Report) (now : ℤ)
  | markRescheduled (jobId : String) (delayMs : JsNumber) (report : Report) (now : ℤ)
  | markReturnedToQueue (jobId handoffId : String) (now : ℤ)
  | markFailed (jobId : String) (error : JobError) (report : Report) (now : ℤ)
  | markOrphanedJobs (orphanedAfterMs sweepNow : ℤ) (now : String → ℤ) (dbOrder : String → ℕ)
  | pruneStatusBatch (status : PrunedStatus) (cutoff : ℤ) (batchSize : ℕ) (dbOrder : String → ℕ)
  | clearAll
  | cancel (jobId : String)
  | countSnapshot

/-- What a call answers. -/
inductive Answer where
  | done
  | enqueued (jobId : String)
  | replaced (result : ReplacementResult)
  | cancellation (result : CancellationResult)
  | handoff (handoff : Option Handoff)
  | accepted (accepted : Bool)
  | failed (job : Option JobRow)
  | orphaned (jobs : List JobRow)
  | removed (rows : ℕ)
  | snapshot (snapshot : CountSnapshot)

section
variable (sha256 : String → String)

/-- The validation of a call, and its transaction body. -/
def Tx.body : Tx → Except VelociousError (StoreM Answer)
  | enqueue input dbOrder => do
    let preparedJob ← prepareJob input
    match input.options.idempotencyKey with
    | none =>
      return .enqueued <$>
        Velocious.enqueue dbOrder input.options.deduplicateWhileQueued preparedJob
    | some idempotencyKey =>
      let request ← idempotentRequest sha256 input preparedJob idempotencyKey
      return .enqueued <$> enqueueIdempotently sha256 request
  | replaceScheduled scheduleKey input => do
    let scheduleKey ← normalizeScheduleKey scheduleKey
    let preparedJob ← prepareJob input
    return .replaced <$> Velocious.replaceScheduled scheduleKey preparedJob
  | cancelScheduled scheduleKey => do
    let scheduleKey ← normalizeScheduleKey scheduleKey
    return .cancellation <$> Velocious.cancelScheduled scheduleKey
  | markHandedOff jobId handoffId workerId now =>
    return .handoff <$> Velocious.markHandedOff jobId handoffId workerId now
  | markCompleted jobId report now =>
    return .accepted <$> Velocious.markCompleted jobId report now
  | markRescheduled jobId delayMs report now => do
    let _ ← rescheduledBackgroundJobAtMs delayMs 0
    return .accepted <$> Velocious.markRescheduled jobId delayMs report now
  | markReturnedToQueue jobId handoffId now =>
    return (fun _ => .done) <$> Velocious.markReturnedToQueue jobId handoffId now
  | markFailed jobId error report now =>
    return .failed <$> Velocious.markFailed jobId error report now
  | markOrphanedJobs orphanedAfterMs sweepNow now dbOrder =>
    return .orphaned <$> Velocious.markOrphanedJobs orphanedAfterMs sweepNow now dbOrder
  | pruneStatusBatch status cutoff batchSize dbOrder =>
    return .removed <$> Velocious.pruneStatusBatch status cutoff batchSize dbOrder
  | clearAll => return (fun _ => .done) <$> Velocious.clearAll
  | cancel jobId => return .accepted <$> Velocious.cancel jobId
  | countSnapshot => return .snapshot <$> Velocious.countSnapshot

def Tx.exec (tx : Tx) (s : Db) : Except VelociousError Answer × Db :=
  match tx.body sha256 with
  | .error error => (.error error, s)
  | .ok body => commit body s

/-- The database after a list of calls. -/
def run (s : Db) : List Tx → Db
  | [] => s
  | tx :: txs => run (tx.exec sha256 s).2 txs

theorem run_append (s : Db) (txs txs' : List Tx) :
    run sha256 s (txs ++ txs') = run sha256 (run sha256 s txs) txs' := by
  induction txs generalizing s with
  | nil => rfl
  | cons tx txs ih => exact ih _

end

end Velocious
