/-
  Queue-concurrency reconciliation (`reconcileQueueConcurrency` in
  src/background-jobs/store.js) at statement granularity, beside the
  transactions that hand jobs off and take them back.

  Each statement of the reconciliation commits by itself. A transaction holds
  the count-revision lock from its start, so one is open at a time; its writes
  are its own until it commits, and its row locks block the statements of the
  reconciliation that would write those rows. Its other statements (schedule
  keys, count revision) touch neither jobs nor counters.
-/
import Velocious.Foundation.Machine
import Velocious.BackgroundJobs.Store.Concurrency

namespace Velocious

open Foundation

/-! ## The transactions -/

/-- An update of a job row fenced on a status, to a row that holds a slot or not. -/
structure Transition (source : JobStatus) (holds : Bool) where
  fence : JobRow → Bool
  rewrite : JobRow → JobRow
  fenced : ∀ row, fence row = true → row.status = source
  rewrite_id : ∀ row, (rewrite row).id = row.id
  rewrite_key : ∀ row, (rewrite row).concurrencyKey = row.concurrencyKey
  rewrite_status : ∀ row, decide ((rewrite row).status = .handedOff) = holds

/-- What a transaction does to the job it read. -/
inductive Plan where
  | nothing
  | take (t : Transition .queued true)
  /-- lock the counter, update the job, then release its slot -/
  | leave (t : Transition .handedOff false)
  | withdraw (t : Transition .queued false)

/-- A transaction by its call. -/
inductive Call where
  | markHandedOff (jobId handoffId : String) (workerId : Option String) (now : ℤ)
  | markCompleted (jobId : String) (report : Report) (now : ℤ)
  | markReturnedToQueue (jobId handoffId : String) (now : ℤ)
  | markFailed (jobId : String) (error : JobError) (report : Report) (now : ℤ)
  | cancel (jobId : String)

def Call.jobId : Call → String
  | markHandedOff jobId _ _ _ | markCompleted jobId _ _ | markReturnedToQueue jobId _ _
  | markFailed jobId _ _ _ | cancel jobId => jobId

/-- A transition fenced on the lease of the job that was read. -/
def leaseTransition (job : JobRow) (f : JobRow → JobRow) (hid : ∀ row, (f row).id = row.id)
    (hkey : ∀ row, (f row).concurrencyKey = row.concurrencyKey)
    (hstatus : ∀ row, (f row).status ≠ .handedOff) : Transition .handedOff false where
  fence row := row.status = .handedOff && sqlEq row.handoffId job.handoffId
  rewrite := f
  fenced row h := by simp_all
  rewrite_id := hid
  rewrite_key := hkey
  rewrite_status row := by simpa using hstatus row

def cancelTransition (status : JobStatus) : Transition status false where
  fence row := row.status = status
  rewrite := cancelledRow
  fenced row h := by simpa using h
  rewrite_id := cancelledRow_id
  rewrite_key _ := rfl
  rewrite_status _ := rfl

theorem failureOf_not_handedOff (job : JobRow) (error : JobError) (markOrphaned : Bool) (now : ℤ)
    (row : JobRow) : (failureOf job error markOrphaned now row).status ≠ .handedOff := by
  rw [failureOf_status]
  cases markOrphaned <;> cases shouldRetry job <;> decide

/-- What a call does to the job it read. -/
def Call.plan (call : Call) (job : JobRow) : Plan :=
  match call with
  | markHandedOff _ handoffId workerId now =>
    if job.status ≠ .queued then .nothing
    else .take
      { fence := fun row => row.status = .queued
        rewrite := handedOffRow handoffId (orNull workerId) now
        fenced := fun row h => by simpa using h
        rewrite_id := fun _ => rfl
        rewrite_key := fun _ => rfl
        rewrite_status := fun _ => rfl }
  | markCompleted _ report now =>
    if !shouldAcceptReport job report then .nothing
    else .leave (leaseTransition job (completedRow now) (completedRow_id now) (fun _ => rfl)
      fun _ => by simp [completedRow])
  | markReturnedToQueue _ handoffId now =>
    if job.handoffId ≠ some handoffId || job.status ≠ .handedOff then .nothing
    else .leave (leaseTransition job (requeuedRow now) (requeuedRow_id now) (fun _ => rfl)
      fun _ => by simp [requeuedRow])
  | markFailed _ error report now =>
    if !shouldAcceptReport job report then .nothing
    else .leave (leaseTransition job (failureOf job error false now)
      (failureOf_id job error false now) (fun _ => rfl) (failureOf_not_handedOff _ _ _ _))
  | cancel _ =>
    match job.status with
    | .queued => .withdraw (cancelTransition .queued)
    | .handedOff => .leave (cancelTransition .handedOff)
    | _ => .nothing

/-- How far the open transaction is. A counter row or a job row it carries is
    one it has written and locked. -/
inductive Stage where
  | begun (call : Call)
  | planned (job : JobRow) (plan : Plan)
  | reserved (job : JobRow) (t : Transition .queued true) (counter : Option ConcurrencyRow)
  | locked (job : JobRow) (t : Transition .handedOff false) (counter : Option ConcurrencyRow)
  | updated (job written : JobRow) (counter : Option ConcurrencyRow)
  | finished (job : JobRow) (written : Option JobRow) (counter : Option ConcurrencyRow)
  | missed

def releaseCounter (row : ConcurrencyRow) : ConcurrencyRow :=
  if 0 < row.activeCount then releaseRow row else row

/-- The transaction's next statement. -/
def Stage.next (jobs : Jobs) (concurrency : ConcurrencyTable) : Stage → Option Stage
  | begun call =>
    match jobs.find? call.jobId with
    | none => some missed
    | some row => some (planned (normalizeJobRow row) (call.plan (normalizeJobRow row)))
  | planned job .nothing => some (finished job none none)
  | planned job (.take t) =>
    match job.concurrencyKey with
    | none => some (reserved job t none)
    | some key =>
      match (concurrency.find? key).filter fun row => row.activeCount < row.maxConcurrency with
      | some row => some (reserved job t (some (reserveRow row)))
      | none => some (finished job none none)
  | planned job (.leave t) => some (locked job t (job.concurrencyKey.bind concurrency.find?))
  | planned job (.withdraw t) =>
    some (finished job (((jobs.find? job.id).filter t.fence).map t.rewrite) none)
  | reserved job t counter =>
    match (jobs.find? job.id).filter t.fence with
    | some row => some (finished job (some (t.rewrite row)) counter)
    | none => some (finished job none (counter.map releaseCounter))
  | locked job t counter =>
    match (jobs.find? job.id).filter t.fence with
    | some row => some (updated job (t.rewrite row) counter)
    | none => some (finished job none counter)
  | updated job written counter =>
    -- the release finds the row it locked, or one inserted since
    some (finished job (some written)
      ((counter.or (job.concurrencyKey.bind concurrency.find?)).map releaseCounter))
  | finished _ _ _ | missed => none

def Stage.lockedJob : Stage → Option String
  | updated _ written _ => some written.id
  | finished _ written _ => written.map JobRow.id
  | _ => none

/-- The counter row a transaction has locked. -/
def Stage.lockedCounter : Stage → Option Key
  | reserved _ _ counter | locked _ _ counter | updated _ _ counter | finished _ _ counter =>
    counter.map ConcurrencyRow.concurrencyKey
  | _ => none

/-! ## The reconciliation -/

/-- A queue with a configured cap. -/
structure CappedQueue where
  queue : String
  contract : Concurrency

def cappedQueues (queues : Queues) : List CappedQueue :=
  queues.filterMap fun (queue, _) => (queueConcurrency queues queue).map (CappedQueue.mk queue)

/-- The next statement of the reconciliation. -/
inductive Reconcile where
  | ensure (q : CappedQueue) (rest : List CappedQueue)
  | insert (q : CappedQueue) (rest : List CappedQueue)
  | reread (q : CappedQueue) (rest : List CappedQueue)
  | setCap (q : CappedQueue) (rest : List CappedQueue)
  | adopt (q : CappedQueue) (rest : List CappedQueue)
  | selectKeys
  /-- take the keys of queues without a cap from live jobs, then recount -/
  | release (keys : List Key)
  | done

/-- The first statement for the queues left. -/
def Reconcile.queues : List CappedQueue → Reconcile
  | [] => selectKeys
  | q :: rest => ensure q rest

/-- The statement after the counter row of a queue was read. -/
def Reconcile.configured (q : CappedQueue) (rest : List CappedQueue) (row : ConcurrencyRow) :
    Reconcile :=
  if row.maxConcurrency ≠ q.contract.maxConcurrency then setCap q rest else adopt q rest

def CappedQueue.adoptable (q : CappedQueue) (row : JobRow) : Bool :=
  row.queue = q.queue && row.concurrencyKey = none && !row.status.terminal

def CappedQueue.adoptedRow (q : CappedQueue) (row : JobRow) : JobRow :=
  { row with
    concurrencyKey := some q.contract.key
    maxConcurrency := some q.contract.maxConcurrency }

@[simp] theorem CappedQueue.adoptedRow_id (q : CappedQueue) (row : JobRow) :
    (q.adoptedRow row).id = row.id := rfl

def releasable (key : Key) (row : JobRow) : Bool :=
  row.concurrencyKey = some key && !row.status.terminal

def unkeyedRow (row : JobRow) : JobRow :=
  { row with
    concurrencyKey := none
    maxConcurrency := none }

@[simp] theorem unkeyedRow_id (row : JobRow) : (unkeyedRow row).id = row.id := rfl

/-- The queue keys without a cap among the counters. -/
def uncappedKeys (queues : Queues) (keys : List Key) : List Key :=
  keys.filter fun key => queueDerivedKey key &&
    !(cappedQueues queues).any fun q => queueConcurrencyKey q.queue = key.val

def recountRow (jobs : Jobs) (row : ConcurrencyRow) : ConcurrencyRow :=
  { row with activeCount := handedOffCount jobs row.concurrencyKey }

@[simp] theorem recountRow_key (jobs : Jobs) (row : ConcurrencyRow) :
    (recountRow jobs row).concurrencyKey = row.concurrencyKey := rfl

/-! ## Interleavings -/

/-- The committed tables, and where the two parties are. -/
structure World where
  jobs : Jobs
  concurrency : ConcurrencyTable
  reconcile : Reconcile
  tx : Option Stage

def World.init (queues : Queues) (jobs : Jobs) (concurrency : ConcurrencyTable) : World where
  jobs := jobs
  concurrency := concurrency
  reconcile := .queues (cappedQueues queues)
  tx := none

def World.lockedJob (w : World) : Option String := w.tx.bind Stage.lockedJob
def World.lockedCounter (w : World) : Option Key := w.tx.bind Stage.lockedCounter

/-- Whether the open transaction has locked a row that `p` matches. -/
def World.blocks (w : World) (p : JobRow → Bool) : Bool := (w.lockedJob.bind w.jobs.find?).any p

/-- What can happen. -/
inductive Action where
  | begin (call : Call)
  | statement
  | commit
  | rollback
  /-- a statement of the reconciliation, with the order the database lists keys in -/
  | reconcile (dbOrder : String → ℕ)

/-- The next statement of the reconciliation, unless it is blocked. -/
def World.reconciled (queues : Queues) (dbOrder : String → ℕ) (w : World) : Option World :=
  match w.reconcile with
  | .ensure q rest =>
    match w.concurrency.find? q.contract.key with
    | some row => some { w with reconcile := .configured q rest row }
    | none => some { w with reconcile := .insert q rest }
  | .insert q rest =>
    match w.concurrency.insert? ⟨q.contract.key, q.contract.maxConcurrency, 0⟩ with
    | some concurrency => some { w with concurrency, reconcile := .adopt q rest }
    | none => some { w with reconcile := .reread q rest }
  | .reread q rest =>
    -- without a row it throws, and never finishes
    (w.concurrency.find? q.contract.key).map fun row =>
      { w with reconcile := .configured q rest row }
  | .setCap q rest =>
    if w.lockedCounter = some q.contract.key then none
    else some { w with
      concurrency := w.concurrency.modify q.contract.key (capRow q.contract.maxConcurrency)
        (capRow_key _)
      reconcile := .adopt q rest }
  | .adopt q rest =>
    if w.blocks q.adoptable then none
    else some { w with
      jobs := w.jobs.update q.adoptable q.adoptedRow q.adoptedRow_id
      reconcile := .queues rest }
  | .selectKeys =>
    let keys := (w.concurrency.rows.map ConcurrencyRow.concurrencyKey).insertionSort
      fun a b => dbOrder a.val ≤ dbOrder b.val
    some { w with reconcile := .release (uncappedKeys queues keys) }
  | .release (key :: keys) =>
    if w.blocks (releasable key) then none
    else some { w with
      jobs := w.jobs.update (releasable key) unkeyedRow unkeyedRow_id
      reconcile := .release keys }
  | .release [] =>
    if w.lockedCounter.isSome then none
    else some { w with
      concurrency := w.concurrency.update (fun _ => true) (recountRow w.jobs) (recountRow_key w.jobs)
      reconcile := .done }
  | .done => none

/-- One step of the interleaving. -/
def World.step (queues : Queues) (w : World) : Action → Option World
  | .begin call => if w.tx.isSome then none else some { w with tx := some (.begun call) }
  | .statement =>
    (w.tx.bind (Stage.next w.jobs w.concurrency)).map fun stage => { w with tx := some stage }
  | .commit =>
    match w.tx with
    | some (.finished _ written counter) => some { w with
        jobs := written.elim w.jobs w.jobs.put
        concurrency := counter.elim w.concurrency w.concurrency.put
        tx := none }
    | some .missed => some { w with tx := none }
    | _ => none
  | .rollback => if w.tx.isSome then some { w with tx := none } else none
  | .reconcile dbOrder => w.reconciled queues dbOrder

/-- The parties have finished: every counter row should store the number of
    handed-off jobs with its key. -/
def World.Exact (w : World) : Prop :=
  ∀ c ∈ w.concurrency, c.activeCount = handedOffCount w.jobs c.concurrencyKey

/-- A commit after the recount finds the job under the concurrency key that the
    transaction read, or ends a handoff of a job that has no key any more, or
    cancels a queued job. -/
def CommitsUnderReadKey (w : World) (a : Action) : Prop :=
  match a, w.reconcile, w.tx with
  | .commit, .done, some (.finished job (some written) _) =>
    ∀ row, w.jobs.find? job.id = some row →
      row.concurrencyKey = job.concurrencyKey ∨
        (written.status ≠ .handedOff ∧ (row.status = .queued ∨ row.concurrencyKey = none))
  | _, _, _ => True

end Velocious
