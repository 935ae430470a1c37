/-
  The statements the store's transactions are made of (the private helpers of
  src/background-jobs/store.js): each is one SQL statement, or a few with the
  decision between them.

  Each statement has one rule `ensures_*` saying what it reads and writes;
  transactions are verified with these rules and never unfold a statement.
  The two lock statements write back the value they find, so they change
  nothing; what they order is the business of the statement-level models.
-/
import Velocious.BackgroundJobs.Store.Tables

namespace Velocious

open Foundation

/-- The body of a store transaction. -/
abbrev StoreM := Txn Db VelociousError

def getJobRowById (jobId : String) : StoreM (Option JobRow) := do
  return ((← get).jobs.find? jobId).map normalizeJobRow

/-- The rows of `background_jobs` matching `p`, in the order the database lists them. -/
def selectJobs (dbOrder : String → ℕ) (p : JobRow → Bool) : StoreM (List JobRow) := do
  return ((← get).jobs.select p).insertionSort fun a b => dbOrder a.id ≤ dbOrder b.id

/-- `_updateAffectedRows` on `background_jobs`. -/
def updateJobs (p : JobRow → Bool) (f : JobRow → JobRow)
    (hf : ∀ row, (f row).id = row.id := by intro row; rfl) : StoreM ℕ := do
  let db ← get
  set { db with jobs := db.jobs.update p f hf }
  return db.jobs.count p

/-- `DELETE FROM background_jobs`; the number of rows deleted. -/
def deleteJobs (p : JobRow → Bool) : StoreM ℕ := do
  let db ← get
  set { db with jobs := db.jobs.delete p }
  return db.jobs.count p

def insertJob (row : JobRow) : StoreM PUnit := do
  let db ← get
  match db.jobs.insert? row with
  | some jobs => set { db with jobs }
  | none => throw (uniqueViolation "background_jobs.id")

/-! ## Concurrency counters -/

def updateConcurrency (p : ConcurrencyRow → Bool) (f : ConcurrencyRow → ConcurrencyRow)
    (hf : ∀ row, (f row).concurrencyKey = row.concurrencyKey := by intro row; rfl) :
    StoreM ℕ := do
  let db ← get
  set { db with concurrency := db.concurrency.update p f hf }
  return db.concurrency.count p

def insertConcurrency (row : ConcurrencyRow) : StoreM PUnit := do
  let db ← get
  match db.concurrency.insert? row with
  | some concurrency => set { db with concurrency }
  | none => throw (uniqueViolation "background_job_concurrency.concurrency_key")

/-- The counter row of a key; `none` when this call inserted it. -/
def findOrInsertConcurrency (concurrency : Concurrency) : StoreM (Option ConcurrencyRow) := do
  match (← get).concurrency.find? concurrency.key with
  | some row => return some row
  | none =>
    tryCatch
      (do
        insertConcurrency ⟨concurrency.key, concurrency.maxConcurrency, 0⟩
        return none)
      fun error => do
        match (← get).concurrency.find? concurrency.key with
        | none => throw error
        | some row => return some row

/-- `_ensureConcurrencyKey`: registers or verifies a stable cap. -/
def ensureConcurrencyKey (concurrency : Concurrency) : StoreM PUnit := do
  match ← findOrInsertConcurrency concurrency with
  | none => pure ⟨⟩
  | some row =>
    if row.maxConcurrency ≠ concurrency.maxConcurrency then
      throw ⟨"Conflicting maxConcurrency for background job concurrencyKey: " ++
        concurrency.concurrencyKey, none⟩

/-- `_ensureQueueConcurrencyKey`: registers a cap or updates it. -/
def ensureQueueConcurrencyKey (concurrency : Concurrency) : StoreM PUnit := do
  match ← findOrInsertConcurrency concurrency with
  | none => pure ⟨⟩
  | some row =>
    if row.maxConcurrency ≠ concurrency.maxConcurrency then
      let _ ← updateConcurrency (fun row => row.concurrencyKey = concurrency.key)
        (capRow concurrency.maxConcurrency) concurrency.capRow_key

theorem lockedRow_key (row : ConcurrencyRow) :
    { row with activeCount := row.activeCount }.concurrencyKey = row.concurrencyKey := rfl

def lockConcurrencyRow (key : Option Key) : StoreM PUnit := do
  match key with
  | none => pure ⟨⟩
  | some key =>
    let _ ← updateConcurrency (fun row => row.concurrencyKey = key)
      (fun row => { row with activeCount := row.activeCount }) lockedRow_key

def reserveConcurrency (key : Key) : StoreM Bool := do
  let affectedRows ← updateConcurrency
    (fun row => row.concurrencyKey = key && row.activeCount < row.maxConcurrency) reserveRow
    reserveRow_key
  return affectedRows = 1

def releaseConcurrency (key : Option Key) : StoreM PUnit :=
  modify fun db => { db with concurrency := released db.concurrency key }

/-- The owners left after a job gives up a key. -/
def disowned (scheduleKeys : ScheduleKeys) (jobId : String) (scheduleKey : Option Key) :
    ScheduleKeys :=
  scheduleKeys.delete fun row => row.jobId = jobId && sqlEq (some row.scheduleKey) scheduleKey

def releaseScheduleOwnership (jobId : String) (scheduleKey : Key) : StoreM PUnit :=
  modify fun db => { db with scheduleKeys := disowned db.scheduleKeys jobId (some scheduleKey) }

def releaseScheduleOwnershipForJob (job : JobRow) : StoreM PUnit := do
  match job.scheduleKey with
  | none => pure ⟨⟩
  | some scheduleKey => releaseScheduleOwnership job.id scheduleKey

def upsertScheduleKey (scheduleKey : Key) (jobId : String) : StoreM PUnit :=
  modify fun db => { db with
    scheduleKeys := db.scheduleKeys.upsert ⟨scheduleKey, jobId⟩ fun row =>
      { row with jobId := jobId } }

def lockCountRevision : StoreM PUnit :=
  modify fun db => { db with countRevision := db.countRevision.map id }

def countRevision : StoreM ℤ := do
  match (← get).countRevision with
  | none => throw ⟨"Invalid background job count revision: null", none⟩
  | some revision =>
    if 0 ≤ revision ∧ revision ≤ JsNumber.maxSafeInteger then return revision
    else throw ⟨"Invalid background job count revision: " ++ toString revision, none⟩

/-- `_recordCountDelta`: a new revision and its broadcast, unless all buckets are zero. -/
def recordCountDelta (requestedDeltas : CountDeltas) : StoreM PUnit := do
  if requestedDeltas = 0 then return
  match (← get).countRevision with
  | none => throw ⟨"Background job count revision row is missing", none⟩
  | some old =>
    modify fun db => { db with countRevision := some (old + 1) }
    let revision ← countRevision
    modify fun db => { db with broadcasts := db.broadcasts ++ [⟨requestedDeltas, revision⟩] }

/-- The deltas of a change between persisted statuses. -/
def statusTransitionDeltas (oldStatus newStatus : JobStatus) : CountDeltas :=
  if oldStatus = newStatus then 0
  else
    (oldStatus.bucket?.elim 0 fun b => b.amount (-1)) +
      (newStatus.bucket?.elim 0 fun b => b.amount 1) +
      if oldStatus.bucket?.isSome = newStatus.bucket?.isSome then 0
      else Bucket.all.amount (if newStatus.bucket?.isSome then 1 else -1)

def recordStatusTransition (oldStatus newStatus : JobStatus) : StoreM PUnit :=
  recordCountDelta (statusTransitionDeltas oldStatus newStatus)

/-- `_serializedCountMutation`: a transaction body under the count-revision lock. -/
def serializedCountMutation {α : Type} (callback : StoreM α) : StoreM α := do
  lockCountRevision
  callback

/-! ## Rules -/

section rules
variable {s : Db}

variable {jobId : String}

@[simp] theorem ensures_getJobRowById {Q : Option JobRow → Db → Prop} :
    Ensures (getJobRowById jobId) s Q ↔ Q ((s.jobs.find? jobId).map normalizeJobRow) s := by
  simp [getJobRowById]

variable {p : JobRow → Bool}

@[simp] theorem ensures_selectJobs {dbOrder : String → ℕ} {Q : List JobRow → Db → Prop} :
    Ensures (selectJobs dbOrder p) s Q ↔
      Q ((s.jobs.select p).insertionSort fun a b => dbOrder a.id ≤ dbOrder b.id) s := by
  simp [selectJobs]

@[simp] theorem ensures_updateJobs {f : JobRow → JobRow}
    {hf : ∀ row, (f row).id = row.id} {Q : ℕ → Db → Prop} :
    Ensures (updateJobs p f hf) s Q ↔
      Q (s.jobs.count p) { s with jobs := s.jobs.update p f hf } := by
  simp [updateJobs]

@[simp] theorem ensures_deleteJobs {Q : ℕ → Db → Prop} :
    Ensures (deleteJobs p) s Q ↔ Q (s.jobs.count p) { s with jobs := s.jobs.delete p } := by
  simp [deleteJobs]

variable {Q : PUnit → Db → Prop}

@[simp] theorem ensures_insertJob {row : JobRow} : Ensures (insertJob row) s Q ↔
      ∀ jobs, s.jobs.insert? row = some jobs → Q ⟨⟩ { s with jobs } := by
  simp only [insertJob, ensures_bind, ensures_get]
  cases s.jobs.insert? row <;> simp

@[simp] theorem ensures_updateConcurrency {p : ConcurrencyRow → Bool}
    {f : ConcurrencyRow → ConcurrencyRow}
    {hf : ∀ row, (f row).concurrencyKey = row.concurrencyKey} {Q : ℕ → Db → Prop} :
    Ensures (updateConcurrency p f hf) s Q ↔
      Q (s.concurrency.count p) { s with concurrency := s.concurrency.update p f hf } := by
  simp [updateConcurrency]

@[simp] theorem ensures_insertConcurrency {row : ConcurrencyRow} :
    Ensures (insertConcurrency row) s Q ↔
      ∀ concurrency, s.concurrency.insert? row = some concurrency →
        Q ⟨⟩ { s with concurrency } := by
  simp only [insertConcurrency, ensures_bind, ensures_get]
  cases s.concurrency.insert? row <;> simp

@[simp] theorem ensures_lockConcurrencyRow {key : Option Key} :
    Ensures (lockConcurrencyRow key) s Q ↔ Q ⟨⟩ s := by
  cases key with
  | none => simp [lockConcurrencyRow]
  | some key =>
    have h : s.concurrency.update (fun row => row.concurrencyKey = key)
        (fun row => { row with activeCount := row.activeCount }) = s.concurrency := by
      simp [Table.update]
    simp [lockConcurrencyRow, h]

@[simp] theorem ensures_releaseConcurrency {key : Option Key} :
    Ensures (releaseConcurrency key) s Q ↔
      Q ⟨⟩ { s with concurrency := released s.concurrency key } := by
  simp [releaseConcurrency]

@[simp] theorem ensures_releaseScheduleOwnership {scheduleKey : Key} :
    Ensures (releaseScheduleOwnership jobId scheduleKey) s Q ↔
      Q ⟨⟩ { s with scheduleKeys := disowned s.scheduleKeys jobId (some scheduleKey) } := by
  simp [releaseScheduleOwnership]

theorem disowned_none {scheduleKeys : ScheduleKeys} :
    disowned scheduleKeys jobId none = scheduleKeys :=
  Table.delete_eq_self (by simp)

@[simp] theorem ensures_releaseScheduleOwnershipForJob {job : JobRow} :
    Ensures (releaseScheduleOwnershipForJob job) s Q ↔
      Q ⟨⟩ { s with scheduleKeys := disowned s.scheduleKeys job.id job.scheduleKey } := by
  unfold releaseScheduleOwnershipForJob
  cases job.scheduleKey <;> simp [disowned_none]

@[simp] theorem ensures_upsertScheduleKey {scheduleKey : Key} :
    Ensures (upsertScheduleKey scheduleKey jobId) s Q ↔
      Q ⟨⟩ { s with
        scheduleKeys := s.scheduleKeys.upsert ⟨scheduleKey, jobId⟩ fun row =>
          { row with jobId := jobId } } := by
  simp [upsertScheduleKey]

@[simp] theorem ensures_serializedCountMutation {α : Type} {callback : StoreM α}
    {Q : α → Db → Prop} :
    Ensures (serializedCountMutation callback) s Q ↔ Ensures callback s Q := by
  simp [serializedCountMutation, lockCountRevision]

end rules

/-- What recording deltas does: nothing when all are zero, else the next
    revision with its broadcast. -/
inductive Recorded (deltas : CountDeltas) (s : Db) : Db → Prop where
  | none : deltas = 0 → Recorded deltas s s
  | some (revision : ℤ) : deltas ≠ 0 → s.countRevision = .some revision → 0 ≤ revision + 1 →
      Recorded deltas s { s with
        countRevision := .some (revision + 1)
        broadcasts := s.broadcasts ++ [⟨deltas, revision + 1⟩] }

theorem ensures_recordCountDelta {deltas : CountDeltas} {s : Db} {Q : PUnit → Db → Prop}
    (h : ∀ s', Recorded deltas s s' → Q ⟨⟩ s') : Ensures (recordCountDelta deltas) s Q := by
  unfold recordCountDelta
  by_cases hd : deltas = 0
  · simpa [hd] using h s (.none hd)
  · cases hr : s.countRevision with
    | none => simp [hd, hr]
    | some revision =>
      simp only [hd, hr, countRevision, ensures_bind, ensures_get, ensures_modify, ensures_ite,
        ensures_throw, ensures_pure, if_false, implies_true, and_true]
      rintro ⟨h0, -⟩
      exact h _ (.some revision hd hr h0)

end Velocious
