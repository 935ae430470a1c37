/-
  The life of a job: the abstract model of the SQL background-jobs store.

  A `Move` is one indivisible change of the job tables: a concurrency key is
  registered, a job is inserted, replaces the owner of its schedule key, is
  dispatched under a new lease, leaves its lease, is withdrawn while queued,
  its schedule key is detached, or rows are pruned or cleared. Each constructor says
  what the three tables become, so an invariant of the store is proved by one
  case for each kind of move.

  The events of a move record what happened to which job; a run of the store is
  judged by its events.
-/
import Velocious.BackgroundJobs.Store.Run

namespace Velocious

open Foundation

def JobRow.lease (row : JobRow) : Option String :=
  if row.status = .handedOff then row.handoffId else none

def leaseOf (jobs : Jobs) (jobId : String) : Option String :=
  (jobs.find? jobId).bind JobRow.lease

/-- How a handed-off job's row may leave its lease. -/
inductive LeaseEnd (row : JobRow) : (JobRow → JobRow) → Prop where
  | completed (now : ℤ) :
      LeaseEnd row (completedRow now)
  | requeued (scheduledAtMs : ℤ) : LeaseEnd row (requeuedRow scheduledAtMs)
  | failed (error : JobError) (markOrphaned : Bool) (now : ℤ) :
      LeaseEnd row (failureOf row error markOrphaned now)
  | cancelled : LeaseEnd row cancelledRow

/-- A row as the store inserts it. -/
structure NewRow (row : JobRow) : Prop where
  queued : row.status = .queued
  attempts : row.attempts = 0
  handoffId : row.handoffId = none

/-- The row whose key a new job takes, when it is still queued. -/
def queuedOwner (s : JobTables) (scheduleKey : Key) : Option JobRow :=
  ((s.scheduleKeys.find? scheduleKey).bind fun owner => s.jobs.find? owner.jobId).filter
    fun row => row.status = .queued

/-- One change of the job tables, with what it did. -/
inductive Move : JobTables → List Event → JobTables → Prop where
  | register {s concurrency} (c : Concurrency) : Ensured c s.concurrency concurrency →
      Move s [] { s with concurrency }
  | insert {s jobs} (row : JobRow) : NewRow row → row.scheduleKey = none →
      (∀ key, row.concurrencyKey = some key → ∃ c, s.concurrency.find? key = some c) →
      s.jobs.insert? row = some jobs → Move s [.inserted row.id] { s with jobs }
  | replace {s jobs₁ jobs} (scheduleKey : Key) (row : JobRow) : NewRow row →
      row.scheduleKey = some scheduleKey →
      (∀ key, row.concurrencyKey = some key → ∃ c, s.concurrency.find? key = some c) →
      jobs₁ = (queuedOwner s scheduleKey).elim s.jobs (fun owner =>
        s.jobs.modify owner.id cancelledRow cancelledRow_id) →
      jobs₁.insert? row = some jobs →
      Move s ((queuedOwner s scheduleKey).toList.map (fun owner => .withdrawn owner.id) ++
          [.inserted row.id])
        { s with
          jobs := jobs
          scheduleKeys := s.scheduleKeys.upsert ⟨scheduleKey, row.id⟩ fun owner =>
            { owner with jobId := row.id } }
  | dispatch {s concurrency row} (handoffId : String) (workerId : Option String) (now : ℤ) :
      s.jobs.find? row.id = some row → row.status = .queued →
      Reserved s.concurrency row.concurrencyKey concurrency →
      Move s [.granted row.id handoffId]
        { s with
          jobs := s.jobs.modify row.id (handedOffRow handoffId workerId now)
            (handedOffRow_id handoffId workerId now)
          concurrency := concurrency }
  | leave {s row f} (hf : ∀ row, (f row).id = row.id) : s.jobs.find? row.id = some row →
      row.status = .handedOff → LeaseEnd row f →
      Move s [.ended row.id row.handoffId]
        { jobs := s.jobs.modify row.id f hf
          concurrency := released s.concurrency row.concurrencyKey
          scheduleKeys := if (f row).status.terminal then
            disowned s.scheduleKeys row.id row.scheduleKey else s.scheduleKeys }
  | withdraw {s row} (scheduleKey : Option Key) : s.jobs.find? row.id = some row →
      row.status = .queued →
      (scheduleKey = row.scheduleKey ∨
        ∃ key, scheduleKey = some key ∧ s.scheduleKeys.find? key = some ⟨key, row.id⟩) →
      Move s [.withdrawn row.id]
        { s with
          jobs := s.jobs.modify row.id cancelledRow cancelledRow_id
          scheduleKeys := disowned s.scheduleKeys row.id scheduleKey }
  | detach {s jobId} (scheduleKey : Key) :
      s.scheduleKeys.find? scheduleKey = some ⟨scheduleKey, jobId⟩ →
      (∀ row, s.jobs.find? jobId = some row → row.status ≠ .queued) →
      Move s [] { s with scheduleKeys := disowned s.scheduleKeys jobId (some scheduleKey) }
  | prune {s} (p : JobRow → Bool) :
      (∀ row ∈ s.jobs, p row → row.status.terminal ∧ row.status ≠ .cancelled) →
      Move s [.deleted] { s with jobs := s.jobs.delete p }
  | clear {s} : Move s [.deleted] ⟨.empty, .empty, .empty⟩

/-- A sequence of moves, with all their events. -/
abbrev Moves : JobTables → List Event → JobTables → Prop := Steps Move

theorem Move.moves {s s' : JobTables} {es : List Event} (h : Move s es s') : Moves s es s' :=
  .single h

/-! ## Counts -/

def JobStatus.weight (status : JobStatus) : CountDeltas := fun b => if b.counts status then 1 else 0

theorem statusTransitionDeltas_eq (oldStatus newStatus : JobStatus) :
    statusTransitionDeltas oldStatus newStatus = newStatus.weight - oldStatus.weight := by
  funext b
  cases oldStatus <;> cases newStatus <;> cases b <;> rfl

theorem enqueuedDeltas_eq : enqueuedDeltas = JobStatus.queued.weight := by
  funext b
  cases b <;> rfl

theorem weight_of_bucket {status : JobStatus} {bucket : Bucket} (h : status.bucket? = some bucket)
    (n : ℤ) : Bucket.all.amount n + bucket.amount n = n • status.weight := by
  funext b
  cases status <;> cases h <;> cases b <;> simp [Bucket.amount, JobStatus.weight, Bucket.counts,
    JobStatus.bucket?]

@[simp] theorem weight_cancelled : JobStatus.cancelled.weight = 0 := by
  funext b
  cases b <;> rfl

theorem jobCounts_insert {jobs jobs' : Jobs} {row : JobRow} (h : jobs.insert? row = some jobs') :
    jobCounts jobs' = jobCounts jobs + row.status.weight := by
  funext b
  simp only [jobCounts, Table.count_insert? h]
  push_cast
  rfl

theorem jobCounts_modify {jobs : Jobs} {id : String} {row : JobRow} (f : JobRow → JobRow)
    (hf : ∀ row, (f row).id = row.id) (h : jobs.find? id = some row) :
    jobCounts (jobs.modify id f hf) = jobCounts jobs - row.status.weight + (f row).status.weight := by
  funext b
  have hc := Table.count_modify f hf h fun row => b.counts row.status
  simp only [jobCounts, JobStatus.weight, Pi.add_apply, Pi.sub_apply]
  split at hc <;> split at hc <;> simp_all
  all_goals omega

theorem jobCounts_delete {jobs : Jobs} {p : JobRow → Bool} {status : JobStatus}
    (hp : ∀ row ∈ jobs, p row → row.status = status) :
    jobCounts (jobs.delete p) = jobCounts jobs - (jobs.count p : ℤ) • status.weight := by
  funext b
  have hc := Table.count_delete_add (t := jobs) (p := p) fun row => b.counts row.status
  have hs : jobs.count (fun row => b.counts row.status && p row) =
      if b.counts status then jobs.count p else 0 := by
    split
    · next hb =>
      refine Table.count_congr fun row hrow => ?_
      by_cases hpr : p row <;> simp [hpr, hb, hp row hrow]
    · next hb =>
      refine Table.count_eq_zero.mpr fun row hrow => ?_
      by_cases hpr : p row <;> simp_all
  simp only [jobCounts, JobStatus.weight, Pi.sub_apply, Pi.smul_apply]
  split at hs <;> simp_all
  all_goals omega

end Velocious
