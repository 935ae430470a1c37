/-
  The durable concurrency counters of the SQL background-jobs store.

  A job carries the key of its contract and holds a slot of it while it is
  handed off. `Move.counted` proves that every kind of move keeps the counters
  in step with the jobs, and `concurrency_counters_exact` that every run does.
-/
import Velocious.BackgroundJobs.Store.Outcome

namespace Velocious

open Foundation

/-- The counter a job's row holds a slot of. -/
def heldKey (row : JobRow) : Option Key :=
  if row.status = .handedOff then row.concurrencyKey else none

def handedOffCount (jobs : Jobs) (key : Key) : ℕ :=
  jobs.count fun row => row.status = .handedOff && row.concurrencyKey = some key

theorem handedOffCount_eq (jobs : Jobs) (key : Key) :
    handedOffCount jobs key = holders heldKey jobs key := by
  refine Table.count_congr fun row _ => ?_
  by_cases h : row.status = .handedOff <;> simp [heldKey]

/-- The invariant of the counters of the job tables. -/
abbrev CountedJobs (s : JobTables) : Prop :=
  Counted JobRow.concurrencyKey heldKey s.jobs s.concurrency

/-! ## Moves -/

variable {row : JobRow}

theorem heldKey_queued (h : row.status = .queued) : heldKey row = none := by
  simp [heldKey, h]

theorem heldKey_handedOff (h : row.status = .handedOff) : heldKey row = row.concurrencyKey := by
  simp [heldKey, h]

theorem carried_of_heldKey {key : Key} (h : heldKey row = some key) :
    row.concurrencyKey = some key := by
  unfold heldKey at h
  split at h
  · exact h
  · cases h

theorem LeaseEnd.status {f : JobRow → JobRow} (h : LeaseEnd row f) (r : JobRow) :
    (f r).status ≠ .handedOff := by
  cases h with
  | completed => simp [completedRow]
  | requeued => simp [requeuedRow]
  | failed error markOrphaned now =>
    rw [failureOf_status]
    cases markOrphaned <;> cases shouldRetry row <;> decide
  | cancelled => simp [cancelledRow]

theorem LeaseEnd.keys {f : JobRow → JobRow} (h : LeaseEnd row f) (r : JobRow) :
    (f r).concurrencyKey = r.concurrencyKey ∧ (f r).scheduleKey = r.scheduleKey := by
  cases h <;> exact ⟨rfl, rfl⟩

theorem CountedJobs.cancelQueued {s : JobTables} (hs : CountedJobs s)
    (h : s.jobs.find? row.id = some row) (hq : row.status = .queued) :
    CountedJobs { s with jobs := s.jobs.modify row.id cancelledRow cancelledRow_id } :=
  hs.rewrite cancelledRow_id h (heldKey_queued hq) rfl (hs.registered row (Table.mem_of_find? h))

theorem Move.counted {s s' : JobTables} {es : List Event} (h : Move s es s')
    (hs : CountedJobs s) : CountedJobs s' := by
  cases h with
  | register c h => exact hs.register (fun _ _ _ hk => carried_of_heldKey hk) h
  | insert row hn _ hk hj => exact hs.insert (heldKey_queued hn.queued) hk hj
  | replace scheduleKey row hn _ hk hj₁ hj =>
    cases ho : queuedOwner s scheduleKey with
    | none =>
      rw [ho] at hj₁
      subst hj₁
      exact hs.insert (heldKey_queued hn.queued) hk hj
    | some owner =>
      rw [ho] at hj₁
      subst hj₁
      obtain ⟨hrow, hq⟩ : ownerRow s scheduleKey = some owner ∧ owner.status = .queued := by
        simpa [queuedOwner_eq] using ho
      have hc : CountedJobs _ := CountedJobs.cancelQueued hs (ownerRow_find? hrow) hq
      exact hc.insert (heldKey_queued hn.queued) hk hj
  | dispatch handoffId workerId now h hq hc =>
    exact hs.take (handedOffRow_id _ _ _) h (heldKey_queued hq) rfl rfl hc
  | @leave row f hf h hh hl =>
    exact hs.leave hf h (heldKey_handedOff hh) (by simp [heldKey, hl.status row]) (hl.keys row).1
  | withdraw scheduleKey h hq _ => exact CountedJobs.cancelQueued hs h hq
  | detach => exact hs
  | prune p hp =>
    refine hs.delete fun row hrow hpr => ?_
    have ht := (hp row hrow hpr).1
    cases hstatus : row.status <;> simp_all [heldKey, JobStatus.terminal]
  | clear => exact counted_empty

theorem run_counted (sha256 : String → String) {s : Db} (hs : CountedJobs s.toJobTables)
    (txs : List Tx) : CountedJobs (run sha256 s txs).toJobTables :=
  (run_moves sha256 txs s).invariant (I := fun _ => CountedJobs)
    (fun _ _ _ _ hs hm => hm.counted hs) (l := []) hs

end Velocious
