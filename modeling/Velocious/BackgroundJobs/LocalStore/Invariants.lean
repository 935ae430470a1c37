/-
  The invariants of the local background-jobs store: its counters are exact and
  within their caps, a job fails for good exactly at its last attempt, terminal
  rows stay, and no lease is ended twice. Each is proved for every kind of
  move; `local_store_invariants` states them for every run.
-/
import Velocious.BackgroundJobs.LocalStore.Moves

namespace Velocious.LocalStore

open Foundation List

section
variable {row : JobRow} {f : JobRow → JobRow} (h : LeaseEnd row f) (r : JobRow)
include h r

theorem LeaseEnd.status :
    (f r).status ≠ .handedOff := by
  cases h with
  | completed => simp [completedRow]
  | requeued => simp [requeuedRow]
  | failed error now =>
    simp only [failedRow]
    split <;> decide

theorem LeaseEnd.concurrencyKey : (f r).concurrencyKey = r.concurrencyKey := by
  cases h <;> rfl

end

/-! ## Counters -/

/-- The counter a job's row holds a slot of. -/
def heldKey (row : JobRow) : Option Key :=
  if row.status = .handedOff then row.concurrencyKey else none

def handedOffCount (jobs : Jobs) (key : Key) : ℕ :=
  jobs.count fun row => row.status = .handedOff && row.concurrencyKey = some key

theorem handedOffCount_eq (jobs : Jobs) (key : Key) :
    handedOffCount jobs key = holders heldKey jobs key := by
  refine Table.count_congr fun row _ => ?_
  by_cases h : row.status = .handedOff <;> simp [heldKey]

theorem heldKey_queued {row : JobRow} (h : row.status = .queued) : heldKey row = none := by
  simp [heldKey, h]

theorem carried_of_heldKey {row : JobRow} {key : Key} (h : heldKey row = some key) :
    row.concurrencyKey = some key := by
  unfold heldKey at h
  split at h
  · exact h
  · cases h

abbrev CountedJobs (s : Db) : Prop := Counted JobRow.concurrencyKey heldKey s.jobs s.concurrency

theorem recount_eq_self {s : Db} (hs : CountedJobs s) :
    s.concurrency.update (fun _ => true) (recountRow s.jobs) (recountRow_key s.jobs) =
      s.concurrency := by
  refine hs.balanced.rebuild_eq_self _ _ fun c hc => ?_
  rw [← handedOffCount_eq, handedOffCount] at hc
  rw [recountRow, ← hc]

theorem Move.counted {s s' : Db} {es : List Event} (h : Move s es s') (hs : CountedJobs s) :
    CountedJobs s' := by
  cases h with
  | register c h => exact hs.register (fun _ _ _ hk => carried_of_heldKey hk) h
  | insert row hq _ hk hj => exact hs.insert (heldKey_queued hq) hk hj
  | dispatch handoffId workerId now h hq hc =>
    exact hs.take (handedOffRow_id _ _ _) h (heldKey_queued hq) rfl rfl hc
  | @leave row f hf h hh hl =>
    exact hs.leave hf h (by simp [heldKey, hh]) (by simp [heldKey, hl.status row])
      (hl.concurrencyKey row)
  | rekey c h hq hk => exact hs.rewrite (rekeyedRow_id c) h (heldKey_queued hq) (heldKey_queued hq) hk
  | recount =>
    rw [recount_eq_self hs]
    exact hs
  | clear => exact counted_empty

/-- A job has at most one attempt more than its retries, and has failed for good
    exactly when it has that many. -/
def Attempted (row : JobRow) : Prop :=
  row.attempts ≤ row.maxRetries + 1 ∧ (row.status = .failed ↔ row.attempts = row.maxRetries + 1)

theorem willRetry_iff {row : JobRow} : willRetry row = true ↔ row.attempts + 1 ≤ row.maxRetries := by
  simp [willRetry, normalizeBackgroundJobMaxRetries, JsNumber.floor?]

theorem LeaseEnd.attempted {row : JobRow} {f : JobRow → JobRow} (h : LeaseEnd row f)
    (hs : row.status = .handedOff) (ha : Attempted row) : Attempted (f row) := by
  obtain ⟨hle, hiff⟩ := ha
  rw [hs] at hiff
  have hne : row.attempts ≠ row.maxRetries + 1 := fun he => by simpa using hiff.mpr he
  cases h with
  | completed => exact ⟨hle, by simpa [completedRow] using hne⟩
  | requeued => exact ⟨hle, by simpa [requeuedRow] using hne⟩
  | failed error now =>
    have hw := @willRetry_iff row
    refine ⟨by simp only [failedRow]; omega, ?_⟩
    cases hr : willRetry row with
    | true =>
      have := hw.mp hr
      simp only [failedRow, hr, if_true, reduceCtorEq, false_iff]
      omega
    | false =>
      have : ¬row.attempts + 1 ≤ row.maxRetries := fun h => by simp [hw.mpr h] at hr
      simp only [failedRow, hr, Bool.false_eq_true, if_false, true_iff]
      omega

theorem Move.attempted {s s' : Db} {es : List Event} (h : Move s es s')
    (hs : ∀ row ∈ s.jobs, Attempted row) : ∀ row ∈ s'.jobs, Attempted row := by
  have hmodify : ∀ {row : JobRow} {f : JobRow → JobRow} (hf : ∀ row, (f row).id = row.id),
      s.jobs.find? row.id = some row → (Attempted row → Attempted (f row)) →
      ∀ r ∈ s.jobs.modify row.id f hf, Attempted r := by
    intro row f hf h hfr r hr
    rcases (Table.mem_modify h).mp hr with rfl | ⟨hr, -⟩
    · exact hfr (hs row (Table.mem_of_find? h))
    · exact hs r hr
  cases h with
  | register | recount => exact hs
  | insert row hq ha _ hj =>
    intro r hr
    rcases (Table.mem_insert? hj).mp hr with hr | rfl
    · exact hs r hr
    · exact ⟨by omega, by simp [hq, ha]⟩
  | dispatch handoffId workerId now h hq _ =>
    refine hmodify (handedOffRow_id _ _ _) h fun ⟨hle, hiff⟩ => ⟨hle, ?_⟩
    simpa [handedOffRow, hq] using hiff
  | leave hf h hh hl => exact hmodify hf h (hl.attempted hh)
  | rekey c h _ _ => exact hmodify (rekeyedRow_id c) h fun ha => ha
  | clear => exact fun r hr => (Table.not_mem_empty hr).elim

/-! ## Terminal rows -/

theorem Move.terminal {s s' : Db} {es : List Event} (hm : Move s es s') {id : String}
    {row : JobRow} (h : s.jobs.find? id = some row) (ht : row.status.terminal = true) :
    s'.jobs.find? id = some row ∨ .deleted ∈ es := by
  have hkeep : ∀ {r : JobRow} {f : JobRow → JobRow} (hf : ∀ row, (f row).id = row.id),
      s.jobs.find? r.id = some r → r.status.terminal = false →
      (s.jobs.modify r.id f hf).find? id = some row := by
    intro r f hf hr hlive
    rw [Table.find?_modify, if_neg, h]
    rintro rfl
    rw [hr] at h
    cases h
    rw [ht] at hlive
    cases hlive
  cases hm with
  | register | recount => exact .inl h
  | insert r _ _ _ hj =>
    left
    rw [Table.find?_insert? hj, if_neg, h]
    rintro rfl
    rw [(Table.insert?_eq_some.mp hj).1] at h
    cases h
  | dispatch handoffId workerId now hf hq _ =>
    exact .inl (hkeep (handedOffRow_id _ _ _) hf (by rw [hq]; rfl))
  | leave hf hr hh _ => exact .inl (hkeep hf hr (by rw [hh]; rfl))
  | rekey c hr hq _ => exact .inl (hkeep (rekeyedRow_id c) hr (by rw [hq]; rfl))
  | clear => exact .inr (by simp)

theorem Moves.terminal {s s' : Db} {es : List Event} (hm : Moves s es s') {id : String}
    {row : JobRow} (h : s.jobs.find? id = some row) (ht : row.status.terminal = true) :
    s'.jobs.find? id = some row ∨ .deleted ∈ es := by
  induction hm with
  | nil => exact .inl h
  | cons hm _ ih =>
    rw [mem_append]
    rcases hm.terminal h ht with h' | hd
    · exact (ih h').imp_right .inr
    · exact .inr (.inl hd)

theorem deleted_mem_events {tx : Tx} {s : Db} {answer : Answer} {s' : Db}
    (h : .deleted ∈ tx.events s answer s') : tx = .clearAll := by
  unfold Tx.events at h
  split at h
  all_goals first | rfl | (split at h <;> simp at h) | simp at h

theorem run_terminal (sha256 : String → String) {id : String} {row : JobRow}
    (ht : row.status.terminal = true) (txs : List Tx) :
    ∀ {s : Db}, s.jobs.find? id = some row →
      (run sha256 s txs).jobs.find? id = some row ∨ .clearAll ∈ txs := by
  induction txs with
  | nil => exact fun h => .inl h
  | cons tx txs ih =>
    intro s h
    rcases Moves.terminal (exec_moves sha256 tx s) h ht with h' | hd
    · exact (ih h').imp_right (mem_cons_of_mem _)
    · have hclear : tx = .clearAll := by
        unfold Tx.eventsOf at hd
        split at hd
        · exact deleted_mem_events hd
        · cases hd
      simp [hclear]

/-- The number of jobs holding a lease. -/
abbrev leaseHolders (s : Db) (handoffId : String) : ℕ := holders JobRow.lease s.jobs handoffId

theorem Move.leases {s s' : Db} {es : List Event} (hm : Move s es s') :
    LeaseAccount leaseHolders s es s' := by
  intro l
  cases hm with
  | register | recount => simp [endedLeases]
  | insert row hq _ _ hj =>
    simp [endedLeases, holders, Table.count_insert? hj, JobRow.lease,
      hq]
  | @dispatch _ row handoffId workerId now hf hq _ =>
    have hm := holders_modify JobRow.lease (handedOffRow handoffId workerId now)
      (handedOffRow_id handoffId workerId now) hf l
    simp only [endedLeases, grantedLeases, filterMap_cons, filterMap_nil,
      count_cons, handedOffRow, leaseHolders, JobRow.lease, if_true, Option.some.injEq, beq_iff_eq] at hm ⊢
    omega
  | @leave row f hrow hf hh hl =>
    have hm := holders_modify JobRow.lease f hrow hf l
    rw [show row.lease = row.handoffId from if_pos hh,
      show (f row).lease = none from if_neg (hl.status row)] at hm
    cases hid : row.handoffId with
    | none => simpa [endedLeases, grantedLeases, hid] using hm.le
    | some handoffId =>
      simp only [endedLeases, grantedLeases, filterMap_cons, filterMap_nil,
        count_cons, hid, leaseHolders, reduceCtorEq, if_false,
        Option.some.injEq, beq_iff_eq] at hm ⊢
      omega
  | @rekey row c hf hq _ =>
    have hm := holders_modify JobRow.lease (rekeyedRow c) (rekeyedRow_id c) hf l
    simp only [JobRow.lease, rekeyedRow, hq] at hm
    simpa [endedLeases, grantedLeases] using hm.le
  | clear => simp [endedLeases, holders, Db.empty]

/-- **The local store's invariants.** After every run from the empty store:
    every counter row stores the number of handed-off jobs with its key, within
    its cap unless the key is queue-derived; no job has more attempts than its
    retries and one, and it is failed exactly when it has that many; a completed
    or failed row stays as it is until the store is cleared; and, handoff ids
    not being reused, no lease is ended by two accepted transitions. -/
theorem local_store_invariants (sha256 : String → String) (txs : List Tx) :
    let s := run sha256 .empty txs
    (∀ c ∈ s.concurrency, c.activeCount = handedOffCount s.jobs c.concurrencyKey ∧
      (queueDerivedKey c.concurrencyKey = false → c.activeCount ≤ c.maxConcurrency)) ∧
    (∀ row ∈ s.jobs, row.attempts ≤ row.maxRetries + 1 ∧
      (row.status = .failed ↔ row.attempts = row.maxRetries + 1)) ∧
    (∀ row ∈ s.jobs, row.status = .completed ∨ row.status = .failed → ∀ txs',
      (run sha256 s txs').jobs.find? row.id = some row ∨ .clearAll ∈ txs') ∧
    ((grantedLeases (runEvents sha256 .empty txs)).Nodup → ∀ handoffId,
      (endedLeases (runEvents sha256 .empty txs)).count handoffId ≤ 1) := by
  intro s
  have hm := run_moves sha256 txs .empty
  have hc : CountedJobs s := hm.invariant (I := fun _ => CountedJobs)
    (fun _ _ _ _ hs hm => hm.counted hs) (l := []) counted_empty
  have ha : ∀ row ∈ s.jobs, Attempted row := hm.invariant
    (I := fun _ s => ∀ row ∈ s.jobs, Attempted row) (fun _ _ _ _ hs hm => hm.attempted hs)
    (l := []) fun _ hr => (Table.not_mem_empty hr).elim
  refine ⟨fun c hmem => ⟨?_, hc.capped c hmem⟩, ha, fun row hrow ht txs' => ?_,
    fun hfresh handoffId => ?_⟩
  · rw [handedOffCount_eq]
    exact hc.balanced c hmem
  · refine run_terminal sha256 ?_ txs' (Table.find?_of_mem hrow)
    rcases ht with ht | ht <;> rw [ht] <;> rfl
  · have h : LeaseAccount leaseHolders _ _ _ := Steps.leases (fun _ _ _ => Move.leases) hm
    exact h.ended_once (fun _ => rfl) hfresh handoffId

/-- A lease reported completed twice is ended once. -/
theorem local_store_invariants_twice :
    (endedLeases (runEvents id .empty [.enqueue ⟨"job", [], {}, "1", 0, []⟩ (fun _ => 0),
      .markHandedOff "1" "lease" none 1 1, .markCompleted "1" (some "lease") 2,
      .markCompleted "1" (some "lease") 3])).count "lease" ≤ 1 :=
  (local_store_invariants id _).2.2.2 (by decide) "lease"

end Velocious.LocalStore
