/-
  The retry budget of the jobs in the SQL background-jobs store, and what retention may take.
-/
import Velocious.BackgroundJobs.Store.Leases

namespace Velocious

open Foundation List

/-- A job has at most one attempt more than its retries, and has failed for good or is orphaned
exactly when it has that many. -/
def Attempted (row : JobRow) : Prop :=
  row.attempts ≤ row.maxRetries + 1 ∧
    (row.status = .failed ∨ row.status = .orphaned ↔ row.attempts = row.maxRetries + 1)

theorem shouldRetry_iff {row : JobRow} :
    shouldRetry row = true ↔ row.attempts + 1 ≤ row.maxRetries := by
  simp [shouldRetry, normalizeBackgroundJobMaxRetries, JsNumber.floor?]

theorem Attempted.of_status {row row' : JobRow} (h : Attempted row)
    (hlive : row.status ≠ .failed ∧ row.status ≠ .orphaned)
    (hlive' : row'.status ≠ .failed ∧ row'.status ≠ .orphaned) (ha : row'.attempts = row.attempts)
    (hm : row'.maxRetries = row.maxRetries) : Attempted row' := by
  simp_all [Attempted]

theorem LeaseEnd.attempted {row : JobRow} {f : JobRow → JobRow} (h : LeaseEnd row f)
    (hs : row.status = .handedOff) (ha : Attempted row) : Attempted (f row) := by
  have hlive : row.status ≠ .failed ∧ row.status ≠ .orphaned := by rw [hs]; decide
  cases h with
  | completed => exact ha.of_status hlive (by simp [completedRow]) rfl rfl
  | requeued => exact ha.of_status hlive (by simp [requeuedRow]) rfl rfl
  | cancelled => exact ha.of_status hlive (by simp [cancelledRow]) rfl rfl
  | failed error markOrphaned now =>
    have hw := @shouldRetry_iff row
    have hattempts : (failureOf row error markOrphaned now row).attempts = row.attempts + 1 := rfl
    have hretries : (failureOf row error markOrphaned now row).maxRetries = row.maxRetries := rfl
    unfold Attempted at ha ⊢
    rw [hattempts, hretries, failureOf_status]
    cases hr : shouldRetry row with
    | true =>
      have := hw.mp hr
      refine ⟨by omega, ?_⟩
      simp [failureStatus]
      omega
    | false =>
      have : ¬row.attempts + 1 ≤ row.maxRetries := fun h => by simp [hw.mpr h] at hr
      have hne : row.attempts ≠ row.maxRetries + 1 := by simp_all
      refine ⟨by omega, ?_⟩
      cases markOrphaned <;> simp [failureStatus] <;> omega

section
variable {s s' : JobTables} {es : List Event}

theorem attempted_modify {row : JobRow} {f : JobRow → JobRow} (hf : ∀ row, (f row).id = row.id)
    (hs : ∀ row ∈ s.jobs, Attempted row) (h : s.jobs.find? row.id = some row)
    (hrow : Attempted row → Attempted (f row)) : ∀ r ∈ s.jobs.modify row.id f hf, Attempted r := by
  intro r hr
  rcases (Table.mem_modify h).mp hr with rfl | ⟨hr, -⟩
  · exact hrow (hs row (Table.mem_of_find? h))
  · exact hs r hr

theorem attempted_insert {jobs : Jobs} {row : JobRow} (hs : ∀ row ∈ s.jobs, Attempted row)
    (hn : NewRow row) (hj : s.jobs.insert? row = some jobs) : ∀ r ∈ jobs, Attempted r := by
  intro r hr
  rcases (Table.mem_insert? hj).mp hr with hr | rfl
  · exact hs r hr
  · simp [Attempted, hn.queued, hn.attempts]

theorem attempted_cancel {row : JobRow} (hs : ∀ row ∈ s.jobs, Attempted row)
    (h : s.jobs.find? row.id = some row) (hq : row.status = .queued) :
    ∀ r ∈ s.jobs.modify row.id cancelledRow cancelledRow_id, Attempted r :=
  attempted_modify _ hs h fun ha =>
    ha.of_status (by rw [hq]; decide) (by simp [cancelledRow]) rfl rfl

theorem Move.attempted (h : Move s es s') (hs : ∀ row ∈ s.jobs, Attempted row) :
    ∀ row ∈ s'.jobs, Attempted row := by
  cases h with
  | register | detach => exact hs
  | insert row hn _ _ hj => exact attempted_insert hs hn hj
  | replace scheduleKey row hn _ _ hj₁ hj =>
    cases ho : queuedOwner s scheduleKey with
    | none =>
      rw [ho] at hj₁
      subst hj₁
      exact attempted_insert hs hn hj
    | some owner =>
      rw [ho] at hj₁
      subst hj₁
      obtain ⟨hrow, hq⟩ : ownerRow s scheduleKey = some owner ∧ owner.status = .queued := by
        simpa [queuedOwner_eq] using ho
      exact attempted_insert (s := { s with jobs := _ })
        (attempted_cancel hs (ownerRow_find? hrow) hq) hn hj
  | dispatch handoffId workerId now h hq _ =>
    exact attempted_modify (handedOffRow_id _ _ _) hs h fun ha =>
      ha.of_status (by rw [hq]; decide) (by simp [handedOffRow]) rfl rfl
  | leave hf h hh hl => exact attempted_modify hf hs h (hl.attempted hh)
  | withdraw scheduleKey h hq _ => exact attempted_cancel hs h hq
  | prune p _ => exact fun r hr => hs r (Table.mem_delete.mp hr).1
  | clear => exact fun r hr => (Table.not_mem_empty hr).elim

/-! ## Retention -/

theorem find?_modify_isSome {jobs : Jobs} {jobId id : String} {f : JobRow → JobRow}
    (hf : ∀ row, (f row).id = row.id) (h : (jobs.find? id).isSome) :
    ((jobs.modify jobId f hf).find? id).isSome := by
  rw [Table.find?_modify]
  split
  · next hid =>
    simpa [hid] using h
  · exact h

theorem find?_insert_isSome {jobs jobs' : Jobs} {row : JobRow} {id : String}
    (hj : jobs.insert? row = some jobs') (h : (jobs.find? id).isSome) :
    (jobs'.find? id).isSome := by
  rw [Table.find?_insert? hj]
  split
  · rfl
  · exact h

theorem Move.kept (hm : Move s es s') (hd : .deleted ∉ es) {id : String}
    (h : (s.jobs.find? id).isSome) : (s'.jobs.find? id).isSome := by
  cases hm with
  | register | detach => exact h
  | insert row _ _ _ hj => exact find?_insert_isSome hj h
  | replace scheduleKey row _ _ _ hj₁ hj =>
    refine find?_insert_isSome hj ?_
    rw [hj₁]
    cases queuedOwner s scheduleKey with
    | none => exact h
    | some owner => exact find?_modify_isSome cancelledRow_id h
  | dispatch => exact find?_modify_isSome (handedOffRow_id _ _ _) h
  | leave hf => exact find?_modify_isSome hf h
  | withdraw => exact find?_modify_isSome cancelledRow_id h
  | prune | clear => simp at hd

theorem Moves.kept (hm : Moves s es s') (hd : .deleted ∉ es) {id : String}
    (h : (s.jobs.find? id).isSome) : (s'.jobs.find? id).isSome := by
  induction hm with
  | nil => exact h
  | cons hm _ ih =>
    rw [mem_append, not_or] at hd
    exact ih hd.2 (hm.kept hd.1 h)

end

def Expired (status : PrunedStatus) (cutoff : ℤ) (row : JobRow) : Prop :=
  row.status = status.status ∧ (status.column row).any (· ≤ cutoff) = true

theorem pruneStatusBatch_keeps {s : Db} {status : PrunedStatus} {cutoff : ℤ} {batchSize : ℕ}
    {dbOrder : String → ℕ} :
    Ensures (pruneStatusBatch status cutoff batchSize dbOrder) s fun _ s' =>
      ∀ row ∈ s.jobs, row ∈ s'.jobs ∨ Expired status cutoff row := by
  simp only [pruneStatusBatch, ensures_serializedCountMutation, ensures_bind, ensures_selectJobs,
    ensures_ite, ensures_pure, ensures_deleteJobs]
  refine ⟨fun _ row hrow => .inl hrow, fun _ => ?_⟩
  refine ensures_recordCountDelta fun s' hs' row hrow => ?_
  rw [show s'.jobs = _ from congrArg JobTables.jobs hs'.tables, Table.mem_delete,
    decide_eq_false_iff_not]
  refine or_iff_not_imp_left.mpr fun hgone => ?_
  obtain ⟨row', hrow', hid⟩ := mem_map.mp (not_not.mp fun hid => hgone ⟨hrow, hid⟩)
  obtain ⟨hmem, hp⟩ := Table.mem_select.mp ((mem_insertionSort _).mp (mem_of_mem_take hrow'))
  rw [Table.eq_of_key hmem hrow hid] at hp
  simpa [Expired] using hp

theorem exec_keeps (sha256 : String → String) (tx : Tx) {s : Db} {id : String} {row : JobRow}
    (h : s.jobs.find? id = some row) :
    ((tx.exec sha256 s).2.jobs.find? id).isSome ∨ tx = .clearAll ∨
      ∃ status cutoff batchSize dbOrder,
        tx = .pruneStatusBatch status cutoff batchSize dbOrder ∧ Expired status cutoff row := by
  have hother : tx.deletes = false → ((tx.exec sha256 s).2.jobs.find? id).isSome := by
    intro hd
    obtain ⟨t, hm, -, -, hr⟩ := exec_outcome sha256 tx s
    rw [← hr.tables] at hm
    refine hm.kept ?_ (by rw [h]; rfl)
    unfold Tx.eventsOf
    rcases tx.exec sha256 s with ⟨_ | answer, s'⟩
    · exact not_mem_nil
    · simpa [hd] using events_deletes tx s answer s'
  cases tx with
  | clearAll => exact .inr (.inl rfl)
  | pruneStatusBatch status cutoff batchSize dbOrder =>
    have hkeeps : Ensures (Answer.removed <$> pruneStatusBatch status cutoff batchSize dbOrder) s
        fun _ s' => ∀ row ∈ s.jobs, row ∈ s'.jobs ∨ Expired status cutoff row :=
      ensures_map.mpr pruneStatusBatch_keeps
    change (Table.find? (commit _ s).2.jobs id).isSome ∨ _
    rcases hkeeps.commit with ⟨error, hc⟩ | ⟨answer, s', hc, hk⟩
    · rw [hc]
      exact .inl (by rw [h]; rfl)
    · rw [hc]
      obtain rfl := Table.key_of_find? h
      refine (hk row (Table.mem_of_find? h)).imp (fun hmem => ?_) fun hexpired =>
        .inr ⟨status, cutoff, batchSize, dbOrder, rfl, hexpired⟩
      rw [Table.find?_of_mem hmem]
      rfl
  | _ => exact .inl (hother rfl)

/-- A prune of the run finds the job expired. -/
def PrunedIn (sha256 : String → String) (s : Db) (txs : List Tx) (id : String) : Prop :=
  ∃ pre status cutoff batchSize dbOrder suf row,
    txs = pre ++ .pruneStatusBatch status cutoff batchSize dbOrder :: suf ∧
    (run sha256 s pre).jobs.find? id = some row ∧ Expired status cutoff row

theorem run_keeps (sha256 : String → String) {id : String} (txs : List Tx) :
    ∀ {s : Db}, (s.jobs.find? id).isSome →
      ((run sha256 s txs).jobs.find? id).isSome ∨ .clearAll ∈ txs ∨ PrunedIn sha256 s txs id := by
  induction txs with
  | nil => exact fun h => .inl h
  | cons tx txs ih =>
    intro s h
    obtain ⟨row, hrow⟩ := Option.isSome_iff_exists.mp h
    rcases exec_keeps sha256 tx hrow with
      h' | rfl | ⟨status, cutoff, batchSize, dbOrder, rfl, hexpired⟩
    · rcases ih h' with h' | hclear | ⟨pre, status, cutoff, n, dbOrder, suf, row, rfl, hrow, he⟩
      · exact .inl h'
      · exact .inr (.inl (mem_cons_of_mem _ hclear))
      · exact .inr (.inr ⟨tx :: pre, status, cutoff, n, dbOrder, suf, row, rfl, hrow, he⟩)
    · exact .inr (.inl mem_cons_self)
    · exact .inr (.inr ⟨[], status, cutoff, batchSize, dbOrder, txs, row, rfl, hrow, hexpired⟩)

/-- **Every job is accounted for.** After every run from the empty store no job has more attempts
than its retries and one, and it is failed or orphaned exactly when it has that many; and in every
run a job's row stays until the store is cleared, or a prune finds it in the status it prunes with a
timestamp at or before the cutoff. -/
theorem jobs_accounted (sha256 : String → String) :
    (∀ txs, ∀ row ∈ (run sha256 .empty txs).jobs, Attempted row) ∧
    ∀ (s : Db) (txs : List Tx) (id : String), (s.jobs.find? id).isSome →
      ((run sha256 s txs).jobs.find? id).isSome ∨ .clearAll ∈ txs ∨ PrunedIn sha256 s txs id :=
  ⟨fun txs => (run_moves sha256 txs .empty).invariant
      (I := fun _ s => ∀ row ∈ s.jobs, Attempted row) (fun _ _ _ _ hs hm => hm.attempted hs)
      (l := []) fun _ hr => (Table.not_mem_empty hr).elim,
    fun _ txs _ h => run_keeps sha256 txs h⟩

/-- A job with one retry that fails twice. -/
def failedTwice : List Tx :=
  [.enqueue ⟨"job", [], { maxRetries := some (.int 1) }, "1", 0, []⟩ fun _ => 0,
    .markHandedOff "1" "a" (some "worker") 10,
    .markFailed "1" (.text "lost") { handoffId := some "a" } 20,
    .markHandedOff "1" "b" (some "worker") 100000,
    .markFailed "1" (.text "lost") { handoffId := some "b" } 100010]

/-- The job is failed after its second attempt; a prune of those that failed earlier leaves it, and
one with a later cutoff is the prune that finds it. -/
theorem jobs_accounted_once :
    let s := run id .empty failedTwice
    let prunes : List Tx := [.pruneStatusBatch .failed 100009 10 fun _ => 0,
      .pruneStatusBatch .failed 100010 10 fun _ => 0]
    ((s.jobs.find? "1").map fun row => (row.attempts, row.maxRetries, row.status)) =
        some (2, 1, .failed) ∧
      (∀ row ∈ s.jobs, Attempted row) ∧
      ((run id s (prunes.take 1)).jobs.find? "1").isSome ∧ PrunedIn id s prunes "1" := by
  intro s prunes
  refine ⟨by decide +kernel, (jobs_accounted id).1 failedTwice, by decide +kernel, ?_⟩
  rcases (jobs_accounted id).2 s prunes "1" (by decide +kernel) with hkept | hclear | hpruned
  · exact absurd hkept (by decide +kernel)
  · simp [prunes] at hclear
  · exact hpruned

end Velocious
