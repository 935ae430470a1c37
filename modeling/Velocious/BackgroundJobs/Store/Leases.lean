/-
  Lease fencing in the SQL background-jobs store.

  * `accepted_at_most_once`: when handoff ids are not reused, each lease that
    `markHandedOff` granted is ended by at most one accepted transition;
  * `Moves.terminal_kept`: a row in a terminal status keeps it until it is
    deleted.

  The first counts: over any moves, the ended leases and those still held
  number at most the granted ones and those held before.
-/
import Velocious.BackgroundJobs.Store.Concurrency

namespace Velocious

open Foundation List

/-! ## Granted and ended leases -/

/-- The number of jobs holding a lease. -/
abbrev leaseHolders (jobs : Jobs) (handoffId : String) : ℕ := holders JobRow.lease jobs handoffId

theorem lease_queued {row : JobRow} (h : row.status = .queued) : row.lease = none := by
  simp [JobRow.lease, h]

theorem lease_handedOff {row : JobRow} (h : row.status = .handedOff) :
    row.lease = row.handoffId := by
  simp [JobRow.lease, h]

theorem leaseHolders_insert {jobs jobs' : Jobs} {row : JobRow} (hq : row.status = .queued)
    (hj : jobs.insert? row = some jobs') (h : String) :
    leaseHolders jobs' h = leaseHolders jobs h := by
  simp [holders, Table.count_insert? hj, lease_queued hq]

theorem leaseHolders_cancelQueued {jobs : Jobs} {row : JobRow}
    (hf : jobs.find? row.id = some row) (hq : row.status = .queued) (h : String) :
    leaseHolders (jobs.modify row.id cancelledRow cancelledRow_id) h = leaseHolders jobs h := by
  have hm := holders_modify JobRow.lease cancelledRow cancelledRow_id hf h
  rw [lease_queued hq, show (cancelledRow row).lease = none from if_neg (by simp [cancelledRow])]
    at hm
  simpa using hm

theorem leaseHolders_delete_le (jobs : Jobs) (p : JobRow → Bool) (h : String) :
    leaseHolders (jobs.delete p) h ≤ leaseHolders jobs h := by
  have := Table.count_delete_add (t := jobs) (p := p) fun row => row.lease = some h
  simp only [holders]
  omega

theorem Move.leases {s s' : JobTables} {es : List Event} (hm : Move s es s') :
    LeaseAccount (fun s => leaseHolders s.jobs) s es s' := by
  intro h
  cases hm with
  | register | detach => simp [endedLeases]
  | insert row hn _ _ hj =>
    simp [endedLeases, leaseHolders_insert hn.queued hj]
  | replace scheduleKey row hn _ _ hj₁ hj =>
    cases ho : queuedOwner s scheduleKey with
    | none =>
      rw [ho] at hj₁
      subst hj₁
      simp [endedLeases, leaseHolders_insert hn.queued hj]
    | some owner =>
      rw [ho] at hj₁
      subst hj₁
      obtain ⟨hrow, hq⟩ : ownerRow s scheduleKey = some owner ∧ owner.status = .queued := by
        simpa [queuedOwner_eq] using ho
      simp [endedLeases, leaseHolders_insert hn.queued hj,
        leaseHolders_cancelQueued (ownerRow_find? hrow) hq]
  | @dispatch _ row handoffId workerId now hf hq _ =>
    have hm := holders_modify JobRow.lease (handedOffRow handoffId workerId now)
      (handedOffRow_id handoffId workerId now) hf h
    rw [lease_queued hq, lease_handedOff rfl] at hm
    simp only [endedLeases, grantedLeases, filterMap_cons, filterMap_nil,
      count_cons, handedOffRow, leaseHolders, Option.some.injEq, beq_iff_eq] at hm ⊢
    omega
  | @leave row f hrow hf hh hl =>
    have hm := holders_modify JobRow.lease f hrow hf h
    rw [lease_handedOff hh, show (f row).lease = none from if_neg (hl.status row)] at hm
    cases hid : row.handoffId with
    | none => simpa [endedLeases, grantedLeases, hid] using hm.le
    | some handoffId =>
      simp only [endedLeases, grantedLeases, filterMap_cons, filterMap_nil,
        count_cons, hid, leaseHolders, reduceCtorEq, if_false, Option.some.injEq,
        beq_iff_eq] at hm ⊢
      omega
  | withdraw scheduleKey hf hq _ =>
    simp [endedLeases, leaseHolders_cancelQueued hf hq]
  | prune p _ =>
    simpa [endedLeases, grantedLeases] using leaseHolders_delete_le s.jobs p h
  | clear => simp [endedLeases, holders]

/-! ## Stale reports -/

def Tx.report? : Tx → Option (String × Option String)
  | .markCompleted jobId report _ => some (jobId, report.handoffId)
  | .markRescheduled jobId _ report _ => some (jobId, report.handoffId)
  | .markReturnedToQueue jobId handoffId _ => some (jobId, some handoffId)
  | .markFailed jobId _ report _ => some (jobId, report.handoffId)
  | _ => none

section
variable {s : Db} {jobId : String}

theorem not_fenced {row : JobRow} {report : Report} (h : s.jobs.find? row.id = some row)
    (hstale : ∀ l, leaseOf s.jobs row.id = some l → report.handoffId ≠ some l)
    (ha : shouldAcceptReport (normalizeJobRow row) report = true) :
    (decide (row.status = .handedOff) && sqlEq row.handoffId (normalizeJobRow row).handoffId) =
      false := by
  have hs : row.status = .handedOff := @shouldAcceptReport_handedOff (normalizeJobRow row) report ha
  cases hid : orNull row.handoffId with
  | none => simp [hid]
  | some handoffId =>
    obtain ⟨hrow, hne⟩ := orNull_eq_some.mp hid
    have hmatch : report.handoffId = some handoffId := by
      simp only [shouldAcceptReport, Bool.and_eq_true] at ha
      have hm := ha.1.1.2
      simp only [handoffIdReportMatches, normalizeJobRow_handoffId, hid] at hm
      rw [orNull_eq_some.mpr ⟨rfl, hne⟩] at hm
      simpa using hm
    exact absurd hmatch (hstale _ (by simp [leaseOf, h, JobRow.lease, hs, hrow]))

theorem ensures_stale {row : JobRow} {report : Report} {f : JobRow → JobRow}
    {hf : ∀ row, (f row).id = row.id} {Q : ℕ → Db → Prop} (h : s.jobs.find? row.id = some row)
    (hstale : ∀ l, leaseOf s.jobs row.id = some l → report.handoffId ≠ some l)
    (ha : shouldAcceptReport (normalizeJobRow row) report = true) (hQ : Q 0 s) :
    Ensures (updateJobs (activeHandoffConditions (normalizeJobRow row)) f hf) s Q := by
  refine (ensures_updateJobs_key row.id (fun r => decide (r.status = .handedOff) &&
    sqlEq r.handoffId (normalizeJobRow row).handoffId) h).mpr ?_
  rw [not_fenced h hstale ha]
  exact hQ

theorem markCompleted_stale {report : Report} {now : ℤ}
    (hstale : ∀ l, leaseOf s.jobs jobId = some l → report.handoffId ≠ some l) :
    Ensures (markCompleted jobId report now) s fun _ s' => s' = s := by
  simp only [markCompleted, ensures_serializedCountMutation, ensures_bind, ensures_getJobRowById]
  cases h : s.jobs.find? jobId with
  | none => exact ensures_pure.mpr rfl
  | some row =>
    obtain rfl := Table.key_of_find? h
    simp only [Option.map_some, ensures_ite, ensures_pure, ensures_bind,
      ensures_lockConcurrencyRow]
    refine ⟨fun _ => trivial, fun ha => ensures_stale h hstale (by simpa using ha) ?_⟩
    simp

theorem markRescheduled_stale {delayMs : JsNumber} {report : Report} {now : ℤ}
    (hstale : ∀ l, leaseOf s.jobs jobId = some l → report.handoffId ≠ some l) :
    Ensures (markRescheduled jobId delayMs report now) s fun _ s' => s' = s := by
  simp only [markRescheduled, ensures_serializedCountMutation, ensures_bind, ensures_getJobRowById]
  cases h : s.jobs.find? jobId with
  | none => exact ensures_pure.mpr rfl
  | some row =>
    obtain rfl := Table.key_of_find? h
    simp only [Option.map_some, ensures_ite, ensures_pure, ensures_bind,
      ensures_lockConcurrencyRow]
    refine ⟨fun _ => trivial, fun ha => ?_⟩
    cases rescheduledBackgroundJobAtMs delayMs now with
    | error error => exact ensures_throw
    | ok scheduledAtMs =>
      refine ensures_bind.mpr (ensures_stale h hstale (by simpa using ha) ?_)
      simp

theorem markFailed_stale {error : JobError} {report : Report} {now : ℤ}
    (hstale : ∀ l, leaseOf s.jobs jobId = some l → report.handoffId ≠ some l) :
    Ensures (markFailed jobId error report now) s fun _ s' => s' = s := by
  simp only [markFailed, ensures_serializedCountMutation, ensures_bind, ensures_getJobRowById]
  cases h : s.jobs.find? jobId with
  | none => exact ensures_pure.mpr rfl
  | some row =>
    obtain rfl := Table.key_of_find? h
    simp only [Option.map_some, ensures_ite, ensures_pure, ensures_bind, applyFailure,
      ensures_lockConcurrencyRow]
    refine ⟨fun _ => trivial, fun ha => ensures_stale h hstale (by simpa using ha) ?_⟩
    simp

theorem markReturnedToQueue_stale {handoffId : String} {now : ℤ}
    (hstale : leaseOf s.jobs jobId ≠ some handoffId) :
    Ensures (markReturnedToQueue jobId handoffId now) s fun _ s' => s' = s := by
  simp only [markReturnedToQueue, ensures_serializedCountMutation, ensures_bind,
    ensures_getJobRowById]
  cases h : s.jobs.find? jobId with
  | none => exact ensures_pure.mpr rfl
  | some row =>
    simp only [Option.map_some, ensures_ite, ensures_pure]
    refine ⟨fun _ => trivial, fun ha => absurd ?_ hstale⟩
    have ha : (normalizeJobRow row).handoffId = some handoffId ∧
        (normalizeJobRow row).status = .handedOff := by
      simpa only [Bool.or_eq_true, decide_eq_true_eq, not_or, not_not] using ha
    have hs : row.status = .handedOff := ha.2
    simp [leaseOf, h, JobRow.lease, hs, (orNull_eq_some.mp ha.1).1]

end

section
variable (sha256 : String → String) {s : Db} {tx : Tx} {jobId : String}
  {handoffId : Option String}
include sha256

theorem body_stale {body : StoreM Answer} (hr : tx.report? = some (jobId, handoffId))
    (hstale : ∀ l, leaseOf s.jobs jobId = some l → handoffId ≠ some l)
    (h : tx.body sha256 = .ok body) : Ensures body s fun _ s' => s' = s := by
  cases tx with
  | markCompleted jobId report now =>
    obtain ⟨rfl, rfl⟩ : jobId = _ ∧ report.handoffId = _ := by simpa [Tx.report?] using hr
    cases h
    exact ensures_map.mpr (markCompleted_stale hstale)
  | markRescheduled jobId delayMs report now =>
    obtain ⟨rfl, rfl⟩ : jobId = _ ∧ report.handoffId = _ := by simpa [Tx.report?] using hr
    simp only [Tx.body, bind, Except.bind] at h
    cases hd : rescheduledBackgroundJobAtMs delayMs 0 with
    | error e => simp [hd] at h
    | ok delay =>
      obtain rfl : _ = body := by simpa [hd, pure, Except.pure] using h
      exact ensures_map.mpr (markRescheduled_stale hstale)
  | markReturnedToQueue jobId handoffId now =>
    obtain ⟨rfl, rfl⟩ : jobId = _ ∧ some handoffId = _ := by simpa [Tx.report?] using hr
    cases h
    exact ensures_map.mpr (markReturnedToQueue_stale fun hl => hstale _ hl rfl)
  | markFailed jobId error report now =>
    obtain ⟨rfl, rfl⟩ : jobId = _ ∧ report.handoffId = _ := by simpa [Tx.report?] using hr
    cases h
    exact ensures_map.mpr (markFailed_stale hstale)
  | _ => simp [Tx.report?] at hr

theorem stale_report_unchanged (hr : tx.report? = some (jobId, handoffId))
    (hstale : ∀ l, leaseOf s.jobs jobId = some l → handoffId ≠ some l) :
    (tx.exec sha256 s).2 = s := by
  unfold Tx.exec
  cases hb : tx.body sha256 with
  | error e => rfl
  | ok body =>
    dsimp only
    rcases (body_stale sha256 hr hstale hb).commit with ⟨e, he⟩ | ⟨answer, s', hc, rfl⟩
    · rw [he]
    · rw [hc]

end

/-! ## Terminal rows -/

def Tx.deletes : Tx → Bool
  | .pruneStatusBatch _ _ _ _ | .clearAll => true
  | _ => false

section
variable {s s' : JobTables} {es : List Event} (hm : Move s es s') {id : String}
include hm

theorem Move.terminal {row : JobRow} (h : s.jobs.find? id = some row) (ht : row.status.terminal = true) :
    s'.jobs.find? id = some row ∨ (.deleted ∈ es ∧ s'.jobs.find? id = none) := by
  -- a row a move rewrites is not terminal
  have hkeep : ∀ {r : JobRow} {f : JobRow → JobRow} (hf : ∀ row, (f row).id = row.id),
      s.jobs.find? r.id = some r → r.status.terminal = false →
      (s.jobs.modify r.id f hf).find? id = some row := by
    intro r f hf hr hlive
    rw [Table.find?_modify]
    split
    · next hid =>
      subst hid
      rw [hr] at h
      cases h
      rw [ht] at hlive
      cases hlive
    · exact h
  have hinsert : ∀ {jobs jobs' : Jobs} {r : JobRow}, jobs.insert? r = some jobs' →
      jobs.find? id = some row → jobs'.find? id = some row := by
    intro jobs jobs' r hj hrow
    rw [Table.find?_insert? hj]
    split
    · next hid =>
      rw [hid, (Table.insert?_eq_some.mp hj).1] at hrow
      cases hrow
    · exact hrow
  cases hm with
  | register | detach => exact .inl h
  | insert r _ _ _ hj => exact .inl (hinsert hj h)
  | replace scheduleKey r _ _ _ hj₁ hj =>
    refine .inl (hinsert hj ?_)
    cases ho : queuedOwner s scheduleKey with
    | none =>
      rw [ho] at hj₁
      subst hj₁
      exact h
    | some owner =>
      rw [ho] at hj₁
      subst hj₁
      obtain ⟨hrow, hq⟩ : ownerRow s scheduleKey = some owner ∧ owner.status = .queued := by
        simpa [queuedOwner_eq] using ho
      exact hkeep cancelledRow_id (ownerRow_find? hrow) (by rw [hq]; rfl)
  | dispatch handoffId workerId now hf hq _ =>
    exact .inl (hkeep (handedOffRow_id _ _ _) hf (by rw [hq]; rfl))
  | leave hf hr hh _ => exact .inl (hkeep hf hr (by rw [hh]; rfl))
  | withdraw scheduleKey hf hq _ => exact .inl (hkeep cancelledRow_id hf (by rw [hq]; rfl))
  | prune p _ =>
    rw [Table.find?_delete, h]
    by_cases hp : p row
    · exact .inr ⟨by simp, by simp [hp]⟩
    · exact .inl (by simp [hp])
  | clear => exact .inr ⟨by simp, rfl⟩

theorem Move.absent (h : s.jobs.find? id = none) (hi : .inserted id ∉ es) : s'.jobs.find? id = none := by
  have hmod : ∀ {jobs : Jobs} {id' : String} {f : JobRow → JobRow}
      (hf : ∀ row, (f row).id = row.id), jobs.find? id = none →
      (jobs.modify id' f hf).find? id = none := by
    intro jobs id' f hf hn
    rw [Table.find?_modify]
    split
    · next hid => rw [← hid, hn]; rfl
    · exact hn
  have hins : ∀ {jobs jobs' : Jobs} {r : JobRow}, jobs.insert? r = some jobs' → r.id ≠ id →
      jobs.find? id = none → jobs'.find? id = none := by
    intro jobs jobs' r hj hne hn
    rw [Table.find?_insert? hj, if_neg (Ne.symm hne), hn]
  cases hm with
  | register | detach => exact h
  | insert r _ _ _ hj => exact hins hj (by simpa [eq_comm] using hi) h
  | replace scheduleKey r _ _ _ hj₁ hj =>
    refine hins hj (by simpa using fun he => hi (by simp [he])) ?_
    subst hj₁
    cases queuedOwner s scheduleKey with
    | none => exact h
    | some owner => exact hmod cancelledRow_id h
  | dispatch => exact hmod (handedOffRow_id _ _ _) h
  | leave hf => exact hmod hf h
  | withdraw => exact hmod cancelledRow_id h
  | prune p _ =>
    rw [Table.find?_delete, h]
    rfl
  | clear => rfl

end

section
variable {s s' : JobTables} {es : List Event} (hm : Moves s es s') {id : String} {row : JobRow}
include hm

theorem Moves.terminal (ht : row.status.terminal = true) (hi : .inserted id ∉ es)
    (h : s.jobs.find? id = some row ∨ s.jobs.find? id = none) :
    s'.jobs.find? id = some row ∨ s'.jobs.find? id = none := by
  induction hm with
  | nil => exact h
  | cons hm _ ih =>
    simp only [mem_append, not_or] at hi
    refine ih hi.2 ?_
    rcases h with h | h
    · exact (hm.terminal h ht).imp_right And.right
    · exact .inr (hm.absent h hi.1)

theorem Moves.terminal_kept (h : s.jobs.find? id = some row)
    (ht : row.status.terminal = true) (hd : .deleted ∉ es) : s'.jobs.find? id = some row := by
  induction hm with
  | nil => exact h
  | cons hm _ ih =>
    simp only [mem_append, not_or] at hd
    rcases hm.terminal h ht with h' | ⟨hdel, -⟩
    · exact ih h' hd.2
    · exact absurd hdel hd.1

end

theorem events_deletes (tx : Tx) (s : Db) (answer : Answer) (s' : Db) :
    if tx.deletes then ∀ id, .inserted id ∉ tx.events s answer s'
    else .deleted ∉ tx.events s answer s' := by
  cases tx with
  | pruneStatusBatch | clearAll => cases answer <;> simp [Tx.deletes, Tx.events]
  | enqueue =>
    cases answer with
    | enqueued jobId =>
      simp only [Tx.deletes, Tx.events, Bool.false_eq_true, if_false]
      split <;> simp
    | _ => simp [Tx.events]
  | replaceScheduled =>
    cases answer with
    | replaced result =>
      simp only [Tx.deletes, Tx.events, ReplacementResult.events, Bool.false_eq_true, if_false]
      split <;> simp
    | _ => simp [Tx.events]
  | cancelScheduled =>
    cases answer with
    | cancellation result =>
      simp only [Tx.events, CancellationResult.events]
      split <;> simp
    | _ => simp [Tx.events]
  | markReturnedToQueue =>
    cases answer with
    | done =>
      simp only [Tx.events]
      split <;> simp
    | _ => simp [Tx.events]
  | cancel jobId =>
    cases answer with
    | accepted accepted =>
      cases accepted with
      | false => simp [Tx.events]
      | true =>
        simp only [Tx.deletes, Tx.events, cancelEvents, Bool.false_eq_true, if_false]
        split
        · simp
        · split <;> simp
    | _ => simp [Tx.events]
  | markHandedOff | markOrphanedJobs | countSnapshot =>
    cases answer <;> simp [Tx.deletes, Tx.events]
  | markCompleted | markRescheduled =>
    cases answer with
    | accepted accepted => cases accepted <;> simp [Tx.events]
    | _ => simp [Tx.events]
  | markFailed =>
    cases answer with
    | failed job => cases job <;> simp [Tx.events]
    | _ => simp [Tx.events]

theorem exec_terminal (sha256 : String → String) (tx : Tx) {s : Db} {id : String} {row : JobRow}
    (h : s.jobs.find? id = some row) (ht : row.status.terminal = true) :
    (tx.exec sha256 s).2.jobs.find? id = some row ∨
      (tx.deletes = true ∧ (tx.exec sha256 s).2.jobs.find? id = none) := by
  obtain ⟨t, hm, -, -, hr⟩ := exec_outcome sha256 tx s
  rw [← hr.tables] at hm
  have hev : if tx.deletes then ∀ id, .inserted id ∉ tx.eventsOf sha256 s
      else .deleted ∉ tx.eventsOf sha256 s := by
    unfold Tx.eventsOf
    rcases tx.exec sha256 s with ⟨_ | answer, s'⟩
    · split <;> simp
    · exact events_deletes tx s answer s'
  cases hd : tx.deletes with
  | false =>
    rw [hd] at hev
    exact .inl (hm.terminal_kept h ht (by simpa using hev))
  | true =>
    rw [hd] at hev
    exact (hm.terminal ht (hev id) (.inl h)).imp_right fun h => ⟨rfl, h⟩

theorem run_terminal (sha256 : String → String) {id : String} {row : JobRow}
    (ht : row.status.terminal = true) (txs : List Tx) :
    ∀ {s : Db}, s.jobs.find? id = some row →
      (run sha256 s txs).jobs.find? id = some row ∨
        ∃ pre tx suf, txs = pre ++ tx :: suf ∧ tx.deletes = true ∧
          (run sha256 s (pre ++ [tx])).jobs.find? id = none := by
  induction txs with
  | nil => exact fun h => .inl h
  | cons tx txs ih =>
    intro s h
    rcases exec_terminal sha256 tx h ht with h' | ⟨hd, hn⟩
    · rcases ih h' with h' | ⟨pre, tx', suf, rfl, hd, hn⟩
      · exact .inl h'
      · exact .inr ⟨tx :: pre, tx', suf, rfl, hd, hn⟩
    · exact .inr ⟨[], tx, txs, rfl, hd, hn⟩

theorem accepted_at_most_once (sha256 : String → String) (txs : List Tx)
    (hfresh : (grantedLeases (runEvents sha256 .empty txs)).Nodup) (handoffId : String) :
    (endedLeases (runEvents sha256 .empty txs)).count handoffId ≤ 1 := by
  have h : LeaseAccount (fun s : JobTables => leaseHolders s.jobs) _ _ _ :=
    Steps.leases (fun _ _ _ => Move.leases) (run_moves sha256 txs .empty)
  exact h.ended_once (fun _ => rfl) hfresh handoffId

/-- **Lease fencing.** In every run from the empty store: a lease is ended by at
    most one accepted transition (handoff ids not being reused); and in every
    state a report that does not name its job's active lease changes nothing,
    and a terminal row stays as it is until a call deletes it. -/
theorem lease_fencing (sha256 : String → String) :
    (∀ txs, (grantedLeases (runEvents sha256 .empty txs)).Nodup →
      ∀ handoffId, (endedLeases (runEvents sha256 .empty txs)).count handoffId ≤ 1) ∧
    (∀ (s : Db) (tx : Tx) (jobId : String) (handoffId : Option String),
      tx.report? = some (jobId, handoffId) →
      (∀ l, leaseOf s.jobs jobId = some l → handoffId ≠ some l) → (tx.exec sha256 s).2 = s) ∧
    (∀ (s : Db) (txs : List Tx) (id : String) (row : JobRow), s.jobs.find? id = some row →
      row.status.terminal = true →
      (run sha256 s txs).jobs.find? id = some row ∨
        ∃ pre tx suf, txs = pre ++ tx :: suf ∧ tx.deletes = true ∧
          (run sha256 s (pre ++ [tx])).jobs.find? id = none) :=
  ⟨fun txs hfresh h => accepted_at_most_once sha256 txs hfresh h,
    fun _ _ _ _ hr hstale => stale_report_unchanged sha256 hr hstale,
    fun _ txs _ _ h ht => run_terminal sha256 ht txs h⟩

/-- A lease reported completed twice is ended once. -/
theorem lease_fencing_twice :
    (endedLeases (runEvents id .empty [.enqueue ⟨"job", [], {}, "1", 0, []⟩ (fun _ => 0),
      .markHandedOff "1" "lease" none 1, .markCompleted "1" ⟨some "lease", none, none⟩ 2,
      .markCompleted "1" ⟨some "lease", none, none⟩ 3])).count "lease" ≤ 1 :=
  (lease_fencing id).1 _ (by decide) "lease"

end Velocious
