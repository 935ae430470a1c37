/-
  Leases of the local background-jobs store: which calls end the lease of a job.

  * `Moves.lease_kept`: only an accepted report of the job, or a deletion, ends a lease.
  * `markCompleted_fence`, `markRescheduled_fence`, `markFailed_fence`: an accepted report names the
    lease it ends.
-/
import Velocious.BackgroundJobs.LocalStore.Moves

namespace Velocious.LocalStore

open Foundation List

theorem lease_modify_of_ne {jobs : Jobs} {id k : String} {f : JobRow → JobRow}
    (hf : ∀ row, (f row).id = row.id) (h : id ≠ k) :
    leaseOf (jobs.modify k f hf) id = leaseOf jobs id := by
  simp [leaseOf, Table.find?_modify, h]

theorem Move.lease_kept {s s' : Db} {es : List Event} (hm : Move s es s') {id l : String}
    (h : leaseOf s.jobs id = some l) (hended : .ended id (some l) ∉ es) (hdeleted : .deleted ∉ es) :
    leaseOf s'.jobs id = some l := by
  have hqueued : ∀ {row : JobRow}, s.jobs.find? row.id = some row → row.status = .queued →
      id ≠ row.id := by
    rintro row hrow hq rfl
    simp [leaseOf, hrow, JobRow.lease, hq] at h
  cases hm with
  | register | recount => exact h
  | @insert jobs row _ _ _ hj =>
    have hne : id ≠ row.id := by
      rintro rfl
      simp [leaseOf, (Table.insert?_eq_some.mp hj).1] at h
    simpa [leaseOf, Table.find?_insert? hj, hne] using h
  | dispatch handoffId workerId now hf hq _ =>
    exact (lease_modify_of_ne (handedOffRow_id _ _ _) (hqueued hf hq)).trans h
  | @leave row f hf hr hh _ =>
    have hne : id ≠ row.id := by
      rintro rfl
      refine hended ?_
      rw [((leaseOf_eq_some hr).mp h).2]
      exact mem_singleton_self _
    exact (lease_modify_of_ne hf hne).trans h
  | rekey c hr hq _ => exact (lease_modify_of_ne (rekeyedRow_id c) (hqueued hr hq)).trans h
  | clear => exact absurd (mem_singleton_self _) hdeleted

theorem Moves.lease_kept {s s' : Db} {es : List Event} (hm : Moves s es s') {id l : String}
    (h : leaseOf s.jobs id = some l) (hended : .ended id (some l) ∉ es) (hdeleted : .deleted ∉ es) :
    leaseOf s'.jobs id = some l := by
  induction hm with
  | nil => exact h
  | cons hm _ ih =>
    rw [mem_append, not_or] at hended hdeleted
    exact ih (hm.lease_kept h hended.1 hdeleted.1) hended.2 hdeleted.2

section
variable {s : Db} {jobId : String} {handoffId : Option String}

theorem ensures_fence {α : Type} {no : α} {x : JobRow → LocalM α} :
    Ensures (getJob jobId >>= fun
      | none => pure no
      | some job => if !acceptsHandoff job handoffId then pure no else x job) s
      fun a _ => a ≠ no → leaseOf s.jobs jobId = handoffId := by
  refine ensures_bind.mpr (ensures_getJob (fun _ => ?_) fun row mode queue h => ?_)
  · exact ensures_pure.mpr fun hne => absurd rfl hne
  obtain rfl := Table.key_of_find? h
  refine ensures_ite.mpr ⟨fun _ => ensures_pure.mpr fun hne => absurd rfl hne, fun ha => ?_⟩
  obtain ⟨hs, hid, l, rfl, -⟩ := acceptsHandoff_iff.mp (by simpa using ha)
  exact fun _ _ _ _ => (leaseOf_eq_some h).mpr ⟨hs, hid⟩

theorem markCompleted_fence {now : ℤ} : Ensures (markCompleted jobId handoffId now) s
    fun accepted _ => accepted ≠ false → leaseOf s.jobs jobId = handoffId :=
  ensures_fence

theorem markRescheduled_fence {delayMs : JsNumber} {now : ℤ} :
    Ensures (markRescheduled jobId handoffId delayMs now) s
      fun accepted _ => accepted ≠ false → leaseOf s.jobs jobId = handoffId :=
  ensures_fence

theorem markFailed_fence {error : JobError} {now : ℤ} :
    Ensures (markFailed jobId handoffId error now) s
      fun job _ => job ≠ none → leaseOf s.jobs jobId = handoffId :=
  ensures_fence

end
theorem markHandedOff_grants {s : Db} {jobId handoffId : String} {workerId : Option String}
    {now at' : ℤ} : Ensures (markHandedOff jobId handoffId workerId now at') s fun handoff s' =>
      ∀ granted, handoff = some granted → granted.handoffId = handoffId ∧
        leaseOf s.jobs jobId = none ∧ leaseOf s'.jobs jobId = some handoffId := by
  refine ensures_bind.mpr (ensures_getJob (fun _ => ensures_pure.mpr nofun) fun row mode queue h => ?_)
  obtain rfl := Table.key_of_find? h
  simp only [ensures_ite, ensures_pure]
  refine ⟨fun _ => nofun, fun hq => ?_⟩
  have hq : row.status = .queued := by simp_all
  refine ensures_bind.mpr (ensures_reserveConcurrency ?_ fun concurrency hc => ?_)
  · simp
  · refine ensures_bind.mpr ((ensures_updateJobs_key (s := { s with concurrency }) row.id
      (fun r => decide (r.status = .queued)) h).mpr ?_)
    simp only [hq, ne_eq, not_true_eq_false, if_false, ensures_pure]
    rintro granted hgranted
    cases hgranted
    refine ⟨rfl, by simp [leaseOf, h, JobRow.lease, hq], ?_⟩
    simp [leaseOf, Table.find?_modify, h, JobRow.lease, handedOffRow]

/-! ## Calls -/

section
variable (sha256 : String → String) {s : Db} {tx : Tx} {id l : String}

theorem exec_lease_kept (reported : Option (String × String))
    (hevents : Ensures (tx.body sha256) s fun answer s' => ∀ e ∈ tx.events s answer s',
      e ≠ .deleted ∧ ∀ id l, e = .ended id l → ∃ l', l = some l' ∧ reported = some (id, l'))
    (h : leaseOf s.jobs id = some l) (hne : reported ≠ some (id, l)) :
    leaseOf (tx.exec sha256 s).2.jobs id = some l := by
  have hes : ∀ e ∈ tx.eventsOf sha256 s, e ≠ .deleted ∧
      ∀ id l, e = .ended id l → ∃ l', l = some l' ∧ reported = some (id, l') := by
    intro e he
    unfold Tx.eventsOf Tx.exec at he
    rcases hevents.commit with ⟨err, herr⟩ | ⟨answer, s', hc, hall⟩
    · rw [herr] at he
      cases he
    · rw [hc] at he
      exact hall e he
  refine Moves.lease_kept (exec_moves sha256 tx s) h (fun he => ?_) fun he => (hes _ he).1 rfl
  obtain ⟨l', hl', hreported⟩ := (hes _ he).2 id (some l) rfl
  cases hl'
  exact hne hreported

theorem enqueue_lease_kept {input : EnqueueInput} {dbOrder : String → ℕ}
    (h : leaseOf s.jobs id = some l) :
    leaseOf ((Tx.enqueue input dbOrder).exec sha256 s).2.jobs id = some l := by
  refine exec_lease_kept sha256 none (ensures_map.mpr fun jobId s' _ e he => ?_) h nofun
  simp only [Tx.events] at he
  split at he
  · obtain rfl := mem_singleton.mp he
    simp
  · cases he

variable {now : ℤ}

theorem markHandedOff_lease_kept {jobId handoffId : String} {workerId : Option String}
    {at' : ℤ} (h : leaseOf s.jobs id = some l) :
    leaseOf ((Tx.markHandedOff jobId handoffId workerId now at').exec sha256 s).2.jobs id =
      some l := by
  refine exec_lease_kept sha256 none (ensures_map.mpr fun handoff s' _ e he => ?_) h nofun
  obtain ⟨granted, -, rfl⟩ := mem_map.mp he
  exact ⟨nofun, nofun⟩

theorem exec_granted {jobId handoffId : String} {workerId : Option String} {at' : ℤ}
    {handoff : Handoff} {s' : Db}
    (h : (Tx.markHandedOff jobId handoffId workerId now at').exec sha256 s =
      (.ok (.handoff (some handoff)), s')) :
    handoff.handoffId = handoffId ∧ leaseOf s.jobs jobId = none ∧
      leaseOf s'.jobs jobId = some handoffId := by
  have hall : Ensures ((Tx.markHandedOff jobId handoffId workerId now at').body sha256) s
      fun answer s' => ∀ granted, answer = .handoff (some granted) →
        granted.handoffId = handoffId ∧ leaseOf s.jobs jobId = none ∧
          leaseOf s'.jobs jobId = some handoffId :=
    ensures_map.mpr (markHandedOff_grants.mono fun answer s' hgrants granted heq =>
      hgrants granted (Answer.handoff.inj heq))
  exact hall _ _ (commit_ok h) handoff rfl

theorem ended_reported {jobId handoffId : String}
    (hlease : leaseOf s.jobs jobId = some handoffId) :
    ∀ e ∈ [Event.ended jobId (leaseOf s.jobs jobId)], e ≠ .deleted ∧
      ∀ id l, e = .ended id l → ∃ l', l = some l' ∧ some (jobId, handoffId) = some (id, l') := by
  rintro e he
  obtain rfl := mem_singleton.mp he
  refine ⟨nofun, fun id l he => ?_⟩
  obtain ⟨rfl, rfl⟩ := Event.ended.inj he
  exact ⟨handoffId, hlease, rfl⟩

theorem markCompleted_lease_kept {jobId handoffId : String}
    (h : leaseOf s.jobs id = some l) (hne : l ≠ handoffId) :
    leaseOf ((Tx.markCompleted jobId (some handoffId) now).exec sha256 s).2.jobs id = some l := by
  refine exec_lease_kept sha256 (some (jobId, handoffId)) (ensures_map.mpr
    (markCompleted_fence.mono fun accepted s' hfence => ?_)) h (by simp [hne.symm])
  cases accepted with
  | false => exact nofun
  | true => exact ended_reported (hfence nofun)

theorem markRescheduled_lease_kept {jobId handoffId : String} {delayMs : JsNumber}
    (h : leaseOf s.jobs id = some l) (hne : l ≠ handoffId) :
    leaseOf ((Tx.markRescheduled jobId (some handoffId) delayMs now).exec sha256 s).2.jobs id =
      some l := by
  refine exec_lease_kept sha256 (some (jobId, handoffId)) (ensures_map.mpr
    (markRescheduled_fence.mono fun accepted s' hfence => ?_)) h (by simp [hne.symm])
  cases accepted with
  | false => exact nofun
  | true => exact ended_reported (hfence nofun)

theorem markFailed_lease_kept {jobId handoffId : String} {error : JobError}
    (h : leaseOf s.jobs id = some l) (hne : l ≠ handoffId) :
    leaseOf ((Tx.markFailed jobId (some handoffId) error now).exec sha256 s).2.jobs id =
      some l := by
  refine exec_lease_kept sha256 (some (jobId, handoffId)) (ensures_map.mpr
    (markFailed_fence.mono fun job s' hfence => ?_)) h (by simp [hne.symm])
  cases job with
  | none => exact nofun
  | some _ => exact ended_reported (hfence nofun)

end

end Velocious.LocalStore
