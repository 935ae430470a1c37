/-
  The effects of the remaining transactions (schedule keys, cancellation,
  retention, idempotent enqueue), and the outcome of any call.

  `exec_outcome`: a call either fails and changes nothing, or answers, and its
  effect is a sequence of moves whose events are `Tx.events`, followed by one
  record of the change of the counts.
-/
import Velocious.BackgroundJobs.Store.Effects

namespace Velocious

open Foundation

section
variable {s : Db}

/-! ## Schedule keys -/

def ownerRow (s : JobTables) (scheduleKey : Key) : Option JobRow :=
  (s.scheduleKeys.find? scheduleKey).bind fun owner => s.jobs.find? owner.jobId

variable {scheduleKey : Key}

theorem ownerRow_find? {t : JobTables} {row : JobRow}
    (h : ownerRow t scheduleKey = some row) : t.jobs.find? row.id = some row := by
  obtain ⟨owner, -, hrow⟩ := Option.bind_eq_some_iff.mp h
  rw [Table.key_of_find? hrow, hrow]

theorem queuedOwner_eq (t : JobTables) (scheduleKey : Key) :
    queuedOwner t scheduleKey = (ownerRow t scheduleKey).filter fun row => row.status = .queued :=
  rfl

theorem ensures_scheduleOwnerJob {Q : Option JobRow → Db → Prop} :
    Ensures (scheduleOwnerJob scheduleKey) s Q ↔
      Q ((ownerRow s.toJobTables scheduleKey).map normalizeJobRow) s := by
  simp only [scheduleOwnerJob, scheduleOwner, ownerRow, ensures_bind, ensures_get]
  cases s.scheduleKeys.find? scheduleKey <;> simp

theorem ensures_replaceOwner {owner : Option JobRow} {Q : Option (String × JobStatus) → Db → Prop}
    (hfind : ∀ row, owner = some row → s.jobs.find? row.id = some row)
    (hqueued : ∀ row, owner = some row → row.status = .queued →
      Q (some (row.id, .queued)) { s with jobs := s.jobs.modify row.id cancelledRow cancelledRow_id })
    (hother : ∀ previous, (∀ row, owner = some row → row.status ≠ .queued) →
      previous.map Prod.snd ≠ some .queued → Q previous s) :
    Ensures (replaceOwner (owner.map normalizeJobRow)) s Q := by
  cases owner with
  | none => exact ensures_pure.mpr (hother none (by simp) (by simp))
  | some row =>
    cases hs : row.status with
    | queued =>
      simp only [replaceOwner, Option.map_some, normalizeJobRow_status, hs, ensures_bind]
      refine @ensures_updateJobs_status s row _ _ _ _ (hfind row rfl) hs ?_
      simpa using hqueued row rfl hs
    | handedOff | completed | failed | orphaned | cancelled =>
      simp only [replaceOwner, Option.map_some, normalizeJobRow_status, hs, ensures_pure]
      exact hother _ (by simp [hs]) (by simp)

/-- The events of a replacement, as its answer tells them. -/
def ReplacementResult.events (result : ReplacementResult) : List Event :=
  (if result.previousStatus = some .queued then result.previousJobId.toList.map .withdrawn
    else []) ++ [.inserted result.jobId]

theorem replaceScheduled_effect {preparedJob : PreparedBackgroundJob} :
    Ensures (replaceScheduled scheduleKey preparedJob) s fun result s' =>
      Effect s result.events s' := by
  simp only [replaceScheduled, ensures_serializedCountMutation, ensures_bind,
    ensures_scheduleOwnerJob]
  refine ensures_replaceOwner (fun row h => ownerRow_find? h) (fun row ho hq => ?_)
    fun previous ho hp => ?_
  -- the owner was queued: one job leaves the counts and one enters them
  · have hqo : queuedOwner s.toJobTables scheduleKey = some row := by
      simp [queuedOwner_eq, ho, hq]
    have hrow : s.jobs.find? row.id = some row := ownerRow_find? ho
    refine ensures_insertPreparedJob fun concurrency jobs hm hk hj => ?_
    have hmove := Move.replace (s := { s.toJobTables with concurrency }) scheduleKey
      (preparedJob.row (some scheduleKey)) (newRow_row _ _) rfl hk rfl
      (by rw [show queuedOwner { s.toJobTables with concurrency } scheduleKey = some row from hqo]
          exact hj)
    rw [show queuedOwner { s.toJobTables with concurrency } scheduleKey = some row from hqo] at hmove
    simp only [ensures_upsertScheduleKey, ensures_ite, ensures_pure, Option.map_some, ne_eq,
      not_true_eq_false, false_implies, not_false_eq_true, true_implies, true_and]
    refine .of_moves ?_ rfl rfl ?_
    · simpa [ReplacementResult.events, PreparedBackgroundJob.row] using
        (hm s.toJobTables rfl).trans hmove.moves
    · have hc := jobCounts_modify cancelledRow cancelledRow_id hrow
      simp only [jobCounts_insert hj, hc, hq]
      simp [cancelledRow, PreparedBackgroundJob.row]
  -- no queued owner: one job enters the counts
  · have hqo : queuedOwner s.toJobTables scheduleKey = none := by
      rw [queuedOwner_eq]
      cases h : ownerRow s.toJobTables scheduleKey with
      | none => rfl
      | some row => simp [ho row h]
    refine ensures_insertPreparedJob fun concurrency jobs hm hk hj => ?_
    have hmove := Move.replace (s := { s.toJobTables with concurrency }) scheduleKey
      (preparedJob.row (some scheduleKey)) (newRow_row _ _) rfl hk rfl
      (by rw [show queuedOwner { s.toJobTables with concurrency } scheduleKey = none from hqo]
          exact hj)
    rw [show queuedOwner { s.toJobTables with concurrency } scheduleKey = none from hqo] at hmove
    simp only [ensures_upsertScheduleKey, ensures_ite, ne_eq, hp, not_false_eq_true,
      true_implies, not_true_eq_false, false_implies, and_true, ensures_bind]
    refine ensures_record (t := { s with
        jobs := jobs
        concurrency := concurrency
        scheduleKeys := s.scheduleKeys.upsert ⟨scheduleKey, preparedJob.jobId⟩ fun owner =>
          { owner with jobId := preparedJob.jobId } }) ((hm s.toJobTables rfl).trans hmove.moves) rfl rfl ?_
      fun s' h => ?_
    · rw [jobCounts_insert hj, enqueuedDeltas_eq]
      exact (add_sub_cancel_left _ _).symm
    · simpa [ReplacementResult.events, hp, PreparedBackgroundJob.row] using h

/-- The events of a cancellation by schedule key, as its answer tells them. -/
def CancellationResult.events (result : CancellationResult) : List Event :=
  if result.outcome = .cancelled then result.jobId.toList.map .withdrawn else []

variable {jobId : String}

theorem ensures_detachOwner (ho : s.scheduleKeys.find? scheduleKey = some ⟨scheduleKey, jobId⟩)
    (hs : ∀ row, s.jobs.find? jobId = some row → row.status ≠ .queued) :
    Ensures (detachOwner jobId scheduleKey) s fun result s' => Effect s result.events s' := by
  have he : Effect s []
      { s with scheduleKeys := disowned s.scheduleKeys jobId (some scheduleKey) } :=
    .of_moves (Move.detach (s := s.toJobTables) scheduleKey ho hs).moves rfl rfl rfl
  simp only [detachOwner, ensures_bind, ensures_getJobRowById, ensures_releaseScheduleOwnership,
    ensures_ite, ensures_pure]
  exact ⟨fun _ => he, fun _ => he⟩

theorem cancelScheduled_effect :
    Ensures (cancelScheduled scheduleKey) s fun result s' => Effect s result.events s' := by
  simp only [cancelScheduled, scheduleOwner, ensures_serializedCountMutation, ensures_bind,
    ensures_get, ensures_pure]
  cases ho : s.scheduleKeys.find? scheduleKey with
  | none => exact ensures_pure.mpr (.refl s)
  | some owner =>
    obtain ⟨key, jobId⟩ := owner
    obtain rfl : key = scheduleKey := Table.key_of_find? ho
    simp only [Option.map_some, ensures_bind, ensures_getJobRowById, ensures_ite]
    cases h : s.jobs.find? jobId with
    | none => exact ⟨fun hs => by simp at hs, fun _ => ensures_detachOwner ho (by simp [h])⟩
    | some row =>
      obtain rfl := Table.key_of_find? h
      refine ⟨fun hs => ?_, fun hs => ensures_detachOwner ho ?_⟩
      · have hs : row.status = .queued := by simpa using hs
        refine ensures_updateJobs_status h hs ?_
        simp only [ensures_releaseScheduleOwnership, ensures_pure, true_implies,
          not_true_eq_false, false_implies, and_true]
        refine ensures_record (t := { s with
            jobs := s.jobs.modify row.id cancelledRow cancelledRow_id
            scheduleKeys := disowned s.scheduleKeys row.id (some key) })
          (Move.withdraw (some key) h hs (.inr ⟨key, rfl, ho⟩)).moves rfl rfl ?_ fun s' he => he
        rw [← hs]
        exact jobCounts_update_status cancelledRow cancelledRow_id h
      · rintro row' h'
        obtain rfl : row = row' := by simpa [h] using h'
        simpa using hs

/-! ## Cancellation, retention, clearing -/

def cancelEvents (jobs : Jobs) (jobId : String) : List Event :=
  match jobs.find? jobId with
  | none => []
  | some row => if row.status = .queued then [.withdrawn jobId] else [.ended jobId row.handoffId]

theorem cancel_effect : Ensures (cancel jobId) s fun accepted s' =>
      Effect s (if accepted then cancelEvents s.jobs jobId else []) s' := by
  simp only [cancel, ensures_serializedCountMutation, ensures_bind, ensures_getJobRowById]
  cases h : s.jobs.find? jobId with
  | none => exact ensures_pure.mpr (.refl s)
  | some row =>
    obtain rfl := Table.key_of_find? h
    cases hs : row.status with
    | queued =>
      simp only [Option.map_some, normalizeJobRow_status, hs, ne_eq, not_true_eq_false,
        decide_false, Bool.false_and, if_false, reduceCtorEq, ensures_bind,
        normalizeJobRow_id]
      refine ensures_updateJobs_status h hs ?_
      simp only [not_true_eq_false, if_false, ensures_bind, ensures_releaseScheduleOwnershipForJob]
      refine ensures_record (t := { s with
          jobs := s.jobs.modify row.id cancelledRow cancelledRow_id
          scheduleKeys := disowned s.scheduleKeys row.id row.scheduleKey })
        (Move.withdraw row.scheduleKey h hs (.inl rfl)).moves rfl rfl ?_ fun s' he => ?_
      · rw [← hs]
        exact jobCounts_update_status cancelledRow cancelledRow_id h
      · simpa [cancelEvents, h, hs] using he
    | handedOff =>
      simp only [Option.map_some, normalizeJobRow_status, hs, ne_eq, not_true_eq_false,
        decide_false, Bool.and_false, Bool.false_eq_true, if_false, ensures_bind,
        normalizeJobRow_id, if_true, ensures_lockConcurrencyRow]
      refine ensures_updateJobs_status h hs ?_
      simp only [not_true_eq_false, if_false, ensures_bind, ensures_releaseScheduleOwnershipForJob, ensures_releaseConcurrency]
      refine ensures_leave cancelledRow cancelledRow_id h hs .cancelled fun s' he => ?_
      simpa [cancelEvents, h, hs] using he
    | completed | failed | orphaned | cancelled =>
      simp only [Option.map_some, normalizeJobRow_status, hs, ensures_ite, ensures_pure]
      exact ⟨fun _ => .refl s, fun hn => absurd (by decide) hn⟩

theorem PrunedStatus.terminal (status : PrunedStatus) :
    status.status.terminal ∧ status.status ≠ .cancelled := by
  cases status <;> decide

theorem pruneStatusBatch_effect {status : PrunedStatus} {cutoff : ℤ} {batchSize : ℕ}
    {dbOrder : String → ℕ} :
    Ensures (pruneStatusBatch status cutoff batchSize dbOrder) s fun _ s' =>
      Effect s [.deleted] s' := by
  simp only [pruneStatusBatch, ensures_serializedCountMutation, ensures_bind, ensures_selectJobs,
    ensures_ite, ensures_pure, ensures_deleteJobs]
  refine ⟨fun _ => ?_, fun _ => ?_⟩
  · have hmove := Move.prune (s := s.toJobTables) (fun _ => false) (by simp)
    rw [Table.delete_eq_self fun _ _ => rfl] at hmove
    exact .of_moves hmove.moves rfl rfl rfl
  generalize hids : List.map JobRow.id _ = ids
  have hstatus : ∀ row ∈ s.jobs, decide (row.id ∈ ids) = true →
      row.status = status.status := by
    intro row hrow hid
    rw [← hids] at hid
    obtain ⟨row', hrow', he⟩ := List.mem_map.mp (of_decide_eq_true hid)
    have hsel := (List.mem_insertionSort _).mp (List.mem_of_mem_take hrow')
    obtain ⟨hmem, hp⟩ := Table.mem_select.mp hsel
    rw [← Table.eq_of_key hmem hrow he]
    simp only [Bool.and_eq_true, decide_eq_true_eq] at hp
    exact hp.1
  have hmove : Move s.toJobTables [.deleted]
      { s.toJobTables with jobs := s.jobs.delete fun row => row.id ∈ ids } :=
    .prune _ fun row hrow hid => by
      rw [hstatus row hrow hid]
      exact status.terminal
  refine ensures_record (t := { s with jobs := s.jobs.delete fun row => row.id ∈ ids })
    hmove.moves rfl rfl ?_ fun s' he => he
  obtain ⟨bucket, hb⟩ : ∃ bucket, status.status.bucket? = some bucket := by
    cases status <;> exact ⟨_, rfl⟩
  rw [jobCounts_delete hstatus, hb]
  exact (weight_of_bucket hb _).trans (by rw [neg_smul]; abel)

theorem ensures_countRevision {Q : ℤ → Db → Prop} (h : ∀ revision, s.countRevision = some revision →
    Q revision s) : Ensures countRevision s Q := by
  simp only [countRevision, ensures_bind, ensures_get]
  cases hr : s.countRevision with
  | none => exact ensures_throw
  | some revision => simpa using fun _ _ => h revision hr

theorem ensures_countSnapshotOnLockedConnection {Q : CountSnapshot → Db → Prop}
    (h : ∀ revision, s.countRevision = some revision →
      Q ⟨jobCounts s.jobs, revision, s.jobs.count fun _ => true⟩ s) :
    Ensures countSnapshotOnLockedConnection s Q := by
  simp only [countSnapshotOnLockedConnection, ensures_bind, ensures_get, ensures_pure]
  exact ensures_countRevision h

theorem jobCounts_empty : jobCounts .empty = 0 := rfl

theorem clearAll_effect : Ensures clearAll s fun _ s' => Effect s [.deleted] s' := by
  simp only [clearAll, ensures_serializedCountMutation, ensures_bind]
  refine ensures_countSnapshotOnLockedConnection fun revision _ => ?_
  simp only [ensures_modify]
  refine ensures_record (Move.clear (s := s.toJobTables)).moves rfl rfl ?_ fun s' he => he
  simp [jobCounts_empty]

theorem ensures_idempotencyOwnership {scopeDigest : String}
    {Q : Option IdempotencyRow → Db → Prop} :
    Ensures (idempotencyOwnership scopeDigest) s Q ↔
      Q (s.idempotencyKeys.find? scopeDigest) s := by
  simp [idempotencyOwnership]

variable (sha256 : String → String)

theorem replayIdempotentEnqueue_effect {request : IdempotentRequest} {existing : IdempotencyRow}
    {Q : String → Db → Prop} (h : Q existing.jobId s) :
    Ensures (replayIdempotentEnqueue sha256 request existing) s Q := by
  simp only [replayIdempotentEnqueue, ensures_bind, ensures_ite, ensures_throw, ensures_pure,
    implies_true, true_and, validateMailDeliveryOperation, mailDeliveryOperation]
  intro _
  cases request.mailOperation with
  | none => exact ensures_pure.mpr h
  | some operation =>
    simp only [ensures_bind, ensures_get, ensures_pure]
    cases s.mailOperations.find? _ with
    | none => exact ensures_throw
    | some existing =>
      simpa [validateMailDeliveryOperationRow] using fun _ => h

theorem ensures_persistMailDeliveryOperation {createdAtMs : ℤ}
    {mailOperation : Option MailerDeliveryOperation} {Q : PUnit → Db → Prop}
    (h : ∀ mailOperations, Q ⟨⟩ { s with mailOperations }) :
    Ensures (persistMailDeliveryOperation sha256 jobId createdAtMs mailOperation) s Q := by
  cases mailOperation with
  | none => exact ensures_pure.mpr (h s.mailOperations)
  | some operation =>
    refine ensures_tryCatch ?_ fun error _ => ?_
    · simp only [insertMailOperation, ensures_bind, ensures_get]
      cases s.mailOperations.insert? _ <;> simp [h]
    · simp only [mailDeliveryOperation, ensures_bind, ensures_get, ensures_pure]
      cases s.mailOperations.find? _ with
      | none => exact ensures_throw
      | some existing =>
        simpa [validateMailDeliveryOperationRow] using fun _ => h s.mailOperations

theorem enqueueIdempotently_effect {request : IdempotentRequest} :
    Ensures (enqueueIdempotently sha256 request) s
      (InsertedOrUnchanged s request.preparedJob.jobId) := by
  simp only [enqueueIdempotently, ensures_bind, ensures_idempotencyOwnership]
  cases hfind : s.idempotencyKeys.find? request.ownership.scopeDigest with
  | some existing => exact replayIdempotentEnqueue_effect sha256 (.inl rfl)
  | none =>
    refine ensures_bind.mpr (ensures_tryCatch ?_ fun error _ => ?_)
    · simp only [insertIdempotencyKey, ensures_bind, ensures_get]
      cases s.idempotencyKeys.insert? request.ownership with
      | none => exact ensures_throw
      | some idempotencyKeys =>
        simp only [createIdempotentJob, lockCountRevision, ensures_set, ensures_bind,
          ensures_pure, ensures_modify, Option.map_id]
        refine ensures_insertPreparedJob fun concurrency jobs hm hk hj =>
          ensures_persistMailDeliveryOperation sha256 fun mailOperations => ?_
        exact ensures_inserted (s := s) hm hk hj rfl rfl rfl
    · simp [ensures_idempotencyOwnership, hfind]

/-! ## Calls -/

/-- The events of a call that answered, as its answer and the rows before and
    after it tell them. -/
def Tx.events (tx : Tx) (s : Db) (answer : Answer) (s' : Db) : List Event :=
  match tx, answer with
  | .enqueue _ _, .enqueued jobId =>
    if s.jobs.find? jobId = none ∧ s'.jobs.find? jobId ≠ none then [.inserted jobId] else []
  | .replaceScheduled _ _, .replaced result => result.events
  | .cancelScheduled _, .cancellation result => result.events
  | .markHandedOff jobId _ _ _, .handoff handoff =>
    handoff.toList.map fun handoff => .granted jobId handoff.handoffId
  | .markCompleted jobId _ _, .accepted true => [.ended jobId (leaseOf s.jobs jobId)]
  | .markRescheduled jobId _ _ _, .accepted true => [.ended jobId (leaseOf s.jobs jobId)]
  -- a return to the queue answers nothing: it is accepted when the named lease is held
  | .markReturnedToQueue jobId handoffId _, .done =>
    if leaseOf s.jobs jobId = some handoffId ∧ handoffId ≠ "" then
      [.ended jobId (leaseOf s.jobs jobId)] else []
  | .markFailed jobId _ _ _, .failed (some _) => [.ended jobId (leaseOf s.jobs jobId)]
  | .markOrphanedJobs _ _ _ _, .orphaned jobs =>
    jobs.map fun job => .ended job.id (leaseOf s.jobs job.id)
  | .pruneStatusBatch _ _ _ _, .removed _ => [.deleted]
  | .clearAll, .done => [.deleted]
  | .cancel jobId, .accepted true => cancelEvents s.jobs jobId
  | _, _ => []

theorem InsertedOrUnchanged.effect {newId : String} {s' : Db}
    (h : InsertedOrUnchanged s newId jobId s') :
    Effect s (if s.jobs.find? jobId = none ∧ s'.jobs.find? jobId ≠ none then [.inserted jobId]
      else []) s' := by
  rcases h with rfl | ⟨rfl, he, hn, hs⟩
  · rw [if_neg fun h => h.2 h.1]
    exact .refl _
  · rwa [if_pos ⟨hn, hs⟩]

theorem body_effect (tx : Tx) {body : StoreM Answer} (h : tx.body sha256 = .ok body) :
    Ensures body s fun answer s' => Effect s (tx.events s answer s') s' := by
  cases tx with
  | enqueue input dbOrder =>
    simp only [Tx.body, bind, Except.bind] at h
    cases hp : prepareJob input with
    | error e => simp [hp] at h
    | ok preparedJob =>
      simp only [hp] at h
      cases hk : input.options.idempotencyKey with
      | none =>
        obtain rfl : _ = body := by simpa [hk, pure, Except.pure] using h
        exact ensures_map.mpr (enqueue_effect.mono fun jobId s' h => h.effect)
      | some idempotencyKey =>
        cases hr : idempotentRequest sha256 input preparedJob idempotencyKey with
        | error e => simp [hk, hr] at h
        | ok request =>
          obtain rfl : _ = body := by simpa [hk, hr, pure, Except.pure] using h
          exact ensures_map.mpr ((enqueueIdempotently_effect sha256).mono fun jobId s' h => h.effect)
  | replaceScheduled scheduleKey input =>
    simp only [Tx.body, bind, Except.bind] at h
    cases hk : normalizeScheduleKey scheduleKey with
    | error e => simp [hk] at h
    | ok scheduleKey =>
      cases hp : prepareJob input with
      | error e => simp [hk, hp] at h
      | ok preparedJob =>
        obtain rfl : _ = body := by simpa [hk, hp, pure, Except.pure] using h
        exact ensures_map.mpr replaceScheduled_effect
  | cancelScheduled scheduleKey =>
    simp only [Tx.body, bind, Except.bind] at h
    cases hk : normalizeScheduleKey scheduleKey with
    | error e => simp [hk] at h
    | ok scheduleKey =>
      obtain rfl : _ = body := by simpa [hk, pure, Except.pure] using h
      exact ensures_map.mpr cancelScheduled_effect
  | markHandedOff jobId handoffId workerId now =>
    cases h
    exact ensures_map.mpr markHandedOff_effect
  | markCompleted jobId report now =>
    cases h
    refine ensures_map.mpr (markCompleted_effect.mono fun accepted s' he => ?_)
    cases accepted <;> exact he
  | markRescheduled jobId delayMs report now =>
    simp only [Tx.body, bind, Except.bind] at h
    cases hd : rescheduledBackgroundJobAtMs delayMs 0 with
    | error e => simp [hd] at h
    | ok delay =>
      obtain rfl : _ = body := by simpa [hd, pure, Except.pure] using h
      refine ensures_map.mpr (markRescheduled_effect.mono fun accepted s' he => ?_)
      cases accepted <;> exact he
  | markReturnedToQueue jobId handoffId now =>
    cases h
    exact ensures_map.mpr markReturnedToQueue_effect
  | markFailed jobId error report now =>
    cases h
    refine ensures_map.mpr (markFailed_effect.mono fun job s' he => ?_)
    cases job <;> exact he
  | markOrphanedJobs orphanedAfterMs sweepNow now dbOrder =>
    cases h
    exact ensures_map.mpr markOrphanedJobs_effect
  | pruneStatusBatch status cutoff batchSize dbOrder =>
    cases h
    exact ensures_map.mpr pruneStatusBatch_effect
  | clearAll =>
    cases h
    exact ensures_map.mpr clearAll_effect
  | cancel jobId =>
    cases h
    refine ensures_map.mpr (cancel_effect.mono fun accepted s' he => ?_)
    cases accepted <;> exact he
  | countSnapshot =>
    cases h
    refine ensures_map.mpr ?_
    simp only [countSnapshot, ensures_serializedCountMutation]
    exact ensures_countSnapshotOnLockedConnection fun _ _ => .refl s

/-- The events of a call; a failed call has none. -/
def Tx.eventsOf (tx : Tx) (s : Db) : List Event :=
  match tx.exec sha256 s with
  | (.ok answer, s') => tx.events s answer s'
  | (.error _, _) => []

/-- **The outcome of a call.** Whatever a call is given, its effect is the one
    its events tell; a call that fails changes nothing. -/
theorem exec_outcome (tx : Tx) (s : Db) :
    Effect s (tx.eventsOf sha256 s) (tx.exec sha256 s).2 := by
  unfold Tx.eventsOf Tx.exec
  cases hb : tx.body sha256 with
  | error e => exact .refl s
  | ok body =>
    rcases (body_effect sha256 tx hb).commit with ⟨e, he⟩ | ⟨answer, s', hc, he⟩
    · dsimp only
      rw [he]
      exact .refl s
    · dsimp only
      rw [hc]
      exact he

def runEvents (s : Db) : List Tx → List Event
  | [] => []
  | tx :: txs => tx.eventsOf sha256 s ++ runEvents (tx.exec sha256 s).2 txs

theorem run_moves (txs : List Tx) : ∀ s : Db,
    Moves s.toJobTables (runEvents sha256 s txs) (run sha256 s txs).toJobTables := by
  induction txs with
  | nil => exact fun s => .nil
  | cons tx txs ih =>
    intro s
    obtain ⟨t, hm, -, -, hr⟩ := exec_outcome sha256 tx s
    exact (hr.tables ▸ hm).trans (ih _)

end

end Velocious
