/-
  What the ordinary transactions of the SQL background-jobs store leave alone:
  the idempotency keys and the mail operations.

  `exec_owners`: every transaction but an idempotent enqueue and the test reset
  keeps both tables, whatever it answers.
-/
import Velocious.BackgroundJobs.Store.Idempotency
import Velocious.BackgroundJobs.Store.Outcome

namespace Velocious

open Foundation

/-- The tables an idempotent enqueue owns. -/
def Db.owners (s : Db) : IdempotencyKeys × MailOperations := (s.idempotencyKeys, s.mailOperations)

/-- A body that leaves those tables alone. -/
def Frame {α : Type} (x : StoreM α) : Prop := ∀ s, Ensures x s fun _ s' => s'.owners = s.owners

namespace Frame

section
variable {α β : Type} {x y : StoreM α}

theorem pure (a : α) : Frame (Pure.pure a : StoreM α) := fun _ => ensures_pure.mpr rfl

theorem bind {f : α → StoreM β} (hx : Frame x) (hf : ∀ a, Frame (f a)) : Frame (x >>= f) :=
  fun s => ensures_bind.mpr <| (hx s).mono fun a s' h => (hf a s').mono fun _ _ h' => h'.trans h

theorem map (f : α → β) (hx : Frame x) : Frame (f <$> x) :=
  fun s => ensures_map.mpr (hx s)

theorem ite {c : Prop} [Decidable c] (hx : Frame x) (hy : Frame y) :
    Frame (if c then x else y) :=
  fun s => ensures_ite.mpr ⟨fun _ => hx s, fun _ => hy s⟩

theorem throw (e : VelociousError) : Frame (throw e : StoreM α) := fun _ => ensures_throw

theorem serializedCountMutation (hx : Frame x) : Frame (Velocious.serializedCountMutation x) :=
  fun s => ensures_serializedCountMutation.mpr (hx s)

end

/-! ## Statements -/

theorem getJobRowById (jobId : String) : Frame (Velocious.getJobRowById jobId) :=
  fun _ => ensures_getJobRowById.mpr rfl

theorem selectJobs (dbOrder : String → ℕ) (p : JobRow → Bool) :
    Frame (Velocious.selectJobs dbOrder p) :=
  fun _ => ensures_selectJobs.mpr rfl

theorem updateJobs (p : JobRow → Bool) (f : JobRow → JobRow) (hf : ∀ row, (f row).id = row.id) :
    Frame (Velocious.updateJobs p f hf) :=
  fun _ => ensures_updateJobs.mpr rfl

theorem deleteJobs (p : JobRow → Bool) : Frame (Velocious.deleteJobs p) :=
  fun _ => ensures_deleteJobs.mpr rfl

theorem lockConcurrencyRow (key : Option Key) : Frame (Velocious.lockConcurrencyRow key) :=
  fun _ => ensures_lockConcurrencyRow.mpr rfl

theorem releaseConcurrency (key : Option Key) : Frame (Velocious.releaseConcurrency key) :=
  fun _ => ensures_releaseConcurrency.mpr rfl

theorem releaseScheduleOwnership (jobId : String) (scheduleKey : Key) :
    Frame (Velocious.releaseScheduleOwnership jobId scheduleKey) :=
  fun _ => ensures_releaseScheduleOwnership.mpr rfl

theorem releaseScheduleOwnershipForJob (job : JobRow) :
    Frame (Velocious.releaseScheduleOwnershipForJob job) :=
  fun _ => ensures_releaseScheduleOwnershipForJob.mpr rfl

theorem upsertScheduleKey (scheduleKey : Key) (jobId : String) :
    Frame (Velocious.upsertScheduleKey scheduleKey jobId) :=
  fun _ => ensures_upsertScheduleKey.mpr rfl

theorem reserveJobConcurrency (key : Option Key) : Frame (Velocious.reserveJobConcurrency key) :=
  fun _ => ensures_reserveJobConcurrency rfl fun _ _ => rfl

theorem insertPreparedJob (preparedJob : PreparedBackgroundJob) (scheduleKey : Option Key) :
    Frame (Velocious.insertPreparedJob preparedJob scheduleKey) :=
  fun _ => ensures_insertPreparedJob fun _ _ _ _ _ => rfl

theorem recordCountDelta (deltas : CountDeltas) : Frame (Velocious.recordCountDelta deltas) :=
  fun _ => ensures_recordCountDelta fun _ h => by cases h <;> rfl

theorem scheduleOwner (scheduleKey : Key) : Frame (Velocious.scheduleOwner scheduleKey) := by
  intro s
  simp [Velocious.scheduleOwner]

theorem scheduleOwnerJob (scheduleKey : Key) : Frame (Velocious.scheduleOwnerJob scheduleKey) :=
  fun _ => ensures_scheduleOwnerJob.mpr rfl

theorem coveringJob (dbOrder : String → ℕ) (dedupe : Bool) (preparedJob : PreparedBackgroundJob) :
    Frame (Velocious.coveringJob dbOrder dedupe preparedJob) :=
  .ite (.pure _) <| .bind (.selectJobs _ _) fun _ => .pure _

/-! ## Transactions -/

theorem enqueue (dbOrder : String → ℕ) (dedupe : Bool) (preparedJob : PreparedBackgroundJob) :
    Frame (Velocious.enqueue dbOrder dedupe preparedJob) := by
  refine .serializedCountMutation <| .bind (.coveringJob _ _ _) fun existing => ?_
  cases existing with
  | some existing => exact .pure _
  | none =>
    exact .bind (.insertPreparedJob _ _) fun _ => .bind (.recordCountDelta _) fun _ => .pure _

theorem replaceOwner (owner : Option JobRow) : Frame (Velocious.replaceOwner owner) := by
  cases owner with
  | none => exact .pure _
  | some owner =>
    cases hs : owner.status with
    | queued =>
      simp only [Velocious.replaceOwner, hs]
      refine .bind (.updateJobs _ _ _) fun n => .ite (.pure _) <|
        .bind (.getJobRowById _) fun current => ?_
      cases current <;> exact .pure _
    | _ =>
      simp only [Velocious.replaceOwner, hs]
      exact .pure _

theorem replaceScheduled (scheduleKey : Key) (preparedJob : PreparedBackgroundJob) :
    Frame (Velocious.replaceScheduled scheduleKey preparedJob) := by
  refine .serializedCountMutation <| .bind (.scheduleOwnerJob _) fun owner =>
    .bind (.replaceOwner _) fun previous => .bind (.insertPreparedJob _ _) fun _ =>
    .bind (.upsertScheduleKey _ _) fun _ => .ite ?_ (.pure _)
  exact .bind (.recordCountDelta _) fun _ => .pure _

theorem detachOwner (jobId : String) (scheduleKey : Key) :
    Frame (Velocious.detachOwner jobId scheduleKey) :=
  .bind (.getJobRowById _) fun _ => .bind (.releaseScheduleOwnership _ _) fun _ =>
    .ite (.pure _) (.pure _)

theorem cancelScheduled (scheduleKey : Key) : Frame (Velocious.cancelScheduled scheduleKey) := by
  refine .serializedCountMutation <| .bind (.scheduleOwner _) fun owner => ?_
  cases owner with
  | none => exact .pure _
  | some jobId =>
    refine .bind (.getJobRowById _) fun job => .ite ?_ (.detachOwner _ _)
    refine .bind (.updateJobs _ _ _) fun n => .ite ?_ (.detachOwner _ _)
    exact .bind (.releaseScheduleOwnership _ _) fun _ => .bind (.recordCountDelta _) fun _ =>
      .pure _

theorem markHandedOff (jobId handoffId : String) (workerId : Option String) (now : ℤ) :
    Frame (Velocious.markHandedOff jobId handoffId workerId now) := by
  refine .serializedCountMutation <| .bind (.getJobRowById _) fun job => ?_
  cases job with
  | none => exact .pure _
  | some job =>
    refine .ite (.pure _) <| .bind (.reserveJobConcurrency _) fun _ => .ite (.pure _) <|
      .bind (.updateJobs _ _ _) fun _ => .ite ?_ ?_
    · exact .bind (.releaseConcurrency _) fun _ => .pure _
    · exact .bind (.recordCountDelta _) fun _ => .pure _

theorem markCompleted (jobId : String) (report : Report) (now : ℤ) :
    Frame (Velocious.markCompleted jobId report now) := by
  refine .serializedCountMutation <| .bind (.getJobRowById _) fun job => ?_
  cases job with
  | none => exact .pure _
  | some job =>
    exact .ite (.pure _) <| .bind (.lockConcurrencyRow _) fun _ =>
      .bind (.updateJobs _ _ _) fun _ => .ite (.pure _) <|
      .bind (.releaseScheduleOwnershipForJob _) fun _ => .bind (.releaseConcurrency _) fun _ =>
      .bind (.recordCountDelta _) fun _ => .pure _

theorem markRescheduled (jobId : String) (delayMs : JsNumber) (report : Report) (now : ℤ) :
    Frame (Velocious.markRescheduled jobId delayMs report now) := by
  refine .serializedCountMutation <| .bind (.getJobRowById _) fun job => ?_
  cases job with
  | none => exact .pure _
  | some job =>
    refine .ite (.pure _) <| .bind (.lockConcurrencyRow _) fun _ => ?_
    cases rescheduledBackgroundJobAtMs delayMs now with
    | error error => exact .throw _
    | ok scheduledAtMs =>
      exact .bind (.updateJobs _ _ _) fun _ => .ite (.pure _) <|
        .bind (.releaseConcurrency _) fun _ => .bind (.recordCountDelta _) fun _ => .pure _

theorem markReturnedToQueue (jobId handoffId : String) (now : ℤ) :
    Frame (Velocious.markReturnedToQueue jobId handoffId now) := by
  refine .serializedCountMutation <| .bind (.getJobRowById _) fun job => ?_
  cases job with
  | none => exact .pure _
  | some job =>
    exact .ite (.pure _) <| .bind (.lockConcurrencyRow _) fun _ =>
      .bind (.updateJobs _ _ _) fun _ => .ite
        (.bind (.releaseConcurrency _) fun _ => .recordCountDelta _) (.pure _)

theorem applyFailure (job : JobRow) (error : JobError) (markOrphaned : Bool)
    (conditions : JobRow → Bool) (now : ℤ) :
    Frame (Velocious.applyFailure job error markOrphaned conditions now) := by
  refine .bind (.lockConcurrencyRow _) fun _ => .bind (.updateJobs _ _ _) fun _ =>
    .ite (.pure _) <| .ite ?_ ?_
  · exact .bind (.releaseScheduleOwnershipForJob _) fun _ => .bind (.releaseConcurrency _) fun _ =>
      .pure _
  · exact .bind (.releaseConcurrency _) fun _ => .pure _

theorem markFailed (jobId : String) (error : JobError) (report : Report) (now : ℤ) :
    Frame (Velocious.markFailed jobId error report now) := by
  refine .serializedCountMutation <| .bind (.getJobRowById _) fun job => ?_
  cases job with
  | none => exact .pure _
  | some job =>
    refine .ite (.pure _) <| .bind (.applyFailure _ _ _ _ _) fun updatedJob => ?_
    cases updatedJob with
    | none => exact .pure _
    | some updatedJob => exact .bind (.recordCountDelta _) fun _ => .pure _

theorem orphanRows (now : String → ℤ) (rows : List JobRow) :
    Frame (Velocious.orphanRows now rows) := by
  induction rows with
  | nil => exact .pure _
  | cons row rows ih => exact .bind (.applyFailure _ _ _ _ _) fun _ => .bind ih fun _ => .pure _

theorem markOrphanedJobs (orphanedAfterMs sweepNow : ℤ) (now : String → ℤ)
    (dbOrder : String → ℕ) :
    Frame (Velocious.markOrphanedJobs orphanedAfterMs sweepNow now dbOrder) :=
  .serializedCountMutation <| .bind (.selectJobs _ _) fun _ => .bind (.orphanRows _ _) fun _ =>
    .bind (.recordCountDelta _) fun _ => .pure _

theorem pruneStatusBatch (status : PrunedStatus) (cutoff : ℤ) (batchSize : ℕ)
    (dbOrder : String → ℕ) :
    Frame (Velocious.pruneStatusBatch status cutoff batchSize dbOrder) :=
  .serializedCountMutation <| .bind (.selectJobs _ _) fun _ => .ite (.pure _) <|
    .bind (.deleteJobs _) fun _ => .bind (.recordCountDelta _) fun _ => .pure _

theorem cancel (jobId : String) : Frame (Velocious.cancel jobId) := by
  refine .serializedCountMutation <| .bind (.getJobRowById _) fun job => ?_
  cases job with
  | none => exact .pure _
  | some job =>
    refine .ite (.pure _) <| .ite (.bind (.lockConcurrencyRow _) fun _ => ?_) ?_
    all_goals
      refine .bind (.updateJobs _ _ _) fun _ => .ite (.pure _) <|
        .bind (.releaseScheduleOwnershipForJob _) fun _ => .ite ?_ ?_
      · exact .bind (.releaseConcurrency _) fun _ => .bind (.recordCountDelta _) fun _ => .pure _
      · exact .bind (.recordCountDelta _) fun _ => .pure _

theorem countSnapshot : Frame Velocious.countSnapshot := by
  refine .serializedCountMutation fun s => ?_
  exact ensures_countSnapshotOnLockedConnection fun _ _ => rfl

end Frame

variable {sha256 : String → String}

theorem body_frame {tx : Tx} (h : tx.ordinary = true) {body : StoreM Answer}
    (hbody : tx.body sha256 = .ok body) : Frame body := by
  cases tx with
  | enqueue input dbOrder =>
    have hkey : input.options.idempotencyKey = none := by simpa [Tx.ordinary] using h
    cases hp : prepareJob input with
    | error error => simp [Tx.body, bind, Except.bind, hp] at hbody
    | ok preparedJob =>
      obtain rfl : _ = body := by
        simpa [Tx.body, bind, Except.bind, pure, Except.pure, hp, hkey] using hbody
      exact .map _ (.enqueue _ _ _)
  | replaceScheduled scheduleKey input =>
    cases hk : normalizeScheduleKey scheduleKey with
    | error error => simp [Tx.body, bind, Except.bind, hk] at hbody
    | ok scheduleKey =>
      cases hp : prepareJob input with
      | error error => simp [Tx.body, bind, Except.bind, hk, hp] at hbody
      | ok preparedJob =>
        obtain rfl : _ = body := by
          simpa [Tx.body, bind, Except.bind, pure, Except.pure, hk, hp] using hbody
        exact .map _ (.replaceScheduled _ _)
  | cancelScheduled scheduleKey =>
    cases hk : normalizeScheduleKey scheduleKey with
    | error error => simp [Tx.body, hk] at hbody
    | ok scheduleKey =>
      obtain rfl : _ = body := by
        simpa [Tx.body, bind, Except.bind, pure, Except.pure, hk] using hbody
      exact .map _ (.cancelScheduled _)
  | markRescheduled jobId delayMs report now =>
    cases hd : rescheduledBackgroundJobAtMs delayMs 0 with
    | error error => simp [Tx.body, hd] at hbody
    | ok scheduledAtMs =>
      obtain rfl : _ = body := by
        simpa [Tx.body, bind, Except.bind, pure, Except.pure, hd] using hbody
      exact .map _ (.markRescheduled _ _ _ _)
  | clearAll => cases h
  | markHandedOff =>
    cases hbody
    exact .map _ (.markHandedOff _ _ _ _)
  | markCompleted =>
    cases hbody
    exact .map _ (.markCompleted _ _ _)
  | markReturnedToQueue =>
    cases hbody
    exact .map _ (.markReturnedToQueue _ _ _)
  | markFailed =>
    cases hbody
    exact .map _ (.markFailed _ _ _ _)
  | markOrphanedJobs =>
    cases hbody
    exact .map _ (.markOrphanedJobs _ _ _ _)
  | pruneStatusBatch =>
    cases hbody
    exact .map _ (.pruneStatusBatch _ _ _ _)
  | cancel =>
    cases hbody
    exact .map _ (.cancel _)
  | countSnapshot =>
    cases hbody
    exact .map _ .countSnapshot

/-- **Ordinary transactions leave the owners alone.** -/
theorem exec_owners {tx : Tx} (h : tx.ordinary = true) (s : Db) :
    (tx.exec sha256 s).2.owners = s.owners := by
  unfold Tx.exec
  cases hbody : tx.body sha256 with
  | error error => rfl
  | ok body =>
    change (commit body s).2.owners = s.owners
    rcases (body_frame h hbody s).commit with ⟨error, hc⟩ | ⟨answer, s', hc, hs'⟩
    · rw [hc]
    · rw [hc]
      exact hs'

end Velocious
