/-
  Every interleaving of idempotent enqueues.

  `Idem` is the invariant: the open claims are of different unowned scopes, one
  transaction at most works on private tables, each ownership row belongs to
  the one enqueue that created a job for its scope, and whatever an enqueue has
  found or answered it has from that one. `Idem.step` keeps it where an enqueue
  that has lost the insertion reads what is committed.
-/
import Velocious.BackgroundJobs.Store.Frame

namespace Velocious

open Foundation List

/-! ## Requests -/

namespace IdempotentEnqueue
variable {sha256 : String → String}

theorem request_eq (e : IdempotentEnqueue sha256) :
    e.request.preparedJob = e.preparedJob ∧
    e.request.ownership =
      { scopeDigest := idempotencyScopeDigest sha256 e.idempotencyKey e.preparedJob.jobName
          e.preparedJob.queue
        requestDigest := sha256 e.canonical
        jobName := e.preparedJob.jobName
        queue := e.preparedJob.queue
        idempotencyKey := e.idempotencyKey
        jobId := e.jobId
        createdAtMs := e.preparedJob.createdAtMs } := by
  have h := e.valid
  unfold idempotentRequest normalizeIdempotencyKey at h
  by_cases hkey : e.idempotencyKey = ""
  · simp [hkey, bind, Except.bind] at h
  cases hmail : mailDeliveryOperationForJob e.preparedJob.jobName e.input.args with
  | error error => simp [hkey, hmail, pure, Except.pure, bind, Except.bind] at h
  | ok operation =>
    simp only [hkey, hmail, pure, Except.pure, bind, Except.bind, if_false] at h
    split at h
    · cases h
    · rw [← Except.ok.inj h]
      exact ⟨rfl, rfl⟩

variable {e f : IdempotentEnqueue sha256}

theorem digest_eq (h : e.SameScope f) : e.digest = f.digest := by
  obtain ⟨hname, hqueue, hkey⟩ := h
  rw [digest, digest, e.request_eq.2, f.request_eq.2]
  simp only [hname, hqueue, hkey]

theorem sameRequest_eq (h : e.SameScope f) :
    Velocious.sameRequest e.request.ownership f.request.ownership =
      decide (sha256 e.canonical = sha256 f.canonical) := by
  obtain ⟨hname, hqueue, hkey⟩ := h
  rw [e.request_eq.2, f.request_eq.2]
  simp [Velocious.sameRequest, hname, hqueue, hkey]

theorem SameScope.of_sameRequest
    (h : Velocious.sameRequest e.request.ownership f.request.ownership = true) :
    e.SameScope f := by
  rw [e.request_eq.2, f.request_eq.2] at h
  simp only [Velocious.sameRequest, Bool.and_eq_true, decide_eq_true_eq] at h
  exact ⟨h.1.1.1, h.1.1.2, h.1.2⟩

def MailStored (e : IdempotentEnqueue sha256) (jobId : String) (t : MailOperations) : Prop :=
  ∀ operation, e.request.mailOperation = some operation →
    ∃ row, t.find? (mailDeliveryOperationKey sha256 operation.id) = some row ∧
      sameMailOperation row operation jobId = true

theorem MailStored.mono {e : IdempotentEnqueue sha256} {jobId : String} {t t' : MailOperations}
    (h : e.MailStored jobId t) (hkept : ∀ key row, t.find? key = some row → t'.find? key = some row) :
    e.MailStored jobId t' := fun operation ho => by
  obtain ⟨row, hrow, hsame⟩ := h operation ho
  exact ⟨row, hkept _ _ hrow, hsame⟩

/-- What the creation of a job makes of the tables. -/
structure Creates (e : IdempotentEnqueue sha256) (s s' : Db) : Prop where
  job : s.jobs.insert? (e.preparedJob.row none) = some s'.jobs
  scheduleKeys : s'.scheduleKeys = s.scheduleKeys
  mailKept : ∀ key row, s.mailOperations.find? key = some row →
    s'.mailOperations.find? key = some row
  mail : e.MailStored e.jobId s'.mailOperations
  delta : ∃ revision, s.countRevision = some revision ∧
    s'.countRevision = some (revision + 1) ∧
    s'.broadcasts = s.broadcasts ++ [⟨enqueuedDeltas, revision + 1⟩]

end IdempotentEnqueue

section
variable {sha256 : String → String} {s : Db}

theorem ensures_persist_stored {seen : MailOperations} {jobId : String} {createdAtMs : ℤ}
    {mailOperation : Option MailerDeliveryOperation} {Q : PUnit → Db → Prop}
    (hseen : ∀ key row, seen.find? key = some row → s.mailOperations.find? key = some row)
    (h : ∀ mailOperations : MailOperations,
      (∀ key row, s.mailOperations.find? key = some row → mailOperations.find? key = some row) →
      (∀ operation, mailOperation = some operation →
        ∃ row, mailOperations.find? (mailDeliveryOperationKey sha256 operation.id) = some row ∧
          sameMailOperation row operation jobId = true) → Q ⟨⟩ { s with mailOperations }) :
    Ensures (persistMailDeliveryOperationBy sha256 (fun key => pure (seen.find? key)) jobId
      createdAtMs mailOperation) s Q := by
  cases mailOperation with
  | none => exact ensures_pure.mpr (h s.mailOperations (fun _ _ hf => hf) fun _ ho => nomatch ho)
  | some operation =>
    refine ensures_tryCatch ?_ fun error _ => ?_
    · simp only [insertMailOperation, ensures_bind, ensures_get]
      cases hi : s.mailOperations.insert? (mailOperationRow sha256 operation jobId createdAtMs) with
      | none => exact ensures_throw
      | some mailOperations =>
        refine ensures_set.mpr (h mailOperations (fun key row hf => ?_) fun operation' ho => ?_)
        · rw [Table.find?_insert? hi, if_neg, hf]
          rintro rfl
          rw [(Table.insert?_eq_some.mp hi).1] at hf
          cases hf
        · cases ho
          refine ⟨mailOperationRow sha256 operation jobId createdAtMs, ?_, ?_⟩
          · rw [Table.find?_insert? hi]
            simp [mailOperationRow]
          · simp [sameMailOperation, mailOperationRow]
    · simp only [ensures_bind, ensures_pure]
      cases hf : seen.find? (mailDeliveryOperationKey sha256 operation.id) with
      | none => exact ensures_throw
      | some existing =>
        simp only [validateMailDeliveryOperationRow, ensures_ite, ensures_pure, ensures_throw,
          implies_true, and_true]
        refine fun hsame => h s.mailOperations (fun _ _ hf => hf) fun operation' ho => ?_
        cases ho
        exact ⟨existing, hseen _ _ hf, hsame⟩

theorem enqueuedDeltas_ne_zero : enqueuedDeltas ≠ 0 := by
  intro h
  have := congrFun h .all
  revert this
  decide

theorem ensures_recordEnqueued {Q : PUnit → Db → Prop}
    (h : ∀ revision, s.countRevision = some revision →
      Q ⟨⟩ { s with
        countRevision := some (revision + 1)
        broadcasts := s.broadcasts ++ [⟨enqueuedDeltas, revision + 1⟩] }) :
    Ensures (recordCountDelta enqueuedDeltas) s Q := by
  refine ensures_recordCountDelta fun s' hs' => ?_
  cases hs' with
  | none hz => exact absurd hz enqueuedDeltas_ne_zero
  | some revision _ hr _ => exact h revision hr

theorem Isolation.view_mono {snapshot s' : Db} (level : Isolation)
    (h : ∀ key row, s.mailOperations.find? key = some row →
      s'.mailOperations.find? key = some row) (key : String) (row : MailOperationRow)
    (hrow : (level.view snapshot s).mailOperations.find? key = some row) :
    (level.view snapshot s').mailOperations.find? key = some row := by
  cases level with
  | readCommitted => exact h key row hrow
  | repeatableRead => exact hrow

theorem validateMail_run (jobId : String) (mailOperation : Option MailerDeliveryOperation) :
    (validateMailDeliveryOperation sha256 jobId mailOperation).run s = .ok (⟨⟩, s) ∨
    ∃ error operation,
      (validateMailDeliveryOperation sha256 jobId mailOperation).run s = .error error ∧
      mailOperation = some operation ∧
      ∀ row, s.mailOperations.find? (mailDeliveryOperationKey sha256 operation.id) = some row →
        sameMailOperation row operation jobId = false := by
  cases mailOperation with
  | none => exact .inl rfl
  | some operation =>
    simp only [validateMailDeliveryOperation, mailDeliveryOperation, StateT.run_bind, StateT.run_get,
      pure_bind, StateT.run_pure]
    cases hf : s.mailOperations.find? (mailDeliveryOperationKey sha256 operation.id) with
    | none => exact .inr ⟨_, operation, rfl, rfl, by simp [hf]⟩
    | some row =>
      dsimp only
      cases hs : sameMailOperation row operation jobId with
      | true =>
        refine .inl ?_
        simp only [validateMailDeliveryOperationRow, hs]
        rfl
      | false =>
        refine .inr ⟨mailConflict, operation, ?_, rfl, by simpa [hf] using hs⟩
        simp only [validateMailDeliveryOperationRow, hs]
        rfl

/-- A replay fails with the conflict when the request does not fit the owner;
    else it answers the owner's job, unless the mail operation does not fit. -/
theorem replay_run (request : IdempotentRequest) (existing : IdempotencyRow) :
    (sameRequest existing request.ownership = false ∧
      (replayIdempotentEnqueue sha256 request existing).run s = .error idempotencyConflict) ∨
    (sameRequest existing request.ownership = true ∧
      (replayIdempotentEnqueue sha256 request existing).run s = .ok (existing.jobId, s)) ∨
    (sameRequest existing request.ownership = true ∧
      ∃ error operation, (replayIdempotentEnqueue sha256 request existing).run s = .error error ∧
        request.mailOperation = some operation ∧
        ∀ row, s.mailOperations.find? (mailDeliveryOperationKey sha256 operation.id) = some row →
          sameMailOperation row operation existing.jobId = false) := by
  cases hsame : sameRequest existing request.ownership with
  | false =>
    refine .inl ⟨rfl, ?_⟩
    simp only [replayIdempotentEnqueue, hsame]
    rfl
  | true =>
    have hrun : (replayIdempotentEnqueue sha256 request existing).run s =
        ((validateMailDeliveryOperation sha256 existing.jobId request.mailOperation).run s).bind
          fun r => .ok (existing.jobId, r.2) := by
      simp only [replayIdempotentEnqueue, hsame]
      rfl
    rw [hrun]
    rcases @validateMail_run sha256 s existing.jobId request.mailOperation with
      h | ⟨error, operation, h, hmail, hrow⟩
    · exact .inr (.inl ⟨rfl, by rw [h]; rfl⟩)
    · exact .inr (.inr ⟨rfl, error, operation, by rw [h]; rfl, hmail, hrow⟩)

end

/-! ## The invariant -/

def EnqueueOutcome.cutOff : EnqueueOutcome → Prop
  | refused _ | failed => True
  | _ => False

/-- The stages of a transaction with an open claim. -/
def EnqueueStage.claiming : EnqueueStage → Prop
  | claimed | locked _ | inserted _ | persisted _ | recorded _ => True
  | _ => False

/-- The stages of a transaction that holds the count-revision lock. -/
def EnqueueStage.locking : EnqueueStage → Prop
  | locked _ | inserted _ | persisted _ | recorded _ => True
  | _ => False

namespace EnqueueWorld
variable {ι : Type} {sha256 : String → String} (callers : ι → IdempotentEnqueue sha256)
  (isolation : ι → Isolation)

/-- The claims and the lock are those of the transactions at work. -/
structure Locks (w : EnqueueWorld ι) : Prop where
  distinct : (w.claims.map fun i => (callers i).digest).Nodup
  claiming : ∀ i, i ∈ w.claims ↔ (w.stage i).claiming
  locking : ∀ i, w.lock = some i ↔ (w.stage i).locking

/-- What the private tables of a stage have become. -/
def Drafted (db : Db) (e : IdempotentEnqueue sha256) : EnqueueStage → Prop
  | .locked t => t = db
  | .inserted t => ∃ concurrency jobs, db.jobs.insert? (e.preparedJob.row none) = some jobs ∧
      t = { db with concurrency, jobs }
  | .persisted t => ∃ concurrency jobs mailOperations,
      db.jobs.insert? (e.preparedJob.row none) = some jobs ∧
      (∀ key row, db.mailOperations.find? key = some row → mailOperations.find? key = some row) ∧
      e.MailStored e.jobId mailOperations ∧ t = { db with concurrency, jobs, mailOperations }
  | .recorded t => e.Creates db t
  | _ => True

/-- What an enqueue knows it has from the creator of its scope's job; it sees these mail
    operations. -/
def Known (created : List ι) (seen : MailOperations) (i : ι) : EnqueueStage → Prop
  | .raced => ∃ c ∈ created, (callers c).digest = (callers i).digest
  | .found existing => ∃ c ∈ created, (callers c).digest = (callers i).digest ∧
      existing = (callers c).request.ownership ∧ (callers c).MailStored (callers c).jobId seen
  | .done (.returned jobId) => ∃ c ∈ created, (callers c).digest = (callers i).digest ∧
      jobId = (callers c).jobId ∧
      sameRequest (callers c).request.ownership (callers i).request.ownership = true
  | .done (.conflicted error) => ∃ c ∈ created, (callers c).digest = (callers i).digest ∧
      ((sameRequest (callers c).request.ownership (callers i).request.ownership = false ∧
          error = idempotencyConflict) ∨
        (sameRequest (callers c).request.ownership (callers i).request.ownership = true ∧
          (callers c).request.mailOperation ≠ (callers i).request.mailOperation))
  | _ => True

/-- The ownership rows are those of the enqueues that created a job. -/
structure Owners (db : Db) (created : List ι) : Prop where
  distinct : (created.map fun i => (callers i).digest).Nodup
  owned : ∀ c ∈ created,
    db.idempotencyKeys.find? (callers c).digest = some (callers c).request.ownership
  owner : ∀ row ∈ db.idempotencyKeys, ∃ c ∈ created, row = (callers c).request.ownership
  mail : ∀ c ∈ created, (callers c).MailStored (callers c).jobId db.mailOperations

/-- The invariant of the enqueues. -/
structure Idem (w : EnqueueWorld ι) : Prop where
  locks : w.Locks callers
  owners : Owners callers w.db w.created
  unowned : ∀ i ∈ w.claims, w.db.idempotencyKeys.find? (callers i).digest = none
  drafted : ∀ i, Drafted w.db (callers i) (w.stage i)
  known : ∀ i, Known callers w.created ((isolation i).view (w.snapshot i) w.db).mailOperations i (w.stage i)
  kept : ∀ i key row, (w.snapshot i).mailOperations.find? key = some row →
    w.db.mailOperations.find? key = some row

variable {callers isolation}

variable {c i j : ι} {stage : EnqueueStage}

variable {created : List ι}

theorem Known.mono {created' : List ι} {seen seen' : MailOperations}
    (h : Known callers created seen i stage) (hsub : created ⊆ created')
    (hkept : ∀ key row, seen.find? key = some row → seen'.find? key = some row) :
    Known callers created' seen' i stage := by
  cases stage with
  | raced =>
    obtain ⟨c, hc, h⟩ := h
    exact ⟨c, hsub hc, h⟩
  | found =>
    obtain ⟨c, hc, hd, hrow, hmail⟩ := h
    exact ⟨c, hsub hc, hd, hrow, hmail.mono hkept⟩
  | done outcome =>
    cases outcome with
    | returned =>
      obtain ⟨c, hc, h⟩ := h
      exact ⟨c, hsub hc, h⟩
    | conflicted =>
      obtain ⟨c, hc, h⟩ := h
      exact ⟨c, hsub hc, h⟩
    | refused | failed => trivial
  | _ => trivial

theorem Owners.creator {db : Db} (h : Owners callers db created)
    {row : IdempotencyRow} (hf : db.idempotencyKeys.find? (callers i).digest = some row) :
    ∃ c ∈ created, (callers c).digest = (callers i).digest ∧
      row = (callers c).request.ownership ∧
      (callers c).MailStored (callers c).jobId db.mailOperations := by
  obtain ⟨c, hc, rfl⟩ := h.owner row (Table.mem_of_find? hf)
  have hkey : (callers c).request.ownership.scopeDigest = _ := Table.key_of_find? hf
  exact ⟨c, hc, hkey, rfl, h.mail c hc⟩

theorem Owners.eq_of_digest {db : Db} (h : Owners callers db created) {d : ι}
    (hc : c ∈ created) (hd : d ∈ created) (he : (callers c).digest = (callers d).digest) : c = d :=
  inj_on_of_nodup_map h.distinct hc hd he

variable [DecidableEq ι]

variable {w w' : EnqueueWorld ι}

theorem Locks.goto (h : w.Locks callers)
    (hc : stage.claiming ↔ (w.stage i).claiming) (hl : stage.locking ↔ (w.stage i).locking) :
    (w.goto i stage).Locks callers where
  distinct := h.distinct
  claiming j := by
    by_cases hj : j = i
    · subst hj
      simpa [EnqueueWorld.goto, hc] using h.claiming j
    · simpa [EnqueueWorld.goto, hj] using h.claiming j
  locking j := by
    by_cases hj : j = i
    · subst hj
      simpa [EnqueueWorld.goto, hl] using h.locking j
    · simpa [EnqueueWorld.goto, hj] using h.locking j

theorem Idem.goto (h : w.Idem callers isolation)
    (hc : stage.claiming ↔ (w.stage i).claiming) (hl : stage.locking ↔ (w.stage i).locking)
    (hd : Drafted w.db (callers i) stage)
    (hk : Known callers w.created ((isolation i).view (w.snapshot i) w.db).mailOperations i stage) :
    (w.goto i stage).Idem callers isolation where
  __ := h
  locks := h.locks.goto hc hl
  drafted j := by
    by_cases hj : j = i
    · subst hj
      simpa [EnqueueWorld.goto] using hd
    · simpa [EnqueueWorld.goto, hj] using h.drafted j
  known j := by
    by_cases hj : j = i
    · subst hj
      simpa [EnqueueWorld.goto] using hk
    · simpa [EnqueueWorld.goto, hj] using h.known j

/-- The first read of a transaction, which has found nothing yet. -/
theorem Idem.takeSnapshot (h : w.Idem callers isolation) (hs : w.stage i = .begun) :
    (w.takeSnapshot i).Idem callers isolation where
  __ := h
  locks := ⟨h.locks.distinct, h.locks.claiming, h.locks.locking⟩
  known j := by
    by_cases hj : j = i
    · subst hj
      show Known callers _ _ j (w.stage j)
      rw [hs]
      trivial
    · simpa [EnqueueWorld.takeSnapshot, hj] using h.known j
  kept j key row := by
    by_cases hj : j = i
    · subst hj
      simp [EnqueueWorld.takeSnapshot]
    · simpa [EnqueueWorld.takeSnapshot, hj] using h.kept j key row

theorem Locks.finish (h : w.Locks callers) (i : ι)
    (outcome : EnqueueOutcome) : (w.finish i outcome).Locks callers where
  distinct := h.distinct.sublist (w.claims.erase_sublist.map _)
  claiming j := by
    have hn : w.claims.Nodup := h.distinct.of_map _
    by_cases hj : j = i
    · subst hj
      simp [EnqueueWorld.finish, EnqueueStage.claiming, hn.mem_erase_iff]
    · simpa [EnqueueWorld.finish, hj] using h.claiming j
  locking j := by
    by_cases hj : j = i
    · subst hj
      simp [EnqueueWorld.finish, EnqueueStage.locking]
    · have := h.locking j
      by_cases hw : w.lock = some i
      · have hne : ¬(w.stage j).locking := fun hl =>
          hj (Option.some.inj ((this.mpr hl).symm.trans hw))
        simp [EnqueueWorld.finish, hj, hw, hne]
      · simpa [EnqueueWorld.finish, hj, hw] using this

variable {outcome : EnqueueOutcome}

theorem Idem.finish (h : w.Idem callers isolation)
    (hk : Known callers w.created ((isolation i).view (w.snapshot i) w.db).mailOperations i (.done outcome)) :
    (w.finish i outcome).Idem callers isolation where
  locks := h.locks.finish i outcome
  owners := h.owners
  kept := h.kept
  unowned j hj := h.unowned j (mem_of_mem_erase hj)
  drafted j := by
    by_cases hj : j = i
    · subst hj
      simp [EnqueueWorld.finish, Drafted]
    · simpa [EnqueueWorld.finish, hj] using h.drafted j
  known j := by
    by_cases hj : j = i
    · subst hj
      simpa [EnqueueWorld.finish] using hk
    · simpa [EnqueueWorld.finish, hj] using h.known j

theorem Idem.create {w : EnqueueWorld ι} (h : w.Idem callers isolation) {i : ι} {x : StoreM PUnit} {t : Db}
    {next : Db → EnqueueStage} (hc : ∀ t, (next t).claiming ↔ (w.stage i).claiming)
    (hl : ∀ t, (next t).locking ↔ (w.stage i).locking)
    (hk : ∀ t, Known callers w.created ((isolation i).view (w.snapshot i) w.db).mailOperations i (next t))
    (hx : Ensures x t fun _ t' => Drafted w.db (callers i) (next t')) :
    (w.create i x t next).Idem callers isolation := by
  unfold EnqueueWorld.create
  split
  · next u t' hrun => exact h.goto (hc t') (hl t') (hx u t' hrun) (hk t')
  · exact h.finish trivial

theorem Idem.creating (h : w.Idem callers isolation) {t : Db} : (w.stage i = .locked t →
      (w.create i (insertPreparedJob (callers i).request.preparedJob none) t .inserted).Idem
        callers isolation) ∧
    (w.stage i = .inserted t →
      (w.create i (persistMailDeliveryOperationBy sha256
        (fun key => pure (((isolation i).view (w.snapshot i) t).mailOperations.find? key))
        (callers i).request.preparedJob.jobId (callers i).request.preparedJob.createdAtMs
        (callers i).request.mailOperation) t .persisted).Idem callers isolation) ∧
    (w.stage i = .persisted t →
      (w.create i (recordCountDelta enqueuedDeltas) t .recorded).Idem callers isolation) := by
  have hd := h.drafted i
  rw [(callers i).request_eq.1]
  refine ⟨fun hs => ?_, fun hs => ?_, fun hs => ?_⟩
  · rw [hs] at hd
    obtain rfl : t = w.db := hd
    refine h.create (by simp [hs, EnqueueStage.claiming]) (by simp [hs, EnqueueStage.locking])
      (fun _ => trivial) (ensures_insertPreparedJob fun concurrency jobs _ _ hj => ?_)
    exact ⟨concurrency, jobs, hj, rfl⟩
  · rw [hs] at hd
    obtain ⟨concurrency, jobs, hj, rfl⟩ := hd
    refine h.create (by simp [hs, EnqueueStage.claiming]) (by simp [hs, EnqueueStage.locking])
      (fun _ => trivial) (ensures_persist_stored (fun key row hrow => ?_)
        fun mailOperations hkept hmail => ?_)
    · cases hlevel : isolation i with
      | readCommitted => rwa [hlevel] at hrow
      | repeatableRead =>
        rw [hlevel] at hrow
        exact h.kept i key row hrow
    exact ⟨concurrency, jobs, mailOperations, hj, hkept, hmail, rfl⟩
  · rw [hs] at hd
    obtain ⟨concurrency, jobs, mailOperations, hj, hkept, hmail, rfl⟩ := hd
    refine h.create (by simp [hs, EnqueueStage.claiming]) (by simp [hs, EnqueueStage.locking])
      (fun _ => trivial) (ensures_recordEnqueued fun revision hr => ?_)
    exact ⟨hj, rfl, hkept, hmail, revision, hr, rfl, rfl⟩

theorem Idem.replay (h : w.Idem callers isolation) {view : Db} (hc : c ∈ w.created)
    (hd : (callers c).digest = (callers i).digest)
    (hstored : (callers c).MailStored (callers c).jobId view.mailOperations)
    (hw : w' = match (replayIdempotentEnqueue sha256 (callers i).request
        (callers c).request.ownership).run view with
      | .ok (jobId, _) => w.finish i (.returned jobId)
      | .error error => w.finish i (.conflicted error)) : w'.Idem callers isolation := by
  have hjob : (callers c).request.ownership.jobId = (callers c).jobId := by
    rw [(callers c).request_eq.2]
  rcases @replay_run sha256 view (callers i).request (callers c).request.ownership with
    ⟨hsame, hrun⟩ | ⟨hsame, hrun⟩ | ⟨hsame, error, operation, hrun, hmail, hrow⟩
  · rw [hrun] at hw
    subst hw
    exact h.finish ⟨c, hc, hd, .inl ⟨hsame, rfl⟩⟩
  · rw [hrun] at hw
    subst hw
    exact h.finish ⟨c, hc, hd, hjob, hsame⟩
  · rw [hrun] at hw
    subst hw
    -- the creator's own operation is stored for its job, so this is another one
    refine h.finish ⟨c, hc, hd, .inr ⟨hsame, fun heq => ?_⟩⟩
    obtain ⟨row, hfind, hok⟩ := hstored operation (heq.trans hmail)
    rw [← hjob, hrow row hfind] at hok
    cases hok

theorem Idem.statement (h : w.Idem callers isolation)
    (hread : w.stage i = .raced → isolation i = .readCommitted)
    (hstep : w.statement callers isolation i = some w') : w'.Idem callers isolation := by
  unfold EnqueueWorld.statement at hstep
  dsimp only at hstep
  have hk := h.known i
  split at hstep
  · next hs =>
    split at hstep
    · next row hf =>
      cases hstep
      refine (h.takeSnapshot hs).goto (by simp [EnqueueWorld.takeSnapshot, hs, EnqueueStage.claiming])
        (by simp [EnqueueWorld.takeSnapshot, hs, EnqueueStage.locking]) trivial ?_
      have hview : (isolation i).view ((w.takeSnapshot i).snapshot i) w.db = w.db := by
        cases isolation i with
        | readCommitted => rfl
        | repeatableRead => exact Function.update_self ..
      show Known callers w.created
        ((isolation i).view ((w.takeSnapshot i).snapshot i) w.db).mailOperations i _
      rw [hview]
      exact h.owners.creator hf
    · cases hstep
      exact (h.takeSnapshot hs).goto
        (by simp [EnqueueWorld.takeSnapshot, hs, EnqueueStage.claiming])
        (by simp [EnqueueWorld.takeSnapshot, hs, EnqueueStage.locking]) trivial trivial
  · next hs =>
    split at hstep
    · cases hstep
    · next hfree =>
      split at hstep
      · next hins =>
        cases hstep
        have hnone : w.db.idempotencyKeys.find? (callers i).digest = none :=
          (Table.insert?_eq_some.mp hins).1
        refine ⟨⟨?_, fun j => ?_, fun j => ?_⟩, h.owners, fun j hj => ?_, fun j => ?_, fun j => ?_,
          h.kept⟩
        · refine nodup_cons.mpr ⟨?_, h.locks.distinct⟩
          simpa using hfree
        · by_cases hj : j = i
          · subst hj
            simp [EnqueueWorld.goto, EnqueueStage.claiming]
          · simpa [EnqueueWorld.goto, hj] using h.locks.claiming j
        · by_cases hj : j = i
          · subst hj
            simpa [EnqueueWorld.goto, EnqueueStage.locking, hs] using h.locks.locking j
          · simpa [EnqueueWorld.goto, hj] using h.locks.locking j
        · rcases mem_cons.mp hj with rfl | hj
          · exact hnone
          · exact h.unowned j hj
        · by_cases hj : j = i
          · subst hj
            simp [EnqueueWorld.goto, Drafted]
          · simpa [EnqueueWorld.goto, hj] using h.drafted j
        · by_cases hj : j = i
          · subst hj
            simp [EnqueueWorld.goto, Known]
          · simpa [EnqueueWorld.goto, hj] using h.known j
      · next hins =>
        cases hstep
        obtain ⟨row, hf⟩ := Table.insert?_eq_none.mp hins
        obtain ⟨c, hc, hcd, -⟩ := h.owners.creator hf
        exact h.goto (by simp [hs, EnqueueStage.claiming]) (by simp [hs, EnqueueStage.locking])
          trivial ⟨c, hc, hcd⟩
  · next hs =>
    split at hstep
    · next row hf =>
      cases hstep
      refine h.goto (by simp [hs, EnqueueStage.claiming]) (by simp [hs, EnqueueStage.locking])
        trivial ?_
      rw [hread hs] at hf ⊢
      exact h.owners.creator hf
    · cases hstep
      exact h.finish trivial
  · next existing hs =>
    rw [hs] at hk
    obtain ⟨c, hc, hcd, rfl, hstored⟩ := hk
    refine h.replay hc hcd hstored ?_
    cases hrun : (replayIdempotentEnqueue sha256 (callers i).request
        (callers c).request.ownership).run ((isolation i).view (w.snapshot i) w.db) with
    | ok _ =>
      rw [hrun] at hstep
      exact (Option.some.inj hstep).symm
    | error _ =>
      rw [hrun] at hstep
      exact (Option.some.inj hstep).symm
  · next hs =>
    split at hstep
    · cases hstep
    · next hlock =>
      cases hstep
      have hlock : w.lock = none := by simpa using hlock
      refine ⟨⟨h.locks.distinct, fun j => ?_, fun j => ?_⟩, h.owners, h.unowned, fun j => ?_,
        fun j => ?_, h.kept⟩
      · by_cases hj : j = i
        · subst hj
          simpa [EnqueueWorld.goto, EnqueueStage.claiming, hs] using h.locks.claiming j
        · simpa [EnqueueWorld.goto, hj] using h.locks.claiming j
      · have := h.locks.locking j
        by_cases hj : j = i
        · subst hj
          simp [EnqueueWorld.goto, EnqueueStage.locking]
        · simpa [EnqueueWorld.goto, hj, hlock, Ne.symm hj] using this
      · by_cases hj : j = i
        · subst hj
          simp [EnqueueWorld.goto, Drafted]
        · simpa [EnqueueWorld.goto, hj] using h.drafted j
      · by_cases hj : j = i
        · subst hj
          simp [EnqueueWorld.goto, Known]
        · simpa [EnqueueWorld.goto, hj] using h.known j
  · next t hs =>
    cases hstep
    exact h.creating.1 hs
  · next t hs =>
    cases hstep
    exact h.creating.2.1 hs
  · next t hs =>
    cases hstep
    exact h.creating.2.2 hs
  · cases hstep
  · cases hstep

omit [DecidableEq ι] in
theorem Drafted.of_not_locking {db : Db} {e : IdempotentEnqueue sha256}
    (h : ¬stage.locking) : Drafted db e stage := by
  cases stage with
  | locked | inserted | persisted | recorded => exact absurd trivial h
  | _ => trivial

omit [DecidableEq ι] in
theorem Owners.create {db t : Db} {created : List ι} (h : Owners callers db created) {i : ι}
    {idempotencyKeys : IdempotencyKeys}
    (hi : db.idempotencyKeys.insert? (callers i).request.ownership = some idempotencyKeys)
    (ht : (callers i).Creates db t) :
    Owners callers { t with idempotencyKeys } (created ++ [i]) := by
  have hnone : db.idempotencyKeys.find? (callers i).digest = none :=
    (Table.insert?_eq_some.mp hi).1
  have hne : ∀ c ∈ created, (callers c).digest ≠ (callers i).digest := by
    intro c hc he
    have := h.owned c hc
    rw [he, hnone] at this
    cases this
  refine ⟨?_, fun c hc => ?_, fun row hrow => ?_, fun c hc => ?_⟩
  · rw [map_append, nodup_append]
    refine ⟨h.distinct, nodup_singleton _, ?_⟩
    rintro _ hd _ he rfl
    obtain ⟨c, hc, rfl⟩ := mem_map.mp hd
    exact hne c hc (by simpa using he)
  · have hfind : idempotencyKeys.find? (callers c).digest =
        if (callers c).digest = (callers i).digest then some (callers i).request.ownership
        else db.idempotencyKeys.find? (callers c).digest := Table.find?_insert? hi _
    rcases mem_append.mp hc with hc | hc
    · rw [if_neg (hne c hc), h.owned c hc] at hfind
      exact hfind
    · obtain rfl := mem_singleton.mp hc
      rw [if_pos rfl] at hfind
      exact hfind
  · rcases (Table.mem_insert? hi).mp hrow with hrow | rfl
    · obtain ⟨c, hc, rfl⟩ := h.owner row hrow
      exact ⟨c, mem_append_left _ hc, rfl⟩
    · exact ⟨i, mem_append_right _ (mem_singleton_self i), rfl⟩
  · rcases mem_append.mp hc with hc | hc
    · intro operation ho
      obtain ⟨row, hrow, hs⟩ := h.mail c hc operation ho
      exact ⟨row, ht.mailKept _ _ hrow, hs⟩
    · obtain rfl := mem_singleton.mp hc
      exact ht.mail

theorem Idem.commit (h : w.Idem callers isolation)
    (hstep : w.commit callers i = some w') : w'.Idem callers isolation := by
  unfold EnqueueWorld.commit at hstep
  split at hstep
  · next t hs =>
    obtain ⟨idempotencyKeys, hi, rfl⟩ := Option.map_eq_some_iff.mp hstep
    have ht : (callers i).Creates w.db t := by simpa [hs, Drafted] using h.drafted i
    have hlock : w.lock = some i := (h.locks.locking i).mpr (by simp [hs, EnqueueStage.locking])
    have hclaim : i ∈ w.claims := (h.locks.claiming i).mpr (by simp [hs, EnqueueStage.claiming])
    have howners := h.owners.create hi ht
    have hlocks := h.locks.finish i (.returned (callers i).jobId)
    refine ⟨⟨hlocks.distinct, hlocks.claiming, hlocks.locking⟩, howners, fun j hj => ?_,
      fun j => ?_, fun j => ?_, fun j key row hrow => ht.mailKept key row (h.kept j key row hrow)⟩
    · have hn : w.claims.Nodup := h.locks.distinct.of_map _
      obtain ⟨hji, hj⟩ := hn.mem_erase_iff.mp hj
      rw [Table.find?_insert? hi, if_neg, h.unowned j hj]
      exact fun he => hji (inj_on_of_nodup_map h.locks.distinct hj hclaim he)
    · by_cases hj : j = i
      · subst hj
        simp [EnqueueWorld.finish, Drafted]
      · have hl : ¬(w.stage j).locking := fun hl =>
          hj (Option.some.inj (((h.locks.locking j).mpr hl).symm.trans hlock))
        simpa [EnqueueWorld.finish, hj] using Drafted.of_not_locking hl
    · by_cases hj : j = i
      · subst hj
        have hsame : sameRequest (callers j).request.ownership (callers j).request.ownership =
            true := by simp [sameRequest]
        change Known callers _ _ j (Function.update w.stage j _ j)
        rw [Function.update_self]
        exact ⟨j, mem_append_right _ (mem_singleton_self j), rfl, rfl, hsame⟩
      · have hmono : Known callers (w.created ++ [i]) ((isolation j).view (w.snapshot j)
            { t with idempotencyKeys }).mailOperations j (w.stage j) :=
          (h.known j).mono (subset_append_left w.created [i])
            ((isolation j).view_mono ht.mailKept)
        simpa [EnqueueWorld.finish, hj] using hmono
  · cases hstep

theorem Idem.step {w w' : EnqueueWorld ι} (h : w.Idem callers isolation) {a : EnqueueAction ι}
    (hread : w.RereadsCommitted isolation a) (hstep : w.step callers isolation a = some w') :
    w'.Idem callers isolation := by
  cases a with
  | statement i => exact h.statement hread hstep
  | commit i => exact h.commit hstep
  | fail i =>
    dsimp only [EnqueueWorld.step] at hstep
    split at hstep
    · cases hstep
    · cases hstep
      exact h.finish trivial
  | transaction tx =>
    dsimp only [EnqueueWorld.step] at hstep
    split at hstep
    · cases hstep
    · next hfree =>
      cases hstep
      obtain ⟨hlock, hord⟩ : w.lock = none ∧ tx.ordinary = true := by simpa using hfree
      have hkeep := @exec_owners sha256 tx hord w.db
      obtain ⟨hkeys, hmail⟩ := Prod.mk.inj hkeep
      refine ⟨⟨h.locks.distinct, h.locks.claiming, h.locks.locking⟩, ?_, fun j hj => ?_,
        fun j => ?_, fun j => ?_, fun j key row hrow => by rw [hmail]; exact h.kept j key row hrow⟩
      · exact ⟨h.owners.distinct, fun c hc => by rw [hkeys, h.owners.owned c hc],
          fun row hrow => h.owners.owner row (hkeys ▸ hrow),
          fun c hc => by rw [hmail]; exact h.owners.mail c hc⟩
      · rw [hkeys, h.unowned j hj]
      · refine Drafted.of_not_locking fun hl => ?_
        have := (h.locks.locking j).mpr hl
        rw [hlock] at this
        cases this
      · refine (h.known j).mono (fun _ hc => hc) ((isolation j).view_mono fun key row hrow => ?_)
        rw [hmail]
        exact hrow

omit [DecidableEq ι] in
theorem idem_init : (EnqueueWorld.init : EnqueueWorld ι).Idem callers isolation where
  locks := ⟨nodup_nil, fun _ => by simp [EnqueueWorld.init, EnqueueStage.claiming],
    fun _ => by simp [EnqueueWorld.init, EnqueueStage.locking]⟩
  owners := ⟨nodup_nil, fun _ hc => (not_mem_nil hc).elim,
    fun _ hr => (Table.not_mem_empty hr).elim, fun _ hc => (not_mem_nil hc).elim⟩
  unowned _ hi := (not_mem_nil hi).elim
  drafted _ := trivial
  known _ := trivial
  kept _ _ _ h := by cases h

theorem idem_run {actions : List (EnqueueAction ι)}
    (hread : Along (EnqueueWorld.step callers isolation) (RereadsCommitted isolation) .init actions)
    (hrun : runActions (EnqueueWorld.step callers isolation) .init actions = some w) :
    w.Idem callers isolation :=
  runActions_invariant (I := fun w => w.Idem callers isolation) (fun _ _ _ h hr hs => h.step hr hs)
    actions idem_init hread hrun

/-! ### Answers -/

theorem goto_stage (hj : w.stage j = .done outcome) (hi : w.stage i ≠ .done outcome) :
    (w.goto i stage).stage j = .done outcome := by
  have hne : j ≠ i := fun he => hi (he ▸ hj)
  simpa [EnqueueWorld.goto, hne] using hj

theorem finish_stage {o : EnqueueOutcome}
    (hj : w.stage j = .done outcome) (hi : w.stage i ≠ .done outcome) :
    (w.finish i o).stage j = .done outcome :=
  goto_stage hj hi

theorem create_stage {x : StoreM PUnit} {t : Db}
    {next : Db → EnqueueStage} (hj : w.stage j = .done outcome)
    (hi : w.stage i ≠ .done outcome) : (w.create i x t next).stage j = .done outcome := by
  unfold EnqueueWorld.create
  split
  · exact goto_stage hj hi
  · exact finish_stage hj hi

theorem statement_frame (hstep : w.statement callers isolation i = some w') :
    w'.db = w.db ∧ w'.created = w.created ∧
      ∀ j outcome, w.stage j = .done outcome → w'.stage j = .done outcome := by
  have hcreate : ∀ (x : StoreM PUnit) t next, (w.create i x t next).db = w.db ∧
      (w.create i x t next).created = w.created := by
    intro x t next
    unfold EnqueueWorld.create
    split <;> exact ⟨rfl, rfl⟩
  unfold EnqueueWorld.statement at hstep
  dsimp only at hstep
  split at hstep
  · next hs =>
    split at hstep <;> obtain rfl := Option.some.inj hstep <;>
      exact ⟨rfl, rfl, fun j _ hj => goto_stage hj (by simp [EnqueueWorld.takeSnapshot, hs])⟩
  · next hs =>
    split at hstep
    · cases hstep
    · split at hstep <;> obtain rfl := Option.some.inj hstep <;>
        exact ⟨rfl, rfl, fun j _ hj => goto_stage hj (by simp [hs])⟩
  · next hs =>
    split at hstep <;> obtain rfl := Option.some.inj hstep
    · exact ⟨rfl, rfl, fun j _ hj => goto_stage hj (by simp [hs])⟩
    · exact ⟨rfl, rfl, fun j _ hj => finish_stage hj (by simp [hs])⟩
  · next hs =>
    split at hstep <;> obtain rfl := Option.some.inj hstep <;>
      exact ⟨rfl, rfl, fun j _ hj => finish_stage hj (by simp [hs])⟩
  · next hs =>
    split at hstep
    · cases hstep
    · cases hstep
      exact ⟨rfl, rfl, fun j _ hj => goto_stage hj (by simp [hs])⟩
  · next hs =>
    cases hstep
    exact ⟨(hcreate _ _ _).1, (hcreate _ _ _).2, fun j _ hj => create_stage hj (by simp [hs])⟩
  · next hs =>
    cases hstep
    exact ⟨(hcreate _ _ _).1, (hcreate _ _ _).2, fun j _ hj => create_stage hj (by simp [hs])⟩
  · next hs =>
    cases hstep
    exact ⟨(hcreate _ _ _).1, (hcreate _ _ _).2, fun j _ hj => create_stage hj (by simp [hs])⟩
  · cases hstep
  · cases hstep

theorem Idem.commit_creates (h : w.Idem callers isolation) (hstep : w.commit callers i = some w') :
    w'.created = w.created ++ [i] ∧ (callers i).Creates w.db w'.db ∧
      w'.stage i = .done (.returned (callers i).jobId) ∧
      ∀ j outcome, w.stage j = .done outcome → w'.stage j = .done outcome := by
  unfold EnqueueWorld.commit at hstep
  split at hstep
  · next t hs =>
    obtain ⟨idempotencyKeys, hi, rfl⟩ := Option.map_eq_some_iff.mp hstep
    have ht : (callers i).Creates w.db t := by simpa [hs, Drafted] using h.drafted i
    refine ⟨rfl, ⟨ht.job, ht.scheduleKeys, ht.mailKept, ht.mail, ht.delta⟩,
      Function.update_self .., fun j _ hj => ?_⟩
    exact finish_stage hj (by simp [hs])
  · cases hstep

theorem step_stage (h : w.Idem callers isolation) {a : EnqueueAction ι} 
    (hstep : w.step callers isolation a = some w') (hj : w.stage j = .done outcome) : w'.stage j = .done outcome := by
  cases a with
  | statement i => exact (statement_frame hstep).2.2 j outcome hj
  | commit i => exact (h.commit_creates hstep).2.2.2 j outcome hj
  | fail i =>
    dsimp only [EnqueueWorld.step] at hstep
    split at hstep
    · cases hstep
    · next hs =>
      cases hstep
      exact finish_stage hj (hs outcome)
  | transaction tx =>
    dsimp only [EnqueueWorld.step] at hstep
    split at hstep
    · cases hstep
    · cases hstep
      exact hj

theorem Idem.refused (h : w.Idem callers isolation)
    (hread : w.stage i = .raced → isolation i = .readCommitted)
    (hstep : w.statement callers isolation i = some w') {error : VelociousError}
    (hr : w'.stage i = .done (.refused error)) (hc : c ∈ w.created) :
    (callers c).digest ≠ (callers i).digest := by
  intro hd
  have howned := h.owners.owned c hc
  rw [hd] at howned
  have hclaim : ¬(w.stage i).claiming := fun hclaim => by
    have := h.unowned i ((h.locks.claiming i).mpr hclaim)
    rw [howned] at this
    cases this
  unfold EnqueueWorld.statement at hstep
  dsimp only at hstep
  split at hstep
  · split at hstep <;> obtain rfl := Option.some.inj hstep <;> simp [EnqueueWorld.goto] at hr
  · split at hstep
    · cases hstep
    · split at hstep <;> obtain rfl := Option.some.inj hstep <;> simp [EnqueueWorld.goto] at hr
  · next hs =>
    rw [hread hs] at hstep
    dsimp only [Isolation.view] at hstep
    rw [howned] at hstep
    cases hstep
    simp [EnqueueWorld.goto] at hr
  · split at hstep <;> obtain rfl := Option.some.inj hstep <;> simp [EnqueueWorld.finish] at hr
  all_goals
    next hs =>
    rw [hs] at hclaim
    first
    | exact hclaim trivial
    | cases hstep

omit [DecidableEq ι] in
theorem Idem.answer (h : w.Idem callers isolation)
    (hsha : ∀ i j, sha256 (callers i).canonical = sha256 (callers j).canonical →
      (callers i).canonical = (callers j).canonical) (hc : c ∈ w.created) (hscope :
      (callers c).SameScope (callers i)) (hs : w.stage i = .done outcome) :
    outcome.cutOff ∨
      ((callers c).canonical = (callers i).canonical ∧ outcome = .returned (callers c).jobId) ∨
      ((callers c).canonical ≠ (callers i).canonical ∧
        outcome = .conflicted idempotencyConflict) ∨
      (callers c).request.mailOperation ≠ (callers i).request.mailOperation ∧
        (callers c).canonical = (callers i).canonical := by
  have hd := IdempotentEnqueue.digest_eq hscope
  have hsame := IdempotentEnqueue.sameRequest_eq hscope
  have hk := h.known i
  rw [hs] at hk
  cases outcome with
  | refused | failed => exact .inl trivial
  | returned jobId =>
    obtain ⟨c', hc', hd', rfl, hfit⟩ := hk
    obtain rfl := h.owners.eq_of_digest hc' hc (hd'.trans hd.symm)
    rw [hsame, decide_eq_true_eq] at hfit
    exact .inr (.inl ⟨hsha _ _ hfit, rfl⟩)
  | conflicted error =>
    obtain ⟨c', hc', hd', hfit⟩ := hk
    obtain rfl := h.owners.eq_of_digest hc' hc (hd'.trans hd.symm)
    rw [hsame] at hfit
    rcases hfit with ⟨hne, rfl⟩ | ⟨heq, hmail⟩
    · refine .inr (.inr (.inl ⟨fun he => ?_, rfl⟩))
      simp [he] at hne
    · exact .inr (.inr (.inr ⟨hmail, hsha _ _ (by simpa using heq)⟩))

end EnqueueWorld

/-! ## Every interleaving -/

def keyedEnqueue (jobId : String) : IdempotentEnqueue id where
  input := ⟨"job", [], { idempotencyKey := some "key" }, jobId, 0, []⟩
  idempotencyKey := "key"
  preparedJob := _
  request := _
  prepared := rfl
  valid := rfl

/-- Two callers of one scope with the same request. -/
def keyedCallers (i : Bool) : IdempotentEnqueue id := keyedEnqueue (if i then "1" else "2")

/-- Both find no owner; the second to claim waits, loses and replays. -/
def claimRace : List (EnqueueAction Bool) :=
  [.statement false, .statement true, .statement true, .statement true, .statement true,
    .statement true, .statement true, .commit true, .statement false, .statement false,
    .statement false]

/-- The loser's first read comes before the winner's commit, and its insertion after it. -/
def snapshotRace : List (EnqueueAction Bool) :=
  [.statement false, .statement true, .statement true, .statement true, .statement true,
    .statement true, .statement true, .commit true, .statement false, .statement false]

end Velocious
