/-
  Reconciliation racing with transactions.

  `adoption_leaks_slot`: a job adopted between a transaction's read and its
  update leaves its counter one too high for good.

  `reconciled_counters_exact`: in every interleaving in which each commit after
  the recount is under the concurrency key that its transaction read, all
  counters are exact at the end. `Race` is the invariant: what the open
  transaction has read and written still fits the committed rows, and from the
  recount on the committed counters are exact.
-/
import Velocious.BackgroundJobs.Store.Reconcile

namespace Velocious

open Foundation

def handedOffUnkeyed : List Tx :=
  [.enqueue ⟨"job", [], { queue := some "mail" }, "1", 0, []⟩ (fun _ => 0),
    .markHandedOff "1" "lease" none 1]

def mailCap : Queues := [("mail", some (.int 1))]

def mailCapDue : World :=
  .init mailCap (run id .empty handedOffUnkeyed).jobs (run id .empty handedOffUnkeyed).concurrency

/-- **Adoption can leak a slot.** A job without a key is handed off; its report
    reads it, the reconciliation adopts and recounts it, and the report, having
    read no key, completes it without releasing one. -/
theorem adoption_leaks_slot :
    ∃ w, runActions (World.step mailCap) mailCapDue
        [.begin (.markCompleted "1" ⟨some "lease", none, none⟩ 2), .statement,
          .reconcile fun _ => 0, .reconcile fun _ => 0, .reconcile fun _ => 0,
          .reconcile fun _ => 0, .reconcile fun _ => 0,
          .statement, .statement, .statement, .commit] = some w ∧
      w.reconcile = .done ∧ w.tx = none ∧
      ∃ c ∈ w.concurrency, c.activeCount = 1 ∧ handedOffCount w.jobs c.concurrencyKey = 0 :=
  ⟨_, rfl, rfl, rfl, _, List.mem_cons_self, rfl, rfl⟩

/-! ## What the open transaction has read and written -/

namespace World

def Has (w : World) (k : Key) : Prop := ∃ c, w.concurrency.find? k = some c

def Adopted (w : World) : Prop := w.reconcile = .done ∨ ∃ keys, w.reconcile = .release keys

def Unkeyed (w : World) (k : Key) : Prop := ∀ row ∈ w.jobs, releasable k row = false

/-- A key that was read is registered, and still the stored one unless the
    reconciliation has taken it from every live job. -/
def ReadOk (w : World) (job : JobRow) : Prop :=
  ∀ k, job.concurrencyKey = some k → w.Has k ∧
    ((∃ row, w.jobs.find? job.id = some row ∧ row.concurrencyKey = some k) ∨
      (w.Adopted ∧ w.Unkeyed k))

/-- A written counter row is what the transaction made of the committed one. -/
def CounterOk (w : World) (job : JobRow) (g : ConcurrencyRow → ConcurrencyRow)
    (counter : Option ConcurrencyRow) : Prop :=
  counter = (job.concurrencyKey.bind w.concurrency.find?).map g

/-- A written job row keeps the id and the key of the committed one. -/
structure WriteOk (w : World) (job : JobRow) (source : JobStatus) (holds : Bool)
    (written : JobRow) : Prop where
  find : ∃ row, w.jobs.find? job.id = some row ∧ row.status = source ∧ written.id = row.id ∧
    written.concurrencyKey = row.concurrencyKey
  status : decide (written.status = .handedOff) = holds

/-- What a finished transaction is about to commit. -/
inductive FinishOk (w : World) (job : JobRow) : Option JobRow → Option ConcurrencyRow → Prop where
  | unchanged : FinishOk w job none none
  /-- no job row, and a counter row that is as it was unless it was negative -/
  | nothing {counter} (g : ConcurrencyRow → ConcurrencyRow) :
      (∀ c, (g c).concurrencyKey = c.concurrencyKey) → (∀ c, 0 ≤ c.activeCount → g c = c) →
      w.CounterOk job g counter → FinishOk w job none counter
  | withdrawn {written} : w.WriteOk job .queued false written → FinishOk w job (some written) none
  | taken {written counter} : w.WriteOk job .queued true written →
      w.CounterOk job reserveRow counter → FinishOk w job (some written) counter
  | left {written counter} : w.WriteOk job .handedOff false written →
      w.CounterOk job releaseCounter counter → FinishOk w job (some written) counter

/-- What the open transaction knows at each stage. -/
def StageOk (w : World) : Stage → Prop
  | .begun _ | .missed => True
  | .planned job _ => w.ReadOk job
  | .reserved job _ counter => w.ReadOk job ∧ w.CounterOk job reserveRow counter
  | .locked job _ counter => w.ReadOk job ∧ w.CounterOk job id counter
  | .updated job written counter => w.ReadOk job ∧ w.CounterOk job id counter ∧
      w.WriteOk job .handedOff false written
  | .finished job written counter => w.ReadOk job ∧ w.FinishOk job written counter

/-- The contract at hand is registered before its queue's jobs are adopted. -/
def Contracted (w : World) : Reconcile → Prop
  | .setCap q _ | .adopt q _ => w.Has q.contract.key
  | _ => True

/-- The invariant of the race. -/
structure Race (w : World) : Prop where
  registered : ∀ row ∈ w.jobs, ∀ k, row.concurrencyKey = some k → w.Has k
  contracted : w.Contracted w.reconcile
  stage : ∀ stage, w.tx = some stage → w.StageOk stage
  balanced : w.reconcile = .done →
    Balanced heldKey ConcurrencyRow.activeCount w.jobs w.concurrency

/-! ## Statements of the reconciliation -/

/-- A statement of the reconciliation leaves the locked rows as they are, and
    what a transaction read still fits. -/
structure Quiet (w w' : World) : Prop where
  tx : w'.tx = w.tx
  has : ∀ k, w.Has k → w'.Has k
  counter : ∀ k, w.lockedCounter = some k → w'.concurrency.find? k = w.concurrency.find? k
  job : ∀ id, w.lockedJob = some id → w'.jobs.find? id = w.jobs.find? id
  read : ∀ job, w.ReadOk job → w'.ReadOk job

variable {w w' : World} {job row : JobRow} {counter : Option ConcurrencyRow}

theorem CounterOk.quiet {g : ConcurrencyRow → ConcurrencyRow}
    (hg : ∀ c, (g c).concurrencyKey = c.concurrencyKey)
    (hr : w.ReadOk job) (h : w.CounterOk job g counter)
    (hc : ∀ k, counter.map ConcurrencyRow.concurrencyKey = some k →
      w'.concurrency.find? k = w.concurrency.find? k) : w'.CounterOk job g counter := by
  unfold CounterOk at h ⊢
  cases hk : job.concurrencyKey with
  | none => simpa [hk] using h
  | some k =>
    obtain ⟨⟨c, hfind⟩, -⟩ := hr k hk
    have hck : c.concurrencyKey = k := Table.key_of_find? hfind
    rw [hk] at h
    simp only [Option.bind_some, hfind] at h ⊢
    rw [hc k (by simp [h, hg, hck]), hfind]
    simpa using h

theorem WriteOk.quiet {written : JobRow} {source : JobStatus} {holds : Bool}
    (h : w.WriteOk job source holds written)
    (hj : w'.jobs.find? written.id = w.jobs.find? written.id) :
    w'.WriteOk job source holds written := by
  obtain ⟨row, hrow, hs, hid, hk⟩ := h.find
  have hrid : row.id = job.id := Table.key_of_find? hrow
  exact ⟨⟨row, by rw [← hrid, ← hid, hj, hid, hrid, hrow], hs, hid, hk⟩, h.status⟩

theorem releaseCounter_key (c : ConcurrencyRow) :
    (releaseCounter c).concurrencyKey = c.concurrencyKey := by
  unfold releaseCounter
  split <;> rfl

theorem StageOk.quiet (hq : w.Quiet w') {stage : Stage} (htx : w.tx = some stage)
    (h : w.StageOk stage) : w'.StageOk stage := by
  have hcounter : ∀ k, stage.lockedCounter = some k →
      w'.concurrency.find? k = w.concurrency.find? k := fun k hk =>
    hq.counter k (by simp [lockedCounter, htx, hk])
  have hjob : ∀ id, stage.lockedJob = some id → w'.jobs.find? id = w.jobs.find? id := fun id hid =>
    hq.job id (by simp [lockedJob, htx, hid])
  cases stage with
  | begun | missed => trivial
  | planned job plan => exact hq.read job h
  | reserved job t counter =>
    exact ⟨hq.read job h.1, h.2.quiet reserveRow_key h.1 hcounter⟩
  | locked job t counter => exact ⟨hq.read job h.1, h.2.quiet (fun _ => rfl) h.1 hcounter⟩
  | updated job written counter =>
    exact ⟨hq.read job h.1, h.2.1.quiet (fun _ => rfl) h.1 hcounter, h.2.2.quiet (hjob _ rfl)⟩
  | finished job written counter =>
    refine ⟨hq.read job h.1, ?_⟩
    cases h.2 with
    | unchanged => exact .unchanged
    | nothing g hg hpos hc => exact .nothing g hg hpos (hc.quiet hg h.1 hcounter)
    | withdrawn hw => exact .withdrawn (hw.quiet (hjob _ rfl))
    | taken hw hc => exact .taken (hw.quiet (hjob _ rfl)) (hc.quiet reserveRow_key h.1 hcounter)
    | left hw hc => exact .left (hw.quiet (hjob _ rfl)) (hc.quiet releaseCounter_key h.1 hcounter)

theorem CounterOk.has {g : ConcurrencyRow → ConcurrencyRow}
    (hg : ∀ c, (g c).concurrencyKey = c.concurrencyKey)
    (h : w.CounterOk job g counter) {k : Key}
    (hk : counter.map ConcurrencyRow.concurrencyKey = some k) : w.Has k := by
  obtain ⟨c, hc, rfl⟩ := Option.map_eq_some_iff.mp hk
  rw [hc] at h
  obtain ⟨c₀, hc₀, rfl⟩ := Option.map_eq_some_iff.mp h.symm
  obtain ⟨k, -, hfind⟩ := Option.bind_eq_some_iff.mp hc₀
  obtain rfl : c₀.concurrencyKey = k := Table.key_of_find? hfind
  exact ⟨c₀, by rw [hg, hfind]⟩

theorem StageOk.has {stage : Stage} (h : w.StageOk stage) {k : Key}
    (hk : stage.lockedCounter = some k) : w.Has k := by
  cases stage with
  | begun | missed | planned => cases hk
  | reserved => exact h.2.has reserveRow_key hk
  | locked => exact h.2.has (fun _ => rfl) hk
  | updated => exact h.2.1.has (fun _ => rfl) hk
  | finished job written counter =>
    cases h.2 with
    | unchanged => cases hk
    | nothing g hg hpos hc => exact hc.has hg hk
    | withdrawn => cases hk
    | taken _ hc => exact hc.has reserveRow_key hk
    | left _ hc => exact hc.has releaseCounter_key hk

variable {r : Reconcile}

theorem quiet_counters {concurrency : ConcurrencyTable}
    (hhas : ∀ k c, w.concurrency.find? k = some c → ∃ c, concurrency.find? k = some c)
    (hcounter : ∀ k, w.lockedCounter = some k → concurrency.find? k = w.concurrency.find? k)
    (hadopted : w.Adopted → World.Adopted { w with concurrency, reconcile := r }) :
    w.Quiet { w with concurrency, reconcile := r } where
  tx := rfl
  has k := fun ⟨c, hc⟩ => hhas k c hc
  counter := hcounter
  job _ _ := rfl
  read job hr k hk := by
    obtain ⟨⟨c, hc⟩, hkey⟩ := hr k hk
    exact ⟨hhas k c hc, hkey.imp_right fun ⟨ha, hu⟩ => ⟨hadopted ha, hu⟩⟩

theorem quiet_jobs {p : JobRow → Bool} {f : JobRow → JobRow}
    {hf : ∀ row, (f row).id = row.id} (hblocks : w.blocks p = false)
    (hread : ∀ job, w.ReadOk job →
      World.ReadOk { w with jobs := w.jobs.update p f hf, reconcile := r } job) :
    w.Quiet { w with jobs := w.jobs.update p f hf, reconcile := r } where
  tx := rfl
  has _ h := h
  counter _ _ := rfl
  job id hid := by
    rw [Table.find?_update]
    cases h : w.jobs.find? id with
    | none => rfl
    | some row =>
      have hp : p row = false := by simpa [blocks, hid, h] using hblocks
      simp [hp]
  read := hread

theorem read_adopt {q : CappedQueue} {rest : List CappedQueue}
    (hphase : w.reconcile = .adopt q rest) (hr : w.ReadOk job) :
    World.ReadOk { w with
      jobs := w.jobs.update q.adoptable q.adoptedRow q.adoptedRow_id
      reconcile := r } job := by
  intro k hk
  obtain ⟨hhas, hkey⟩ := hr k hk
  refine ⟨hhas, .inl ?_⟩
  rcases hkey with ⟨row, hrow, hkrow⟩ | ⟨ha, -⟩
  · have hp : q.adoptable row = false := by simp [CappedQueue.adoptable, hkrow]
    exact ⟨row, by rw [Table.find?_update, hrow]; simp [hp], hkrow⟩
  · rcases ha with ha | ⟨keys, ha⟩ <;> rw [hphase] at ha <;> cases ha

theorem releasable_unkeyedRow (key : Key) (row : JobRow) :
    releasable key (unkeyedRow row) = false := by
  simp [releasable, unkeyedRow]

theorem read_release {key : Key} {keys : List Key}
    (hphase : w.reconcile = .release (key :: keys)) (hr : w.ReadOk job) :
    World.ReadOk { w with
      jobs := w.jobs.update (releasable key) unkeyedRow unkeyedRow_id
      reconcile := .release keys } job := by
  intro k hk
  obtain ⟨hhas, hkey⟩ := hr k hk
  refine ⟨hhas, ?_⟩
  -- the key released now has no live job left, nor has one released before
  have hgone : (∀ row ∈ w.jobs, releasable key row = false → releasable k row = false) →
      ∀ row ∈ w.jobs.update (releasable key) unkeyedRow unkeyedRow_id, releasable k row = false := by
    intro hold row hrow
    obtain ⟨row, hmem, rfl⟩ := Table.mem_update.mp hrow
    cases hp : releasable key row with
    | true => simpa using releasable_unkeyedRow k row
    | false => simpa using hold row hmem hp
  by_cases hkk : k = key
  · subst hkk
    exact .inr ⟨.inr ⟨keys, rfl⟩, hgone fun _ _ h => h⟩
  · rcases hkey with ⟨row, hrow, hkrow⟩ | ⟨-, hu⟩
    · have hp : releasable key row = false := by
        simp [releasable, hkrow, hkk]
      exact .inl ⟨row, by rw [Table.find?_update, hrow]; simp [hp], hkrow⟩
    · exact .inr ⟨.inr ⟨keys, rfl⟩, hgone fun row hrow _ => hu row hrow⟩

theorem Race.of_quiet (h : w.Race) (hq : w.Quiet w')
    (hreg : ∀ row ∈ w'.jobs, ∀ k, row.concurrencyKey = some k → w'.Has k)
    (hcon : w'.Contracted w'.reconcile)
    (hbal : w'.reconcile = .done →
      Balanced heldKey ConcurrencyRow.activeCount w'.jobs w'.concurrency) : w'.Race where
  registered := hreg
  contracted := hcon
  stage stage htx := (h.stage stage (hq.tx ▸ htx)).quiet hq (hq.tx ▸ htx)
  balanced := hbal

theorem Race.counters (h : w.Race) {concurrency : ConcurrencyTable}
    (hhas : ∀ k c, w.concurrency.find? k = some c → ∃ c, concurrency.find? k = some c)
    (hcounter : ∀ k, w.lockedCounter = some k → concurrency.find? k = w.concurrency.find? k)
    (hadopted : ¬w.Adopted) (hr : r ≠ .done)
    (hcon : World.Contracted { w with concurrency, reconcile := r } r) :
    World.Race { w with concurrency, reconcile := r } :=
  h.of_quiet (quiet_counters hhas hcounter fun ha => absurd ha hadopted)
    (fun row hrow k hk => by
      obtain ⟨c, hc⟩ := h.registered row hrow k hk
      exact hhas k c hc) hcon fun hd => absurd hd hr

theorem Race.registered_update (h : w.Race) {p : JobRow → Bool} {f : JobRow → JobRow}
    (hf : ∀ row, (f row).id = row.id)
    (hkey : ∀ row k, (f row).concurrencyKey = some k → w.Has k) :
    ∀ row ∈ w.jobs.update p f hf, ∀ k, row.concurrencyKey = some k → w.Has k := by
  intro row hrow k hk
  obtain ⟨row, hmem, rfl⟩ := Table.mem_update.mp hrow
  split at hk
  · exact hkey row k hk
  · exact h.registered row hmem k hk

theorem queues_ne_done (l : List CappedQueue) : Reconcile.queues l ≠ .done := by
  cases l <;> simp [Reconcile.queues]

theorem contracted_queues (w : World) (l : List CappedQueue) : w.Contracted (.queues l) := by
  cases l <;> trivial

theorem configured_ne_done (q : CappedQueue) (rest : List CappedQueue) (row : ConcurrencyRow) :
    Reconcile.configured q rest row ≠ .done := by
  unfold Reconcile.configured
  split <;> simp

theorem contracted_configured {q : CappedQueue} (rest : List CappedQueue)
    (row : ConcurrencyRow) (h : w.Has q.contract.key) :
    w.Contracted (.configured q rest row) := by
  unfold Reconcile.configured
  split <;> exact h

theorem Race.reconciled {queues : Queues} {dbOrder : String → ℕ} (h : w.Race)
    (hstep : w.reconciled queues dbOrder = some w') : w'.Race := by
  unfold World.reconciled at hstep
  have hnot : ∀ {r}, w.reconcile = r → r ≠ .done → (∀ keys, r ≠ .release keys) → ¬w.Adopted := by
    rintro r rfl hd hk (ha | ⟨keys, ha⟩)
    · exact hd ha
    · exact hk keys ha
  split at hstep
  · next q rest hphase =>
    have hna := hnot hphase (by simp) (by simp)
    split at hstep
    · next row hrow =>
      cases hstep
      exact h.counters (fun _ c hc => ⟨c, hc⟩) (fun _ _ => rfl) hna (configured_ne_done _ _ _)
        (contracted_configured _ _ ⟨row, hrow⟩)
    · cases hstep
      exact h.counters (fun _ c hc => ⟨c, hc⟩) (fun _ _ => rfl) hna (by simp) trivial
  · next q rest hphase =>
    have hna := hnot hphase (by simp) (by simp)
    split at hstep
    · next concurrency hi =>
      cases hstep
      have hfind := Table.find?_insert? hi
      have hne : ∀ k c, w.concurrency.find? k = some c → k ≠ q.contract.key := by
        rintro k c hc rfl
        rw [(Table.insert?_eq_some.mp hi).1] at hc
        cases hc
      refine h.counters (fun k c hc => ⟨c, ?_⟩) (fun k hk => ?_) hna (by simp)
        ⟨⟨q.contract.key, q.contract.maxConcurrency, 0⟩, ?_⟩
      · rw [hfind, if_neg (hne k c hc), hc]
      · obtain ⟨stage, htx, hlock⟩ := Option.bind_eq_some_iff.mp hk
        obtain ⟨c, hc⟩ := (h.stage stage htx).has hlock
        rw [hfind, if_neg (hne k c hc)]
      · rw [hfind, if_pos rfl]
    · cases hstep
      exact h.counters (fun _ c hc => ⟨c, hc⟩) (fun _ _ => rfl) hna (by simp) trivial
  · next q rest hphase =>
    have hna := hnot hphase (by simp) (by simp)
    obtain ⟨row, hrow, rfl⟩ := Option.map_eq_some_iff.mp hstep
    exact h.counters (fun _ c hc => ⟨c, hc⟩) (fun _ _ => rfl) hna (configured_ne_done _ _ _)
      (contracted_configured _ _ ⟨row, hrow⟩)
  · next q rest hphase =>
    have hna := hnot hphase (by simp) (by simp)
    split at hstep
    · cases hstep
    · next hlock =>
      cases hstep
      have hcon := h.contracted
      rw [hphase] at hcon
      obtain ⟨c, hc⟩ := hcon
      refine h.counters (fun _ _ => find?_update_isSome (capRow_key _)) (fun k hk => ?_) hna
        (by simp) (find?_update_isSome (capRow_key _) hc)
      rw [Table.find?_modify, if_neg]
      rintro rfl
      exact hlock hk
  · next q rest hphase =>
    split at hstep
    · cases hstep
    · next hblocks =>
      cases hstep
      have hcon := h.contracted
      rw [hphase] at hcon
      refine h.of_quiet (quiet_jobs (by simpa using hblocks) fun job => read_adopt hphase)
        (h.registered_update q.adoptedRow_id fun row k hk => ?_) (contracted_queues _ _)
        fun hd => absurd hd (queues_ne_done _)
      obtain rfl : q.contract.key = k := by simpa [CappedQueue.adoptedRow] using hk
      exact hcon
  · next hphase =>
    cases hstep
    exact h.counters (fun _ c hc => ⟨c, hc⟩) (fun _ _ => rfl) (hnot hphase (by simp) (by simp))
      (by simp) trivial
  · next key keys hphase =>
    split at hstep
    · cases hstep
    · next hblocks =>
      cases hstep
      refine h.of_quiet (quiet_jobs (by simpa using hblocks) fun job => read_release hphase)
        (h.registered_update unkeyedRow_id fun row k hk => by cases hk) trivial fun hd => by cases hd
  · next hphase =>
    split at hstep
    · cases hstep
    · next hlock =>
      cases hstep
      refine h.of_quiet (quiet_counters (fun _ _ => find?_update_isSome (recountRow_key _))
        (fun k hk => by simp [hk] at hlock) fun _ => .inl rfl) (fun row hrow k hk => ?_) trivial
        fun _ => ?_
      · obtain ⟨c, hc⟩ := h.registered row hrow k hk
        exact find?_update_isSome (recountRow_key _) hc
      · refine balanced_rebuild _ (recountRow_key _) fun c => ?_
        rw [← handedOffCount_eq]
        rfl
  · cases hstep

theorem find?_normalizeJobRow {jobs : Jobs} {id : String}
    (h : jobs.find? id = some row) : jobs.find? (normalizeJobRow row).id = some row := by
  rw [normalizeJobRow_id, Table.key_of_find? h, h]

variable {c : ConcurrencyRow}

theorem releaseCounter_reserveRow (h : 0 ≤ c.activeCount) : releaseCounter (reserveRow c) = c := by
  have hpos : 0 < (reserveRow c).activeCount := by
    simp only [reserveRow]
    omega
  rw [releaseCounter, if_pos hpos]
  simp [releaseRow, reserveRow]

theorem WriteOk.of_transition {source : JobStatus} {holds : Bool} (t : Transition source holds)
    (h : (w.jobs.find? job.id).filter t.fence = some row) :
    w.WriteOk job source holds (t.rewrite row) := by
  obtain ⟨hrow, hfence⟩ := Option.filter_eq_some_iff.mp h
  exact ⟨⟨row, hrow, t.fenced row hfence, t.rewrite_id row, t.rewrite_key row⟩,
    t.rewrite_status row⟩

theorem StageOk.next (hreg : ∀ row ∈ w.jobs, ∀ k, row.concurrencyKey = some k → w.Has k)
    {stage stage' : Stage} (h : w.StageOk stage)
    (hnext : stage.next w.jobs w.concurrency = some stage') : w.StageOk stage' := by
  cases stage with
  | begun call =>
    cases hrow : w.jobs.find? call.jobId with
    | none =>
      obtain rfl : Stage.missed = stage' := by simpa [Stage.next, hrow] using hnext
      trivial
    | some row =>
      obtain rfl : Stage.planned (normalizeJobRow row) _ = stage' := by
        simpa [Stage.next, hrow] using hnext
      intro k hk
      exact ⟨hreg row (Table.mem_of_find? hrow) k hk,
        .inl ⟨row, find?_normalizeJobRow hrow, hk⟩⟩
  | planned job plan =>
    cases plan with
    | nothing =>
      cases hnext
      exact ⟨h, .unchanged⟩
    | take t =>
      cases hk : job.concurrencyKey with
      | none =>
        obtain rfl : Stage.reserved job t none = stage' := by simpa [Stage.next, hk] using hnext
        exact ⟨h, by simp [CounterOk, hk]⟩
      | some key =>
        cases hc : (w.concurrency.find? key).filter fun row =>
            row.activeCount < row.maxConcurrency with
        | none =>
          obtain rfl : Stage.finished job none none = stage' := by
            simpa [Stage.next, hk, hc] using hnext
          exact ⟨h, .unchanged⟩
        | some row =>
          obtain rfl : Stage.reserved job t (some (reserveRow row)) = stage' := by
            simpa [Stage.next, hk, hc] using hnext
          refine ⟨h, ?_⟩
          simp [CounterOk, hk, (Option.filter_eq_some_iff.mp hc).1]
    | leave t =>
      cases hnext
      exact ⟨h, by simp [CounterOk]⟩
    | withdraw t =>
      cases hnext
      cases hf : (w.jobs.find? job.id).filter t.fence with
      | none => exact ⟨h, .unchanged⟩
      | some row => exact ⟨h, .withdrawn (.of_transition t hf)⟩
  | reserved job t counter =>
    cases hf : (w.jobs.find? job.id).filter t.fence with
    | some row =>
      obtain rfl : Stage.finished job (some (t.rewrite row)) counter = stage' := by
        simpa [Stage.next, hf] using hnext
      exact ⟨h.1, .taken (.of_transition t hf) h.2⟩
    | none =>
      obtain rfl : Stage.finished job none (counter.map releaseCounter) = stage' := by
        simpa [Stage.next, hf] using hnext
      have hg : ∀ c, (releaseCounter (reserveRow c)).concurrencyKey = c.concurrencyKey :=
        fun c => (releaseCounter_key _).trans (reserveRow_key c)
      refine ⟨h.1, .nothing (releaseCounter ∘ reserveRow) hg
        (fun c => releaseCounter_reserveRow) ?_⟩
      rw [CounterOk, h.2, Option.map_map]
  | locked job t counter =>
    cases hf : (w.jobs.find? job.id).filter t.fence with
    | some row =>
      obtain rfl : Stage.updated job (t.rewrite row) counter = stage' := by
        simpa [Stage.next, hf] using hnext
      exact ⟨h.1, h.2, .of_transition t hf⟩
    | none =>
      obtain rfl : Stage.finished job none counter = stage' := by
        simpa [Stage.next, hf] using hnext
      exact ⟨h.1, .nothing id (fun _ => rfl) (fun _ _ => rfl) h.2⟩
  | updated job written counter =>
    cases hnext
    obtain ⟨hr, hc, hw⟩ := h
    -- a key that was read has a counter row, so the lock found it
    have hlocked : counter.or (job.concurrencyKey.bind w.concurrency.find?) =
        job.concurrencyKey.bind w.concurrency.find? := by
      rw [hc]
      simp
    exact ⟨hr, .left hw (by rw [CounterOk, hlocked])⟩
  | finished | missed => cases hnext

/-! ## Commits -/

theorem CounterOk.cases {w : World} {job : JobRow} {g : ConcurrencyRow → ConcurrencyRow}
    {counter : Option ConcurrencyRow} (hr : w.ReadOk job) (h : w.CounterOk job g counter) :
    (job.concurrencyKey = none ∧ counter = none) ∨
      ∃ k c, job.concurrencyKey = some k ∧ w.concurrency.find? k = some c ∧
        counter = some (g c) := by
  unfold CounterOk at h
  cases hk : job.concurrencyKey with
  | none => exact .inl ⟨rfl, by simpa [hk] using h⟩
  | some k =>
    obtain ⟨⟨c, hc⟩, -⟩ := hr k hk
    exact .inr ⟨k, c, rfl, hc, by simpa [hk, hc] using h⟩

/-- A transaction commits what it wrote. -/
def committed (w : World) (written : Option JobRow) (counter : Option ConcurrencyRow) : World :=
  { w with
    jobs := written.elim w.jobs w.jobs.put
    concurrency := counter.elim w.concurrency w.concurrency.put
    tx := none }

theorem Has.committed {w : World} {k : Key} (h : w.Has k) (written : Option JobRow)
    (counter : Option ConcurrencyRow) : (w.committed written counter).Has k := by
  obtain ⟨c, hc⟩ := h
  cases counter with
  | none => exact ⟨c, hc⟩
  | some counter => exact Table.find?_put_isSome hc

variable {written : Option JobRow}

theorem FinishOk.registered (h : w.FinishOk job written counter) : ∀ row, written = some row →
      ∃ old ∈ w.jobs, old.id = row.id ∧ row.concurrencyKey = old.concurrencyKey := by
  rintro row rfl
  have hw : ∀ {source holds}, w.WriteOk job source holds row →
      ∃ old ∈ w.jobs, old.id = row.id ∧ row.concurrencyKey = old.concurrencyKey := by
    intro source holds hw
    obtain ⟨old, hold, -, hid, hk⟩ := hw.find
    exact ⟨old, Table.mem_of_find? hold, hid.symm, hk⟩
  cases h with
  | withdrawn h | taken h | left h => exact hw h

theorem Race.registered_committed (h : w.Race) (hf : w.FinishOk job written counter) :
    ∀ row ∈ (w.committed written counter).jobs, ∀ k, row.concurrencyKey = some k →
      (w.committed written counter).Has k := by
  intro row hrow k hk
  refine Has.committed ?_ written counter
  cases written with
  | none => exact h.registered row hrow k hk
  | some written =>
    obtain ⟨old, hold, hid, hkey⟩ := hf.registered written rfl
    rcases Table.mem_put hrow with rfl | hmem
    · exact h.registered old hold k (hkey ▸ hk)
    · exact h.registered row hmem k hk

theorem holders_put {jobs : Jobs} {written : JobRow} (h : jobs.find? row.id = some row)
    (hid : written.id = row.id) (hrow : heldKey row = none) (hwritten : heldKey written = none)
    (k : Key) : holders heldKey (jobs.put written) k = holders heldKey jobs k := by
  have := holders_modify heldKey (Table.overwrite JobRow.id written)
    (Table.key_overwrite JobRow.id written) (hid ▸ h) k
  simpa [Table.put, Table.overwrite, hid, hrow, hwritten] using this

theorem heldKey_eq_none (h : row.status ≠ .handedOff ∨ row.concurrencyKey = none) :
    heldKey row = none := by
  unfold heldKey
  split
  · next hs => exact h.resolve_left (not_not_intro hs)
  · rfl

theorem releaseCounter_eq_self (h : c.activeCount = 0) : releaseCounter c = c := by
  simp [releaseCounter, h]

theorem Unkeyed.active {k : Key} (hu : w.Unkeyed k)
    (hb : Balanced heldKey ConcurrencyRow.activeCount w.jobs w.concurrency)
    (hc : w.concurrency.find? k = some c) : c.activeCount = 0 := by
  rw [hb c (Table.mem_of_find? hc), Table.key_of_find? hc]
  have hz : holders heldKey w.jobs k = 0 := Table.count_eq_zero.mpr fun row hrow => by
    have hrel := hu row hrow
    by_contra hne
    have hheld : heldKey row = some k := by simpa using hne
    have hk := carried_of_heldKey hheld
    have hs : row.status = .handedOff := by
      by_contra hs
      simp [heldKey, hs] at hheld
    simp [releasable, hk, hs, JobStatus.terminal] at hrel
  exact_mod_cast hz

theorem FinishOk.balanced (hr : w.ReadOk job) (h : w.FinishOk job written counter)
    (hb : Balanced heldKey ConcurrencyRow.activeCount w.jobs w.concurrency)
    (hok : ∀ new, written = some new → ∀ row, w.jobs.find? job.id = some row →
      row.concurrencyKey = job.concurrencyKey ∨
        (new.status ≠ .handedOff ∧ (row.status = .queued ∨ row.concurrencyKey = none))) :
    Balanced heldKey ConcurrencyRow.activeCount (w.committed written counter).jobs
      (w.committed written counter).concurrency := by
  cases h with
  | unchanged => exact hb
  | nothing g hg hpos hc =>
    obtain ⟨-, rfl⟩ | ⟨k, c, -, hfind, rfl⟩ := hc.cases hr
    · exact hb
    · have hfix : g c = c := hpos c (hb.nonneg (Table.mem_of_find? hfind))
      have hput : w.concurrency.put c = w.concurrency :=
        Table.put_eq_self (by rw [Table.key_of_find? hfind, hfind])
      simpa [committed, hfix, hput] using hb
  | @withdrawn written hw =>
    obtain ⟨row, hrow, hs, hid, -⟩ := hw.find
    have hrid : row.id = job.id := Table.key_of_find? hrow
    exact hb.of_held (holders_put (by rw [hrid, hrow]) hid (heldKey_queued hs)
      (heldKey_eq_none (.inl (by simpa using hw.status))))
  | @taken written counter hw hc =>
    obtain ⟨row, hrow, hs, hid, hkey⟩ := hw.find
    have hrid : row.id = job.id := Table.key_of_find? hrow
    have hstatus : written.status = .handedOff := by simpa using hw.status
    have hread : row.concurrencyKey = job.concurrencyKey :=
      (hok written rfl row hrow).resolve_right fun h => h.1 hstatus
    obtain ⟨hk, rfl⟩ | ⟨k, c, hk, hfind, rfl⟩ := hc.cases hr
    · exact hb.of_held (holders_put (by rw [hrid, hrow]) hid (heldKey_queued hs)
        (heldKey_eq_none (.inr (by rw [hkey, hread, hk]))))
    · have hover : Table.overwrite JobRow.id written row = written := by
        simp [Table.overwrite, hid]
      have hacquire := hb.acquire (k := k) (Table.overwrite JobRow.id written)
        (Table.key_overwrite JobRow.id written) reserveRow reserveRow_key hrow (heldKey_queued hs)
        (by rw [hover, heldKey_handedOff hstatus, hkey, hread, hk]) (fun _ => rfl)
      change Balanced _ _ (w.jobs.put written) (w.concurrency.put (reserveRow c))
      rw [Table.put_of_key (hid.trans hrid), Table.put_eq_modify reserveRow reserveRow_key hfind]
      exact hacquire
  | @left written counter hw hc =>
    obtain ⟨row, hrow, hs, hid, hkey⟩ := hw.find
    have hrid : row.id = job.id := Table.key_of_find? hrow
    have hstatus : written.status ≠ .handedOff := by simpa using hw.status
    have hunheld : row.concurrencyKey = none →
        Balanced heldKey ConcurrencyRow.activeCount (w.jobs.put written) w.concurrency :=
      fun hnone => hb.of_held (holders_put (by rw [hrid, hrow]) hid
        (heldKey_eq_none (.inr hnone)) (heldKey_eq_none (.inl hstatus)))
    have hread : row.concurrencyKey = job.concurrencyKey ∨ row.concurrencyKey = none := by
      rcases hok written rfl row hrow with hread | ⟨-, hq | hnone⟩
      · exact .inl hread
      · rw [hs] at hq
        cases hq
      · exact .inr hnone
    obtain ⟨hk, rfl⟩ | ⟨k, c, hk, hfind, rfl⟩ := hc.cases hr
    · exact hunheld (hread.elim (fun h => h.trans hk) id)
    have hck : c.concurrencyKey = k := Table.key_of_find? hfind
    rcases hread with hread | hnone
    · have hover : Table.overwrite JobRow.id written row = written := by
        simp [Table.overwrite, hid]
      have hrelease := hb.release (k := k) (Table.overwrite JobRow.id written)
        (Table.key_overwrite JobRow.id written) releaseRow releaseRow_key hrow
        (by rw [heldKey_handedOff hs, hread, hk])
        (by rw [hover, heldKey_eq_none (.inl hstatus)]) (fun _ => rfl)
      change Balanced _ _ (w.jobs.put written) (w.concurrency.put (releaseCounter c))
      rw [Table.put_of_key (hid.trans hrid)]
      rw [Table.update_key_eq _ hfind] at hrelease
      by_cases hpos : 0 < c.activeCount
      · rw [releaseCounter, if_pos hpos, Table.put_eq_modify releaseRow releaseRow_key hfind]
        simpa [hpos] using hrelease
      · rw [releaseCounter, if_neg hpos, Table.put_eq_self (by rw [hck, hfind])]
        simpa [hpos] using hrelease
    · -- the key was taken from every live job, so its counter is zero and stays
      have hu : w.Unkeyed k := by
        obtain ⟨-, ⟨row', hrow', hk'⟩ | ⟨-, hu⟩⟩ := hr k hk
        · rw [hrow, Option.some.injEq] at hrow'
          rw [← hrow', hnone] at hk'
          cases hk'
        · exact hu
      have hput : w.concurrency.put c = w.concurrency := Table.put_eq_self (by rw [hck, hfind])
      change Balanced _ _ (w.jobs.put written) (w.concurrency.put (releaseCounter c))
      rw [releaseCounter_eq_self (hu.active hb hfind), hput]
      exact hunheld hnone

theorem Race.commit (h : w.Race) (htx : w.tx = some (.finished job written counter))
    (hok : CommitsUnderReadKey w .commit) : (w.committed written counter).Race := by
  obtain ⟨hr, hf⟩ := h.stage _ htx
  refine ⟨h.registered_committed hf, ?_, fun _ htx => (nomatch htx), fun hdone => ?_⟩
  · have hcon := h.contracted
    change (w.committed written counter).Contracted w.reconcile
    cases hphase : w.reconcile with
    | setCap | adopt =>
      rw [hphase] at hcon
      exact Has.committed hcon _ _
    | _ => trivial
  · refine hf.balanced hr (h.balanced hdone) ?_
    rintro new rfl row hrow
    have hdone : w.reconcile = .done := hdone
    simp only [CommitsUnderReadKey, htx, hdone] at hok
    exact hok row hrow

theorem Race.withTx (h : w.Race) {tx : Option Stage}
    (hs : ∀ stage, tx = some stage → w.StageOk stage) : World.Race { w with tx } where
  __ := h
  stage stage htx := by
    have hok := hs stage htx
    cases stage with
    | updated => exact ⟨hok.1, hok.2.1, hok.2.2.quiet rfl⟩
    | finished =>
      refine ⟨hok.1, ?_⟩
      cases hok.2 with
      | unchanged => exact .unchanged
      | nothing g hg hpos hc => exact .nothing g hg hpos hc
      | withdrawn hw => exact .withdrawn (hw.quiet rfl)
      | taken hw hc => exact .taken (hw.quiet rfl) hc
      | left hw hc => exact .left (hw.quiet rfl) hc
    | _ => exact hok

theorem Race.step {queues : Queues} {w w' : World} {a : Action} (h : w.Race)
    (hok : CommitsUnderReadKey w a) (hstep : w.step queues a = some w') : w'.Race := by
  cases a with
  | begin call =>
    dsimp only [World.step] at hstep
    split at hstep
    · cases hstep
    · cases hstep
      refine h.withTx fun stage hs => ?_
      cases hs
      trivial
  | statement =>
    obtain ⟨stage, hstage, rfl⟩ := Option.map_eq_some_iff.mp hstep
    obtain ⟨old, htx, hnext⟩ := Option.bind_eq_some_iff.mp hstage
    refine h.withTx fun stage' hs => ?_
    cases hs
    exact (h.stage old htx).next h.registered hnext
  | commit =>
    dsimp only [World.step] at hstep
    split at hstep
    · next htx =>
      cases hstep
      exact h.commit htx hok
    · cases hstep
      exact h.withTx fun _ hs => nomatch hs
    · cases hstep
  | rollback =>
    dsimp only [World.step] at hstep
    split at hstep
    · cases hstep
      exact h.withTx fun _ hs => nomatch hs
    · cases hstep
  | reconcile dbOrder => exact h.reconciled hstep

end World

/-- Every key a job carries has a counter row. -/
def Registered (jobs : Jobs) (concurrency : ConcurrencyTable) : Prop :=
  ∀ row ∈ jobs, ∀ k, row.concurrencyKey = some k → ∃ c, concurrency.find? k = some c

theorem run_registered (sha256 : String → String) (txs : List Tx) :
    Registered (run sha256 .empty txs).jobs (run sha256 .empty txs).concurrency :=
  (run_counted (s := .empty) sha256 counted_empty txs).registered

/-- **Reconciliation ends with exact counters.** In every interleaving in which
    each commit after the recount is under the key its transaction read, every
    counter row stores the number of handed-off jobs with its key from the end
    of the reconciliation on. -/
theorem reconciled_counters_exact (queues : Queues) {jobs : Jobs}
    {concurrency : ConcurrencyTable} (hreg : Registered jobs concurrency) (actions : List Action)
    {w : World}
    (hrun : runActions (World.step queues) (World.init queues jobs concurrency) actions = some w)
    (hok : Along (World.step queues) CommitsUnderReadKey (World.init queues jobs concurrency)
      actions)
    (hdone : w.reconcile = .done) : w.Exact := by
  have hinit : (World.init queues jobs concurrency).Race :=
    ⟨hreg, World.contracted_queues _ _, fun _ htx => (nomatch htx),
      fun hd => absurd hd (World.queues_ne_done _)⟩
  have hrace : w.Race := runActions_invariant (I := World.Race)
    (fun _ _ _ h hok hstep => h.step hok hstep) actions hinit hok hrun
  intro c hc
  rw [handedOffCount_eq]
  exact hrace.balanced hdone c hc

/-- The report of the adopted job, recounted while it is open. -/
def reportAdopted : List Action :=
  [.reconcile fun _ => 0, .reconcile fun _ => 0, .reconcile fun _ => 0, .reconcile fun _ => 0,
    .begin (.markCompleted "1" ⟨some "lease", none, none⟩ 2), .statement,
    .reconcile fun _ => 0, .statement, .statement, .statement, .commit]

/-- A report that reads the adopted job releases the slot that was recounted. -/
theorem reconciled_counters_exact_report :
    ∃ w, runActions (World.step mailCap) mailCapDue reportAdopted = some w ∧ w.Exact := by
  have hread : Along (World.step mailCap) CommitsUnderReadKey mailCapDue reportAdopted := by
    refine ⟨trivial, trivial, trivial, trivial, trivial, trivial, trivial, trivial, trivial,
      trivial, fun row hrow => ?_, trivial⟩
    cases hrow
    exact .inl rfl
  exact ⟨_, rfl, reconciled_counters_exact mailCap (run_registered id handedOffUnkeyed)
    reportAdopted rfl hread rfl⟩

end Velocious
