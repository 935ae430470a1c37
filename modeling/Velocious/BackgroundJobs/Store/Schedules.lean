/-
  Schedule-key ownership in the SQL background-jobs store.

  `Owned` is the invariant, over the tables and the history of events: an owner
  row points at a live job that carries its key, a handed-off job was handed
  off since its insertion, and a queued job that was not owns its key.

  `schedule_keys_owned` states it for every run, and that a job withdrawn by
  `cancelScheduled` or `replaceScheduled` is never handed off again.
-/
import Velocious.BackgroundJobs.Store.Counts

namespace Velocious

open Foundation List

/-- Whether a job was handed off since its insertion, one event later. -/
def noteEvent (id : String) (handed : Bool) : Event → Bool
  | .granted jobId _ => handed || jobId = id
  | .inserted jobId => handed && jobId ≠ id
  | _ => handed

/-- Whether a history hands a job off after its last insertion. -/
def handedOffSince (events : List Event) (id : String) : Bool :=
  events.foldl (noteEvent id) false

theorem handedOffSince_append (es es' : List Event) (id : String) :
    handedOffSince (es ++ es') id = es'.foldl (noteEvent id) (handedOffSince es id) :=
  foldl_append

/-- Schedule-key ownership after a history. -/
structure Owned (es : List Event) (s : JobTables) : Prop where
  owner_live : ∀ o ∈ s.scheduleKeys, ∃ row, s.jobs.find? o.jobId = some row ∧
    row.status.terminal = false ∧ row.scheduleKey = some o.scheduleKey
  handed : ∀ row ∈ s.jobs, row.status = .handedOff → handedOffSince es row.id = true
  owns : ∀ row ∈ s.jobs, row.status = .queued → ∀ k, row.scheduleKey = some k →
    handedOffSince es row.id = false → s.scheduleKeys.find? k = some ⟨k, row.id⟩

theorem owned_empty : Owned [] ⟨.empty, .empty, .empty⟩ where
  owner_live _ h := (Table.not_mem_empty h).elim
  handed _ h := (Table.not_mem_empty h).elim
  owns _ h := (Table.not_mem_empty h).elim

/-! ## Changes of the jobs table -/

section
variable {es : List Event} {s : JobTables}

variable {o : ScheduleKeyRow}

theorem Owned.key_of_owner (hs : Owned es s) {row : JobRow}
    (ho : o ∈ s.scheduleKeys) (h : s.jobs.find? o.jobId = some row) :
    row.scheduleKey = some o.scheduleKey := by
  obtain ⟨row', hrow', -, hk⟩ := hs.owner_live o ho
  rw [h] at hrow'
  exact Option.some.inj hrow' ▸ hk

theorem Owned.insert {jobs : Jobs} {scheduleKeys : ScheduleKeys} {row : JobRow}
    (concurrency : ConcurrencyTable) (hs : Owned es s) (hn : NewRow row)
    (hj : s.jobs.insert? row = some jobs)
    (howner : ∀ o ∈ scheduleKeys,
      o ∈ s.scheduleKeys ∨ (o.jobId = row.id ∧ row.scheduleKey = some o.scheduleKey))
    (hkey : ∀ k, row.scheduleKey = some k → scheduleKeys.find? k = some ⟨k, row.id⟩)
    (hkeep : ∀ r ∈ s.jobs, r.status = .queued → ∀ k,
      s.scheduleKeys.find? k = some ⟨k, r.id⟩ → scheduleKeys.find? k = some ⟨k, r.id⟩) :
    Owned (es ++ [.inserted row.id]) ⟨jobs, concurrency, scheduleKeys⟩ := by
  have habsent := (Table.insert?_eq_some.mp hj).1
  have hne : ∀ r ∈ s.jobs, row.id ≠ r.id := fun r hr =>
    (Table.find?_eq_none.mp habsent r hr).symm
  refine ⟨fun o ho => ?_, fun r hr hh => ?_, fun r hr hq k hk hd => ?_⟩
  · rcases howner o ho with ho | ⟨hid, hk⟩
    · obtain ⟨r, hr, hlive, hk⟩ := hs.owner_live o ho
      refine ⟨r, ?_, hlive, hk⟩
      rw [Table.find?_insert? hj, if_neg, hr]
      rintro he
      rw [he, habsent] at hr
      cases hr
    · exact ⟨row, by simp [Table.find?_insert? hj, hid], by rw [hn.queued]; rfl, hk⟩
  · rcases (Table.mem_insert? hj).mp hr with hr | rfl
    · simp [handedOffSince_append, noteEvent, hs.handed r hr hh, hne r hr]
    · rw [hn.queued] at hh
      cases hh
  · rcases (Table.mem_insert? hj).mp hr with hr | rfl
    · refine hkeep r hr hq k (hs.owns r hr hq k hk ?_)
      simpa [handedOffSince_append, noteEvent, hne r hr] using hd
    · exact hkey k hk

theorem Owned.rewrite {row : JobRow} {f : JobRow → JobRow} (hf : ∀ row, (f row).id = row.id)
    {scheduleKeys : ScheduleKeys} (concurrency : ConcurrencyTable) {e : Event} (hs : Owned es s)
    (h : s.jobs.find? row.id = some row) (hkey : (f row).scheduleKey = row.scheduleKey)
    (hsub : ∀ o ∈ scheduleKeys, o ∈ s.scheduleKeys)
    (hlive : ∀ o ∈ scheduleKeys, o.jobId = row.id → (f row).status.terminal = false)
    (hkeep : ∀ k o, s.scheduleKeys.find? k = some o → o.jobId ≠ row.id →
      scheduleKeys.find? k = some o)
    (hother : ∀ id, id ≠ row.id → noteEvent id (handedOffSince es id) e = handedOffSince es id)
    (hhanded : (f row).status = .handedOff → noteEvent row.id (handedOffSince es row.id) e = true)
    (hqueued : (f row).status = .queued → noteEvent row.id (handedOffSince es row.id) e = true) :
    Owned (es ++ [e]) ⟨s.jobs.modify row.id f hf, concurrency, scheduleKeys⟩ := by
  have hsince : ∀ id, handedOffSince (es ++ [e]) id = noteEvent id (handedOffSince es id) e :=
    fun id => handedOffSince_append es [e] id
  refine ⟨fun o ho => ?_, fun r hr hh => ?_, fun r hr hq k hk hd => ?_⟩
  · obtain ⟨r, hr, hl, hk⟩ := hs.owner_live o (hsub o ho)
    rw [Table.find?_modify]
    split
    · next hid =>
      rw [hid, h] at hr
      cases hr
      exact ⟨f row, by rw [h]; rfl, hlive o ho hid, hkey.trans hk⟩
    · exact ⟨r, hr, hl, hk⟩
  · dsimp only at hr
    rw [hsince]
    rcases (Table.mem_modify h).mp hr with rfl | ⟨hr, hne⟩
    · rw [hf]
      exact hhanded hh
    · rw [hother _ hne]
      exact hs.handed r hr hh
  · dsimp only at hr ⊢
    rw [hsince] at hd
    rcases (Table.mem_modify h).mp hr with rfl | ⟨hr, hne⟩
    · rw [hf, hqueued hq] at hd
      cases hd
    · rw [hother _ hne] at hd
      exact hkeep k _ (hs.owns r hr hq k hk hd) hne

variable {t : ScheduleKeys} {jobId : String}

theorem find?_disowned {scheduleKey : Option Key} {k : Key} (h : t.find? k = some o)
    (hne : o.jobId ≠ jobId) :
    (disowned t jobId scheduleKey).find? k = some o := by
  rw [disowned, Table.find?_delete, h]
  simp [hne]

theorem find?_disowned_of_ne {key k : Key} (hne : k ≠ key) :
    (disowned t jobId (some key)).find? k = t.find? k := by
  rw [disowned, Table.find?_delete]
  cases h : t.find? k with
  | none => rfl
  | some o =>
    have hk : o.scheduleKey = k := Table.key_of_find? h
    simp [hk, hne]

theorem mem_disowned {scheduleKey : Option Key} : o ∈ disowned t jobId scheduleKey ↔
      o ∈ t ∧ ¬(o.jobId = jobId ∧ scheduleKey = some o.scheduleKey) := by
  rw [disowned, Table.mem_delete]
  have hk : (scheduleKey = some o.scheduleKey) ↔ sqlEq (some o.scheduleKey) scheduleKey = true := by
    cases scheduleKey with
    | none => simp
    | some key => simp [eq_comm]
  rw [hk]
  simp

theorem Owned.withdraw {row : JobRow} {scheduleKey : Option Key} (hs : Owned es s)
    (h : s.jobs.find? row.id = some row)
    (hk : scheduleKey = row.scheduleKey ∨
      ∃ key, scheduleKey = some key ∧ s.scheduleKeys.find? key = some ⟨key, row.id⟩) :
    Owned (es ++ [.withdrawn row.id])
      ⟨s.jobs.modify row.id cancelledRow cancelledRow_id, s.concurrency,
        disowned s.scheduleKeys row.id scheduleKey⟩ := by
  refine hs.rewrite cancelledRow_id s.concurrency h rfl (fun o ho => (mem_disowned.mp ho).1)
    (fun o ho hid => ?_) (fun k o ho hne => find?_disowned ho hne) (fun _ _ => rfl) ?_ ?_
  · obtain ⟨hmem, hgone⟩ := mem_disowned.mp ho
    refine absurd ⟨hid, ?_⟩ hgone
    have hrow : ∀ o ∈ s.scheduleKeys, o.jobId = row.id → row.scheduleKey = some o.scheduleKey :=
      fun o ho hid => hs.key_of_owner ho (hid ▸ h)
    rcases hk with rfl | ⟨key, rfl, hkey⟩
    · exact hrow o hmem hid
    · rw [← hrow _ (Table.mem_of_find? hkey) rfl, hrow o hmem hid]
  · rintro ⟨⟩
  · rintro ⟨⟩

theorem find?_upserted {k k' : Key} :
    (t.upsert ⟨k, jobId⟩ fun o => { o with jobId := jobId }).find? k' =
      if k' = k then some ⟨k, jobId⟩ else t.find? k' := by
  rw [Table.find?_upsert]
  split
  · cases hold : t.find? k with
    | none => rfl
    | some old =>
      have hkey : old.scheduleKey = k := Table.key_of_find? hold
      simp [hkey]
  · rfl

theorem Owned.of_events {es' : List Event} (hs : Owned es s)
    (h : ∀ id, handedOffSince es' id = handedOffSince es id) : Owned es' s :=
  ⟨hs.owner_live, fun r hr hh => by rw [h]; exact hs.handed r hr hh,
    fun r hr hq k hk hd => hs.owns r hr hq k hk (by rwa [h] at hd)⟩

theorem Owned.detach {k : Key} (hs : Owned es s)
    (hq : ∀ row, s.jobs.find? jobId = some row → row.status ≠ .queued) :
    Owned es { s with scheduleKeys := disowned s.scheduleKeys jobId (some k) } where
  owner_live o ho := hs.owner_live o (mem_disowned.mp ho).1
  handed := hs.handed
  owns row hrow hqr k hk hd := by
    refine find?_disowned (hs.owns row hrow hqr k hk hd) ?_
    rintro rfl
    exact hq row (Table.find?_of_mem hrow) hqr

theorem Owned.prune {p : JobRow → Bool} (hs : Owned es s)
    (hp : ∀ row ∈ s.jobs, p row → row.status.terminal ∧ row.status ≠ .cancelled) :
    Owned es { s with jobs := s.jobs.delete p } where
  owner_live o ho := by
    obtain ⟨row, hrow, hlive, hk⟩ := hs.owner_live o ho
    refine ⟨row, ?_, hlive, hk⟩
    rw [Table.find?_delete, hrow]
    by_cases hpr : p row
    · rw [(hp row (Table.mem_of_find? hrow) hpr).1] at hlive
      cases hlive
    · simp [hpr]
  handed row hrow := hs.handed row (Table.mem_delete.mp hrow).1
  owns row hrow := hs.owns row (Table.mem_delete.mp hrow).1

theorem Owned.replace {jobs : Jobs} {t : ScheduleKeys} {k : Key} {row : JobRow}
    (hs : Owned es s) (hn : NewRow row) (hk : row.scheduleKey = some k)
    (hj : s.jobs.insert? row = some jobs)
    (hq : ∀ r, ownerRow s k = some r → r.status ≠ .queued)
    (hfind : ∀ k', t.find? k' =
      if k' = k then some ⟨k, row.id⟩ else s.scheduleKeys.find? k') :
    Owned (es ++ [.inserted row.id]) ⟨jobs, s.concurrency, t⟩ := by
  refine hs.insert s.concurrency hn hj (fun o ho => ?_) (fun k' hk' => ?_)
    fun r hr hqr k' hown => ?_
  · have ho := Table.find?_of_mem ho
    rw [hfind] at ho
    split at ho
    · cases ho
      exact .inr ⟨rfl, hk⟩
    · exact .inl (Table.mem_of_find? ho)
  · rw [hk] at hk'
    cases hk'
    rw [hfind, if_pos rfl]
  · rw [hfind]
    split
    · -- the old owner of the key is not queued, so no queued job owns it
      next hkk =>
      subst hkk
      exact absurd hqr (hq r (by simpa [ownerRow, hown] using Table.find?_of_mem hr))
    · exact hown

end

theorem Move.owned {es es' : List Event} {s s' : JobTables} (hs : Owned es s)
    (hm : Move s es' s') : Owned (es ++ es') s' := by
  cases hm with
  | register c hc =>
    rw [append_nil]
    exact ⟨hs.owner_live, hs.handed, hs.owns⟩
  | insert row hn hk _ hj =>
    refine hs.insert s.concurrency hn hj (fun o ho => .inl ho) (fun k h => ?_)
      fun r _ _ k hown => hown
    rw [hk] at h
    cases h
  | @replace jobs₁ jobs scheduleKey row hn hk _ hj₁ hj =>
    cases ho : queuedOwner s scheduleKey with
    | none =>
      rw [ho] at hj₁
      subst hj₁
      refine hs.replace hn hk hj (fun r hr hq => ?_) fun k' => find?_upserted
      simp [queuedOwner_eq, hr, hq] at ho
    | some owner =>
      rw [ho] at hj₁
      subst hj₁
      obtain ⟨hrow, hq⟩ : ownerRow s scheduleKey = some owner ∧ owner.status = .queued := by
        simpa [queuedOwner_eq] using ho
      obtain ⟨⟨key, jobId⟩, hown, hfind⟩ := Option.bind_eq_some_iff.mp hrow
      obtain rfl : key = scheduleKey := Table.key_of_find? hown
      obtain rfl : owner.id = jobId := Table.key_of_find? hfind
      -- the old owner is withdrawn first, and gives the key up
      have hw := hs.withdraw hfind (.inr ⟨key, rfl, hown⟩)
      have hgone : ∀ o, (disowned s.scheduleKeys owner.id (some key)).find? key ≠ some o := by
        intro o h
        obtain ⟨hmem, hne⟩ := mem_disowned.mp (Table.mem_of_find? h)
        obtain rfl : o.scheduleKey = key := Table.key_of_find? h
        rw [Table.find?_of_mem hmem] at hown
        exact hne ⟨by rw [Option.some.inj hown], rfl⟩
      have hr := hw.replace hn hk hj (fun r h => ?_)
        (t := s.scheduleKeys.upsert ⟨key, row.id⟩ fun o => { o with jobId := row.id })
        fun k' => ?_
      · simpa using hr
      · obtain ⟨o, ho, -⟩ := Option.bind_eq_some_iff.mp h
        exact absurd ho (hgone o)
      · rw [find?_upserted]
        split
        · rfl
        · next hne => exact (find?_disowned_of_ne hne).symm
  | @dispatch concurrency row handoffId workerId now hf hq _ =>
    refine hs.rewrite (handedOffRow_id _ _ _) concurrency hf rfl (fun o ho => ho) (fun _ _ _ => rfl)
      (fun _ _ ho _ => ho) (fun id hid => ?_) (fun _ => ?_) fun _ => ?_
    · simp [noteEvent, hid.symm]
    · simp [noteEvent]
    · simp [noteEvent]
  | @leave row f hf hfind hh hl =>
    have hkey := (hl.keys row).2
    refine hs.rewrite hf _ hfind hkey (fun o ho => ?_) (fun o ho hid => ?_) (fun k o ho hne => ?_)
      (fun _ _ => rfl) (fun h => absurd h (hl.status row)) fun _ =>
        hs.handed row (Table.mem_of_find? hfind) hh
    · split at ho
      · exact (mem_disowned.mp ho).1
      · exact ho
    · split at ho
      · obtain ⟨hmem, hgone⟩ := mem_disowned.mp ho
        exact absurd ⟨hid, hs.key_of_owner hmem (hid ▸ hfind)⟩ hgone
      · next ht => simpa using ht
    · split
      · exact find?_disowned ho hne
      · exact ho
  | withdraw scheduleKey hf hq hk => exact hs.withdraw hf hk
  | detach scheduleKey _ hq =>
    rw [append_nil]
    exact hs.detach hq
  | prune p hp => exact (hs.prune hp).of_events fun id => handedOffSince_append es _ id
  | clear =>
    exact ⟨fun _ h => (Table.not_mem_empty h).elim, fun _ h => (Table.not_mem_empty h).elim,
      fun _ h => (Table.not_mem_empty h).elim⟩

theorem run_owned (sha256 : String → String) (txs : List Tx) :
    Owned (runEvents sha256 .empty txs) (run sha256 .empty txs).toJobTables :=
  (run_moves sha256 txs .empty).invariant (fun _ _ _ _ hs hm => hm.owned hs) owned_empty

/-! ## Withdrawn jobs -/

theorem Move.withdrawn {s s' : JobTables} {es : List Event} (hm : Move s es s') {id : String}
    (h : .withdrawn id ∈ es) : ∃ row, s'.jobs.find? id = some row ∧ row.status = .cancelled := by
  have hcancel : ∀ {row : JobRow}, s.jobs.find? row.id = some row →
      (s.jobs.modify row.id cancelledRow cancelledRow_id).find? row.id = some (cancelledRow row) :=
    fun {row} hf => by rw [Table.find?_modify, if_pos rfl, hf]; rfl
  cases hm with
  | replace scheduleKey row _ _ _ hj₁ hj =>
    cases ho : queuedOwner s scheduleKey with
    | none => simp [ho] at h
    | some owner =>
      obtain rfl : id = owner.id := by simpa [ho] using h
      obtain ⟨hrow, -⟩ : ownerRow s scheduleKey = some owner ∧ owner.status = .queued := by
        simpa [queuedOwner_eq] using ho
      rw [ho] at hj₁
      subst hj₁
      have hfind := hcancel (ownerRow_find? hrow)
      refine ⟨cancelledRow owner, ?_, rfl⟩
      rw [Table.find?_insert? hj, if_neg]
      · exact hfind
      · intro hid
        have habsent := (Table.insert?_eq_some.mp hj).1
        rw [← hid] at habsent
        exact absurd (habsent.symm.trans hfind) (by simp)
  | @withdraw row scheduleKey hf _ _ =>
    obtain rfl : id = row.id := by simpa using h
    exact ⟨cancelledRow row, hcancel hf, rfl⟩
  | _ => simp at h

theorem Moves.withdrawn {s s' : JobTables} {es : List Event} (hm : Moves s es s') {id : String}
    (h : .withdrawn id ∈ es) (hd : .deleted ∉ es) :
    ∃ row, s'.jobs.find? id = some row ∧ row.status = .cancelled := by
  induction hm with
  | nil => cases h
  | cons hm hms ih =>
    simp only [mem_append, not_or] at hd
    rcases mem_append.mp h with h | h
    · obtain ⟨row, hrow, hc⟩ := hm.withdrawn h
      exact ⟨row, Moves.terminal_kept hms hrow (by rw [hc]; rfl) hd.2, hc⟩
    · exact ih h hd.2

theorem markHandedOff_refused {s : Db} {jobId handoffId : String} {workerId : Option String}
    {now : ℤ} (h : ∀ row, s.jobs.find? jobId = some row → row.status ≠ .queued) :
    Ensures (markHandedOff jobId handoffId workerId now) s fun handoff _ => handoff = none := by
  simp only [markHandedOff, ensures_serializedCountMutation, ensures_bind, ensures_getJobRowById]
  cases hrow : s.jobs.find? jobId with
  | none => exact ensures_pure.mpr rfl
  | some row =>
    simp only [Option.map_some, ensures_ite, ensures_pure]
    exact ⟨fun _ => trivial, fun hq => absurd (by simpa using hq) (h row hrow)⟩

/-- A call that answers that it cancelled a queued job of a schedule key. -/
def Tx.Withdraws (sha256 : String → String) (tx : Tx) (s : Db) (id : String) : Prop :=
  match tx with
  | .cancelScheduled _ => (tx.exec sha256 s).1 = .ok (.cancellation ⟨some id, .cancelled⟩)
  | .replaceScheduled _ _ =>
    ∃ jobId, (tx.exec sha256 s).1 = .ok (.replaced ⟨jobId, some id, some .queued⟩)
  | _ => False

theorem Tx.Withdraws.cancelled {sha256 : String → String} {tx : Tx} {s : Db} {id : String}
    (h : tx.Withdraws sha256 s id) :
    ∃ row, (tx.exec sha256 s).2.jobs.find? id = some row ∧ row.status = .cancelled := by
  obtain ⟨t, hm, -, -, hr⟩ := exec_outcome sha256 tx s
  rw [← hr.tables] at hm
  cases tx with
  | cancelScheduled scheduleKey =>
    have he : (Tx.cancelScheduled scheduleKey).eventsOf sha256 s = [.withdrawn id] := by
      simp only [Tx.Withdraws] at h
      unfold Tx.eventsOf
      rcases hx : (Tx.cancelScheduled scheduleKey).exec sha256 s with ⟨answer, s'⟩
      rw [hx] at h
      obtain rfl : answer = _ := h
      rfl
    exact hm.withdrawn (by simp [he]) (by simp [he])
  | replaceScheduled scheduleKey input =>
    obtain ⟨jobId, h⟩ := h
    have he : (Tx.replaceScheduled scheduleKey input).eventsOf sha256 s =
        [.withdrawn id, .inserted jobId] := by
      unfold Tx.eventsOf
      rcases hx : (Tx.replaceScheduled scheduleKey input).exec sha256 s with ⟨answer, s'⟩
      rw [hx] at h
      obtain rfl : answer = _ := h
      rfl
    exact hm.withdrawn (by simp [he]) (by simp [he])
  | _ => exact h.elim

theorem cancelled_never_handedOff (sha256 : String → String) {s : Db} {id : String} {row : JobRow}
    (h : s.jobs.find? id = some row) (hc : row.status = .cancelled) {txs : List Tx}
    (hi : .inserted id ∉ runEvents sha256 s txs) (handoffId : String) (workerId : Option String)
    (now : ℤ) (handoff : Handoff) :
    ((Tx.markHandedOff id handoffId workerId now).exec sha256 (run sha256 s txs)).1 ≠
      .ok (.handoff (some handoff)) := by
  have hrow := (run_moves sha256 txs s).terminal (by rw [hc]; rfl) hi (.inl h)
  have hrefused : ∀ row', (run sha256 s txs).jobs.find? id = some row' → row'.status ≠ .queued := by
    rintro row' h'
    rcases hrow with hrow | hrow
    · rw [hrow] at h'
      rw [← Option.some.inj h', hc]
      decide
    · rw [hrow] at h'
      cases h'
  have he := (ensures_map (f := Answer.handoff) (Q := fun answer _ => answer = .handoff none)).mpr
    ((@markHandedOff_refused _ _ handoffId workerId now hrefused).mono fun _ _ h => by rw [h])
  change (commit (Answer.handoff <$> markHandedOff id handoffId workerId now) _).1 ≠ _
  rcases he.commit with ⟨e, hx⟩ | ⟨answer, s', hx, rfl⟩ <;> rw [hx] <;> simp

theorem runEvents_append (sha256 : String → String) (txs txs' : List Tx) : ∀ s : Db,
    runEvents sha256 s (txs ++ txs') =
      runEvents sha256 s txs ++ runEvents sha256 (run sha256 s txs) txs' := by
  induction txs with
  | nil => exact fun _ => rfl
  | cons tx txs ih =>
    intro s
    simp only [cons_append, runEvents, run, ih, append_assoc]

/-- **Schedule-key ownership.** After every run from the empty store: an owner
    row points at a queued or handed-off job that carries its key; a key has at
    most one owner row; a queued job with a key that was not handed off since
    its insertion is the owner of its key, so that no two such jobs share one;
    and a job that a call answers it cancelled for its key is not handed off in
    any continuation in which its id is not inserted again. -/
theorem schedule_keys_owned (sha256 : String → String) (txs : List Tx) :
    let s := run sha256 .empty txs
    (∀ o ∈ s.scheduleKeys, ∃ row ∈ s.jobs, row.id = o.jobId ∧
      (row.status = .queued ∨ row.status = .handedOff) ∧ row.scheduleKey = some o.scheduleKey) ∧
    (∀ k, s.scheduleKeys.count (fun o => o.scheduleKey = k) ≤ 1) ∧
    (∀ row ∈ s.jobs, row.status = .queued → ∀ k, row.scheduleKey = some k →
      handedOffSince (runEvents sha256 .empty txs) row.id = false →
      s.scheduleKeys.find? k = some ⟨k, row.id⟩ ∧
      ∀ row' ∈ s.jobs, row'.status = .queued → row'.scheduleKey = some k →
        handedOffSince (runEvents sha256 .empty txs) row'.id = false → row' = row) ∧
    ∀ (tx : Tx) (id : String), tx.Withdraws sha256 s id → ∀ suf : List Tx,
      .inserted id ∉ runEvents sha256 (tx.exec sha256 s).2 suf →
      ∀ pre, pre <+: suf → ∀ handoffId workerId now handoff,
        ((Tx.markHandedOff id handoffId workerId now).exec sha256
          (run sha256 (tx.exec sha256 s).2 pre)).1 ≠ .ok (.handoff (some handoff)) := by
  intro s
  have hs := run_owned sha256 txs
  refine ⟨fun o ho => ?_, fun k => ?_, fun row hrow hq k hk hd => ⟨hs.owns row hrow hq k hk hd, ?_⟩,
    fun tx id hw suf hi pre hpre => ?_⟩
  · obtain ⟨row, hrow, hlive, hk⟩ := hs.owner_live o ho
    refine ⟨row, Table.mem_of_find? hrow, Table.key_of_find? hrow, ?_, hk⟩
    revert hlive
    cases row.status <;> decide
  · cases h : s.scheduleKeys.find? k with
    | none =>
      refine (Table.count_eq_zero.mpr fun o ho => ?_).trans_le zero_le_one
      simpa using Table.find?_eq_none.mp h o ho
    | some o =>
      have := Table.count_key (fun _ => true) h
      simp only [Bool.and_true] at this
      exact this.le
  · intro row' hrow' hq' hk' hd'
    have h := hs.owns row hrow hq k hk hd
    rw [hs.owns row' hrow' hq' k hk' hd'] at h
    have hid : row'.id = row.id := by simpa using h
    exact Table.eq_of_key hrow' hrow hid
  · obtain ⟨row, hrow, hc⟩ := hw.cancelled
    obtain ⟨suf', rfl⟩ := hpre
    rw [runEvents_append, mem_append, not_or] at hi
    exact cancelled_never_handedOff sha256 hrow hc hi.1

/-- A job replaced while queued is not handed off afterwards. -/
theorem schedule_keys_owned_replaced (handoff : Handoff) :
    ((Tx.markHandedOff "1" "lease" none 2).exec id (run id .empty
      [.replaceScheduled "key" ⟨"job", [], {}, "1", 0, []⟩,
        .replaceScheduled "key" ⟨"job", [], {}, "2", 1, []⟩])).1 ≠ .ok (.handoff (some handoff)) :=
  (schedule_keys_owned id [.replaceScheduled "key" ⟨"job", [], {}, "1", 0, []⟩]).2.2.2
    (.replaceScheduled "key" ⟨"job", [], {}, "2", 1, []⟩) "1" ⟨"2", rfl⟩ [] (by simp [runEvents]) []
    List.prefix_rfl "lease" none 2 handoff

end Velocious
