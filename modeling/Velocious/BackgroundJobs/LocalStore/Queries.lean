/-
  The queries by which jobs are found: `nextAvailableJob` and `nextScheduledJob`.

  * `nextAvailableJob_none`: where the first finds nothing, nothing is claimable.
  * `nextScheduledJob_none`, `nextScheduledJob_some`: the second finds the first of the queued jobs
    that are not due.
-/
import Velocious.BackgroundJobs.LocalStore.Moves

namespace Velocious.LocalStore

open Foundation List

variable {s : Db} {now : ℤ}

instance (queuePriority : String → ℚ) : Std.Total (dispatchedBefore queuePriority) where
  total a b := by
    unfold dispatchedBefore
    rcases lt_trichotomy (queuePriority a.queue) (queuePriority b.queue) with h | h | h
    · exact .inr (.inl h)
    · rcases lt_trichotomy a.scheduledAtMs b.scheduledAtMs with hs | hs | hs
      · exact .inl (.inr ⟨h, .inl hs⟩)
      · rcases lt_trichotomy a.createdAtMs b.createdAtMs with hc | hc | hc
        · exact .inl (.inr ⟨h, .inr ⟨hs, .inl hc⟩⟩)
        · rcases String.le_total a.id b.id with hid | hid
          · exact .inl (.inr ⟨h, .inr ⟨hs, .inr ⟨hc, hid⟩⟩⟩)
          · exact .inr (.inr ⟨h.symm, .inr ⟨hs.symm, .inr ⟨hc.symm, hid⟩⟩⟩)
        · exact .inr (.inr ⟨h.symm, .inr ⟨hs.symm, .inl hc⟩⟩)
      · exact .inr (.inr ⟨h.symm, .inl hs⟩)
    · exact .inl (.inl h)

instance (queuePriority : String → ℚ) : IsTrans JobRow (dispatchedBefore queuePriority) where
  trans a b c := by
    unfold dispatchedBefore
    rintro (hab | ⟨hab, hab'⟩) (hbc | ⟨hbc, hbc'⟩)
    · exact .inl (hbc.trans hab)
    · exact .inl (hbc ▸ hab)
    · exact .inl (hab ▸ hbc)
    · refine .inr ⟨hab.trans hbc, ?_⟩
      rcases hab' with hs | ⟨hs, hc⟩ <;> rcases hbc' with hs' | ⟨hs', hc'⟩
      · exact .inl (hs.trans hs')
      · exact .inl (hs' ▸ hs)
      · exact .inl (hs ▸ hs')
      · refine .inr ⟨hs.trans hs', ?_⟩
        rcases hc with hc | ⟨hc, hid⟩ <;> rcases hc' with hc' | ⟨hc', hid'⟩
        · exact .inl (hc.trans hc')
        · exact .inl (hc' ▸ hc)
        · exact .inl (hc ▸ hc')
        · exact .inr ⟨hc.trans hc', String.le_trans hid hid'⟩

theorem firstRow_none (rows : List JobRow) (h : (commit (firstRow rows) s).1 = .ok none) :
    rows = [] := by
  cases rows with
  | nil => rfl
  | cons row rows =>
    have hrow : commit (firstRow (row :: rows)) s =
        commit (liftM (normalizeRow row) >>= fun job => pure (some job)) s := rfl
    rw [hrow] at h
    cases hn : normalizeRow row with
    | error e => rw [hn] at h; cases h
    | ok job => rw [hn] at h; cases h

theorem firstRow_some (rows : List JobRow) {job : JobRow}
    (h : (commit (firstRow rows) s).1 = .ok (some job)) :
    ∃ row rest, rows = row :: rest ∧ job.id = row.id ∧ job.scheduledAtMs = row.scheduledAtMs := by
  cases rows with
  | nil => cases h
  | cons row rows =>
    have hrow : commit (firstRow (row :: rows)) s =
        commit (liftM (normalizeRow row) >>= fun job => pure (some job)) s := rfl
    rw [hrow] at h
    cases hn : normalizeRow row with
    | error e => rw [hn] at h; cases h
    | ok job' =>
      rw [hn] at h
      cases h
      obtain ⟨mode, queue, rfl⟩ := normalizeRow_ok hn
      exact ⟨row, rows, rfl, rfl, rfl⟩

theorem nextAvailableJob_none {queuePriority : String → ℚ}
    (h : (commit (nextAvailableJob queuePriority now) s).1 = .ok none) :
    ∀ row ∈ s.jobs, claimable s.concurrency now row = false := by
  have hempty := firstRow_none ((s.jobs.select (claimable s.concurrency now)).insertionSort
    (dispatchedBefore queuePriority)) (s := s) h
  intro row hrow
  by_contra hc
  have hmem : row ∈ (s.jobs.select (claimable s.concurrency now)).insertionSort
      (dispatchedBefore queuePriority) :=
    (mem_insertionSort _).mpr (Table.mem_select.mpr ⟨hrow, by simpa using hc⟩)
  rw [hempty] at hmem
  cases hmem

theorem nextScheduledJob_none (h : (commit (nextScheduledJob now) s).1 = .ok none) :
    ∀ row ∈ s.jobs, row.status = .queued → row.scheduledAtMs ≤ now := by
  have hempty := firstRow_none ((s.jobs.select fun row => row.status = .queued &&
    now < row.scheduledAtMs).insertionSort (dispatchedBefore fun _ => 0)) (s := s) h
  intro row hrow hq
  by_contra hlt
  have hmem : row ∈ (s.jobs.select fun row => row.status = .queued &&
      now < row.scheduledAtMs).insertionSort (dispatchedBefore fun _ => 0) :=
    (mem_insertionSort _).mpr (Table.mem_select.mpr ⟨hrow, by simpa [hq] using hlt⟩)
  rw [hempty] at hmem
  cases hmem

theorem nextScheduledJob_some {job : JobRow}
    (h : (commit (nextScheduledJob now) s).1 = .ok (some job)) :
    ∀ row ∈ s.jobs, row.status = .queued → now < row.scheduledAtMs →
      job.scheduledAtMs ≤ row.scheduledAtMs := by
  obtain ⟨first, rest, hrows, -, hat⟩ := firstRow_some ((s.jobs.select fun row =>
    row.status = .queued && now < row.scheduledAtMs).insertionSort (dispatchedBefore fun _ => 0))
    (s := s) h
  intro row hrow hq hlt
  have hsorted := pairwise_insertionSort (dispatchedBefore fun _ => 0)
    (s.jobs.select fun row => row.status = .queued && now < row.scheduledAtMs)
  have hmem : row ∈ (s.jobs.select fun row => row.status = .queued &&
      now < row.scheduledAtMs).insertionSort (dispatchedBefore fun _ => 0) :=
    (mem_insertionSort _).mpr (Table.mem_select.mpr ⟨hrow, by simpa [hq] using hlt⟩)
  rw [hrows] at hsorted hmem
  rw [hat]
  rcases mem_cons.mp hmem with rfl | hrest
  · exact le_rfl
  · rcases (pairwise_cons.mp hsorted).1 row hrest with h | ⟨-, h⟩
    · exact absurd h (lt_irrefl _)
    · omega

end Velocious.LocalStore
