/-
  The count deltas of the SQL background-jobs store.

  `Broadcasted` is the invariant: the broadcasts sent so far carry the
  revisions one to the stored revision, in order, and their deltas add up to
  the counts of the jobs table. It holds because every transaction records
  exactly the change its moves make to the counts.

  `counts_refine_deltas`: between any two snapshots of a run, the counts differ
  by the deltas of the revisions between them, each broadcast once.
-/
import Velocious.BackgroundJobs.Store.Leases

namespace Velocious

open Foundation List

def sumDeltas (broadcasts : List CountDelta) : CountDeltas := (broadcasts.map CountDelta.deltas).sum

@[simp] theorem sumDeltas_append (l l' : List CountDelta) :
    sumDeltas (l ++ l') = sumDeltas l + sumDeltas l' := by
  simp [sumDeltas]

/-- The broadcasts account for the counts. -/
structure Broadcasted (s : Db) : Prop where
  revision : s.countRevision = some (s.broadcasts.length : ℤ)
  revisions : s.broadcasts.map CountDelta.revision =
    (List.range s.broadcasts.length).map fun i : ℕ => (i : ℤ) + 1
  counts : jobCounts s.jobs = sumDeltas s.broadcasts

theorem broadcasted_empty : Broadcasted .empty := ⟨rfl, rfl, jobCounts_empty⟩

theorem Effect.broadcasted {s s' : Db} {es : List Event} (h : Effect s es s')
    (hs : Broadcasted s) : Broadcasted s' ∧ s.broadcasts <+: s'.broadcasts := by
  obtain ⟨t, -, hr, hb, hrec⟩ := h
  have hcounts : jobCounts t.jobs = sumDeltas s.broadcasts + (jobCounts t.jobs - jobCounts s.jobs) := by
    rw [← hs.counts]
    abel
  cases hrec with
  | none h0 =>
    refine ⟨⟨?_, ?_, ?_⟩, ?_⟩
    · rw [hr, hb, hs.revision]
    · rw [hb, hs.revisions]
    · rw [hcounts, h0, hb, add_zero]
    · rw [hb]
  | some revision _ hrev _ =>
    obtain rfl : (s.broadcasts.length : ℤ) = revision := by
      rw [hr, hs.revision] at hrev
      exact Option.some.inj hrev
    refine ⟨⟨?_, ?_, ?_⟩, ?_⟩
    · simp [hb]
    · simp [hb, range_succ, hs.revisions]
    · rw [sumDeltas_append, hb, show sumDeltas [⟨jobCounts t.jobs - jobCounts s.jobs, _⟩] =
        jobCounts t.jobs - jobCounts s.jobs by simp [sumDeltas]]
      exact hcounts
    · simp [hb]

theorem run_broadcasted (sha256 : String → String) (txs : List Tx) :
    ∀ {s : Db}, Broadcasted s →
      Broadcasted (run sha256 s txs) ∧ s.broadcasts <+: (run sha256 s txs).broadcasts := by
  induction txs with
  | nil => exact fun hs => ⟨hs, prefix_rfl⟩
  | cons tx txs ih =>
    intro s hs
    obtain ⟨h, hp⟩ := (exec_outcome sha256 tx s).broadcasted hs
    obtain ⟨h', hp'⟩ := ih h
    exact ⟨h', hp.trans hp'⟩

/-- The broadcasts with a revision after `r` and up to `r'`. -/
def deltasBetween (broadcasts : List CountDelta) (r r' : ℤ) : List CountDelta :=
  broadcasts.filter fun d => r < d.revision && d.revision ≤ r'

theorem Broadcasted.revision_mem {s : Db} (hs : Broadcasted s) {l m l' : List CountDelta}
    (hl : s.broadcasts = l ++ m ++ l') {d : CountDelta} (hd : d ∈ m) :
    (l.length : ℤ) < d.revision ∧ d.revision ≤ (l.length + m.length : ℤ) := by
  obtain ⟨m₁, m₂, rfl⟩ := append_of_mem hd
  have h := congrArg (fun revisions => revisions[(l ++ m₁).length]?) hs.revisions
  have hr : d.revision = (l.length + m₁.length : ℤ) + 1 := by simpa [hl] using h
  simp only [length_append, length_cons]
  omega

theorem Broadcasted.between {s : Db} (hs : Broadcasted s) {l new later : List CountDelta}
    (hl : s.broadcasts = l ++ new ++ later) :
    deltasBetween s.broadcasts l.length (l.length + new.length : ℤ) = new := by
  have hbefore : deltasBetween l l.length (l.length + new.length : ℤ) = [] := by
    refine filter_eq_nil_iff.mpr fun d hd => ?_
    obtain ⟨-, h⟩ := hs.revision_mem (l := []) (m := l) (by simpa using hl) hd
    simp only [Bool.and_eq_true, decide_eq_true_eq]
    rw [length_nil] at h
    omega
  have hnew : deltasBetween new l.length (l.length + new.length : ℤ) = new := by
    refine filter_eq_self.mpr fun d hd => ?_
    simpa using hs.revision_mem hl hd
  have hlater : deltasBetween later l.length (l.length + new.length : ℤ) = [] := by
    refine filter_eq_nil_iff.mpr fun d hd => ?_
    obtain ⟨h, -⟩ := @Broadcasted.revision_mem _ hs (l ++ new) later [] (by simpa using hl) d hd
    simp only [Bool.and_eq_true, decide_eq_true_eq]
    rw [length_append] at h
    omega
  rw [hl]
  simp only [deltasBetween, filter_append] at hbefore hnew hlater ⊢
  rw [hbefore, hnew, hlater]
  simp

theorem Broadcasted.once {s : Db} (hs : Broadcasted s) {r : ℤ} (h0 : 0 < r)
    (hr : r ≤ s.broadcasts.length) : s.broadcasts.countP (fun d => d.revision = r) = 1 := by
  have hc : s.broadcasts.countP (fun d => d.revision = r) =
      (s.broadcasts.map CountDelta.revision).count r := by
    rw [List.count, countP_map]
    exact countP_congr fun d _ => by simp
  rw [hc, hs.revisions]
  refine count_eq_one_of_mem ?_ ?_
  · exact nodup_range.map fun i j h => by simpa using h
  · refine mem_map.mpr ⟨(r - 1).toNat, ?_, ?_⟩
    · rw [mem_range]
      omega
    · omega

theorem snapshot_reads (sha256 : String → String) {s : Db} {snapshot : CountSnapshot}
    (h : (Tx.countSnapshot.exec sha256 s).1 = .ok (.snapshot snapshot)) :
    snapshot.counts = jobCounts s.jobs ∧ s.countRevision = some snapshot.revision := by
  have hb : Ensures (Answer.snapshot <$> countSnapshot) s fun answer _ =>
      ∀ snapshot, answer = .snapshot snapshot →
        snapshot.counts = jobCounts s.jobs ∧ s.countRevision = some snapshot.revision := by
    refine ensures_map.mpr ?_
    simp only [countSnapshot, ensures_serializedCountMutation]
    refine ensures_countSnapshotOnLockedConnection fun revision hr => ?_
    rintro _ ⟨⟩
    exact ⟨rfl, hr⟩
  rcases hb.commit with ⟨e, he⟩ | ⟨answer, s', hc, hQ⟩
  · change (commit (Answer.snapshot <$> countSnapshot) s).1 = _ at h
    rw [he] at h
    cases h
  · change (commit (Answer.snapshot <$> countSnapshot) s).1 = _ at h
    rw [hc] at h
    exact hQ snapshot (by simpa using h)

theorem counts_between {s₁ s₂ s : Db} (h₁ : Broadcasted s₁) (h₂ : Broadcasted s₂)
    (h : Broadcasted s) (hp₁ : s₁.broadcasts <+: s₂.broadcasts)
    (hp₂ : s₂.broadcasts <+: s.broadcasts) :
    jobCounts s₂.jobs = jobCounts s₁.jobs +
      sumDeltas (deltasBetween s.broadcasts s₁.broadcasts.length s₂.broadcasts.length) := by
  obtain ⟨new, hnew⟩ := hp₁
  obtain ⟨later, hlater⟩ := hp₂
  rw [← hnew] at hlater
  have hbetween := h.between hlater.symm
  have hlen : (s₁.broadcasts.length + new.length : ℤ) = s₂.broadcasts.length := by
    rw [← hnew]
    simp
  rw [hlen] at hbetween
  rw [h₂.counts, h₁.counts, hbetween, ← hnew, sumDeltas_append]

/-- **Deltas refine counts.** Take any run from the empty store and any two
    snapshots read in it. If the first has revision `r` and the second a
    revision `r' ≥ r`, the second's counts are the first's plus the deltas
    broadcast with the revisions after `r` up to `r'`, each of which is
    broadcast exactly once. -/
theorem counts_refine_deltas (sha256 : String → String) (txs pre pre' : List Tx)
    (hpre : pre <+: txs) (hpre' : pre' <+: txs) (snapshot snapshot' : CountSnapshot)
    (hread : (Tx.countSnapshot.exec sha256 (run sha256 .empty pre)).1 = .ok (.snapshot snapshot))
    (hread' : (Tx.countSnapshot.exec sha256 (run sha256 .empty pre')).1 =
      .ok (.snapshot snapshot'))
    (hle : snapshot.revision ≤ snapshot'.revision) :
    snapshot'.counts = snapshot.counts + sumDeltas
      (deltasBetween (run sha256 .empty txs).broadcasts snapshot.revision snapshot'.revision) ∧
    ∀ r, snapshot.revision < r → r ≤ snapshot'.revision →
      (run sha256 .empty txs).broadcasts.countP (fun d => d.revision = r) = 1 := by
  have hat : ∀ {p : List Tx}, p <+: txs → Broadcasted (run sha256 .empty p) ∧
      (run sha256 .empty p).broadcasts <+: (run sha256 .empty txs).broadcasts := by
    rintro p ⟨suf, rfl⟩
    obtain ⟨hp, -⟩ := run_broadcasted sha256 p broadcasted_empty
    rw [run_append]
    exact ⟨hp, (run_broadcasted sha256 suf hp).2⟩
  obtain ⟨hb, -⟩ := run_broadcasted sha256 txs broadcasted_empty
  obtain ⟨h₁, hp₁⟩ := hat hpre
  obtain ⟨h₂, hp₂⟩ := hat hpre'
  obtain ⟨hc₁, hr₁⟩ := snapshot_reads sha256 hread
  obtain ⟨hc₂, hr₂⟩ := snapshot_reads sha256 hread'
  rw [h₁.revision, Option.some.injEq] at hr₁
  rw [h₂.revision, Option.some.injEq] at hr₂
  have hlen : (run sha256 .empty pre).broadcasts.length ≤
      (run sha256 .empty pre').broadcasts.length := by omega
  have hp : (run sha256 .empty pre).broadcasts <+: (run sha256 .empty pre').broadcasts :=
    prefix_of_prefix_length_le hp₁ hp₂ hlen
  refine ⟨?_, fun r hr hr' => hb.once (by omega) ?_⟩
  · rw [hc₁, hc₂, ← hr₁, ← hr₂]
    exact counts_between h₁ h₂ hb hp hp₂
  · have := hp₂.length_le
    omega

/-- Two snapshots around one enqueue. -/
theorem counts_refine_deltas_enqueue :
    let s := run id .empty [.enqueue ⟨"job", [], {}, "1", 0, []⟩ fun _ => 0]
    jobCounts s.jobs = 0 + sumDeltas (deltasBetween s.broadcasts 0 1) ∧
      ∀ r, 0 < r → r ≤ 1 → s.broadcasts.countP (fun d => d.revision = r) = 1 :=
  counts_refine_deltas id _ [] _ nil_prefix prefix_rfl ⟨0, 0, 0⟩ ⟨_, 1, 1⟩ rfl rfl
    (by decide)

end Velocious
