/-
  What a pull from a model change feed applies.

  `Reads` is what holds of the rows applied and the cursor whenever a request has been
  answered: each row of the table is applied or lies above the cursor. An upsert keeps
  it, since its sequence is fresh, and so does a page, since it is a prefix of the rows
  above the cursor. `pull_feeds_iff` says when all of a pull's pages are read.
-/
import Velocious.Sync.ModelChangeFeed

namespace Velocious

open Foundation List

variable {β : Type}

namespace FeedTable

variable {table later : FeedTable β}

theorem Upserts.le (h : Upserts table later) {r : FeedRow β} (hr : r ∈ table.rows) :
    ∃ r' ∈ later.rows, r.serverSequence ≤ r'.serverSequence := by
  induction h with
  | none => exact ⟨r, hr, Nat.le_refl _⟩
  | more row fresh _ ih =>
    obtain ⟨r', hr', hle⟩ := ih
    exact ⟨row, mem_cons_self, hle.trans (fresh r' hr').le⟩

theorem Upserts.mem (h : Upserts table later) {row : FeedRow β} (hrow : row ∈ later.rows) :
    row ∈ table.rows ∨ ∀ r ∈ table.rows, r.serverSequence < row.serverSequence := by
  induction h with
  | none => exact .inl hrow
  | more new fresh h ih =>
    rcases mem_cons.mp hrow with rfl | hold
    · right
      intro r hr
      obtain ⟨r', hr', hle⟩ := h.le hr
      exact hle.trans_lt (fresh r' hr')
    · exact ih (mem_of_mem_filter hold)

end FeedTable

namespace ChangesPull

variable (pull : ChangesPull β) {table later : FeedTable β} {after start : Option SyncCursor}
  {bound last row : FeedRow β} {applied : List (FeedRow β)}

/-! ## Requests -/

def rowCursor (row : FeedRow β) : SyncCursor :=
  ⟨some row.id, some row.serverSequence, row.updatedAt⟩

/-- The rows of the scope above a cursor, up to a bound. -/
def rowsAfter (table : FeedTable β) (after : Option SyncCursor) (bound : FeedRow β) :
    List (FeedRow β) :=
  sortByKey FeedRow.serverSequence
    (((pull.service.scopedQuery table).filter (·.serverSequence ≤ bound.serverSequence)).filter
      (pull.above after))

theorem above_rowCursor : pull.above (some (rowCursor last)) row = true ↔
    last.serverSequence < row.serverSequence := by
  have hpositive := last.positive
  have hfilter : (some last.serverSequence).filter (· ≠ 0) = some last.serverSequence := by
    simp
    omega
  simp only [above, rowCursor, hfilter, decide_eq_true_eq]

theorem mem_rowsAfter : row ∈ pull.rowsAfter table after bound ↔
    row ∈ table.rows ∧ pull.service.inScope row = true ∧
      row.serverSequence ≤ bound.serverSequence ∧ pull.above after row = true := by
  simp only [rowsAfter, SyncModelChangeFeedService.scopedQuery, mem_sortByKey, mem_filter,
    decide_eq_true_eq, and_assoc]

theorem rowsAfter_pairwise (table : FeedTable β) (after : Option SyncCursor) (bound : FeedRow β) :
    (pull.rowsAfter table after bound).Pairwise fun a b => a.serverSequence < b.serverSequence :=
  sortByKey_pairwise (((table.sequences.filter _).filter _).filter _)

theorem syncCursorFromPayload_row (hinteger : ∀ n, pull.optionalInteger n = some n)
    (row : FeedRow β) :
    pull.syncCursorFromPayload (some (SyncModelChangeFeedService.cursorForRecord row)) =
      some (rowCursor row) := by
  simp [syncCursorFromPayload, SyncModelChangeFeedService.cursorForRecord, row.dated, hinteger,
    rowCursor]

def SafeCursor (cursor : Option SyncCursor) : Prop :=
  ∀ c ∈ cursor, ∀ n ∈ c.serverSequence, isSafeInteger n = true

theorem safeCursor_row (row : FeedRow β) : SafeCursor (some (rowCursor row)) := by
  rintro _ ⟨⟩ _ ⟨⟩
  exact row.safe

theorem optionalPositiveIntegerParam_some {n : ℕ} (hsafe : isSafeInteger n = true) (hn : n ≠ 0)
    (name : String) :
    SyncModelChangeFeedService.optionalPositiveIntegerParam (some n) name = .ok (some n) := by
  simp only [SyncModelChangeFeedService.optionalPositiveIntegerParam, hsafe, hn]
  rfl

theorem above_sequence {c : SyncCursor} {n : ℕ}
    (h : c.serverSequence.filter (· ≠ 0) = some n) :
    pull.above (some c) = fun row => decide (n < row.serverSequence) := by
  funext row
  simp only [above, h]

theorem above_legacy {c : SyncCursor} (h : c.serverSequence.filter (· ≠ 0) = none) :
    pull.above (some c) =
      fun row => c.updatedAt = "" || pull.service.updatedAtFrom row c.updatedAt := by
  funext row
  simp only [above, h]

variable {limit : Option ℕ}

theorem cursorFilteredQuery_eq (hsafe : SafeCursor after) {upTo : CursorParams}
    (hupTo : upTo = cursorPayload none ∨ ∃ last : FeedRow β, after = some (rowCursor last)) :
    pull.service.cursorFilteredQuery table ⟨limit, cursorPayload after, upTo⟩
        (SyncModelChangeFeedService.cursorForRecord bound) =
      .ok (((pull.service.scopedQuery table).filter
        (·.serverSequence ≤ bound.serverSequence)).filter (pull.above after)) := by
  cases after with
  | none => rfl
  | some c =>
    unfold SyncModelChangeFeedService.cursorFilteredQuery
    cases hsequence : c.serverSequence.filter (· ≠ 0) with
    | some n =>
      obtain ⟨hn, hne⟩ := Option.filter_eq_some_iff.mp hsequence
      have hparam := optionalPositiveIntegerParam_some (hsafe c rfl n hn) (by simpa using hne)
        "afterServerSequence"
      simp only [cursorPayload, hsequence, hparam, pull.above_sequence hsequence]
      rfl
    | none =>
      rcases hupTo with rfl | ⟨last, hlast⟩
      · simp only [cursorPayload, hsequence, pull.above_legacy hsequence]
        refine congrArg Except.ok (filter_congr fun row _ => ?_)
        by_cases hempty : c.updatedAt = ""
        · rw [hempty]
          rfl
        · have hdate : orNull (some c.updatedAt) = some c.updatedAt :=
            orNull_eq_some.mpr ⟨rfl, hempty⟩
          simp only [SyncModelChangeFeedService.updatedAtFilter, hdate, hempty]
          rfl
      · cases hlast
        have hpositive := last.positive
        simp [rowCursor] at hsequence
        omega

theorem resolveUpToCursor_none {params : CursorParams} :
    pull.service.resolveUpToCursor table ⟨limit, params, cursorPayload none⟩ =
      .ok ((pull.service.latestRecord table).map SyncModelChangeFeedService.cursorForRecord) :=
  rfl

theorem resolveUpToCursor_row {params : CursorParams} :
    pull.service.resolveUpToCursor table ⟨limit, params, cursorPayload (some (rowCursor bound))⟩ =
      .ok (some (SyncModelChangeFeedService.cursorForRecord bound)) := by
  have hpositive := bound.positive
  have hfilter : (some bound.serverSequence).filter (· ≠ 0) = some bound.serverSequence := by
    simp
    omega
  have hparam := optionalPositiveIntegerParam_some bound.safe (by omega) "upToServerSequence"
  simp only [SyncModelChangeFeedService.resolveUpToCursor, cursorPayload, rowCursor, hfilter,
    hparam]
  rfl

theorem normalizedBatchSize_pos : 0 < pull.normalizedBatchSize := by
  unfold normalizedBatchSize
  split
  · split <;> omega
  · omega

theorem normalizedLimit_eq (hbatch : isSafeInteger pull.normalizedBatchSize = true) :
    pull.service.normalizedLimit (some pull.normalizedBatchSize) =
      .ok (min pull.normalizedBatchSize pull.service.maxLimit) := by
  have hpositive := pull.normalizedBatchSize_pos
  have hne : pull.normalizedBatchSize ≠ 0 := by omega
  simp only [SyncModelChangeFeedService.normalizedLimit, hbatch, hne]
  rfl

def page (table : FeedTable β) (after : Option SyncCursor) (bound : FeedRow β) :
    List (FeedRow β) :=
  (pull.rowsAfter table after bound).take (min pull.normalizedBatchSize pull.service.maxLimit)

variable {s : PullState β}

theorem changesPage_eq (hbatch : isSafeInteger pull.normalizedBatchSize = true)
    (hsafe : SafeCursor s.afterCursor)
    (hbound : (s.upToCursor = none ∧ pull.service.latestRecord table = some bound) ∨
      (s.upToCursor = some (rowCursor bound) ∧
        ∃ last : FeedRow β, s.afterCursor = some (rowCursor last))) :
    ∃ total, pull.changesPage table s =
      .ok ⟨some (((pull.page table s.afterCursor bound).getLast?.map
          SyncModelChangeFeedService.cursorForRecord).getD
            (SyncModelChangeFeedService.cursorForRecord bound)),
        pull.page table s.afterCursor bound, total,
        some (SyncModelChangeFeedService.cursorForRecord bound)⟩ := by
  have hquery : pull.service.cursorFilteredQuery table ⟨some pull.normalizedBatchSize,
      cursorPayload s.afterCursor, cursorPayload s.upToCursor⟩
      (SyncModelChangeFeedService.cursorForRecord bound) = .ok _ :=
    pull.cursorFilteredQuery_eq hsafe (hbound.imp (fun h => by rw [h.1]) fun h => h.2)
  have hresolve : pull.service.resolveUpToCursor table ⟨some pull.normalizedBatchSize,
      cursorPayload s.afterCursor, cursorPayload s.upToCursor⟩ =
        .ok (some (SyncModelChangeFeedService.cursorForRecord bound)) := by
    rcases hbound with ⟨hnone, hlatest⟩ | ⟨hsome, -⟩
    · rw [hnone, resolveUpToCursor_none, hlatest]
      rfl
    · rw [hsome, resolveUpToCursor_row]
  obtain ⟨total, htotal⟩ : ∃ total, pull.service.totalPendingChanges table
      ⟨some pull.normalizedBatchSize, cursorPayload s.afterCursor, cursorPayload s.upToCursor⟩
      (SyncModelChangeFeedService.cursorForRecord bound) = .ok total := by
    rw [SyncModelChangeFeedService.totalPendingChanges, hquery]
    exact ⟨_, rfl⟩
  refine ⟨total, ?_⟩
  simp only [changesPage, SyncModelChangeFeedService.changes, pull.normalizedLimit_eq hbatch,
    hresolve, SyncModelChangeFeedService.pageQuery, bind, Except.bind, htotal, hquery]
  rfl

variable {pull}

/-- What holds whenever a request has been answered, of a start and a present cursor. -/
structure Reads (pull : ChangesPull β) (start : Option SyncCursor) (table : FeedTable β)
    (applied : List (FeedRow β)) (after : Option SyncCursor) : Prop where
  rows : ∀ row ∈ table.rows, pull.service.inScope row = true → pull.above start row = true →
    row ∈ applied ∨ pull.above after row = true
  increasing : applied.Pairwise fun a b => a.serverSequence < b.serverSequence
  /-- what lies above the cursor lies above every row applied -/
  passed : ∀ a ∈ applied, ∀ row, pull.above after row = true →
    a.serverSequence < row.serverSequence
  /-- the cursor is the first one, or that of a row that there was -/
  reached : after = start ∨ ∃ last : FeedRow β, after = some (rowCursor last) ∧
    ∃ r ∈ table.rows, last.serverSequence ≤ r.serverSequence

theorem Reads.first (pull : ChangesPull β) (start : Option SyncCursor) (table : FeedTable β) :
    pull.Reads start table [] start where
  rows _ _ _ h := .inr h
  increasing := List.Pairwise.nil
  passed _ h := absurd h not_mem_nil
  reached := .inl rfl

section
variable (h : pull.Reads start table applied after)
include h

theorem Reads.upserts (hlater : FeedTable.Upserts table later) : pull.Reads start later applied after := by
  refine ⟨fun row hrow hscope hstart => ?_, h.increasing, h.passed, ?_⟩
  · rcases hlater.mem hrow with hold | hfresh
    · exact h.rows row hold hscope hstart
    · right
      rcases h.reached with rfl | ⟨last, rfl, r, hr, hle⟩
      · exact hstart
      · exact pull.above_rowCursor.mpr (hle.trans_lt (hfresh r hr))
  · rcases h.reached with hstart | ⟨last, hlast, r, hr, hle⟩
    · exact .inl hstart
    · obtain ⟨r', hr', hle'⟩ := hlater.le hr
      exact .inr ⟨last, hlast, r', hr', hle.trans hle'⟩

theorem Reads.page (hlast : (pull.page table after bound).getLast? = some last) :
    pull.Reads start table (applied ++ pull.page table after bound) (some (rowCursor last)) := by
  have hsorted := pull.rowsAfter_pairwise table after bound
  have hsub : ∀ row ∈ pull.page table after bound, row ∈ pull.rowsAfter table after bound :=
    fun row hrow => mem_of_mem_take hrow
  have hpage : (pull.page table after bound).Pairwise
      fun a b => a.serverSequence < b.serverSequence := hsorted.take
  have hlastmem := pull.mem_rowsAfter.mp (hsub last (mem_of_getLast? hlast))
  refine ⟨fun row hrow hscope hstart => ?_, ?_, fun a ha row hrow => ?_, ?_⟩
  · rcases h.rows row hrow hscope hstart with hdone | habove
    · exact .inl (mem_append_left _ hdone)
    · rcases Nat.lt_or_ge last.serverSequence row.serverSequence with hlt | hge
      · exact .inr (pull.above_rowCursor.mpr hlt)
      · have hmem : row ∈ pull.rowsAfter table after bound :=
          pull.mem_rowsAfter.mpr ⟨hrow, hscope, hge.trans hlastmem.2.2.1, habove⟩
        exact .inl (mem_append_right _ (mem_take_of_le hsorted hlast hmem hge))
  · refine pairwise_append.mpr ⟨h.increasing, hpage, fun a ha row hrow => ?_⟩
    exact h.passed a ha row (pull.mem_rowsAfter.mp (hsub row hrow)).2.2.2
  · have hrow' := pull.above_rowCursor.mp hrow
    rcases mem_append.mp ha with ha | ha
    · exact (h.passed a ha last hlastmem.2.2.2).trans hrow'
    · exact (key_le_getLast hpage hlast ha).trans_lt hrow'
  · exact .inr ⟨last, rfl, last, hlastmem.1, Nat.le_refl _⟩

theorem Reads.whole (hwhole : pull.page table after bound = pull.rowsAfter table after bound)
    (hrow : row ∈ table.rows) (hscope : pull.service.inScope row = true)
    (hstart : pull.above start row = true) (hle : row.serverSequence ≤ bound.serverSequence) :
    row ∈ applied ++ pull.page table after bound := by
  rcases h.rows row hrow hscope hstart with hdone | habove
  · exact mem_append_left _ hdone
  · rw [hwhole]
    exact mem_append_right _ (pull.mem_rowsAfter.mpr ⟨hrow, hscope, hle, habove⟩)

end

theorem Reads.feeds {tables : ℕ → FeedTable β} {result : PullResult β} (i : ℕ)
    (h : pull.Reads start (tables i) result.applied result.saved)
    (hrequests : result.requests = i + 1)
    (hlatest : pull.service.latestRecord (tables 0) = some bound)
    (hdone : ∀ row ∈ (tables i).rows, pull.service.inScope row = true →
      pull.above start row = true → row.serverSequence ≤ bound.serverSequence →
        row ∈ result.applied) :
    pull.Feeds tables start result := by
  refine ⟨h.increasing, fun row hrow hscope hstart hbound => ?_, fun later hlater => ?_⟩
  · obtain ⟨latest, hlatest', hle⟩ := hbound
    cases hlatest.symm.trans hlatest'
    exact hdone row (hrow i (by omega)) hscope hstart hle
  · rw [hrequests] at hlater
    exact (h.upserts hlater).rows

/-! ## Runs -/

/-- The pull ends, and does what is asked of it. -/
def Completes (pull : ChangesPull β) (tables : ℕ → FeedTable β) (start : Option SyncCursor)
    (s : PullState β) : Prop :=
  ∃ fuel result, pull.pullLoop tables fuel s = some (.ok result) ∧ pull.Feeds tables start result

variable {tables : ℕ → FeedTable β}

theorem pullLoop_succ {fuel : ℕ} {response : ChangesResponse β}
    (hpage : pull.changesPage (tables s.requests) s = .ok response) :
    pull.pullLoop tables (fuel + 1) s =
      if response.syncs.isEmpty then some (.ok (finish (pull.receive s response)))
      else if response.syncs.length < pull.normalizedBatchSize then
        some (.ok (finish (pull.applyPage (pull.receive s response) response)))
      else pull.pullLoop tables fuel (pull.applyPage (pull.receive s response) response) := by
  rw [pullLoop, hpage]

theorem turn (hinteger : ∀ n, pull.optionalInteger n = some n)
    (hlatest : pull.service.latestRecord (tables 0) = some bound)
    (hbatch : isSafeInteger pull.normalizedBatchSize = true) (hsafe : SafeCursor s.afterCursor)
    (hbound : (s.upToCursor = none ∧
        pull.service.latestRecord (tables s.requests) = some bound) ∨
      (s.upToCursor = some (rowCursor bound) ∧
        ∃ last : FeedRow β, s.afterCursor = some (rowCursor last)))
    (hreads : pull.Reads start (tables s.requests) s.applied s.afterCursor)
    (hwhole : (pull.page (tables s.requests) s.afterCursor bound).length <
        pull.normalizedBatchSize →
      pull.page (tables s.requests) s.afterCursor bound =
        pull.rowsAfter (tables s.requests) s.afterCursor bound) :
    pull.Completes tables start s ∨
      (pull.normalizedBatchSize ≤ (pull.page (tables s.requests) s.afterCursor bound).length ∧
        ∃ (last : FeedRow β) (s' : PullState β),
          last ∈ pull.rowsAfter (tables s.requests) s.afterCursor bound ∧
          s'.upToCursor = some (rowCursor bound) ∧ s'.afterCursor = some (rowCursor last) ∧
          s'.requests = s.requests + 1 ∧
          pull.Reads start (tables s.requests) s'.applied s'.afterCursor ∧
          ∀ fuel, pull.pullLoop tables (fuel + 1) s = pull.pullLoop tables fuel s') := by
  obtain ⟨total, hpage⟩ := pull.changesPage_eq hbatch hsafe hbound
  have hpositive := pull.normalizedBatchSize_pos
  cases hlast : (pull.page (tables s.requests) s.afterCursor bound).getLast? with
  | none =>
    have hempty := getLast?_eq_none_iff.mp hlast
    refine .inl ⟨1, _, (pullLoop_succ hpage).trans (if_pos ?_), ?_⟩
    · simp [hempty]
    · refine Reads.feeds s.requests hreads rfl hlatest fun row hrow hscope hstart hle => ?_
      have hmem := hreads.whole (hwhole (by simp [hempty, hpositive])) hrow hscope hstart hle
      rw [hempty, append_nil] at hmem
      exact hmem
  | some last =>
    have hmem := mem_of_getLast? hlast
    have hempty : ¬ (pull.page (tables s.requests) s.afterCursor bound).isEmpty = true := by
      rw [List.isEmpty_iff]
      exact ne_nil_of_mem hmem
    have hread := hreads.page hlast
    rw [hlast] at hpage
    have hafter := pull.syncCursorFromPayload_row hinteger last
    by_cases hshort : (pull.page (tables s.requests) s.afterCursor bound).length <
        pull.normalizedBatchSize
    · refine .inl ⟨1, _, (pullLoop_succ hpage).trans ((if_neg hempty).trans (if_pos hshort)), ?_⟩
      refine Reads.feeds s.requests ?_ rfl hlatest fun row hrow hscope hstart hle =>
        hreads.whole (hwhole hshort) hrow hscope hstart hle
      rw [← hafter] at hread
      exact hread
    · refine .inr ⟨Nat.le_of_not_lt hshort, last, _, mem_of_mem_take hmem, ?_, hafter, rfl, ?_,
        fun fuel => (pullLoop_succ hpage).trans ((if_neg hempty).trans (if_neg hshort))⟩
      · rcases hbound with ⟨hnone, -⟩ | ⟨hsome, -⟩
        · show s.upToCursor.or _ = _
          rw [hnone, Option.none_or, pull.syncCursorFromPayload_row hinteger]
        · show s.upToCursor.or _ = _
          rw [hsome, Option.some_or]
      · rw [← hafter] at hread
        exact hread

theorem page_whole (hle : pull.normalizedBatchSize ≤ pull.service.maxLimit)
    (hshort : (pull.page table after bound).length < pull.normalizedBatchSize) :
    pull.page table after bound = pull.rowsAfter table after bound := by
  rw [ChangesPull.page, Nat.min_eq_left hle] at hshort ⊢
  exact take_eq_of_length_lt hshort

theorem completes_of_row (hinteger : ∀ n, pull.optionalInteger n = some n)
    (htables : ∀ i, FeedTable.Upserts (tables i) (tables (i + 1)))
    (hlatest : pull.service.latestRecord (tables 0) = some bound)
    (hbatch : isSafeInteger pull.normalizedBatchSize = true)
    (hle : pull.normalizedBatchSize ≤ pull.service.maxLimit) (distance : ℕ) :
    ∀ {s : PullState β} {last : FeedRow β}, s.upToCursor = some (rowCursor bound) →
      s.afterCursor = some (rowCursor last) →
      pull.Reads start (tables s.requests) s.applied s.afterCursor →
      bound.serverSequence - last.serverSequence ≤ distance → pull.Completes tables start s := by
  induction distance with
  | zero =>
    intro s last hupTo hafter hreads hdistance
    have hsafe : SafeCursor s.afterCursor := hafter ▸ safeCursor_row last
    rcases turn hinteger hlatest hbatch hsafe (.inr ⟨hupTo, last, hafter⟩) hreads
      (page_whole hle) with hdone | ⟨-, next, s', hnext, -⟩
    · exact hdone
    · obtain ⟨-, -, hbound, habove⟩ := pull.mem_rowsAfter.mp hnext
      rw [hafter] at habove
      have := pull.above_rowCursor.mp habove
      omega
  | succ distance ih =>
    intro s last hupTo hafter hreads hdistance
    have hsafe : SafeCursor s.afterCursor := hafter ▸ safeCursor_row last
    rcases turn hinteger hlatest hbatch hsafe (.inr ⟨hupTo, last, hafter⟩) hreads
      (page_whole hle) with hdone | ⟨-, next, s', hnext, hupTo', hafter', hrequests, hreads', hloop⟩
    · exact hdone
    · obtain ⟨-, -, hbound, habove⟩ := pull.mem_rowsAfter.mp hnext
      rw [hafter] at habove
      have hlt := pull.above_rowCursor.mp habove
      have hnextreads := hreads'.upserts (htables s.requests)
      rw [← hrequests] at hnextreads
      obtain ⟨fuel, result, hrun, hfeeds⟩ := ih hupTo' hafter' hnextreads (by omega)
      exact ⟨fuel + 1, result, (hloop fuel).trans hrun, hfeeds⟩

def initialState (start : Option SyncCursor) : PullState β := ⟨start, none, 0, 0, 0, 0, []⟩

theorem completes_of_no_rows (hnone : pull.service.latestRecord (tables 0) = none)
    (hbatch : isSafeInteger pull.normalizedBatchSize = true) :
    pull.Completes tables start (initialState start) := by
  have hpage : pull.changesPage (tables 0) (initialState start) = .ok ⟨none, [], 0, none⟩ := by
    simp only [changesPage, SyncModelChangeFeedService.changes, pull.normalizedLimit_eq hbatch,
      initialState, resolveUpToCursor_none, hnone]
    rfl
  refine ⟨1, _, (pullLoop_succ hpage).trans (if_pos rfl), ?_⟩
  refine ⟨List.Pairwise.nil, fun row _ _ _ hbound => ?_, fun later _ row _ _ hstart => .inr hstart⟩
  obtain ⟨latest, hlatest, -⟩ := hbound
  rw [hnone] at hlatest
  cases hlatest

theorem rowsAfter_length (hlatest : pull.service.latestRecord table = some bound) :
    (pull.rowsAfter table start bound).length = (pull.pending table start).length := by
  have hscope : (pull.service.scopedQuery table).filter
      (·.serverSequence ≤ bound.serverSequence) = pull.service.scopedQuery table := by
    refine filter_eq_self.mpr fun row hrow => decide_eq_true ?_
    exact key_le_getLast (sortByKey_pairwise (table.sequences.filter _)) hlatest
      (mem_sortByKey.mpr hrow)
  rw [rowsAfter, length_sortByKey, hscope, pending]

theorem completes (hinteger : ∀ n, pull.optionalInteger n = some n)
    (htables : ∀ i, FeedTable.Upserts (tables i) (tables (i + 1)))
    (hcovers : pull.Covers (tables 0) start) :
    pull.Completes tables start (initialState start) := by
  cases hlatest : pull.service.latestRecord (tables 0) with
  | none => exact completes_of_no_rows hlatest hcovers.batch
  | some bound =>
    have hsafe : SafeCursor start := hcovers.sequence.resolve_left (by simp [hlatest])
    have hreads := Reads.first pull start (tables 0)
    by_cases hle : pull.normalizedBatchSize ≤ pull.service.maxLimit
    · rcases turn (s := initialState start) hinteger hlatest hcovers.batch hsafe
        (.inl ⟨rfl, hlatest⟩) hreads (page_whole hle) with
        hdone | ⟨-, next, s', -, hupTo', hafter', hrequests, hreads', hloop⟩
      · exact hdone
      · have hnextreads := hreads'.upserts (htables 0)
        rw [show 0 + 1 = s'.requests from hrequests.symm] at hnextreads
        obtain ⟨fuel, result, hrun, hfeeds⟩ := completes_of_row hinteger htables hlatest
          hcovers.batch hle _ hupTo' hafter' hnextreads (Nat.le_refl _)
        exact ⟨fuel + 1, result, (hloop fuel).trans hrun, hfeeds⟩
    · have hpending := hcovers.pages.resolve_left hle
      have hpage : pull.page (tables 0) start bound = pull.rowsAfter (tables 0) start bound := by
        refine take_of_length_le ?_
        rw [rowsAfter_length hlatest]
        omega
      rcases turn (s := initialState start) hinteger hlatest hcovers.batch hsafe
        (.inl ⟨rfl, hlatest⟩) hreads (fun _ => hpage) with hdone | ⟨hfull, -⟩
      · exact hdone
      · have hlength : (pull.page (tables 0) start bound).length ≤ pull.service.maxLimit := by
          rw [hpage, rowsAfter_length hlatest]
          exact hpending
        exact absurd (hfull.trans hlength) hle

/-! ## Pulls that fall short -/

theorem not_completes_of_error {message : String}
    (hpage : pull.changesPage (tables s.requests) s = .error message) :
    ¬ pull.Completes tables start s := by
  rintro ⟨fuel, result, hrun, -⟩
  cases fuel with
  | zero => cases hrun
  | succ fuel =>
    rw [pullLoop, hpage] at hrun
    cases hrun

theorem Completes.batch (h : pull.Completes tables start (initialState start)) :
    isSafeInteger pull.normalizedBatchSize = true := by
  by_contra hbatch
  have hlimit : pull.service.normalizedLimit (some pull.normalizedBatchSize) =
      .error "Sync changes limit must be a positive integer." := by
    simp only [SyncModelChangeFeedService.normalizedLimit, Bool.eq_false_of_not_eq_true hbatch]
    rfl
  have hpage : pull.changesPage (tables 0) (initialState start) =
      .error "Sync changes limit must be a positive integer." := by
    simp only [changesPage, SyncModelChangeFeedService.changes, hlimit]
    rfl
  exact not_completes_of_error hpage h

theorem Completes.sequence (h : pull.Completes tables start (initialState start)) :
    pull.service.latestRecord (tables 0) = none ∨ SafeCursor start := by
  cases hlatest : pull.service.latestRecord (tables 0) with
  | none => exact .inl rfl
  | some bound =>
    right
    rintro c hc n hn
    obtain rfl : start = some c := hc
    by_contra hunsafe
    have hunsafe' : isSafeInteger n = false := Bool.eq_false_of_not_eq_true hunsafe
    have hfilter : c.serverSequence.filter (· ≠ 0) = some n := by
      refine Option.filter_eq_some_iff.mpr ⟨hn, ?_⟩
      rw [decide_eq_true_eq]
      rintro rfl
      exact hunsafe (by decide)
    have hparam : SyncModelChangeFeedService.optionalPositiveIntegerParam (some n)
        "afterServerSequence" = .error "afterServerSequence must be a positive integer." := by
      simp only [SyncModelChangeFeedService.optionalPositiveIntegerParam, hunsafe']
      rfl
    have hresolve : pull.service.resolveUpToCursor (tables 0) ⟨some pull.normalizedBatchSize,
        ⟨c.id, some n, some c.updatedAt⟩, ⟨none, none, none⟩⟩ = .ok _ :=
      pull.resolveUpToCursor_none
    have hpage : pull.changesPage (tables 0) (initialState (some c)) =
        .error "afterServerSequence must be a positive integer." := by
      simp only [changesPage, SyncModelChangeFeedService.changes, initialState,
        pull.normalizedLimit_eq h.batch, cursorPayload, hfilter, hresolve, hlatest,
        SyncModelChangeFeedService.totalPendingChanges,
        SyncModelChangeFeedService.cursorFilteredQuery, hparam]
      rfl
    exact not_completes_of_error hpage h

theorem run_of_short {fuel : ℕ} {result : PullResult β}
    (hlatest : pull.service.latestRecord (tables 0) = some bound)
    (hbatch : isSafeInteger pull.normalizedBatchSize = true) (hsafe : SafeCursor start)
    (hshort : (pull.page (tables 0) start bound).length < pull.normalizedBatchSize)
    (hrun : pull.pullLoop tables fuel (initialState start) = some (.ok result)) :
    result.requests = 1 ∧ result.applied = pull.page (tables 0) start bound := by
  obtain ⟨total, hpage⟩ := pull.changesPage_eq (s := initialState start) hbatch hsafe
    (.inl ⟨rfl, hlatest⟩)
  cases fuel with
  | zero => cases hrun
  | succ fuel =>
    rw [pullLoop_succ hpage] at hrun
    split at hrun
    · rename_i hempty
      have hnil : pull.page (tables 0) start bound = [] := isEmpty_iff.mp hempty
      cases hrun
      exact ⟨rfl, hnil.symm⟩
    · split at hrun
      · cases hrun
        exact ⟨rfl, rfl⟩
      · rename_i hfull
        exact absurd hshort hfull

theorem Completes.pages (h : pull.Completes tables start (initialState start)) :
    pull.normalizedBatchSize ≤ pull.service.maxLimit ∨
      (pull.pending (tables 0) start).length ≤ pull.service.maxLimit := by
  by_contra hneither
  obtain ⟨hle, hpending⟩ := not_or.mp hneither
  cases hlatest : pull.service.latestRecord (tables 0) with
  | none =>
    have hempty : pull.service.scopedQuery (tables 0) = [] := by
      have hnil := getLast?_eq_none_iff.mp hlatest
      rw [← length_eq_zero_iff, length_sortByKey, length_eq_zero_iff] at hnil
      exact hnil
    simp [pending, hempty] at hpending
  | some bound =>
    have hsafe : SafeCursor start := h.sequence.resolve_left (by simp [hlatest])
    have hlength : (pull.page (tables 0) start bound).length ≤ pull.service.maxLimit :=
      (length_take_le _ _).trans (Nat.min_le_right _ _)
    have hbatch := h.batch
    obtain ⟨fuel, result, hrun, hfeeds⟩ := h
    obtain ⟨hrequests, happlied⟩ := run_of_short hlatest hbatch hsafe (by omega) hrun
    have hsub : pull.rowsAfter (tables 0) start bound ⊆ result.applied := by
      intro row hrow
      obtain ⟨hmem, hscope, hbound, habove⟩ := pull.mem_rowsAfter.mp hrow
      refine hfeeds.complete row (fun i hi => ?_) hscope habove ⟨bound, hlatest, hbound⟩
      rw [hrequests] at hi
      rwa [Nat.lt_one_iff.mp hi]
    have hnodup : (pull.rowsAfter (tables 0) start bound).Nodup :=
      (pull.rowsAfter_pairwise _ _ _).imp fun hlt heq => (heq ▸ hlt).false
    have hall := (hnodup.subperm hsub).length_le
    rw [rowsAfter_length hlatest, happlied] at hall
    exact hpending (hall.trans hlength)

/-- **A pull does what is asked of it exactly if its batch is no longer than the server's
    pages, or the server has only one page for it.** -/
theorem pull_feeds_iff (pull : ChangesPull β) (hinteger : ∀ n, pull.optionalInteger n = some n)
    (tables : ℕ → FeedTable β) (htables : ∀ i, FeedTable.Upserts (tables i) (tables (i + 1)))
    (start : Option SyncCursor) :
    (∃ fuel result, pull.pullChanges tables start fuel = some (.ok result) ∧
        pull.Feeds tables start result) ↔ pull.Covers (tables 0) start := by
  constructor
  · intro h
    have hcompletes : pull.Completes tables start (initialState start) := h
    exact ⟨hcompletes.batch, hcompletes.sequence, hcompletes.pages⟩
  · exact fun h => completes hinteger htables h

def threeRows : FeedTable Unit where
  rows := [⟨"a", 1, "2026-01-01", (), by decide, by decide, by decide⟩,
    ⟨"b", 2, "2026-01-01", (), by decide, by decide, by decide⟩,
    ⟨"c", 3, "2026-01-01", (), by decide, by decide, by decide⟩]
  sequences := by decide

def pullOfTwo (maxLimit : ℕ) : ChangesPull Unit where
  service := ⟨1000, maxLimit, fun _ => true, fun _ _ => true, fun _ _ => true, fun _ _ => true,
    fun _ _ => true⟩
  batchSize := some (.int 2)
  optionalInteger := some

theorem pull_feeds_iff_two : ∃ fuel result,
    (pullOfTwo 2).pullChanges (fun _ => threeRows) none fuel = some (.ok result) ∧
      (pullOfTwo 2).Feeds (fun _ => threeRows) none result :=
  (pull_feeds_iff (pullOfTwo 2) (fun _ => rfl) (fun _ => threeRows) (fun _ => .none _) none).mpr
    ⟨by decide, .inr (by simp), .inl (by decide)⟩

/-- The first page of a server that sends one row at a time ends the pull. -/
theorem pull_of_short_pages : ¬ ∀ (pull : ChangesPull Unit),
    (∀ n, pull.optionalInteger n = some n) → ∀ tables : ℕ → FeedTable Unit,
      (∀ i, FeedTable.Upserts (tables i) (tables (i + 1))) → ∀ start : Option SyncCursor,
        ∃ fuel result, pull.pullChanges tables start fuel = some (.ok result) ∧
          pull.Feeds tables start result := by
  intro h
  have hcompletes : (pullOfTwo 1).Completes (fun _ => threeRows) none (initialState none) :=
    h (pullOfTwo 1) (fun _ => rfl) (fun _ => threeRows) (fun _ => .none _) none
  rcases hcompletes.pages with hbatch | hpending
  · exact absurd hbatch (by decide)
  · exact absurd hpending (by decide)

end ChangesPull

end Velocious
