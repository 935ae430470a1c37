/-
  What a client of the server change feed receives.

  `Steady` is kept by every step of a run whose commits are `Orderly`: what the client
  has passed was delivered, and if it has missed a change, every visible row lies above
  that change, so that the next call requires a snapshot.
-/
import Velocious.Sync.ServerChangeFeed

namespace Velocious

open Foundation List

namespace ServerFeedWorld

variable {store : ServerChangeFeedStore} {w w' : ServerFeedWorld} {x : FeedChange}

/-- The invariant of the runs. -/
structure Steady (store : ServerChangeFeedStore) (w : ServerFeedWorld) : Prop where
  sequences : (w.committed ++ w.appends.map (·.change)).Pairwise
    fun a b => a.serverSequence ≠ b.serverSequence
  allocated : ∀ x ∈ w.committed ++ w.appends.map (·.change), x.serverSequence ≤ w.sequence
  visible : ∀ x ∈ w.rows, x ∈ w.committed
  distinct : w.rows.Pairwise fun a b => a.serverSequence ≠ b.serverSequence
  deletes : ∀ tx ∈ w.appends, ∀ deletes, tx.deletes = some deletes →
    ∀ x ∈ deletes, x.serverSequence < tx.change.serverSequence
  /-- the latest change stays -/
  covered : ∀ x ∈ w.committed, ∃ z ∈ w.rows, x.serverSequence ≤ z.serverSequence
  increasing : w.received.Pairwise fun a b => a.serverSequence < b.serverSequence
  received : ∀ x ∈ w.received, x.serverSequence ≤ w.cursor
  genuine : ∀ x ∈ w.received, x ∈ w.committed ∧ store.inScope x = true
  passed : ∀ x ∈ w.committed, store.inScope x = true → x.serverSequence ≤ w.cursor →
    w.Delivered x
  missed : ∀ x, w.Missed store x → 0 < w.cursor ∧
    ∀ z ∈ w.rows, x.serverSequence < z.serverSequence
  reading : ∀ pageSize latestSequence, w.call = .rows pageSize latestSequence →
    ∀ x, ¬ w.Missed store x

theorem initial_steady : initial.Steady store where
  sequences := List.Pairwise.nil
  allocated _ h := absurd h not_mem_nil
  visible _ h := absurd h not_mem_nil
  distinct := List.Pairwise.nil
  deletes _ h := absurd h not_mem_nil
  covered _ h := absurd h not_mem_nil
  increasing := List.Pairwise.nil
  received _ h := absurd h not_mem_nil
  genuine _ h := absurd h not_mem_nil
  passed _ h := absurd h not_mem_nil
  missed _ h := absurd h.committed not_mem_nil
  reading _ _ h := by cases h

theorem Steady.setAppends (h : w.Steady store) {sequence : ℕ} {appends : List AppendTx}
    (hsequences : (w.committed ++ appends.map (·.change)).Pairwise
      fun a b => a.serverSequence ≠ b.serverSequence)
    (hallocated : ∀ x ∈ w.committed ++ appends.map (·.change), x.serverSequence ≤ sequence)
    (hdeletes : ∀ tx ∈ appends, ∀ deletes, tx.deletes = some deletes →
      ∀ x ∈ deletes, x.serverSequence < tx.change.serverSequence) :
    { w with sequence, appends }.Steady store :=
  ⟨hsequences, hallocated, h.visible, h.distinct, hdeletes, h.covered, h.increasing, h.received,
    h.genuine, h.passed, fun x hx => h.missed x ⟨hx.committed, hx.inScope, hx.unread, hx.pruned,
      hx.later⟩,
    fun pageSize latest hcall x hx => h.reading pageSize latest hcall x ⟨hx.committed, hx.inScope,
      hx.unread, hx.pruned, hx.later⟩⟩

theorem Steady.insert (h : w.Steady store) {change : FeedChange}
    (hchange : change.serverSequence = w.sequence + 1) :
    { w with
      sequence := w.sequence + 1
      appends := w.appends ++ [AppendTx.mk change none] }.Steady store := by
  refine h.setAppends ?_ ?_ ?_
  · rw [map_append, ← append_assoc]
    refine pairwise_append.mpr ⟨h.sequences, pairwise_singleton _ _, fun a ha b hb => ?_⟩
    rw [map_singleton, mem_singleton] at hb
    have := h.allocated a ha
    rw [hb, hchange]
    omega
  · intro x hx
    rw [map_append, ← append_assoc] at hx
    rcases mem_append.mp hx with hx | hx
    · exact (h.allocated x hx).trans (Nat.le_succ _)
    · rw [map_singleton, mem_singleton] at hx
      rw [hx, hchange]
  · intro tx htx deletes hdeletes
    rcases mem_append.mp htx with htx | htx
    · exact h.deletes tx htx deletes hdeletes
    · rw [mem_singleton] at htx
      rw [htx] at hdeletes
      cases hdeletes

variable {rows : List FeedChange}

theorem lt_of_mem_prune {latestSequence : ℕ}
    (hx : x ∈ store.pruneRetainedChanges rows latestSequence) :
    x.serverSequence < latestSequence := by
  unfold ServerChangeFeedStore.pruneRetainedChanges at hx
  split at hx
  · exact absurd hx not_mem_nil
  · split at hx
    · exact absurd hx not_mem_nil
    · dsimp only at hx
      split at hx
      · exact absurd hx not_mem_nil
      · have hle := of_decide_eq_true (mem_filter.mp hx).2
        omega

theorem Steady.prune (h : w.Steady store) {append : ℕ} {change : FeedChange}
    (happend : w.appends[append]? = some ⟨change, none⟩) :
    { w with
      appends := w.appends.set append
        ⟨change, some (store.pruneRetainedChanges w.rows change.serverSequence)⟩ }.Steady store := by
  have hmap : (w.appends.set append
      ⟨change, some (store.pruneRetainedChanges w.rows change.serverSequence)⟩).map (·.change) =
        w.appends.map (·.change) := by
    have hself : (w.appends.map (·.change))[append]? = some change := by
      rw [getElem?_map, happend]
      rfl
    obtain ⟨hlt, hget⟩ := List.getElem?_eq_some_iff.mp hself
    rw [map_set]
    exact hget ▸ set_getElem_self hlt
  refine h.setAppends (hmap ▸ h.sequences) (hmap ▸ h.allocated) fun tx htx deletes hdeletes => ?_
  rcases mem_or_eq_of_mem_set htx with htx | rfl
  · exact h.deletes tx htx deletes hdeletes
  · cases hdeletes
    exact fun x hx => lt_of_mem_prune hx

theorem Steady.rollback (h : w.Steady store) (append : ℕ) :
    { w with appends := w.appends.eraseIdx append }.Steady store := by
  have hsub : (w.committed ++ (w.appends.eraseIdx append).map (·.change)).Sublist
      (w.committed ++ w.appends.map (·.change)) :=
    ((eraseIdx_sublist _ _).map _).append_left _
  exact h.setAppends (h.sequences.sublist hsub) (fun x hx => h.allocated x (hsub.subset hx))
    fun tx htx => h.deletes tx (eraseIdx_subset htx)

/-! ## Commits -/

variable {append : ℕ} {change : FeedChange} {deletes : List FeedChange}

theorem missed_commit (hx : (w.commit append change deletes).Missed store x) :
    w.Missed store x ∨ (0 < w.cursor ∧ x ∈ w.rows ∧ x ∈ deletes) := by
  have hold : x ∈ w.committed := by
    rcases mem_append.mp hx.committed with hold | hnew
    · exact hold
    · exact absurd (mem_append_right _ hnew) hx.pruned
  by_cases hrow : x ∈ w.rows
  · have hdeleted : x ∈ deletes := by
      by_contra hkept
      exact hx.pruned (mem_append_left _ (mem_filter.mpr ⟨hrow, decide_eq_true hkept⟩))
    rcases Nat.eq_zero_or_pos w.cursor with hzero | hpos
    · refine absurd ?_ hx.later
      show x ∈ if w.cursor = 0 then _ else _
      rw [if_pos hzero]
      exact mem_append_right _ (mem_filter.mpr ⟨hrow, decide_eq_true hdeleted⟩)
    · exact .inr ⟨hpos, hrow, hdeleted⟩
  · refine .inl ⟨hold, hx.inScope, hx.unread, hrow, fun hlater => hx.later ?_⟩
    show x ∈ if w.cursor = 0 then _ else _
    split
    · exact mem_append_left _ hlater
    · exact hlater

theorem mem_commit_rows {z : FeedChange} (hz : z ∈ (w.commit append change deletes).rows) :
    (z ∈ w.rows ∧ z ∉ deletes) ∨ z = change := by
  rcases mem_append.mp hz with hz | hz
  · obtain ⟨hrow, hkept⟩ := mem_filter.mp hz
    exact .inl ⟨hrow, of_decide_eq_true hkept⟩
  · exact .inr (mem_singleton.mp hz)

theorem delivered_commit (hx : w.Delivered x) : (w.commit append change deletes).Delivered x := by
  rcases hx with hread | hpruned
  · exact .inl hread
  · right
    show x ∈ if w.cursor = 0 then _ else _
    split
    · exact mem_append_left _ hpruned
    · exact hpruned

section
variable (h : w.Steady store)
include h

theorem Steady.own_sequence (happend : w.appends[append]? = some ⟨change, some deletes⟩)
    (hx : x ∈ w.committed) :
    x.serverSequence ≠ change.serverSequence :=
  (pairwise_append.mp h.sequences).2.2 x hx change
    (mem_map_of_mem (mem_of_getElem? happend))

theorem Steady.commit (happend : w.appends[append]? = some ⟨change, some deletes⟩)
    (horderly : w.Orderly store (.commit append)) :
    (w.commit append change deletes).Steady store := by
  obtain ⟨habove, hbelow, hlower⟩ := horderly change deletes happend
  have hdeletes := h.deletes _ (List.mem_of_getElem? happend) deletes rfl
  obtain ⟨hlt, hget⟩ := List.getElem?_eq_some_iff.mp happend
  have hperm : ((w.committed ++ [change]) ++ (w.appends.eraseIdx append).map (·.change)).Perm
      (w.committed ++ w.appends.map (·.change)) := by
    rw [append_assoc]
    refine List.Perm.append_left _ ?_
    have herase := (getElem_cons_eraseIdx_perm hlt).map AppendTx.change
    rw [hget] at herase
    exact herase
  refine ⟨h.sequences.perm hperm.symm fun hab => Ne.symm hab,
    fun x hx => h.allocated x (hperm.subset hx), fun z hz => ?_, ?_,
    fun tx htx => h.deletes tx (eraseIdx_subset htx), fun x hx => ?_, h.increasing,
    h.received, fun x hx => ?_, fun x hx hscope hle => ?_, fun x hx => ?_,
    fun pageSize latest hcall x hx => ?_⟩
  · rcases mem_commit_rows hz with ⟨hrow, -⟩ | rfl
    · exact mem_append_left _ (h.visible z hrow)
    · exact mem_append_right _ (mem_singleton_self _)
  · refine pairwise_append.mpr ⟨h.distinct.filter _, pairwise_singleton _ _, ?_⟩
    intro a ha b hb
    rw [mem_singleton.mp hb]
    exact h.own_sequence happend (h.visible a (mem_of_mem_filter ha))
  · have hlast : change ∈ (w.commit append change deletes).rows :=
      mem_append_right _ (mem_singleton_self _)
    rcases mem_append.mp hx with hx | hx
    · obtain ⟨z, hz, hle⟩ := h.covered x hx
      by_cases hdeleted : z ∈ deletes
      · exact ⟨change, hlast, hle.trans (hdeletes z hdeleted).le⟩
      · exact ⟨z, mem_append_left _ (mem_filter.mpr ⟨hz, decide_eq_true hdeleted⟩), hle⟩
    · exact ⟨change, hlast, (mem_singleton.mp hx ▸ Nat.le_refl _)⟩
  · obtain ⟨hmem, hscope⟩ := h.genuine x hx
    exact ⟨mem_append_left _ hmem, hscope⟩
  · rcases mem_append.mp hx with hx | hx
    · exact delivered_commit (h.passed x hx hscope hle)
    · rw [mem_singleton.mp hx] at hscope hle
      exact absurd hle (Nat.not_le.mpr (habove hscope))
  · rcases missed_commit hx with hold | ⟨hpos, hrow, hdeleted⟩
    · obtain ⟨hpos, hall⟩ := h.missed x hold
      refine ⟨hpos, fun z hz => ?_⟩
      rcases mem_commit_rows hz with ⟨hz, -⟩ | rfl
      · exact hall z hz
      · exact hbelow x hold
    · refine ⟨hpos, fun z hz => ?_⟩
      rcases mem_commit_rows hz with ⟨hz, hkept⟩ | rfl
      · have hne : x.serverSequence ≠ z.serverSequence := by
          intro heq
          exact hkept (eq_of_key_eq h.distinct hrow hz heq ▸ hdeleted)
        have hall := (hlower hpos x hrow hdeleted hx.inScope hx.unread).1 z hz
        rcases Nat.lt_or_gt_of_ne hne with hlt | hgt
        · exact hlt
        · exact absurd (hall hgt) hkept
      · exact hdeletes x hdeleted
  · rcases missed_commit hx with hold | ⟨hpos, hrow, hdeleted⟩
    · exact h.reading pageSize latest hcall x hold
    · exact (hlower hpos x hrow hdeleted hx.inScope hx.unread).2 pageSize latest hcall

theorem Steady.setCall {call : ChangesCall}
    (hreading : ∀ pageSize latestSequence, call = .rows pageSize latestSequence →
      ∀ x, ¬ w.Missed store x) :
    { w with call }.Steady store :=
  ⟨h.sequences, h.allocated, h.visible, h.distinct, h.deletes, h.covered, h.increasing, h.received,
    h.genuine, h.passed, fun x hx => h.missed x ⟨hx.committed, hx.inScope, hx.unread, hx.pruned,
      hx.later⟩,
    fun pageSize latest hcall x hx => hreading pageSize latest hcall x ⟨hx.committed, hx.inScope,
      hx.unread, hx.pruned, hx.later⟩⟩

theorem Steady.snapshot (hx : w.Missed store x) :
    ServerChangeFeedStore.snapshotRequired w.cursor
      (ServerChangeFeedStore.oldestSequence w.rows) = true := by
  obtain ⟨hpos, hall⟩ := h.missed x hx
  obtain ⟨z, hz, -⟩ := h.covered x hx.committed
  have hmem : z ∈ sortByKey FeedChange.serverSequence w.rows := mem_sortByKey.mpr hz
  obtain ⟨oldest, rest, hsorted⟩ := exists_cons_of_ne_nil (ne_nil_of_mem hmem)
  have holdest : oldest ∈ w.rows := by
    have hfirst : oldest ∈ sortByKey FeedChange.serverSequence w.rows := by
      rw [hsorted]
      exact mem_cons_self
    exact mem_sortByKey.mp hfirst
  have hlt := hall oldest holdest
  have hunread := hx.unread
  simp only [ServerChangeFeedStore.snapshotRequired, ServerChangeFeedStore.oldestSequence, hsorted,
    head?_cons, Option.map_some, Option.any_some, Bool.and_eq_true, decide_eq_true_eq]
  omega

theorem Steady.answer {page : ChangesPage}
    (hcursor : w.cursor ≤ page.nextSequence)
    (hsorted : page.changes.Pairwise fun a b => a.serverSequence < b.serverSequence)
    (hchanges : ∀ x ∈ page.changes, x ∈ w.rows ∧ store.inScope x = true ∧
      w.cursor < x.serverSequence ∧ x.serverSequence ≤ page.nextSequence)
    (hpassed : ∀ x ∈ w.committed, store.inScope x = true → w.cursor < x.serverSequence →
      x.serverSequence ≤ page.nextSequence → x ∈ page.changes ∨ x ∈ w.prunedAtStart) :
    (w.answer page).Steady store := by
  refine ⟨h.sequences, h.allocated, h.visible, h.distinct, h.deletes, h.covered, ?_,
    fun x hx => ?_, fun x hx => ?_, fun x hx hscope hle => ?_, fun x hx => ?_,
    fun _ _ hcall => by cases hcall⟩
  · refine pairwise_append.mpr ⟨h.increasing, hsorted, fun a ha b hb => ?_⟩
    exact (h.received a ha).trans_lt (hchanges b hb).2.2.1
  · rcases mem_append.mp hx with hx | hx
    · exact (h.received x hx).trans hcursor
    · exact (hchanges x hx).2.2.2
  · rcases mem_append.mp hx with hx | hx
    · exact h.genuine x hx
    · exact ⟨h.visible x (hchanges x hx).1, (hchanges x hx).2.1⟩
  · rcases Nat.lt_or_ge w.cursor x.serverSequence with hlt | hge
    · rcases hpassed x hx hscope hlt hle with hread | hpruned
      · exact .inl (mem_append_right _ hread)
      · exact .inr hpruned
    · rcases h.passed x hx hscope hge with hread | hpruned
      · exact .inl (mem_append_left _ hread)
      · exact .inr hpruned
  · have hunread := hx.unread
    obtain ⟨hpos, hall⟩ := h.missed x
      ⟨hx.committed, hx.inScope, hcursor.trans_lt hunread, hx.pruned, hx.later⟩
    exact ⟨hpos.trans_le hcursor, hall⟩

theorem Steady.requireSnapshot (latestSequence : ℕ) :
    (w.answer ⟨[], false, w.cursor, true, latestSequence⟩).Steady store := by
  refine h.answer (Nat.le_refl _) List.Pairwise.nil (fun x hx => ?_) fun x _ _ hlt hle => ?_
  · exact absurd hx not_mem_nil
  · exact absurd hle (Nat.not_le.mpr hlt)

end

variable {pageSize latestSequence : ℕ}

theorem mem_rowsBetween {after : ℕ} : x ∈ store.rowsBetween rows after latestSequence ↔
      x ∈ rows ∧ after < x.serverSequence ∧ x.serverSequence ≤ latestSequence ∧
        store.inScope x = true := by
  simp only [ServerChangeFeedStore.rowsBetween, mem_sortByKey, mem_filter, Bool.and_eq_true,
    decide_eq_true_eq, and_assoc]

theorem Steady.rowsBetween_pairwise (h : w.Steady store) (after latestSequence : ℕ) :
    (store.rowsBetween w.rows after latestSequence).Pairwise
      fun a b => a.serverSequence < b.serverSequence :=
  sortByKey_pairwise (h.distinct.filter _)

theorem changesPage_changes (store : ServerChangeFeedStore) (rows : List FeedChange)
    (after pageSize latestSequence : ℕ) :
    (store.changesPage rows after pageSize latestSequence).changes =
      (store.rowsBetween rows after latestSequence).take pageSize := by
  rw [ServerChangeFeedStore.changesPage, take_take, Nat.min_eq_left (Nat.le_succ _)]

theorem changesPage_last {after : ℕ}
    (hmore : (store.changesPage rows after pageSize latestSequence).hasMore = false) :
    (store.changesPage rows after pageSize latestSequence).changes =
      store.rowsBetween rows after latestSequence := by
  have hlength := of_decide_eq_false hmore
  rw [length_take] at hlength
  rw [changesPage_changes]
  exact take_of_length_le (by omega)

section
variable (h : w.Steady store)
include h

theorem Steady.readRows (hcall : w.call = .rows pageSize latestSequence) :
    (w.answer (store.changesPage w.rows w.cursor pageSize latestSequence)).Steady store := by
  have hsorted := h.rowsBetween_pairwise w.cursor latestSequence
  have hchanges := changesPage_changes store w.rows w.cursor pageSize latestSequence
  have hnext : (store.changesPage w.rows w.cursor pageSize latestSequence).nextSequence =
      ((((store.rowsBetween w.rows w.cursor latestSequence).take pageSize).getLast?).map
        (·.serverSequence)).getD w.cursor := by
    rw [← hchanges]
    rfl
  have hpage : ∀ x ∈ (store.rowsBetween w.rows w.cursor latestSequence).take pageSize,
      x ∈ w.rows ∧ w.cursor < x.serverSequence ∧ x.serverSequence ≤ latestSequence ∧
        store.inScope x = true := fun x hx => mem_rowsBetween.mp (mem_of_mem_take hx)
  cases hlast : ((store.rowsBetween w.rows w.cursor latestSequence).take pageSize).getLast? with
  | none =>
    have hempty := getLast?_eq_none_iff.mp hlast
    rw [hlast] at hnext
    refine h.answer (hnext ▸ Nat.le_refl _) ?_ (fun x hx => ?_) fun x _ _ hlt hle => ?_
    · rw [hchanges, hempty]
      exact List.Pairwise.nil
    · rw [hchanges, hempty] at hx
      exact absurd hx not_mem_nil
    · rw [hnext] at hle
      exact absurd hle (Nat.not_le.mpr hlt)
  | some last =>
    rw [hlast] at hnext
    have hlastmem := hpage last (mem_of_getLast? hlast)
    refine h.answer ?_ ?_ (fun x hx => ?_) fun x hx hscope hlt hle => ?_
    · rw [hnext]
      exact hlastmem.2.1.le
    · rw [hchanges]
      exact hsorted.take
    · rw [hchanges] at hx
      obtain ⟨hrow, hlt, -, hscope⟩ := hpage x hx
      rw [hnext]
      exact ⟨hrow, hscope, hlt, key_le_getLast hsorted.take hlast hx⟩
    · rw [hnext] at hle
      by_cases hpruned : x ∈ w.prunedAtStart
      · exact .inr hpruned
      · left
        have hrow : x ∈ w.rows := by
          by_contra hgone
          exact h.reading pageSize latestSequence hcall x ⟨hx, hscope, hlt, hgone, hpruned⟩
        rw [hchanges]
        exact mem_take_of_le hsorted hlast
          (mem_rowsBetween.mpr ⟨hrow, hlt, hle.trans hlastmem.2.2.1, hscope⟩) hle

/-! ## Runs -/

theorem Steady.step {action : ServerFeedAction}
    (horderly : w.Orderly store action) (hstep : w.step store action = some w') :
    w'.Steady store := by
  cases action with
  | insert scope =>
    cases hstep
    exact h.insert rfl
  | prune append =>
    simp only [ServerFeedWorld.step] at hstep
    split at hstep
    · rename_i change happend
      cases hstep
      exact h.prune happend
    · cases hstep
  | commit append =>
    simp only [ServerFeedWorld.step] at hstep
    split at hstep
    · rename_i change deletes happend
      cases hstep
      exact h.commit happend horderly
    · cases hstep
  | rollback append =>
    simp only [ServerFeedWorld.step] at hstep
    split at hstep
    · cases hstep
      exact h.rollback append
    · cases hstep
  | changesAfter limit =>
    simp only [ServerFeedWorld.step] at hstep
    split at hstep
    · cases hstep
      exact h.setCall (by simp)
    · cases hstep
      exact h.setCall (by simp)
    · cases hstep
  | readLatest =>
    simp only [ServerFeedWorld.step] at hstep
    split at hstep
    · cases hstep
      exact h.setCall (by simp)
    · cases hstep
  | readOldest =>
    simp only [ServerFeedWorld.step] at hstep
    split at hstep
    · split at hstep
      · cases hstep
        exact h.requireSnapshot _
      · rename_i hcovered
        cases hstep
        exact h.setCall fun _ _ _ x hx => hcovered (h.snapshot hx)
    · cases hstep
  | readRows =>
    simp only [ServerFeedWorld.step] at hstep
    split at hstep
    · rename_i hcall
      cases hstep
      exact h.readRows hcall
    · cases hstep

theorem Steady.finished (hstep : w.step store .readRows = some w')
    {page : ChangesPage} (hpage : w'.page = some page) (hmore : page.hasMore = false)
    (hx : x ∈ w'.committed) (hscope : store.inScope x = true)
    (hle : x.serverSequence ≤ page.upToSequence) : w'.Delivered x := by
  simp only [ServerFeedWorld.step] at hstep
  split at hstep
  · rename_i pageSize latestSequence hcall
    cases hstep
    cases hpage
    rcases Nat.lt_or_ge w.cursor x.serverSequence with hlt | hge
    · by_cases hpruned : x ∈ w.prunedAtStart
      · exact .inr hpruned
      · left
        have hrow : x ∈ w.rows := by
          by_contra hgone
          exact h.reading pageSize latestSequence hcall x ⟨hx, hscope, hlt, hgone, hpruned⟩
        refine mem_append_right _ ?_
        rw [changesPage_last hmore]
        exact mem_rowsBetween.mpr ⟨hrow, hlt, hle, hscope⟩
    · rcases h.passed x hx hscope hge with hread | hpruned
      · exact .inl (mem_append_left _ hread)
      · exact .inr hpruned
  · cases hstep

theorem Steady.served : w.Served store where
  __ := h
  finished _ hstep _ hpage hmore _ hx hscope hle := h.finished hstep hpage hmore hx hscope hle

end

/-- **A client that reads the feed from sequence 0 is served every change of its scope.** -/
theorem feed_served {actions : List ServerFeedAction}
    (horderly : Along (ServerFeedWorld.step store) (Orderly store) initial actions)
    (hrun : runActions (ServerFeedWorld.step store) initial actions = some w) :
    w.Served store :=
  (runActions_invariant (fun _ _ _ hs ha hstep => hs.step ha hstep) actions initial_steady horderly
    hrun).served

/-- Two appends to a feed that retains one change, and a client that reads after them. -/
def appendTwice : List ServerFeedAction :=
  [.insert none, .prune 0, .commit 0, .insert none, .prune 0, .commit 0, .changesAfter .null,
    .readLatest, .readOldest, .readRows]

def retainOne : ServerChangeFeedStore := ⟨.int 1, none⟩

theorem feed_served_appendTwice :
    ∃ w, runActions (ServerFeedWorld.step retainOne) initial appendTwice = some w ∧
      w.Served retainOne := by
  have horderly : Along (ServerFeedWorld.step retainOne) (Orderly retainOne) initial
      appendTwice := by
    refine ⟨trivial, trivial, ?_, trivial, trivial, ?_, trivial, trivial, trivial, trivial,
      trivial⟩
    · rintro change deletes ⟨⟩
      refine ⟨fun _ => Nat.zero_lt_one, fun x hx => ?_, fun hpos => ?_⟩
      · exact absurd hx.committed not_mem_nil
      · exact absurd hpos (Nat.lt_irrefl 0)
    · rintro change deletes ⟨⟩
      refine ⟨fun _ => Nat.zero_lt_two, fun x hx => ?_, fun hpos => ?_⟩
      · exact absurd hx.committed hx.pruned
      · exact absurd hpos (Nat.lt_irrefl 0)
  have hsome : (runActions (ServerFeedWorld.step retainOne) initial appendTwice).isSome = true := by
    decide
  obtain ⟨w, hrun⟩ := Option.isSome_iff_exists.mp hsome
  exact ⟨w, hrun, feed_served horderly hrun⟩

/-- What was pruned before the first call is left out, and no snapshot is required. -/
theorem pruned_at_start : ¬ ∀ (store : ServerChangeFeedStore) (actions : List ServerFeedAction)
    (w : ServerFeedWorld), runActions (ServerFeedWorld.step store) initial actions = some w →
      ∀ x ∈ w.committed, store.inScope x = true → x.serverSequence ≤ w.cursor →
        x ∈ w.received ∨ ∃ page, w.page = some page ∧ page.snapshotRequired = true := by
  intro h
  have hrun : (runActions (ServerFeedWorld.step retainOne) initial appendTwice).map
      (fun w => (w.committed, w.received, w.cursor, w.page.map (·.snapshotRequired))) =
        some ([⟨1, "null"⟩, ⟨2, "null"⟩], [⟨2, "null"⟩], 2, some false) := by
    decide
  obtain ⟨w, hw, hread⟩ := Option.map_eq_some_iff.mp hrun
  obtain ⟨hcommitted, hreceived, hcursor, hpage⟩ :
      w.committed = [⟨1, "null"⟩, ⟨2, "null"⟩] ∧ w.received = [⟨2, "null"⟩] ∧ w.cursor = 2 ∧
        w.page.map (·.snapshotRequired) = some false := by
    simpa only [Prod.mk.injEq] using hread
  rcases h retainOne appendTwice w hw ⟨1, "null"⟩ (by simp [hcommitted]) rfl
    (by simp [hcursor]) with hfirst | ⟨page, hsome, hrequired⟩
  · simp [hreceived] at hfirst
  · simp [hsome, hrequired] at hpage

end ServerFeedWorld

end Velocious
