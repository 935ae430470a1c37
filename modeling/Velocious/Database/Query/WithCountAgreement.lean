/-
  What `withCount` counts, over all cohorts and for all entries of a call.

  * `queryGroups_spec`: every entry is in the group of its text.
-/
import Mathlib.Data.List.Basic
import Velocious.Database.Query.PreloadHasManyCollections
import Velocious.Database.Query.WithCount

namespace Velocious.WithCount

open Foundation HasMany List

variable {κ : Type} [DecidableEq κ]

/-! ## Counts -/

section Counting

variable {d : Database κ} {contents : String → CountContent κ} {q : CountQuery κ}
  {cohort : List (Option κ)}

def countOf (q : CountQuery κ) (content : CountContent κ) (k : κ) : ℕ :=
  if q.limit = some 0 then 0 else
  (joinedRows q.joins content).countP fun row =>
    (q.wheres.all fun c => c.first row) && readColumn row.1 q.foreignKey = some k

theorem any_sqlEq_some {value : Option κ} {k : κ} (h : value = some k) :
    cohort.any (sqlEq value) = decide (some k ∈ cohort) := by
  subst h
  rw [Bool.eq_iff_iff, any_eq_true, decide_eq_true_eq]
  constructor
  · rintro ⟨other, hmem, heq⟩
    cases other with
    | none => simp at heq
    | some k' => exact (show k = k' by simpa using heq) ▸ hmem
  · exact fun hmem => ⟨_, hmem, by simp⟩

/-- The database takes no foreign key of a table for a value that it is not. -/
def TellsKeys (c : Collation κ) (foreignKey : String) (content : CountContent κ)
    (values : List (Option κ)) : Prop :=
  ∀ record ∈ content.target, ∀ value ∈ values, c.Tells (readColumn record foreignKey) value

omit [DecidableEq κ] in
theorem fst_mem_of_mem_joinedRows {joins : Bool} {content : CountContent κ} {row : Joined κ}
    (h : row ∈ joinedRows joins content) : row.1 ∈ content.target := by
  obtain ⟨record, hrecord, hrow⟩ := mem_flatMap.1 h
  obtain ⟨other, -, rfl⟩ := mem_map.1 hrow
  exact hrecord

theorem cohortJoinedRows_eq {c : Collation κ} (hplain : Plain q.wheres) {content : CountContent κ}
    (htells : TellsKeys c q.foreignKey content cohort) :
    cohortJoinedRows c content q cohort = (joinedRows q.joins content).filter fun row =>
      (q.wheres.all fun c => c.first row) &&
        cohort.any (sqlEq (readColumn row.1 q.foreignKey)) := by
  have hplain' (isIn : Clause (Joined κ)) (h : isIn.others = []) : Plain (q.wheres ++ [isIn]) := by
    intro c hmem
    rcases mem_append.1 hmem with hmem | hmem
    · exact hplain c hmem
    · rw [mem_singleton.1 hmem, h]
  refine filter_congr fun row hrow => ?_
  have hany : cohort.any (c.eq (readColumn row.1 q.foreignKey)) =
      cohort.any (sqlEq (readColumn row.1 q.foreignKey)) :=
    any_of_tells (htells row.1 (fst_mem_of_mem_joinedRows hrow))
  rw [whereHolds_of_plain (hplain' _ rfl)]
  simp only [all_append, all_cons, all_nil, Bool.and_true, hany]

theorem countP_cohortJoinedRows {c : Collation κ} (hplain : Plain q.wheres)
    {content : CountContent κ} (htells : TellsKeys c q.foreignKey content cohort) (k : κ) :
    (cohortJoinedRows c content q cohort).countP
        (fun row => readColumn row.1 q.foreignKey = some k) =
      if some k ∈ cohort then (joinedRows q.joins content).countP fun row =>
        (q.wheres.all fun c => c.first row) && readColumn row.1 q.foreignKey = some k
      else 0 := by
  rw [cohortJoinedRows_eq hplain htells, countP_filter]
  by_cases hk : some k ∈ cohort
  · rw [if_pos hk]
    refine countP_congr fun row _ => ?_
    by_cases hrow : readColumn row.1 q.foreignKey = some k
    · simp [hrow, any_sqlEq_some, hk]
    · simp [hrow]
  · rw [if_neg hk, countP_eq_zero]
    intro row _
    by_cases hrow : readColumn row.1 q.foreignKey = some k
    · simp [hrow, any_sqlEq_some, hk]
    · simp [hrow]

/-- The rows of a group are those that have its key. -/
theorem countP_group {c : Collation κ} {content : CountContent κ}
    (htells : TellsKeys c q.foreignKey content cohort) {k : κ} (hk : some k ∈ cohort) :
    (cohortJoinedRows c content q cohort).countP
        (fun row => c.eq (readColumn row.1 q.foreignKey) (some k)) =
      (cohortJoinedRows c content q cohort).countP
        fun row => readColumn row.1 q.foreignKey = some k := by
  refine countP_congr fun row hrow => ?_
  have hmem := fst_mem_of_mem_joinedRows (mem_of_mem_filter hrow)
  rw [htells row.1 hmem _ hk, sqlEq_some]

section Groups

variable {c : Collation κ} {values : List κ}

omit [DecidableEq κ] in
theorem groupKeys_subset (c : Collation κ) (values : List κ) : groupKeys c values ⊆ values := by
  induction values with
  | nil => simp [groupKeys]
  | cons k ks ih =>
    rw [groupKeys]
    exact cons_subset_cons _ fun k' hmem => ih (mem_of_mem_filter hmem)

omit [DecidableEq κ] in
theorem nodup_groupKeys (c : Collation κ) (values : List κ) : (groupKeys c values).Nodup := by
  induction values with
  | nil => exact nodup_nil
  | cons k ks ih =>
    rw [groupKeys, nodup_cons]
    exact ⟨by simp [c.refl], ih.filter _⟩

theorem mem_groupKeys {k : κ} (htells : ∀ k' ∈ values, c.Tells (some k') (some k)) :
    k ∈ groupKeys c values ↔ k ∈ values := by
  refine ⟨fun h => groupKeys_subset c values h, fun h => ?_⟩
  induction values with
  | nil => cases h
  | cons k' ks ih =>
    rw [groupKeys, mem_cons, mem_filter]
    by_cases heq : k = k'
    · exact .inl heq
    · have hsame : c.same k' k = false := by
        have hne : sqlEq (some k') (some k) = false := by simpa using Ne.symm heq
        exact (htells k' mem_cons_self).trans hne
      refine .inr ⟨ih (fun k' hmem => htells k' (mem_cons_of_mem _ hmem)) ?_, by simp [hsame]⟩
      exact (mem_cons.1 h).resolve_left heq

end Groups

theorem get?_setCounts (counts : Counts κ) (b : Bool) (f : κ → ℕ) (ks : List κ) (key : Returned κ) :
    (setCounts counts (ks.map fun k => ((b, k), f k))).get? key =
      if key.1 = b ∧ key.2 ∈ ks then some (f key.2) else counts.get? key := by
  induction ks generalizing counts with
  | nil => simp [setCounts]
  | cons k ks ih =>
    have := ih (counts.set (b, k) (f k))
    simp only [setCounts, map_cons, foldl_cons] at this ⊢
    rw [this, EntryMap.get?_set]
    obtain ⟨b', k'⟩ := key
    by_cases hb : b' = b <;> by_cases hk : k' = k <;>
      simp_all

/-- The keys that the rows of a cohort are grouped by. -/
def cohortKeys (c : Collation κ) (content : CountContent κ) (q : CountQuery κ)
    (cohort : List (Option κ)) : List κ :=
  groupKeys c ((cohortJoinedRows c content q cohort).filterMap
    fun row => readColumn row.1 q.foreignKey)

section Cohorts

variable {c : Collation κ} {content : CountContent κ} (hplain : Plain q.wheres)
  (htells : TellsKeys c q.foreignKey content cohort)
include hplain htells

theorem mem_cohort_of_mem_cohortKeys {k : κ} (h : k ∈ cohortKeys c content q cohort) :
    some k ∈ cohort := by
  obtain ⟨row, hrow, hrowk⟩ := mem_filterMap.1 (groupKeys_subset _ _ h)
  by_contra hnot
  have := countP_cohortJoinedRows hplain htells k
  rw [if_neg hnot, countP_eq_zero] at this
  exact this row hrow (by simpa using hrowk)

theorem mem_cohortKeys (hzero : q.limit ≠ some 0) {k : κ} :
    k ∈ cohortKeys c content q cohort ↔ some k ∈ cohort ∧ 0 < countOf q content k := by
  by_cases hk : some k ∈ cohort
  · have hmem : k ∈ cohortKeys c content q cohort ↔
        0 < (cohortJoinedRows c content q cohort).countP
          fun row => readColumn row.1 q.foreignKey = some k := by
      rw [cohortKeys, mem_groupKeys, countP_pos_iff]
      · simp
      · intro k' hk'
        obtain ⟨row, hrow, hrowk⟩ := mem_filterMap.1 hk'
        exact hrowk ▸ htells row.1 (fst_mem_of_mem_joinedRows (mem_of_mem_filter hrow)) _ hk
    rw [hmem, countP_cohortJoinedRows hplain htells, if_pos hk, countOf, if_neg hzero]
    simp [hk]
  · simp only [hk, false_and, iff_false]
    exact fun h => hk (mem_cohort_of_mem_cohortKeys hplain htells h)

theorem groups_of_limit {f : κ → Returned κ × ℕ}
    (hlimit : ∀ n, q.limit = some n → n = 0 ∨ cohort.length ≤ n)
    (hzero : q.limit ≠ some 0) {ks : List κ} (hks : ks = cohortKeys c content q cohort) :
    q.limit.elim (ks.map f) (ks.map f).take = ks.map f := by
  cases hn : q.limit with
  | none => rfl
  | some n =>
    have hsub : ks.map some ⊆ cohort := by
      intro value hmem
      obtain ⟨k, hk, rfl⟩ := mem_map.1 hmem
      exact mem_cohort_of_mem_cohortKeys hplain htells (hks ▸ hk)
    have hnodup : (ks.map some).Nodup := by
      rw [hks]
      exact (nodup_groupKeys _ _).map (Option.some_injective κ)
    have hle := (subperm_of_subset hnodup hsub).length_le
    rw [length_map] at hle
    rcases hlimit n hn with rfl | hn'
    · exact absurd hn hzero
    · exact take_of_length_le (by rw [length_map]; exact hle.trans hn')

end Cohorts

variable (contents) in
theorem executeCountQuery_spec (hordered : q.ordered = true → d.ordersGroups = true)
    (htuple : isTuple d.keys cohort = false) (hplain : Plain q.wheres)
    (htells : TellsKeys d.collation q.foreignKey (contents q.tables) cohort)
    (hlimit : ∀ n, q.limit = some n → n = 0 ∨ cohort.length ≤ n) :
    ∃ rows, executeCountQuery d contents q cohort = some rows ∧ ∀ counts key,
      (setCounts counts rows).get? key =
        if key.1 = q.foreignKeyText ∧ some key.2 ∈ cohort ∧ 0 < countOf q (contents q.tables) key.2
        then some (countOf q (contents q.tables) key.2) else counts.get? key := by
  have hthrow : ¬ (q.ordered && !d.ordersGroups) = true := by
    cases hq : q.ordered <;> simp_all
  refine ⟨_, by rw [executeCountQuery, if_neg hthrow, htuple, if_neg (by simp)], fun counts key => ?_⟩
  by_cases hzero : q.limit = some 0
  · have hnone : countOf q (contents q.tables) key.2 = 0 := if_pos hzero
    simp [hzero, hnone, setCounts]
  · rw [← cohortKeys, groups_of_limit hplain htells hlimit hzero rfl, get?_setCounts]
    simp only [mem_cohortKeys hplain htells hzero]
    by_cases hk : some key.2 ∈ cohort
    · rw [countP_group htells hk, countP_cohortJoinedRows hplain htells, if_pos hk]
      simp [countOf, hzero]
    · simp [hk]

omit [DecidableEq κ] in
theorem isTuple_of_names {values : List (Option κ)} (hsub : ∀ value ∈ cohort, value ∈ values)
    (hnames : ∀ value ∈ values, WhereModelClassHash.operator? (d.keys.text value) = none) :
    isTuple d.keys cohort = false := by
  unfold isTuple
  split
  · rw [hnames _ (hsub _ (by simp))]
    rfl
  · rfl

variable (contents) in
theorem executeChunkedCountQuery_spec {parentIds : List (Option κ)}
    (hordered : q.ordered = true → d.ordersGroups = true)
    (hnames : ∀ value ∈ parentIds, WhereModelClassHash.operator? (d.keys.text value) = none)
    (hplain : Plain q.wheres)
    (htells : TellsKeys d.collation q.foreignKey (contents q.tables) parentIds)
    (hlimit : ∀ n, q.limit = some n → n = 0 ∨ parentIds.length ≤ n) :
    ∃ counts, executeChunkedCountQuery d contents q parentIds = some counts ∧ ∀ key,
      counts.get? key = if key.1 = q.foreignKeyText ∧ some key.2 ∈ parentIds ∧
          0 < countOf q (contents q.tables) key.2
        then some (countOf q (contents q.tables) key.2) else none := by
  have hfold (cohorts : List (List (Option κ)))
      (hsub : ∀ cohort ∈ cohorts, cohort.Sublist parentIds) (start : Counts κ) :
      ∃ counts, cohorts.foldlM (fun counts cohort =>
          (executeCountQuery d contents q cohort).map (setCounts counts)) start = some counts ∧
        ∀ key, counts.get? key = if key.1 = q.foreignKeyText ∧ some key.2 ∈ cohorts.flatten ∧
            0 < countOf q (contents q.tables) key.2
          then some (countOf q (contents q.tables) key.2) else start.get? key := by
    induction cohorts generalizing start with
    | nil => exact ⟨start, rfl, fun key => by simp⟩
    | cons cohort cohorts ih =>
      obtain ⟨rows, hrows, hset⟩ := executeCountQuery_spec contents hordered
        (isTuple_of_names (hsub cohort mem_cons_self).subset hnames) hplain
        (fun record hrecord value hvalue =>
          htells record hrecord value ((hsub cohort mem_cons_self).subset hvalue)) fun n hn =>
          (hlimit n hn).imp_right (hsub cohort mem_cons_self).length_le.trans
      obtain ⟨counts, hcounts, hget⟩ := ih
        (fun other hmem => hsub other (mem_cons_of_mem _ hmem)) (setCounts start rows)
      refine ⟨counts, by rw [foldlM_cons, hrows]; exact hcounts, fun key => ?_⟩
      rw [hget, hset]
      simp only [flatten_cons, mem_append]
      by_cases hkey : key.1 = q.foreignKeyText ∧ 0 < countOf q (contents q.tables) key.2
      · by_cases hin : some key.2 ∈ cohort <;> by_cases hrest : some key.2 ∈ cohorts.flatten <;>
          simp [hkey.1, hkey.2, hin, hrest]
      · have hno (P : Prop) : ¬ (key.1 = q.foreignKeyText ∧ P ∧
            0 < countOf q (contents q.tables) key.2) := fun h => hkey ⟨h.1, h.2.2⟩
        rw [if_neg (hno _), if_neg (hno _), if_neg (hno _)]
  have hflat := flatten_chunkValues d.maxInClauseValues d.fits parentIds
  obtain ⟨counts, hcounts, hget⟩ := hfold (chunkValues d.maxInClauseValues d.fits parentIds)
    (fun cohort hmem => hflat ▸ sublist_flatten_of_mem hmem) .empty
  rw [hflat] at hget
  exact ⟨counts, hcounts, by simpa using hget⟩

theorem resolvedCount_eq {counts : Counts κ} {parentIds : List (Option κ)} {content : CountContent κ}
    (hget : ∀ key, counts.get? key = if key.1 = q.foreignKeyText ∧ some key.2 ∈ parentIds ∧
        0 < countOf q content key.2 then some (countOf q content key.2) else none) {k : κ}
    (hk : some k ∈ parentIds) : resolvedCount d counts (some k) =
      if d.primaryKeyText = true ∧ q.foreignKeyText = false then 0 else countOf q content k := by
  simp only [resolvedCount, hget]
  rcases Nat.eq_zero_or_pos (countOf q content k) with hzero | hpos
  · simp [hzero]
  · cases hp : d.primaryKeyText <;> cases hf : q.foreignKeyText <;> simp_all

end Counting

/-! ## Groups -/

section Groups

variable {s : Server κ} {entries : List (Entry κ)}

/-- The entries that are put into groups, by the texts of their queries. -/
structure Grouped (s : Server κ) (entries : List (Entry κ))
    (groups : EntryMap String (CountQuery κ × List (Entry κ))) : Prop where
  query : ∀ sql group, groups.get? sql = some group →
    ∃ e ∈ group.2, group.1 = queryForEntry s.collation e
  member : ∀ sql group, groups.get? sql = some group → ∀ e ∈ group.2,
    e ∈ entries ∧ s.toSql (queryForEntry s.collation e) = sql
  complete : ∀ e ∈ entries, ∃ group, groups.get? (s.toSql (queryForEntry s.collation e)) = some group ∧
    e ∈ group.2

omit [DecidableEq κ] in
theorem Grouped.set {groups : EntryMap String (CountQuery κ × List (Entry κ))}
    (h : Grouped s entries groups) (e : Entry κ) {q : CountQuery κ}
    (before : List (Entry κ)) (hquery : ∃ e' ∈ before ++ [e], q = queryForEntry s.collation e')
    (hmember : ∀ e' ∈ before, e' ∈ entries ∧
      s.toSql (queryForEntry s.collation e') = s.toSql (queryForEntry s.collation e))
    (hcomplete : ∀ group, groups.get? (s.toSql (queryForEntry s.collation e)) = some group →
      ∀ e' ∈ group.2, e' ∈ before) :
    Grouped s (entries ++ [e]) (groups.set (s.toSql (queryForEntry s.collation e)) (q, before ++ [e])) where
  query sql group hget := by
    rw [EntryMap.get?_set] at hget
    split at hget
    · cases hget
      exact hquery
    · exact h.query sql group hget
  member sql group hget e' hmem := by
    rw [EntryMap.get?_set] at hget
    split at hget
    · rename_i hsql
      cases hget
      rcases mem_append.1 hmem with hmem | hmem
      · exact ⟨mem_append_left _ (hmember e' hmem).1, hsql ▸ (hmember e' hmem).2⟩
      · obtain rfl := mem_singleton.1 hmem
        exact ⟨by simp, hsql.symm⟩
    · obtain ⟨hin, hsql⟩ := h.member sql group hget e' hmem
      exact ⟨mem_append_left _ hin, hsql⟩
  complete e' hmem := by
    simp only [EntryMap.get?_set]
    split
    · refine ⟨_, rfl, ?_⟩
      rename_i hsql
      rcases mem_append.1 hmem with hmem | hmem
      · obtain ⟨group, hget, hin⟩ := h.complete e' hmem
        exact mem_append_left _ (hcomplete group (hsql ▸ hget) e' hin)
      · exact mem_append_right _ hmem
    · rename_i hsql
      rcases mem_append.1 hmem with hmem | hmem
      · exact h.complete e' hmem
      · exact absurd (by rw [mem_singleton.1 hmem]) hsql

omit [DecidableEq κ] in
theorem queryGroups_spec (s : Server κ) (entries : List (Entry κ)) :
    Grouped s entries (queryGroups s entries) := by
  induction entries using List.reverseRecOn with
  | nil => exact ⟨by simp [queryGroups], by simp [queryGroups], by simp⟩
  | append_singleton entries e ih =>
    rw [queryGroups, foldl_append, foldl_cons, ← queryGroups]
    cases hget : (queryGroups s entries).get? (s.toSql (queryForEntry s.collation e)) with
    | none =>
      simp only [hget]
      exact ih.set e [] ⟨e, by simp, rfl⟩ (by simp) fun group h => by
        rw [hget] at h
        cases h
    | some group =>
      simp only [hget]
      obtain ⟨first, hfirst, hquery⟩ := ih.query _ group hget
      refine ih.set e group.2 ⟨first, mem_append_left _ hfirst, hquery⟩
        (ih.member _ group hget) fun group' h e' hmem => ?_
      cases hget.symm.trans h
      exact hmem

def countFor (d : Database κ) (contents : String → CountContent κ) (e : Entry κ) (k : κ) : ℕ :=
  if d.primaryKeyText = true ∧ e.relationship.foreignKeyText = false then 0
  else countOf (queryForEntry d.collation e) (contents e.relationship.tables) k

def entryCounts (d : Database κ) (primaryKey : String) (contents : String → CountContent κ)
    (models : List (Record κ)) (e : Entry κ) : List (Attached κ) :=
  models.map fun model => (model, e.attributeName,
    (readColumn model primaryKey).elim 0 (countFor d contents e))

/-- The entries that one call can ask for, and the parents: no condition has an `OR` beside others,
    queries of one text are executed alike, and no id is the name of an operator. -/
structure Askable (s : Server κ) (primaryKey : String) (entries : List (Entry κ))
    (models : List (Record κ)) : Prop where
  plain : ∀ e ∈ entries, Plain e.scopeWheres
  texts : ∀ e ∈ entries, ∀ e' ∈ entries, s.toSql (queryForEntry s.collation e) = s.toSql (queryForEntry s.collation e') →
    ∀ contents cohort, executeCountQuery s.toDatabase contents (queryForEntry s.collation e) cohort =
      executeCountQuery s.toDatabase contents (queryForEntry s.collation e') cohort
  ids : ∀ model ∈ models, ∃ k, readColumn model primaryKey = some k ∧
    WhereModelClassHash.operator? (s.keys.text (some k)) = none

omit [DecidableEq κ] in
theorem plain_append {xs ys : List (Clause (Joined κ))} (hxs : Plain xs) (hys : Plain ys) :
    Plain (xs ++ ys) := by
  intro c hmem
  exact (mem_append.1 hmem).elim (hxs c) (hys c)

omit [DecidableEq κ] in
theorem plain_queryForEntry {c : Collation κ} {e : Entry κ} (h : Plain e.scopeWheres) :
    Plain (queryForEntry c e).wheres := by
  have hsingle (b : Bool) (c : Clause (Joined κ)) (hc : c.others = []) :
      Plain (if b then [c] else []) := by
    intro c' hmem
    cases b with
    | false => cases hmem
    | true => rwa [mem_singleton.1 hmem]
  exact plain_append (plain_append (hsingle _ _ rfl) (hsingle _ _ rfl)) h

variable {primaryKey : String} {contents : String → CountContent κ} {models : List (Record κ)}

/-- The database takes no foreign key for a parent's id that it is not. -/
def KeysExact (s : Server κ) (primaryKey : String) (entries : List (Entry κ))
    (contents : String → CountContent κ) (models : List (Record κ)) : Prop :=
  ∀ e ∈ entries, TellsKeys s.collation e.relationship.foreignKey (contents e.relationship.tables)
    (models.map fun model => readColumn model primaryKey)

theorem attachCounts_eq (h : Askable s primaryKey entries models)
    (hexact : KeysExact s primaryKey entries contents models) {e : Entry κ} (he : e ∈ entries)
    (hordered : e.relationship.order.isSome = true → s.ordersGroups = true)
    (hlimit : ∀ n, e.relationship.limit = some n → n = 0 ∨ models.length ≤ n) :
    ∃ counts, executeChunkedCountQuery s.toDatabase contents (queryForEntry s.collation e)
        (models.map fun model => readColumn model primaryKey) = some counts ∧
      attachCounts s.toDatabase primaryKey counts e models =
        entryCounts s.toDatabase primaryKey contents models e := by
  have hnames : ∀ value ∈ models.map (fun model => readColumn model primaryKey),
      WhereModelClassHash.operator? (s.keys.text value) = none := by
    intro value hmem
    obtain ⟨model, hmodel, rfl⟩ := mem_map.1 hmem
    obtain ⟨k, hk, hname⟩ := h.ids model hmodel
    rwa [hk]
  obtain ⟨counts, hcounts, hget⟩ := executeChunkedCountQuery_spec (d := s.toDatabase)
    (q := queryForEntry s.collation e) contents hordered hnames (plain_queryForEntry (h.plain e he))
    (hexact e he) (by simpa [queryForEntry] using hlimit)
  refine ⟨counts, hcounts, map_congr_left fun model hmodel => ?_⟩
  obtain ⟨k, hk, -⟩ := h.ids model hmodel
  have hmem : some k ∈ models.map fun model => readColumn model primaryKey :=
    mem_map.2 ⟨model, hmodel, hk⟩
  rw [hk, resolvedCount_eq hget hmem]
  rfl

/-- **The counts of one call**: whatever the texts of the queries are, each entry gets its own. -/
theorem runWithCount_spec (h : Askable s primaryKey entries models)
    (hexact : KeysExact s primaryKey entries contents models)
    (hordered : ∀ e ∈ entries, e.relationship.order.isSome = true → s.ordersGroups = true)
    (hlimit : ∀ e ∈ entries, ∀ n, e.relationship.limit = some n → n = 0 ∨ models.length ≤ n) :
    ∃ attached, runWithCount s primaryKey contents entries models = some attached ∧
      ∀ a, a ∈ attached ↔
        ∃ e ∈ entries, a ∈ entryCounts s.toDatabase primaryKey contents models e := by
  by_cases hnone : models = [] ∨ entries.isEmpty
  · refine ⟨[], by rw [runWithCount, if_pos hnone], fun a => ⟨fun hmem => (by cases hmem), ?_⟩⟩
    rintro ⟨e, he, hmem⟩
    rcases hnone with rfl | hempty
    · cases hmem
    · rw [isEmpty_iff.1 hempty] at he
      cases he
  · have hgroups := queryGroups_spec s entries
    refine ⟨((queryGroups s entries).values.map fun group =>
      group.2.flatMap (entryCounts s.toDatabase primaryKey contents models)).flatten, ?_, fun a => ?_⟩
    · suffices hmap : (queryGroups s entries).values.mapM (fun group => do
            let counts ← executeChunkedCountQuery s.toDatabase contents group.1
              (models.map fun model => readColumn model primaryKey)
            some (group.2.flatMap fun e =>
              attachCounts s.toDatabase primaryKey counts e models)) =
          some ((queryGroups s entries).values.map fun group =>
            group.2.flatMap (entryCounts s.toDatabase primaryKey contents models)) by
        rw [runWithCount, if_neg hnone]
        exact congrArg (fun groups => groups.bind fun attached => some attached.flatten) hmap
      refine mapM_eq_some fun group hmem => ?_
      obtain ⟨sql, hget⟩ := EntryMap.mem_values.1 hmem
      obtain ⟨first, hfirst, hquery⟩ := hgroups.query sql group hget
      have hsame : ∀ e ∈ group.2, executeChunkedCountQuery s.toDatabase contents (queryForEntry s.collation e) =
          executeChunkedCountQuery s.toDatabase contents group.1 := by
        intro e he
        obtain ⟨hin, hsql⟩ := hgroups.member sql group hget e he
        obtain ⟨hin', hsql'⟩ := hgroups.member sql group hget first hfirst
        funext parentIds
        simp only [hquery, executeChunkedCountQuery,
          h.texts e hin first hin' (hsql.trans hsql'.symm)]
      have hcounts (e : Entry κ) (he : e ∈ group.2) := by
        have hin := (hgroups.member sql group hget e he).1
        exact hsame e he ▸ attachCounts_eq h hexact hin (hordered e hin)
          (hlimit e hin)
      obtain ⟨counts, hrun, -⟩ := hcounts first hfirst
      simp only [hrun, Option.bind_eq_bind, Option.bind_some, Option.some.injEq]
      refine flatMap_congr fun e he => ?_
      obtain ⟨counts', hrun', hattach⟩ := hcounts e he
      rwa [Option.some.inj (hrun.symm.trans hrun')]
    · simp only [mem_flatten, mem_map, EntryMap.mem_values]
      constructor
      · rintro ⟨_, ⟨group, ⟨sql, hget⟩, rfl⟩, hmem⟩
        obtain ⟨e, he, hin⟩ := mem_flatMap.1 hmem
        exact ⟨e, (hgroups.member sql group hget e he).1, hin⟩
      · rintro ⟨e, he, hmem⟩
        obtain ⟨group, hget, hin⟩ := hgroups.complete e he
        exact ⟨_, ⟨group, ⟨_, hget⟩, rfl⟩, mem_flatMap.2 ⟨e, hin, hmem⟩⟩

end Groups

end Velocious.WithCount
