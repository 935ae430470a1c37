/-
  When a query counts as many records as it loads.

  * A query alone may do so by chance; `count_agrees_iff` is about the query and all that narrow it by
    more conditions.
  * `Countable` is when they do: as a derived table always, by a key only if the projection that is
    left out makes a row of each joined row and tells apart what the key does.
-/
import Velocious.Database.Query.ModelClassQuery

namespace Velocious.ModelClassQuery

open Foundation List

section
variable {ν : Type} [DecidableEq ν] {m : ModelClass} {db : Database ν} {q : Query ν} {key : String}

variable (m db) in
/-- If a query loads records, it counts as many. -/
def CountAgrees (q : Query ν) : Prop :=
  ∀ records, toArray m db q = some records → count m db q = .ok records.length

variable (m db) in
/-- The columns of the primary key are `NOT NULL`. -/
def KeysNotNull : Prop :=
  ∀ column ∈ m.keyColumns, ∀ row ∈ db.content m.tableName, row column ≠ .null

variable (m db) in
/-- Counting and loading see the same rows. -/
inductive Countable (q : Query ν) : Prop
  | derived : q.limit ≠ none ∨ q.offset ≠ none ∨ m.singleColumnPrimaryKey = none →
      db.acceptsDerived q = true → Countable q
  | byKey {key : String} : m.singleColumnPrimaryKey = some key → q.limit = none → q.offset = none →
      db.accepts (q.countQuery m) = true →
      (∀ select ∈ q.selects, select.isAggregate = false) →
      (∀ row ∈ q.rows m db, row.root ≠ none) →
      (q.distinct = true → ∀ r ∈ q.rows m db, ∀ s ∈ q.rows m db,
        r.rootColumn key = s.rootColumn key ↔ q.cells m [r] = q.cells m [s]) → Countable q

/-! ## Rows -/

variable {row : JoinedRow ν}

omit [DecidableEq ν] in
theorem root_mem {root : TableRow ν} (h : row ∈ q.rows m db)
    (hroot : row.root = some root) : root ∈ db.content m.tableName := by
  have hjoined : ∀ (joins : List (Join ν)) (rows : List (JoinedRow ν)),
      (∀ row ∈ rows, ∀ root, row.root = some root → root ∈ db.content m.tableName) →
      ∀ row ∈ joins.foldl (fun rows join => joinRows join.type join.on
          (JoinedRow.merge join.reference) rows (db.content join.table)) rows,
        ∀ root, row.root = some root → root ∈ db.content m.tableName := by
    intro joins
    induction joins with
    | nil => exact fun _ hrows => hrows
    | cons join joins ih =>
      intro rows hrows
      refine ih _ fun row hrow root hroot => ?_
      rcases mem_joinRows hrow with ⟨a, ha, b, rfl⟩ | ⟨-, b, -, rfl⟩
      · exact hrows a ha root hroot
      · cases hroot
  refine hjoined q.joins _ (fun row hrow root hroot => ?_) row (mem_of_mem_filter h) root hroot
  obtain ⟨root', hroot', rfl⟩ := mem_map.mp hrow
  rwa [← Option.some.inj hroot]

omit [DecidableEq ν] in
theorem rows_where (conditions : List (JoinedRow ν → Bool)) :
    (q.where conditions).rows m db =
      (q.rows m db).filter fun row => conditions.all fun condition => condition row := by
  simp only [Query.rows, Query.where, filter_filter, all_append]
  refine filter_congr fun row _ => ?_
  rw [Bool.and_comm]

omit [DecidableEq ν] in
theorem mem_keyColumns (h : m.singleColumnPrimaryKey = some key) : key ∈ m.keyColumns := by
  unfold ModelClass.singleColumnPrimaryKey at h
  unfold ModelClass.keyColumns
  split at h
  · rename_i hkey
    rw [if_pos hkey]
    obtain hleft := Sum.getLeft?_eq_some_iff.mp h
    rw [hleft]
    exact mem_singleton_self key
  · cases h

omit [DecidableEq ν] in
theorem rootColumn_eq_null (hkeys : KeysNotNull m db) (hkey : m.singleColumnPrimaryKey = some key)
    (h : row ∈ q.rows m db) : row.rootColumn key = .null ↔ row.root = none := by
  unfold JoinedRow.rootColumn
  cases hroot : row.root with
  | none => simp
  | some root => simpa using hkeys key (mem_keyColumns hkey) root (root_mem h hroot)

omit [DecidableEq ν] in
theorem roots_of_joins (h : ∀ join ∈ q.joins, join.type.keepsRight = false)
    (hrow : row ∈ q.rows m db) : row.root ≠ none := by
  have hjoined : ∀ (joins : List (Join ν)) (rows : List (JoinedRow ν)),
      (∀ join ∈ joins, join.type.keepsRight = false) → (∀ row ∈ rows, row.root ≠ none) →
      ∀ row ∈ joins.foldl (fun rows join => joinRows join.type join.on
        (JoinedRow.merge join.reference) rows (db.content join.table)) rows, row.root ≠ none := by
    intro joins
    induction joins with
    | nil => exact fun _ _ hrows => hrows
    | cons join joins ih =>
      intro rows hleft hrows
      refine ih _ (fun join hjoin => hleft join (mem_cons_of_mem _ hjoin)) fun row hrow => ?_
      rcases mem_joinRows hrow with ⟨a, ha, b, rfl⟩ | ⟨hright, -⟩
      · exact hrows a ha
      · rw [hleft join mem_cons_self] at hright
        cases hright
  refine hjoined q.joins _ h (fun row hrow => ?_) row (mem_of_mem_filter hrow)
  obtain ⟨root, -, rfl⟩ := mem_map.mp hrow
  exact Option.some_ne_none root

omit [DecidableEq ν] in
theorem tells_of_unique (hselects : q.selects = []) (hcolumn : key ∈ m.columns)
    (hunique : ∀ a ∈ db.content m.tableName, ∀ b ∈ db.content m.tableName, a key = b key →
      ∀ column ∈ m.columns, a column = b column)
    (hroots : ∀ row ∈ q.rows m db, row.root ≠ none) {r s : JoinedRow ν} (hr : r ∈ q.rows m db)
    (hs : s ∈ q.rows m db) :
    r.rootColumn key = s.rootColumn key ↔ q.cells m [r] = q.cells m [s] := by
  obtain ⟨a, ha⟩ := Option.ne_none_iff_exists'.mp (hroots r hr)
  obtain ⟨b, hb⟩ := Option.ne_none_iff_exists'.mp (hroots s hs)
  have hcells : ∀ row, q.cells m [row] = m.columns.map row.rootColumn := fun row => by
    rw [Query.cells, if_pos hselects, headD_cons]
  rw [hcells, hcells, map_inj_left]
  constructor
  · intro hkey column hmem
    simp only [JoinedRow.rootColumn, ha, hb, Option.elim_some] at hkey ⊢
    exact hunique a (root_mem hr ha) b (root_mem hs hb) hkey column hmem
  · exact fun hall => hall key hcolumn

theorem outputs_perm (hlimit : q.limit = none) (hoffset : q.offset = none) :
    (q.outputs m db).Perm (if q.distinct then ((q.batches m db).map (q.cells m)).dedup
      else (q.batches m db).map (q.cells m)) := by
  simpa [Query.outputs, window, hlimit, hoffset] using db.arrange_perm q _

theorem length_outputs_of_aggregate (hgroups : q.groups = []) (hlimit : q.limit = none)
    (hoffset : q.offset = none) (h : ∃ select ∈ q.selects, select.isAggregate = true) :
    (q.outputs m db).length = 1 := by
  rw [(outputs_perm hlimit hoffset).length_eq, Query.batches, if_neg (not_not.mpr hgroups),
    if_pos (any_eq_true.mpr h)]
  split <;> simp

theorem length_outputs (hgroups : q.groups = []) (hlimit : q.limit = none)
    (hoffset : q.offset = none) (h : ∀ select ∈ q.selects, select.isAggregate = false) :
    (q.outputs m db).length =
      if q.distinct then ((q.rows m db).map fun row => q.cells m [row]).dedup.length
      else (q.rows m db).length := by
  have hnone : ¬q.selects.any Select.isAggregate = true := by
    simpa using h
  rw [(outputs_perm hlimit hoffset).length_eq, Query.batches, if_neg (not_not.mpr hgroups)]
  split <;> simp [Function.comp_def]

def Query.keys (q : Query ν) (m : ModelClass) (db : Database ν) (key : String) : List (SqlValue ν) :=
  ((q.rows m db).map fun row => row.rootColumn key).filter (· ≠ .null)

theorem keys_of_roots (hkeys : KeysNotNull m db) (hkey : m.singleColumnPrimaryKey = some key)
    (hroots : ∀ row ∈ q.rows m db, row.root ≠ none) (conditions : List (JoinedRow ν → Bool)) :
    (q.where conditions).keys m db key =
      ((q.where conditions).rows m db).map fun row => row.rootColumn key := by
  refine filter_eq_self.mpr fun value hvalue => ?_
  obtain ⟨row, hrow, rfl⟩ := mem_map.mp hvalue
  rw [rows_where] at hrow
  have hmem := mem_of_mem_filter hrow
  simpa using mt (rootColumn_eq_null hkeys hkey hmem).mp (hroots row hmem)

theorem count_derived (hgroups : q.groups = [])
    (h : q.limit ≠ none ∨ q.offset ≠ none ∨ m.singleColumnPrimaryKey = none) :
    count m db q = if db.acceptsDerived q then .ok (q.outputs m db).length
      else .error .refused := by
  have hpaginated : q.limit ≠ none ∨ q.offset ≠ none ∨
      (¬m.singleColumnPrimaryKey.isSome = true ∧ q.groups = []) := by
    simpa [hgroups] using h
  rw [count, if_pos hpaginated, paginatedCount, executeDerived]
  split
  · rename_i haccepts
    split at haccepts <;> simp_all
  · rename_i haccepts
    split at haccepts
    · cases haccepts
      simp_all [countColumn]
    · cases haccepts
  · rename_i hother haccepts
    split at haccepts
    · cases haccepts
      exact absurd rfl (hother _)
    · cases haccepts

theorem count_byKey (hgroups : q.groups = []) (hkey : m.singleColumnPrimaryKey = some key)
    (hlimit : q.limit = none) (hoffset : q.offset = none) :
    count m db q = if db.accepts (q.countQuery m) then
        .ok (if q.distinct then (q.keys m db key).dedup else q.keys m db key).length
      else .error .refused := by
  have houtputs : (q.countQuery m).outputs m db =
      [[.number (if q.distinct then (q.keys m db key).dedup else q.keys m db key).length]] := by
    have hperm := @outputs_perm ν _ m db (q.countQuery m) hlimit hoffset
    refine perm_singleton.mp (hperm.trans ?_)
    simp [Query.batches, Query.countQuery, hgroups, Query.cells, Select.cells, countExpression,
      Select.isAggregate, hkey, Query.keys, Query.rows]
  have hpaginated : ¬(q.limit ≠ none ∨ q.offset ≠ none ∨
      (¬m.singleColumnPrimaryKey.isSome = true ∧ q.groups = [])) := by
    simp [hlimit, hoffset, hkey]
  have hgrouped : ¬(¬m.singleColumnPrimaryKey.isSome = true ∧ q.distinct = true) := by
    simp [hkey]
  rw [count, if_neg hpaginated, if_neg hgrouped, execute, houtputs]
  cases db.accepts (q.countQuery m) <;> rfl

/-! ## Counting against loading -/

theorem accepts_countQuery_where (conditions : List (JoinedRow ν → Bool)) :
    db.accepts ((q.where conditions).countQuery m) = db.accepts (q.countQuery m) :=
  db.accepts_where (q.countQuery m) conditions

theorem countAgrees_derived (hgroups : q.groups = []) (haccepts : db.accepts q = true)
    (h : q.limit ≠ none ∨ q.offset ≠ none ∨ m.singleColumnPrimaryKey = none) :
    CountAgrees m db q ↔ db.acceptsDerived q = true := by
  unfold CountAgrees toArray execute
  rw [count_derived hgroups h, if_pos haccepts]
  constructor
  · intro hagrees
    by_contra hrefused
    have herror := hagrees _ rfl
    rw [if_neg hrefused] at herror
    cases herror
  · rintro hderived records hrecords
    cases hrecords
    rw [if_pos hderived]

theorem countAgrees_byKey (hgroups : q.groups = []) (haccepts : db.accepts q = true)
    (hkey : m.singleColumnPrimaryKey = some key) (hlimit : q.limit = none)
    (hoffset : q.offset = none) :
    CountAgrees m db q ↔ db.accepts (q.countQuery m) = true ∧
      (if q.distinct then (q.keys m db key).dedup else q.keys m db key).length =
        (q.outputs m db).length := by
  unfold CountAgrees toArray execute
  rw [count_byKey hgroups hkey hlimit hoffset, if_pos haccepts]
  constructor
  · intro hagrees
    have hcount := hagrees _ rfl
    split at hcount
    · rename_i hcounts
      exact ⟨hcounts, Int.ofNat_inj.mp (Except.ok.inj hcount)⟩
    · cases hcount
  · rintro ⟨hcounts, hlength⟩ records hrecords
    cases hrecords
    rw [if_pos hcounts, hlength]

omit [DecidableEq ν] in
theorem exists_where_pair {r s : JoinedRow ν} (hr : r ∈ q.rows m db) (hs : s ∈ q.rows m db) :
    ∃ conditions, r ∈ (q.where conditions).rows m db ∧ s ∈ (q.where conditions).rows m db ∧
      ∀ row ∈ (q.where conditions).rows m db, row = r ∨ row = s := by
  classical
  refine ⟨[fun row => decide (row = r ∨ row = s)], ?_⟩
  rw [rows_where]
  simp only [mem_filter, all_cons, all_nil, Bool.and_true, decide_eq_true_eq]
  exact ⟨⟨hr, by simp⟩, ⟨hs, by simp⟩, fun row hrow => hrow.2⟩

section
variable (hgroups : q.groups = []) (hlimit : q.limit = none) (hoffset : q.offset = none)
  (hplain : ∀ select ∈ q.selects, select.isAggregate = false)
  (hagrees : ∀ conditions, (if q.distinct then ((q.where conditions).keys m db key).dedup
    else (q.where conditions).keys m db key).length = ((q.where conditions).outputs m db).length)
include hgroups hlimit hoffset hplain hagrees

theorem root_of_agrees {row : JoinedRow ν} (hrow : row ∈ q.rows m db) : row.root ≠ none := by
  intro hroot
  obtain ⟨conditions, hmem, -, hpair⟩ := exists_where_pair hrow hrow
  have hkeys : (q.where conditions).keys m db key = [] := by
    refine filter_eq_nil_iff.mpr fun value hvalue => ?_
    obtain ⟨other, hother, rfl⟩ := mem_map.mp hvalue
    have heq : other = row := (hpair other hother).elim id id
    simp [heq, JoinedRow.rootColumn, hroot]
  have hlength := hagrees conditions
  rw [@length_outputs ν _ m db (q.where conditions) hgroups hlimit hoffset hplain, hkeys] at hlength
  have hne : (q.where conditions).rows m db ≠ [] := ne_nil_of_mem hmem
  cases hdistinct : q.distinct with
  | false =>
    simp only [hdistinct, Query.where] at hlength
    exact hne (length_eq_zero_iff.mp hlength.symm)
  | true =>
    simp only [hdistinct, Query.where, if_true, dedup_nil, length_nil] at hlength
    refine hne ?_
    rwa [eq_comm, length_eq_zero_iff, dedup_eq_nil, map_eq_nil_iff] at hlength

theorem tells_of_agrees (hkeys : KeysNotNull m db) (hkey : m.singleColumnPrimaryKey = some key)
    (hdistinct : q.distinct = true) {r s : JoinedRow ν} (hr : r ∈ q.rows m db)
    (hs : s ∈ q.rows m db) :
    r.rootColumn key = s.rootColumn key ↔ q.cells m [r] = q.cells m [s] := by
  have hroots := fun row hrow => @root_of_agrees ν _ m db q key hgroups hlimit hoffset hplain hagrees
    row hrow
  obtain ⟨conditions, hr', hs', hpair⟩ := exists_where_pair hr hs
  have hlength := hagrees conditions
  rw [@length_outputs ν _ m db (q.where conditions) hgroups hlimit hoffset hplain,
    keys_of_roots hkeys hkey hroots, if_pos hdistinct] at hlength
  have hdistinct' : (q.where conditions).distinct = true := hdistinct
  rw [length_dedup_map_pair hr' hs' hpair,
    length_dedup_map_pair hr' hs' hpair] at hlength
  have hcells : ∀ group, (q.where conditions).cells m group = q.cells m group := fun _ => rfl
  split at hlength <;> simp_all

end

/-- **A query and all that narrow it count as many records as they load** exactly if they are
counted as a derived table that the database takes, or by a key where the selects hold no aggregate,
no join leaves the root out, and `DISTINCT` tells apart what the key does. -/
theorem count_agrees_iff (hgroups : q.groups = []) (haccepts : db.accepts q = true)
    (hkeys : KeysNotNull m db) :
    (∀ conditions, CountAgrees m db (q.where conditions)) ↔ Countable m db q := by
  have haccepts' : ∀ conditions, db.accepts (q.where conditions) = true := fun conditions =>
    (db.accepts_where q conditions).trans haccepts
  by_cases hderived : q.limit ≠ none ∨ q.offset ≠ none ∨ m.singleColumnPrimaryKey = none
  · have hiff : ∀ conditions, CountAgrees m db (q.where conditions) ↔ db.acceptsDerived q = true := by
      intro conditions
      rw [@countAgrees_derived ν _ m db (q.where conditions) hgroups (haccepts' conditions) hderived,
        db.acceptsDerived_where]
    constructor
    · intro hagrees
      exact .derived hderived ((hiff []).mp (hagrees []))
    · rintro (⟨-, htakes⟩ | ⟨hkey, hlimit, hoffset, -⟩) conditions
      · exact (hiff conditions).mpr htakes
      · simp [hkey, hlimit, hoffset] at hderived
  · push Not at hderived
    obtain ⟨hlimit, hoffset, hsome⟩ := hderived
    obtain ⟨key, hkey⟩ := Option.ne_none_iff_exists'.mp hsome
    have hiff : ∀ conditions, CountAgrees m db (q.where conditions) ↔
        db.accepts (q.countQuery m) = true ∧
          (if q.distinct then ((q.where conditions).keys m db key).dedup
            else (q.where conditions).keys m db key).length =
              ((q.where conditions).outputs m db).length := by
      intro conditions
      rw [@countAgrees_byKey ν _ m db (q.where conditions) key hgroups (haccepts' conditions) hkey
        hlimit hoffset, accepts_countQuery_where]
      rfl
    constructor
    · intro hagrees
      have hlengths := fun conditions => ((hiff conditions).mp (hagrees conditions)).2
      have hplain : ∀ select ∈ q.selects, select.isAggregate = false := by
        intro select hselect
        by_contra haggregate
        have hone := @length_outputs_of_aggregate ν _ m db (q.where [fun _ => false]) hgroups hlimit
          hoffset ⟨select, hselect, by simpa using haggregate⟩
        have hrows : (q.where [fun _ => false]).keys m db key = [] := by
          simp [Query.keys, rows_where]
        have hzero := hlengths [fun _ => false]
        rw [hone, hrows] at hzero
        split at hzero <;> cases hzero
      exact .byKey hkey hlimit hoffset ((hiff []).mp (hagrees [])).1 hplain
        (fun row => root_of_agrees hgroups hlimit hoffset hplain hlengths)
        fun hdistinct r hr s hs =>
          tells_of_agrees hgroups hlimit hoffset hplain hlengths hkeys hkey hdistinct hr hs
    · rintro (⟨hderived, -⟩ | ⟨hkey', -, -, hcounts, hplain, hroots, htells⟩) conditions
      · simp [hkey, hlimit, hoffset] at hderived
      · cases hkey.symm.trans hkey'
        refine (hiff conditions).mpr ⟨hcounts, ?_⟩
        have hmem : ∀ row ∈ (q.where conditions).rows m db, row ∈ q.rows m db := by
          intro row hrow
          rw [rows_where] at hrow
          exact mem_of_mem_filter hrow
        rw [@length_outputs ν _ m db (q.where conditions) hgroups hlimit hoffset hplain,
          keys_of_roots hkeys hkey hroots]
        cases hdistinct : q.distinct with
        | false => simp [hdistinct, Query.where]
        | true =>
          simp only [hdistinct, Query.where]
          exact length_dedup_map fun r hr s hs => htells hdistinct r (hmem r hr) s (hmem s hs)

end

/-! ## Tasks -/

def taskModel : ModelClass := ⟨"Task", "tasks", ["id", "project_id"], .unset⟩

/-- Two tasks of one project; every statement is taken, and rows are returned as they are found. -/
def twoTasks : Database String where
  content table :=
    if table = "tasks" then
      [1, 2].map fun id column => if column = "id" then .number id else .number 7
    else if table = "projects" then [fun _ => .number 7]
    else []
  accepts _ := true
  acceptsDerived _ := true
  arrange _ records := records
  arrange_perm _ records := .refl records
  accepts_where _ _ := rfl
  acceptsDerived_where _ _ := rfl

/-- `joins({project: true}).distinct()` -/
def withProjects : Query String where
  joins := [⟨.left, "projects", "projects",
    fun row project => row.rootColumn "project_id" = project "id"⟩]
  distinct := true

/-- `select("project_id").distinct()` -/
def projectIds : Query String where
  selects := [.columns fun row => [row.rootColumn "project_id"]]
  distinct := true

theorem keysNotNull_twoTasks : KeysNotNull taskModel twoTasks := by
  simp [KeysNotNull, taskModel, ModelClass.keyColumns, ModelClass.hasPrimaryKey,
    ModelClass.primaryKey, twoTasks]

theorem count_agrees_withProjects : CountAgrees taskModel twoTasks withProjects := by
  have hroots : ∀ row ∈ withProjects.rows taskModel twoTasks, row.root ≠ none := fun row =>
    roots_of_joins (by decide)
  refine (count_agrees_iff rfl rfl keysNotNull_twoTasks).mpr
    (@Countable.byKey String _ taskModel twoTasks withProjects "id" (by decide) rfl rfl rfl
      (by decide) hroots fun _ r hr s hs => ?_) []
  refine tells_of_unique rfl (by decide) ?_ hroots hr hs
  simp [twoTasks, taskModel]

/-- Two tasks are counted where one record is loaded. -/
theorem count_misses_selects :
    projectIds.groups = [] ∧ KeysNotNull taskModel twoTasks ∧
      toArray taskModel twoTasks projectIds = some [[.number 7]] ∧
      count taskModel twoTasks projectIds = .ok 2 ∧ ¬CountAgrees taskModel twoTasks projectIds := by
  have hload : toArray taskModel twoTasks projectIds = some [[.number 7]] := by decide
  have hcount : count taskModel twoTasks projectIds = .ok 2 := by decide
  refine ⟨rfl, keysNotNull_twoTasks, hload, hcount, fun hagrees => ?_⟩
  cases hcount.symm.trans (hagrees _ hload)

end Velocious.ModelClassQuery
