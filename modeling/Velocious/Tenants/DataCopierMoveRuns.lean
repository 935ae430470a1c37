/-
  When a move loses no row.

  * `Read`: what has been read of a table; `PhaseSound`: what holds of the rows read in each phase.
  * `step_sound`: what every step keeps.
-/
import Velocious.Tenants.DataCopierReached

namespace Velocious.DataCopier

open Foundation Copier List

namespace Move
variable {m : Move} {rows : RowsByTableName} {source source' target db : Database}
  {tableConfig : TableConfig} {row : Row}

/-! ## Writing the target -/

/-- The ids that a deletion of some rows has in its statements. -/
def deletedIds (rows : RowsByTableName) (tableConfig : TableConfig) : List String :=
  uniqueStrings ((rowsOf rows tableConfig).map Row.id)

theorem mem_deletedIds {id : String} :
    id ∈ deletedIds rows tableConfig ↔
      (∃ row ∈ rowsOf rows tableConfig, row.id = id) ∧ trim id ≠ "" := by
  simp [deletedIds, mem_uniqueStrings]

theorem mem_deleteRows_ids (ht : tableConfig ∈ m.tablePlan) :
    row ∈ m.deleteRows rows db tableConfig.tableName ↔
      row ∈ db tableConfig.tableName ∧ row.id ∉ deletedIds rows tableConfig := by
  unfold deleteRows
  rw [mem_foldl_deleteFrom]
  refine and_congr_right fun _ => ?_
  constructor
  · intro h
    exact h tableConfig (mem_reverse.mpr ht) rfl
  · intro h other hother hname
    obtain rfl := inj_on_of_nodup_map m.tables_nodup (mem_reverse.mp hother) ht hname
    exact h

theorem deleteRows_of_not_mem {tableName : String}
    (h : tableName ∉ m.tablePlan.map TableConfig.tableName) :
    m.deleteRows rows db tableName = db tableName := by
  refine foldl_deleteFrom_of_not_mem ?_
  rwa [map_reverse, mem_reverse]

theorem transformTable_ok {tableName : String} {sourceRows : List Row} :
    ∀ {transformedRows : List TransformedRow},
      m.transformTable tableName sourceRows = .ok transformedRows →
      transformedRows = sourceRows.map (m.transformed tableName) ∧
      ∀ row ∈ sourceRows, (m.transformed tableName row).row.id = row.id := by
  induction sourceRows with
  | nil =>
    rintro transformedRows h
    cases h
    exact ⟨rfl, fun _ h => absurd h not_mem_nil⟩
  | cons sourceRow others ih =>
    intro transformedRows h
    unfold transformTable at h
    split at h
    · cases h
    · next hid =>
      cases hrest : m.transformTable tableName others with
      | error e =>
        rw [hrest] at h
        cases h
      | ok transformedOthers =>
        rw [hrest] at h
        cases h
        obtain ⟨rfl, hids⟩ := ih hrest
        exact ⟨rfl, forall_mem_cons.mpr ⟨not_not.mp hid, hids⟩⟩

theorem foldlM_transformTable {tables : List TableConfig} :
    ∀ {before after : String → List TransformedRow}, (tables.map TableConfig.tableName).Nodup →
      tables.foldlM (fun transformedRowsByTableName tableConfig =>
        (m.transformTable tableConfig.tableName (rowsOf rows tableConfig)).map
          (Function.update transformedRowsByTableName tableConfig.tableName)) before = .ok after →
      (∀ tableConfig ∈ tables,
        after tableConfig.tableName =
          (rowsOf rows tableConfig).map (m.transformed tableConfig.tableName) ∧
        ∀ row ∈ rowsOf rows tableConfig,
          (m.transformed tableConfig.tableName row).row.id = row.id) ∧
      ∀ tableName ∉ tables.map TableConfig.tableName, after tableName = before tableName := by
  induction tables with
  | nil =>
    rintro before after - h
    cases h
    exact ⟨fun _ h => absurd h not_mem_nil, fun _ _ => rfl⟩
  | cons tableConfig others ih =>
    intro before after hnodup h
    obtain ⟨hname, hnodup⟩ := nodup_cons.mp hnodup
    rw [foldlM_cons] at h
    cases htable : m.transformTable tableConfig.tableName (rowsOf rows tableConfig) with
    | error e =>
      rw [htable] at h
      cases h
    | ok transformedRows =>
      rw [htable] at h
      obtain ⟨rfl, hids⟩ := transformTable_ok htable
      obtain ⟨hothers, hrest⟩ := ih hnodup h
      refine ⟨forall_mem_cons.mpr ⟨⟨?_, hids⟩, hothers⟩, fun tableName hnot => ?_⟩
      · rw [hrest _ hname, Function.update_self]
      · obtain ⟨hne, hnot⟩ := not_or.mp (mt mem_cons.mpr hnot)
        rw [hrest _ hnot, Function.update_of_ne hne]

/-- The rows of one table are transformed to objects with the same keys. -/
def SameColumns (m : Move) : Prop :=
  ∀ tableConfig ∈ m.tablePlan, ∀ row row' : Row,
    (m.transformed tableConfig.tableName row).hasColumn =
      (m.transformed tableConfig.tableName row').hasColumn

theorem rowsOf_insertedRows (hcolumns : m.SameColumns) (ht : tableConfig ∈ m.tablePlan)
    {transformedRows : String → List TransformedRow}
    (h : transformedRows tableConfig.tableName =
      (rowsOf rows tableConfig).map (m.transformed tableConfig.tableName)) :
    rowsOf (m.insertedRows transformedRows) tableConfig =
      (rowsOf rows tableConfig).map (m.image tableConfig.tableName) := by
  unfold rowsOf insertedRows
  rw [h, ← rowsOf]
  cases rowsOf rows tableConfig with
  | nil => rfl
  | cons first others =>
    change ((first :: others).map (m.transformed tableConfig.tableName)).map (m.insertedRow
      tableConfig.tableName (m.transformed tableConfig.tableName first).hasColumn) = _
    rw [map_map]
    refine map_congr_left fun row _ => ?_
    unfold image
    rw [Function.comp_apply, hcolumns tableConfig ht first row]

theorem writeTarget_ok (hcolumns : m.SameColumns) (h : m.writeTarget rows target = .ok db) :
    (∀ tableConfig ∈ m.tablePlan,
      (∀ row, row ∈ db tableConfig.tableName ↔
        (row ∈ target tableConfig.tableName ∧ row.id ∉ deletedIds rows tableConfig) ∨
          ∃ sourceRow ∈ rowsOf rows tableConfig,
            m.image tableConfig.tableName sourceRow = row) ∧
      ∀ sourceRow ∈ rowsOf rows tableConfig,
        (m.image tableConfig.tableName sourceRow).id = sourceRow.id) ∧
    ∀ tableName ∉ m.tablePlan.map TableConfig.tableName, db tableName = target tableName := by
  unfold writeTarget at h
  cases htransform : m.transformRows rows with
  | error e =>
    rw [htransform] at h
    cases h
  | ok transformedRows =>
    rw [htransform] at h
    obtain ⟨htables, -⟩ := foldlM_transformTable m.tables_nodup htransform
    dsimp only [Except.bind, bind] at h
    cases hinsert : m.insertRows (m.insertedRows transformedRows) (m.deleteRows rows target) with
    | none =>
      rw [hinsert] at h
      cases h
    | some inserted =>
      rw [hinsert] at h
      dsimp only at h
      cases hassert : m.assertRowsExist inserted transformedRows with
      | error e =>
        rw [hassert] at h
        cases h
      | ok _ =>
        rw [hassert] at h
        obtain rfl : inserted = db := Except.ok.inj h
        obtain ⟨hrows, hrest⟩ := (foldlM_insertInto _ _ _ m.tables_nodup).2 _ hinsert
        refine ⟨fun tableConfig ht => ⟨fun row => ?_, (htables tableConfig ht).2⟩,
          fun tableName hnot => ?_⟩
        · rw [Table.mem_def, hrows tableConfig ht, mem_append, ← Table.mem_def,
            mem_deleteRows_ids ht, rowsOf_insertedRows hcolumns ht (htables tableConfig ht).1,
            mem_map]
        · rw [hrest _ hnot, deleteRows_of_not_mem hnot]

/-! ## Reading the source -/

/-- What has been read of a table was in its scope, and its ids are reached in the source. -/
def Read (m : Move) (rows : RowsByTableName) (source : Database) (tableConfig : TableConfig) :
    Prop :=
  ∃ columnName values, scope rows m.keyValue tableConfig = .ok (columnName, values) ∧
    ∀ row ∈ rowsOf rows tableConfig, m.Reads row columnName values ∧
      ∃ found, m.Reached source m.keyValue tableConfig found ∧ found.id = row.id

/-- What holds while the tables are read. -/
structure Loading (m : Move) (rows : RowsByTableName) (source : Database)
    (reading : Option Reading) (tables : List TableConfig) : Prop where
  sub : ∀ tableConfig ∈ tables, tableConfig ∈ m.tablePlan
  nodup : (tables.map TableConfig.tableName).Nodup
  fresh : ∀ tableConfig ∈ tables, rows tableConfig.tableName = none
  known : ∀ tableName tableRows, rows tableName = some tableRows →
    ∃ tableConfig ∈ m.tablePlan, tableConfig.tableName = tableName
  read : ∀ tableConfig ∈ m.tablePlan, tableConfig ∉ tables → m.Read rows source tableConfig
  traversable : ∀ after, m.traversePlan (fun _ => .empty) m.keyValue tables rows = .ok after →
    m.Traversable
  current : ∀ table, reading = some table → ∀ tableConfig others, tables = tableConfig :: others →
    ∃ values, scope rows m.keyValue tableConfig = .ok (table.columnName, values) ∧
      (∀ valuesChunk ∈ table.valuesChunks, ∀ value ∈ valuesChunk,
        value ∈ values ∧ trim value ≠ "") ∧
      ∀ row ∈ table.rows, m.Reads row table.columnName values ∧
        ∃ found, m.Reached source m.keyValue tableConfig found ∧ found.id = row.id

/-- What holds once the tables are read. -/
structure Loaded (m : Move) (rows : RowsByTableName) (source : Database) : Prop where
  known : ∀ tableName tableRows, rows tableName = some tableRows →
    ∃ tableConfig ∈ m.tablePlan, tableConfig.tableName = tableName
  read : ∀ tableConfig ∈ m.tablePlan, m.Read rows source tableConfig
  traversable : m.Traversable

/-- What holds of the rows that are read, in each phase. -/
def PhaseSound (m : Move) (targetKey : String) (source target : Database) : Phase → Prop
  | .idle => True
  | .loading rows reading tables => m.Loading rows source reading tables
  | .loaded rows => m.Loaded rows source
  | .copied rows => m.Loaded rows source ∧ ∀ tableConfig ∈ m.tablePlan,
      ∀ row ∈ rowsOf rows tableConfig,
        m.Reached target targetKey tableConfig (m.image tableConfig.tableName row) ∧
          (m.image tableConfig.tableName row).id = row.id

theorem loading_start (source : Database) :
    m.Loading (fun _ => none) source none m.tablePlan where
  sub := fun _ h => h
  nodup := m.tables_nodup
  fresh := fun _ _ => rfl
  known := fun _ _ h => by cases h
  read := fun _ h hnot => absurd h hnot
  traversable := fun _ h => traversePlan_of_loaded (fun _ => rfl) h
  current := fun _ h => by cases h

theorem Loading.reached {reading : Option Reading} {tables others : List TableConfig}
    (h : m.Loading rows source reading tables) (htables : tables = tableConfig :: others)
    {columnName : String} {values : List String}
    (hscope : scope rows m.keyValue tableConfig = .ok (columnName, values))
    (hrow : row ∈ source tableConfig.tableName) (hread : m.Reads row columnName values) :
    m.Reached source m.keyValue tableConfig row := by
  refine .of_scope (h.sub _ (by simp [htables])) hrow hscope hread
    fun parentTableName parentRows hrows => ?_
  obtain ⟨parent, hmem, rfl⟩ := h.known _ _ hrows
  have hnot : parent ∉ tables := fun hin => by cases (h.fresh parent hin).symm.trans hrows
  obtain ⟨_, _, -, hread⟩ := h.read parent hmem hnot
  refine ⟨parent, hmem, rfl, fun parentRow hparentRow => (hread parentRow ?_).2⟩
  simpa [rowsOf, hrows] using hparentRow

theorem Loading.finish {columnName : String} {tableRows : List Row} {others : List TableConfig}
    (h : m.Loading rows source (some ⟨columnName, [], tableRows⟩) (tableConfig :: others)) :
    m.Loading (Function.update rows tableConfig.tableName (some tableRows)) source none others := by
  obtain ⟨hname, hnodup⟩ := nodup_cons.mp h.nodup
  obtain ⟨ht, hsub⟩ := forall_mem_cons.mp h.sub
  obtain ⟨hnone, hfresh⟩ := forall_mem_cons.mp h.fresh
  obtain ⟨values, hscope, -, hfound⟩ := h.current _ rfl _ _ rfl
  have hkeep : ∀ tableName parentRows, rows tableName = some parentRows →
      Function.update rows tableConfig.tableName (some tableRows) tableName = some parentRows := by
    intro tableName parentRows hrows
    rw [Function.update_of_ne]
    · exact hrows
    · rintro rfl
      cases hnone.symm.trans hrows
  refine ⟨hsub, hnodup, fun other hother => ?_, fun tableName found hrows => ?_,
    fun other hother hnot => ?_, fun after hafter => ?_, fun _ h => by cases h⟩
  · rw [Function.update_of_ne]
    · exact hfresh other hother
    · exact fun heq => hname (heq ▸ mem_map_of_mem hother)
  · by_cases htable : tableName = tableConfig.tableName
    · exact ⟨tableConfig, ht, htable.symm⟩
    · rw [Function.update_of_ne htable] at hrows
      exact h.known tableName found hrows
  · by_cases heq : other = tableConfig
    · subst heq
      refine ⟨columnName, values, scope_congr hscope hkeep, fun row hrow => hfound row ?_⟩
      rwa [rowsOf, Function.update_self] at hrow
    · have hne : other.tableName ≠ tableConfig.tableName := fun hsame =>
        heq (inj_on_of_nodup_map m.tables_nodup hother ht hsame)
      obtain ⟨columnName', values', hscope', hread⟩ :=
        h.read other hother (not_mem_cons_of_ne_of_not_mem heq hnot)
      refine ⟨columnName', values', scope_congr hscope' hkeep, fun row hrow => hread row ?_⟩
      rwa [rowsOf, Function.update_of_ne hne] at hrow
  · have hothers : ∃ after', m.traversePlan (fun _ => .empty) m.keyValue others
        (Function.update rows tableConfig.tableName <| some <|
          m.queryRowsByColumn (fun _ => .empty) tableConfig.tableName columnName values) =
            .ok after' := by
      refine traversePlan_of_loaded (fun tableName => ?_) hafter
      by_cases htable : tableName = tableConfig.tableName
      · simp [htable]
      · simp [Function.update_of_ne htable]
    obtain ⟨after', hafter'⟩ := hothers
    refine h.traversable after' ?_
    unfold traversePlan
    rw [hscope]
    exact hafter'

theorem query_sound {reading : Option Reading} {tables : List TableConfig} {targetKey : String}
    (h : m.Loading rows source reading tables) :
    m.PhaseSound targetKey source target (m.query source rows reading tables) := by
  cases tables with
  | nil =>
    have hloaded : m.Loaded rows source :=
      ⟨h.known, fun tableConfig ht => h.read tableConfig ht not_mem_nil,
        h.traversable rows rfl⟩
    simp only [query]
    split
    · exact hloaded
    · trivial
  | cons tableConfig others =>
    cases reading with
    | none =>
      simp only [query]
      cases hscope : scope rows m.keyValue tableConfig with
      | error e => trivial
      | ok selection =>
        obtain ⟨columnName, values⟩ := selection
        change m.Loading rows source (some ⟨columnName, _, []⟩) (tableConfig :: others)
        refine { h with current := ?_ }
        rintro table htable _ _ htables
        cases htable
        cases htables
        refine ⟨values, hscope, fun valuesChunk hchunk value hvalue => ?_,
          fun _ hrow => absurd hrow not_mem_nil⟩
        have hmem := mem_flatten.mpr ⟨valuesChunk, hchunk, hvalue⟩
        rw [flatten_chunks m.queryChunkSize_pos] at hmem
        exact mem_uniqueStrings.mp hmem
    | some table =>
      obtain ⟨columnName, valuesChunks, tableRows⟩ := table
      cases valuesChunks with
      | nil => exact h.finish
      | cons valuesChunk valuesChunks =>
        obtain ⟨values, hscope, hchunks, hrows⟩ := h.current _ rfl _ _ rfl
        obtain ⟨hchunk, hchunks⟩ := forall_mem_cons.mp hchunks
        change m.Loading rows source (some ⟨columnName, valuesChunks, _⟩) (tableConfig :: others)
        refine { h with current := ?_ }
        rintro table htable _ _ htables
        cases htable
        cases htables
        refine ⟨values, hscope, hchunks, fun row hrow => ?_⟩
        rcases mem_append.mp hrow with hbefore | hnew
        · exact hrows row hbefore
        · obtain ⟨hrow, hany⟩ := Table.mem_select.mp hnew
          obtain ⟨value, hvalue, hcell⟩ := any_eq_true.mp hany
          have hread : m.Reads row columnName values :=
            ⟨value, (hchunk value hvalue).1, (hchunk value hvalue).2, of_decide_eq_true hcell⟩
          exact ⟨hread, row, h.reached rfl hscope hrow hread, rfl⟩

theorem PhaseSound.mono {targetKey : String} {phase : Phase}
    (hreached : ∀ tableConfig row, m.Reached source m.keyValue tableConfig row →
      ∃ found, m.Reached source' m.keyValue tableConfig found ∧ found.id = row.id)
    (h : m.PhaseSound targetKey source target phase) :
    m.PhaseSound targetKey source' target phase := by
  have hids : ∀ {tableConfig : TableConfig} {row : Row},
      (∃ found, m.Reached source m.keyValue tableConfig found ∧ found.id = row.id) →
        ∃ found, m.Reached source' m.keyValue tableConfig found ∧ found.id = row.id := by
    rintro tableConfig row ⟨found, hfound, hid⟩
    rw [← hid]
    exact hreached tableConfig found hfound
  have hread : ∀ {rows tableConfig}, m.Read rows source tableConfig →
      m.Read rows source' tableConfig := by
    rintro rows tableConfig ⟨columnName, values, hscope, hrows⟩
    exact ⟨columnName, values, hscope,
      fun row hrow => ⟨(hrows row hrow).1, hids (hrows row hrow).2⟩⟩
  have hloaded : ∀ {rows}, m.Loaded rows source → m.Loaded rows source' := fun h =>
    { h with read := fun tableConfig ht => hread (h.read tableConfig ht) }
  cases phase with
  | idle => trivial
  | loading rows reading tables =>
    have hloading : m.Loading rows source reading tables := h
    refine Loading.mk hloading.sub hloading.nodup hloading.fresh hloading.known
      (fun tableConfig ht hnot => hread (hloading.read tableConfig ht hnot)) hloading.traversable
      fun table htable tableConfig others htables => ?_
    obtain ⟨values, hscope, hchunks, hrows⟩ :=
      hloading.current table htable tableConfig others htables
    exact ⟨values, hscope, hchunks, fun row hrow => ⟨(hrows row hrow).1, hids (hrows row hrow).2⟩⟩
  | loaded rows => exact hloaded h
  | copied rows => exact ⟨hloaded h.1, h.2⟩

section
variable {latest : String → String → Option Row} {tableName id : String}

theorem record_of_found (h : row ∈ m.foundRows source m.keyValue tableName) :
    m.record source latest tableName row.id = some row := by
  obtain ⟨-, tableConfig, ht, rfl, hreached⟩ := exists_of_foundRows h
  unfold record
  cases hfind : (m.foundRows source m.keyValue tableConfig.tableName).find? fun found =>
      found.id = row.id with
  | none =>
    have hne : row.id ≠ row.id := by simpa using find?_eq_none.mp hfind row h
    exact absurd rfl hne
  | some found =>
    obtain ⟨-, other, hother, hname, hfound⟩ :=
      exists_of_foundRows (mem_of_find?_eq_some hfind)
    obtain rfl := inj_on_of_nodup_map m.tables_nodup hother ht hname
    have hid : found.id = row.id := by simpa using find?_some hfind
    rw [Table.eq_of_key hfound.mem hreached.mem hid]
    rfl

theorem record_cases (h : m.record source latest tableName id = some row) :
    (row ∈ m.foundRows source m.keyValue tableName ∧ row.id = id) ∨
      latest tableName id = some row ∧
        ∀ found ∈ m.foundRows source m.keyValue tableName, found.id ≠ id := by
  unfold record at h
  cases hfind : (m.foundRows source m.keyValue tableName).find? fun found => found.id = id with
  | none =>
    rw [hfind] at h
    exact .inr ⟨h, fun found hmem => by simpa using find?_eq_none.mp hfind found hmem⟩
  | some found =>
    rw [hfind] at h
    cases h
    exact .inl ⟨mem_of_find?_eq_some hfind, by simpa using find?_some hfind⟩

theorem of_record_eq_none (h : m.record source latest tableName id = none) :
    latest tableName id = none :=
  (Option.or_eq_none_iff.mp h).2

end

/-! ## Steps -/

/-- What `transformRow` may do: it gives the rows of one table the same keys, it leaves the columns
    that refer to a parent, and it turns the tenant key into the one that the rows have in the
    target. -/
structure Rehomes (m : Move) (targetKey : String) : Prop where
  targetKey_ne : trim m.keyValue ≠ "" → trim targetKey ≠ ""
  sameColumns : m.SameColumns
  key : ∀ tableConfig ∈ m.tablePlan, ∀ keyColumn, orNull tableConfig.keyColumn = some keyColumn →
    ∀ row, m.cell row keyColumn = some m.keyValue →
      m.cell (m.image tableConfig.tableName row) keyColumn = some targetKey
  parent : ∀ tableConfig ∈ m.tablePlan, ∀ parentColumn, orNull tableConfig.keyColumn = none →
    orNull tableConfig.parentColumn = some parentColumn →
    ∀ row id, m.cell row parentColumn = some id →
      m.cell (m.image tableConfig.tableName row) parentColumn = some id

/-- When the source can be deleted: what is deleted is as it was read, and what is left refers to
    nothing that is deleted. -/
def Unchanged (m : Move) (s : State) : Action → Prop
  | .deleteSource => ∀ rows, s.phase = .copied rows → ∀ tableConfig ∈ m.tablePlan,
      ∀ row ∈ s.source tableConfig.tableName,
        (row.id ∈ deletedIds rows tableConfig → row ∈ rowsOf rows tableConfig) ∧
        (row.id ∉ deletedIds rows tableConfig → ∀ parent ∈ m.tablePlan, ∀ parentColumn,
          orNull tableConfig.keyColumn = none →
          orNull tableConfig.parentColumn = some parentColumn →
          orNull tableConfig.parentTableName = some parent.tableName →
            ∀ id ∈ deletedIds rows parent, m.cell row parentColumn ≠ some id)
  | _ => True

/-- What holds in every state of a run. -/
structure Sound (m : Move) (targetKey : String) (target : Database) (s : State) : Prop where
  latest : ∀ tableName, ∀ row ∈ m.foundRows s.source m.keyValue tableName,
    s.latest tableName row.id = some row
  traversable : ∀ tableName id row, s.latest tableName id = some row →
    row.id = id ∧ m.Traversable
  found : ∀ tableConfig ∈ m.tablePlan, ∀ id row,
    s.latest tableConfig.tableName id = some row →
      m.Reached s.source m.keyValue tableConfig row ∨
      (m.Reached s.target targetKey tableConfig (m.image tableConfig.tableName row) ∧
        (m.image tableConfig.tableName row).id = row.id)
  others : ∀ tableName, ∀ row ∈ target tableName, s.latest tableName row.id = none →
    row ∈ s.target tableName
  others_reached : ∀ tableConfig row, m.Reached target targetKey tableConfig row →
    ∃ found, m.Reached s.target targetKey tableConfig found ∧ found.id = row.id
  phase : m.PhaseSound targetKey s.source s.target s.phase

variable {targetKey : String} {target₀ : Database} {s s' : State} {a : Action}

theorem init_sound (m : Move) (targetKey : String) (source target : Database) :
    m.Sound targetKey target (m.init source target) := by
  have hlatest : (m.init source target).latest = m.record source fun _ _ => none := rfl
  have hcases : ∀ {tableName id : String} {row : Row},
      (m.init source target).latest tableName id = some row →
        row ∈ m.foundRows source m.keyValue tableName ∧ row.id = id := by
    intro tableName id row h
    rw [hlatest] at h
    rcases record_cases h with hfound | ⟨hnone, -⟩
    · exact hfound
    · cases hnone
  refine ⟨fun tableName row hrow => hlatest ▸ record_of_found hrow, fun tableName id row h => ?_,
    fun tableConfig ht id row h => ?_, fun _ _ h _ => h, fun _ row h => ⟨row, h, rfl⟩, trivial⟩
  · obtain ⟨hfound, hid⟩ := hcases h
    exact ⟨hid, (exists_of_foundRows hfound).1⟩
  · obtain ⟨hfound, -⟩ := hcases h
    exact .inl ((mem_foundRows (exists_of_foundRows hfound).1 ht).mp hfound)

theorem Sound.written {tableName : String} (h : m.Sound targetKey target₀ s)
    (hothers : ∀ name, ∀ other ∈ s.source name,
      other ∈ source' name ∨ (name = tableName ∧ other.id = row.id))
    (hs : m.written s source' tableName row = some s') : m.Sound targetKey target₀ s' := by
  unfold Move.written at hs
  split at hs
  · next hany =>
    cases hs
    obtain ⟨found, hfound, hid⟩ := any_eq_true.mp hany
    obtain ⟨htraversable, table, htable, rfl, hreached⟩ := exists_of_foundRows hfound
    have hids : ∀ tableConfig row, m.Reached s.source m.keyValue tableConfig row →
        ∃ found, m.Reached source' m.keyValue tableConfig found ∧ found.id = row.id := by
      intro tableConfig other
      refine Reached.exists_of_replaced fun tableConfig ht other hother => ?_
      rcases hothers _ other hother with hleft | ⟨hname, hsame⟩
      · exact .inl hleft
      · obtain rfl := inj_on_of_nodup_map m.tables_nodup ht htable hname
        exact .inr ⟨found, hreached, (of_decide_eq_true hid).trans hsame.symm⟩
    refine ⟨fun tableName row hrow => record_of_found hrow, fun tableName id row hrecord => ?_,
      fun tableConfig ht id row hrecord => ?_, fun tableName row hrow hnone =>
        h.others tableName row hrow (of_record_eq_none hnone), h.others_reached, h.phase.mono hids⟩
    · rcases record_cases hrecord with ⟨-, hid⟩ | ⟨hbefore, -⟩
      · exact ⟨hid, htraversable⟩
      · exact h.traversable tableName id row hbefore
    · rcases record_cases hrecord with ⟨hfound, -⟩ | ⟨hbefore, hnot⟩
      · exact .inl ((mem_foundRows htraversable ht).mp hfound)
      · rcases h.found tableConfig ht id row hbefore with hsource | htarget
        · obtain ⟨other, hother, hsame⟩ := hids tableConfig row hsource
          have hrow := (h.traversable _ id row hbefore).1
          exact absurd (hsame.trans hrow) (hnot other ((mem_foundRows htraversable ht).mpr hother))
        · exact .inr htarget
  · cases hs

theorem images_reached (hm : m.Rehomes targetKey) (h : m.Loaded rows source)
    (hmem : ∀ tableConfig ∈ m.tablePlan, ∀ row ∈ rowsOf rows tableConfig,
      m.image tableConfig.tableName row ∈ db tableConfig.tableName ∧
        (m.image tableConfig.tableName row).id = row.id) :
    ∀ tableConfig ∈ m.tablePlan, ∀ row ∈ rowsOf rows tableConfig,
      m.Reached db targetKey tableConfig (m.image tableConfig.tableName row) := by
  obtain ⟨loaded, hloaded⟩ := h.traversable
  refine table_induction hloaded fun tableConfig ht hparent row hrow => ?_
  obtain ⟨columnName, values, hscope, hread⟩ := h.read tableConfig ht
  obtain ⟨value, hvalue, hblank, hcell⟩ := (hread row hrow).1
  have hin := (hmem tableConfig ht row hrow).1
  rcases scope_eq_ok.mp hscope with ⟨hkey, rfl⟩ |
    ⟨hkey, hcolumn, parentTableName, parentRows, hname, hrows, rfl⟩
  · obtain rfl := mem_singleton.mp hvalue
    exact .key ht hin hkey (hm.targetKey_ne hblank) (hm.key tableConfig ht _ hkey row hcell)
  · obtain ⟨parent, hparentMem, rfl⟩ := h.known _ _ hrows
    obtain ⟨parentRow, hparentRow, rfl⟩ := mem_map.mp (mem_uniqueStrings.mp hvalue).1
    have hparentIn : parentRow ∈ rowsOf rows parent := by simpa [rowsOf, hrows] using hparentRow
    have hid := (hmem parent hparentMem parentRow hparentIn).2
    have hcellImage := hm.parent tableConfig ht _ hkey hcolumn row _ hcell
    rw [← hid] at hblank hcellImage
    exact .child ht hin hkey hcolumn hname
      (hparent parent hparentMem hkey hname parentRow hparentIn) hblank hcellImage

theorem Sound.writeTarget (hm : m.Rehomes targetKey) (h : m.Sound targetKey target₀ s)
    (hphase : s.phase = .loaded rows) (hwrite : m.writeTarget rows s.target = .ok db) :
    m.Sound targetKey target₀ { s with target := db, phase := .copied rows } := by
  have hloaded : m.Loaded rows s.source := by
    have := h.phase
    rwa [hphase] at this
  obtain ⟨htables, hrest⟩ := writeTarget_ok hm.sameColumns hwrite
  have himages : ∀ tableConfig ∈ m.tablePlan, ∀ row ∈ rowsOf rows tableConfig,
      m.image tableConfig.tableName row ∈ db tableConfig.tableName ∧
        (m.image tableConfig.tableName row).id = row.id := fun tableConfig ht row hrow =>
    ⟨((htables tableConfig ht).1 _).mpr (.inr ⟨row, hrow, rfl⟩),
      (htables tableConfig ht).2 row hrow⟩
  have hreached := images_reached hm hloaded himages
  -- a row that is deleted is one of the tenant, which the source still has
  have hdeleted : ∀ tableConfig ∈ m.tablePlan, ∀ id ∈ deletedIds rows tableConfig,
      ∃ found, m.Reached s.source m.keyValue tableConfig found ∧ found.id = id ∧
        s.latest tableConfig.tableName id = some found := by
    intro tableConfig ht id hid
    obtain ⟨⟨row, hrow, rfl⟩, -⟩ := mem_deletedIds.mp hid
    obtain ⟨_, _, -, hread⟩ := hloaded.read tableConfig ht
    obtain ⟨found, hfound, hsame⟩ := (hread row hrow).2
    have hlatest := h.latest _ found ((mem_foundRows hloaded.traversable ht).mpr hfound)
    rw [hsame] at hlatest
    exact ⟨found, hfound, hsame, hlatest⟩
  have hids : ∀ tableConfig row, m.Reached s.target targetKey tableConfig row →
      ∃ found, m.Reached db targetKey tableConfig found ∧ found.id = row.id := by
    refine fun tableConfig row => Reached.exists_of_replaced fun tableConfig ht row hrow => ?_
    by_cases hid : row.id ∈ deletedIds rows tableConfig
    · obtain ⟨⟨sourceRow, hsource, hsame⟩, -⟩ := mem_deletedIds.mp hid
      exact .inr ⟨_, hreached tableConfig ht sourceRow hsource,
        (himages tableConfig ht sourceRow hsource).2.trans hsame⟩
    · exact .inl (((htables tableConfig ht).1 row).mpr (.inl ⟨hrow, hid⟩))
  refine ⟨h.latest, h.traversable, fun tableConfig ht id row hlatest => ?_,
    fun tableName row hrow hnone => ?_, fun tableConfig row hrow => ?_,
    hloaded, fun tableConfig ht row hrow =>
      ⟨hreached tableConfig ht row hrow, (himages tableConfig ht row hrow).2⟩⟩
  · rcases h.found tableConfig ht id row hlatest with hsource | ⟨htarget, himage⟩
    · exact .inl hsource
    · by_cases hid : (m.image tableConfig.tableName row).id ∈ deletedIds rows tableConfig
      · rw [himage, (h.traversable _ id row hlatest).1] at hid
        obtain ⟨found, hfound, -, hsame⟩ := hdeleted tableConfig ht id hid
        cases hlatest.symm.trans hsame
        exact .inl hfound
      · obtain ⟨found, hfound, hsame⟩ := hids tableConfig _ htarget
        have hleft := ((htables tableConfig ht).1 _).mpr (.inl ⟨htarget.mem, hid⟩)
        exact .inr ⟨hfound.of_id hsame hleft, himage⟩
  · have hbefore := h.others tableName row hrow hnone
    by_cases hplan : tableName ∈ m.tablePlan.map TableConfig.tableName
    · obtain ⟨tableConfig, ht, rfl⟩ := mem_map.mp hplan
      refine ((htables tableConfig ht).1 row).mpr (.inl ⟨hbefore, fun hid => ?_⟩)
      obtain ⟨found, -, -, hsome⟩ := hdeleted tableConfig ht row.id hid
      cases hnone.symm.trans hsome
    · change row ∈ db tableName
      rw [hrest tableName hplan]
      exact hbefore
  · obtain ⟨found, hfound, hid⟩ := h.others_reached tableConfig row hrow
    rw [← hid]
    exact hids tableConfig found hfound

theorem Sound.deleteSource (h : m.Sound targetKey target₀ s) (hphase : s.phase = .copied rows)
    (hok : m.Unchanged s .deleteSource) :
    m.Sound targetKey target₀
      { s with source := m.deleteRows rows s.source, phase := .idle } := by
  obtain ⟨hloaded, himages⟩ : m.PhaseSound targetKey s.source s.target (.copied rows) :=
    hphase ▸ h.phase
  have hunchanged := hok rows hphase
  refine ⟨fun tableName row hrow => ?_, h.traversable, fun tableConfig ht id row hlatest => ?_,
    h.others, h.others_reached, trivial⟩
  · obtain ⟨htraversable, tableConfig, ht, rfl, hreached⟩ := exists_of_foundRows hrow
    refine h.latest _ row ((mem_foundRows htraversable ht).mpr ?_)
    exact hreached.of_subset fun tableConfig ht row hmem => ((mem_deleteRows_ids ht).mp hmem).1
  · rcases h.found tableConfig ht id row hlatest with hsource | htarget
    · by_cases hid : row.id ∈ deletedIds rows tableConfig
      · have hread := (hunchanged tableConfig ht row hsource.mem).1 hid
        exact .inr (himages tableConfig ht row hread)
      · refine .inl (hsource.of_closed ?_ ((mem_deleteRows_ids ht).mpr ⟨hsource.mem, hid⟩))
        intro other hother otherRow hotherRow parent hparent parentColumn hkey hcolumn hname
          parentRow hparentRow hblank hcell
        obtain ⟨hin, hnot⟩ := (mem_deleteRows_ids hother).mp hotherRow
        refine (mem_deleteRows_ids hparent).mpr ⟨hparentRow, fun hdeleted => ?_⟩
        exact (hunchanged other hother otherRow hin).2 hnot parent hparent parentColumn hkey hcolumn
          hname _ hdeleted hcell
    · exact .inr htarget

theorem step_sound (hm : m.Rehomes targetKey) (h : m.Sound targetKey target₀ s)
    (hok : m.Unchanged s a) (hs : m.step s a = some s') : m.Sound targetKey target₀ s' := by
  cases a with
  | insert tableName row =>
    obtain ⟨table, htable, hs⟩ := Option.bind_eq_some_iff.mp hs
    refine h.written (fun name other hother => ?_) hs
    by_cases hname : name = tableName
    · subst hname
      rw [Function.update_self]
      exact .inl ((Table.mem_insert? htable).mpr (.inl hother))
    · rw [Function.update_of_ne hname]
      exact .inl hother
  | update tableName row =>
    obtain ⟨before, hbefore, hs⟩ := Option.bind_eq_some_iff.mp hs
    refine h.written (fun name other hother => ?_) hs
    by_cases hname : name = tableName
    · subst hname
      by_cases hid : other.id = row.id
      · exact .inr ⟨rfl, hid⟩
      · rw [Function.update_self]
        exact .inl ((Table.mem_modify hbefore).mpr (.inr ⟨hother, hid⟩))
    · rw [Function.update_of_ne hname]
      exact .inl hother
  | start =>
    simp only [step] at hs
    split at hs
    · cases hs
      exact { h with phase := loading_start s.source }
    · cases hs
  | query =>
    simp only [step] at hs
    split at hs
    · next rows reading tables hphase =>
      cases hs
      have hloading : m.PhaseSound targetKey s.source s.target (.loading rows reading tables) :=
        hphase ▸ h.phase
      exact { h with phase := query_sound hloading }
    · cases hs
  | writeTarget =>
    simp only [step] at hs
    split at hs
    · next rows hphase =>
      split at hs
      · next db hwrite =>
        cases hs
        exact h.writeTarget hm hphase hwrite
      · cases hs
        exact { h with phase := trivial }
    · cases hs
  | deleteSource =>
    simp only [step] at hs
    split at hs
    · next rows hphase =>
      cases hs
      exact h.deleteSource hphase hok
    · cases hs
  | fail =>
    cases hs
    exact { h with phase := trivial }

/-! ## The theorem -/

theorem Sound.kept (h : m.Sound targetKey target₀ s) : m.Kept targetKey target₀ s where
  found := fun tableConfig ht id row hlatest => by
    have htraversable := (h.traversable _ id row hlatest).2
    rcases h.found tableConfig ht id row hlatest with hsource | ⟨htarget, -⟩
    · exact .inl ((mem_foundRows htraversable ht).mpr hsource)
    · exact .inr ((mem_foundRows htraversable ht).mpr htarget)
  others := h.others
  others_found := fun tableConfig ht row hrow hnone => by
    have htraversable := (exists_of_foundRows hrow).1
    have hreached := (mem_foundRows htraversable ht).mp hrow
    obtain ⟨found, hfound, hid⟩ := h.others_reached tableConfig row hreached
    have hleft := h.others _ row hreached.mem hnone
    exact (mem_foundRows htraversable ht).mpr (hfound.of_id hid hleft)

def tasks : Move where
  tablePlan := [{ tableName := "tasks", keyColumn := some "project_id" }]
  tables_nodup := by decide
  insertChunkSize_pos := (by decide : 1 ≤ 100)
  queryChunkSize_pos := (by decide : 1 ≤ 500)
  keyValue := "1"

def task (name : String) : Row where
  id := "7"
  cells columnName := if columnName = "project_id" then some "1" else some name

def taskSource : Database := fun tableName =>
  if tableName = "tasks" then ⟨[task "a"], by decide⟩ else .empty

def untilCopied : List Action := [.start, .query, .query, .query, .query, .writeTarget]

theorem tasks_rehomes : tasks.Rehomes "1" where
  targetKey_ne := id
  sameColumns := fun _ _ _ _ => rfl
  key := fun _ _ _ _ _ h => h
  parent := fun _ _ _ _ _ _ _ h => h

def tasksAndComments : List TableConfig :=
  [{ tableName := "tasks", keyColumn := some "project_id" },
    { tableName := "comments", parentTableName := some "tasks", parentColumn := some "task_id" }]

theorem tasksAndComments_nodup : (tasksAndComments.map TableConfig.tableName).Nodup := by decide

/-- The tasks of a project and their comments, moved into the database of project 2. -/
def commented : Move where
  tablePlan := tasksAndComments
  tables_nodup := tasksAndComments_nodup
  insertChunkSize_pos := (by decide : 1 ≤ 100)
  queryChunkSize_pos := (by decide : 1 ≤ 500)
  keyValue := "1"
  transformRow := some fun tableName row =>
    ⟨⟨row.id, fun columnName =>
      if tableName = "tasks" ∧ columnName = "project_id" then some "2" else row.cells columnName⟩,
      fun _ => true⟩

def comment (id text : String) : Row where
  id
  cells columnName := if columnName = "task_id" then some "7" else some text

theorem commented_rehomes : commented.Rehomes "2" where
  targetKey_ne := by decide
  sameColumns := fun _ _ _ _ => rfl
  key tableConfig ht keyColumn hkey row h := by
    simp only [commented, tasksAndComments, mem_cons, not_mem_nil, or_false] at ht
    rcases ht with rfl | rfl
    · cases hkey
      rfl
    · cases hkey
  parent tableConfig ht parentColumn hkey hparent row id h := by
    simp only [commented, tasksAndComments, mem_cons, not_mem_nil, or_false] at ht
    rcases ht with rfl | rfl
    · cases hkey
    · cases hparent
      exact h

/-- Comments are written before a move, after it has crashed and while the tables are read. -/
def commenting : List Action :=
  [.insert "comments" (comment "3" "a"), .start, .query, .query, .query, .query, .fail,
    .update "comments" (comment "3" "b"), .start, .query, .query, .query,
    .insert "comments" (comment "4" "c"), .query, .query, .query, .query, .writeTarget]

theorem commenting_copied : ∃ s rows,
    runActions commented.step (commented.init taskSource fun _ => .empty) commenting = some s ∧
      s.phase = .copied rows ∧ rows "tasks" = some [task "a"] ∧
      rows "comments" = some [comment "3" "b", comment "4" "c"] ∧
      (s.source "tasks").rows = [task "a"] ∧
      (s.source "comments").rows = [comment "3" "b", comment "4" "c"] :=
  ⟨_, _, rfl, rfl, rfl, rfl, rfl, rfl⟩

theorem commenting_unchanged {s : State} {rows : RowsByTableName} (hphase : s.phase = .copied rows)
    (htasks : rows "tasks" = some [task "a"])
    (hcomments : rows "comments" = some [comment "3" "b", comment "4" "c"])
    (hsourceTasks : (s.source "tasks").rows = [task "a"])
    (hsourceComments : (s.source "comments").rows = [comment "3" "b", comment "4" "c"]) :
    commented.Unchanged s .deleteSource := by
  intro rows' hrows' tableConfig ht row hrow
  obtain rfl : rows = rows' := Phase.copied.inj (hphase.symm.trans hrows')
  simp only [commented, tasksAndComments, mem_cons, not_mem_nil, or_false] at ht
  rcases ht with rfl | rfl
  · have hmem : row ∈ [task "a"] := hsourceTasks ▸ Table.mem_def.mp hrow
    exact ⟨fun _ => by simpa [rowsOf, htasks] using hmem, fun _ _ _ _ hkey => by cases hkey⟩
  · have hmem : row ∈ [comment "3" "b", comment "4" "c"] :=
      hsourceComments ▸ Table.mem_def.mp hrow
    have hids : ["3", "4"] = deletedIds rows
        { tableName := "comments", parentTableName := some "tasks", parentColumn := some "task_id" } := by
      simp only [deletedIds, rowsOf, hcomments]
      decide +kernel
    refine ⟨fun _ => by simpa [rowsOf, hcomments] using hmem, fun hnot => absurd ?_ hnot⟩
    rw [← hids]
    simp only [mem_cons, not_mem_nil, or_false] at hmem
    rcases hmem with rfl | rfl <;> simp [comment]

end Move

end Velocious.DataCopier
