/-
  When a copy mirrors the tenant.
-/
import Velocious.Tenants.DataCopier

namespace Velocious.DataCopier

open Foundation List

section
variable {α : Type}

theorem flatten_chunks {chunkSize : ℕ} (h : 0 < chunkSize) (values : List α) :
    (chunks values chunkSize).flatten = values := by
  have htaken : ∀ k, ((List.range k).map fun i =>
      (values.drop (i * chunkSize)).take chunkSize).flatten = values.take (k * chunkSize) := by
    intro k
    induction k with
    | zero => simp
    | succ k ih =>
      rw [range_succ, map_append, flatten_append, ih, Nat.succ_mul, take_add]
      simp
  unfold chunks
  rw [htaken]
  refine take_of_length_le ?_
  have hdiv := Nat.div_add_mod (values.length + chunkSize - 1) chunkSize
  have hmod := Nat.mod_lt (values.length + chunkSize - 1) h
  rw [Nat.mul_comm]
  omega

theorem mem_uniqueStrings {values : List String} {value : String} :
    value ∈ uniqueStrings values ↔ value ∈ values ∧ trim value ≠ "" := by
  simp [uniqueStrings]

theorem nodup_uniqueStrings (values : List String) : (uniqueStrings values).Nodup := by
  simp [uniqueStrings, nodup_dedup]

end

/-! ## Reading -/

namespace Copier
variable {c : Copier} {db db' : Database} {keyValue : String}

def Reads (c : Copier) (row : Row) (columnName : String) (values : List String) : Prop :=
  ∃ value ∈ values, trim value ≠ "" ∧ c.cell row columnName = some value

variable {columnName : String} {values : List String}

theorem mem_queryRowsByColumn {tableName : String} {row : Row} :
    row ∈ c.queryRowsByColumn db tableName columnName values ↔
      row ∈ db tableName ∧ c.Reads row columnName values := by
  have hflat : ∀ value, value ∈ uniqueStrings values ↔
      ∃ valuesChunk ∈ chunks (uniqueStrings values) c.queryChunkSize, value ∈ valuesChunk := by
    intro value
    rw [← mem_flatten, flatten_chunks c.queryChunkSize_pos]
  unfold queryRowsByColumn Reads
  simp only [mem_flatMap, Table.mem_select, any_eq_true, decide_eq_true_eq]
  constructor
  · rintro ⟨valuesChunk, hchunk, hrow, value, hvalue, hcell⟩
    obtain ⟨hmem, hblank⟩ := mem_uniqueStrings.mp ((hflat value).mpr ⟨valuesChunk, hchunk, hvalue⟩)
    exact ⟨hrow, value, hmem, hblank, hcell⟩
  · rintro ⟨hrow, value, hmem, hblank, hcell⟩
    obtain ⟨valuesChunk, hchunk, hvalue⟩ :=
      (hflat value).mp (mem_uniqueStrings.mpr ⟨hmem, hblank⟩)
    exact ⟨valuesChunk, hchunk, hrow, value, hvalue, hcell⟩

theorem nodup_queryRowsByColumn (tableName columnName : String) (values : List String) :
    (c.queryRowsByColumn db tableName columnName values).Nodup := by
  have hunique := nodup_uniqueStrings values
  rw [← flatten_chunks c.queryChunkSize_pos (uniqueStrings values), nodup_flatten] at hunique
  refine nodup_flatMap.mpr ⟨fun valuesChunk _ => ?_, ?_⟩
  · exact ((db tableName).keys_nodup.of_map _).filter _
  · refine hunique.2.imp fun {first second} hdisjoint row hfirst hsecond => ?_
    simp only [Table.mem_select, any_eq_true, decide_eq_true_eq] at hfirst hsecond
    obtain ⟨-, value, hvalue, hcell⟩ := hfirst
    obtain ⟨-, value', hvalue', hcell'⟩ := hsecond
    cases hcell.symm.trans hcell'
    exact hdisjoint hvalue hvalue'

variable {tableConfig : TableConfig}

theorem scope_eq_ok {rows : RowsByTableName} :
    scope rows keyValue tableConfig = .ok (columnName, values) ↔
      (orNull tableConfig.keyColumn = some columnName ∧ values = [keyValue]) ∨
      (orNull tableConfig.keyColumn = none ∧ orNull tableConfig.parentColumn = some columnName ∧
        ∃ parentTableName parentRows, orNull tableConfig.parentTableName = some parentTableName ∧
          rows parentTableName = some parentRows ∧
          values = uniqueStrings (parentRows.map Row.id)) := by
  unfold scope
  cases orNull tableConfig.keyColumn with
  | some keyColumn => simp [eq_comm]
  | none =>
    cases orNull tableConfig.parentColumn with
    | none => simp
    | some parentColumn =>
      cases orNull tableConfig.parentTableName with
      | none => simp
      | some parentTableName =>
        cases hparent : rows parentTableName with
        | none => simp [hparent]
        | some parentRows => simp [hparent, eq_comm]

theorem scope_congr {rows rows' : RowsByTableName}
    (h : scope rows keyValue tableConfig = .ok (columnName, values))
    (hsame : ∀ tableName parentRows, rows tableName = some parentRows →
      rows' tableName = some parentRows) :
    scope rows' keyValue tableConfig = .ok (columnName, values) := by
  rw [scope_eq_ok] at h ⊢
  rcases h with hkey | ⟨hkey, hcolumn, parentTableName, parentRows, hparent, hrows, hvalues⟩
  · exact .inl hkey
  · exact .inr ⟨hkey, hcolumn, parentTableName, parentRows, hparent,
      hsame _ _ hrows, hvalues⟩

variable {plan : List TableConfig}

theorem traversePlan_ok :
    ∀ {before after : RowsByTableName}, (plan.map TableConfig.tableName).Nodup →
      (∀ tableConfig ∈ plan, before tableConfig.tableName = none) →
      c.traversePlan db keyValue plan before = .ok after →
      (∀ tableName rows, before tableName = some rows → after tableName = some rows) ∧
      ∀ tableConfig ∈ plan, ∃ columnName values,
        scope after keyValue tableConfig = .ok (columnName, values) ∧
        after tableConfig.tableName =
          some (c.queryRowsByColumn db tableConfig.tableName columnName values) := by
  induction plan with
  | nil =>
    rintro before after - - h
    cases h
    exact ⟨fun _ _ h => h, fun _ h => absurd h not_mem_nil⟩
  | cons tableConfig others ih =>
    intro before after hnodup hnew h
    obtain ⟨hname, hnodup⟩ := nodup_cons.mp hnodup
    obtain ⟨hnone, hnew⟩ := forall_mem_cons.mp hnew
    unfold traversePlan at h
    cases hscope : scope before keyValue tableConfig with
    | error e =>
      rw [hscope] at h
      cases h
    | ok selection =>
      obtain ⟨columnName, values⟩ := selection
      rw [hscope] at h
      obtain ⟨hkeep, hfound⟩ := ih hnodup (fun other hother => by
        rw [Function.update_of_ne]
        · exact hnew other hother
        · exact fun heq => hname (heq ▸ mem_map_of_mem hother)) h
      have hbefore : ∀ tableName rows, before tableName = some rows →
          after tableName = some rows := by
        intro tableName rows hrows
        refine hkeep tableName rows ?_
        rw [Function.update_of_ne]
        · exact hrows
        · rintro rfl
          cases hnone.symm.trans hrows
      refine ⟨hbefore, forall_mem_cons.mpr ⟨?_, hfound⟩⟩
      exact ⟨columnName, values, scope_congr hscope hbefore,
        hkeep _ _ (Function.update_self ..)⟩

theorem traversed {rows : RowsByTableName} (h : c.loadRows db keyValue = .ok rows)
    (ht : tableConfig ∈ c.tablePlan) :
    ∃ columnName values, scope rows keyValue tableConfig = .ok (columnName, values) ∧
      rows tableConfig.tableName =
        some (c.queryRowsByColumn db tableConfig.tableName columnName values) :=
  (traversePlan_ok c.tables_nodup (fun _ _ => rfl) h).2 tableConfig ht

theorem traversePlan_of_loaded {keyValue' : String} : ∀ {before before' after : RowsByTableName},
      (∀ tableName, (before tableName).isSome = (before' tableName).isSome) →
      c.traversePlan db keyValue plan before = .ok after →
      ∃ after', c.traversePlan db' keyValue' plan before' = .ok after' := by
  induction plan with
  | nil => exact fun _ _ => ⟨_, rfl⟩
  | cons tableConfig others ih =>
    intro before before' after hloaded h
    unfold traversePlan at h ⊢
    cases hselection : scope before keyValue tableConfig with
    | error e =>
      rw [hselection] at h
      cases h
    | ok selection =>
      obtain ⟨columnName, values⟩ := selection
      obtain ⟨values', hselection'⟩ : ∃ values',
          scope before' keyValue' tableConfig = .ok (columnName, values') := by
        rcases scope_eq_ok.mp hselection with ⟨hkey, -⟩ |
          ⟨hkey, hcolumn, parentTableName, parentRows, hparent, hrows, -⟩
        · exact ⟨_, scope_eq_ok.mpr (.inl ⟨hkey, rfl⟩)⟩
        · have hsome := hloaded parentTableName
          rw [hrows] at hsome
          obtain ⟨rows', hrows'⟩ := Option.isSome_iff_exists.mp hsome.symm
          exact ⟨_, scope_eq_ok.mpr
            (.inr ⟨hkey, hcolumn, parentTableName, rows', hparent, hrows', rfl⟩)⟩
      rw [hselection] at h
      rw [hselection']
      refine ih (fun tableName => ?_) h
      by_cases htable : tableName = tableConfig.tableName
      · subst htable
        simp
      · simp [Function.update_of_ne htable, hloaded tableName]

theorem plan_induction {P : String → Prop} :
    ∀ {before after : RowsByTableName}, (∀ tableName rows, before tableName = some rows →
        P tableName) →
      (∀ tableConfig ∈ plan,
        (∀ parentTableName, orNull tableConfig.keyColumn = none →
          orNull tableConfig.parentTableName = some parentTableName → P parentTableName) →
        P tableConfig.tableName) →
      c.traversePlan db keyValue plan before = .ok after →
      ∀ tableConfig ∈ plan, P tableConfig.tableName := by
  induction plan with
  | nil => exact fun _ _ _ _ h => absurd h not_mem_nil
  | cons tableConfig others ih =>
    intro before after hbefore hstep h
    obtain ⟨hthis, hothers⟩ := forall_mem_cons.mp hstep
    unfold traversePlan at h
    cases hscope : scope before keyValue tableConfig with
    | error e =>
      rw [hscope] at h
      cases h
    | ok selection =>
      rw [hscope] at h
      have hfirst : P tableConfig.tableName := by
        refine hthis fun parentTableName hkey hparent => ?_
        rcases scope_eq_ok.mp hscope with ⟨hsome, -⟩ | ⟨-, -, parentName, rows, hname, hrows, -⟩
        · cases hkey.symm.trans hsome
        · cases hparent.symm.trans hname
          exact hbefore _ rows hrows
      refine forall_mem_cons.mpr ⟨hfirst, ih (fun tableName rows hrows => ?_) hothers h⟩
      by_cases htable : tableName = tableConfig.tableName
      · rw [htable]
        exact hfirst
      · rw [Function.update_of_ne htable] at hrows
        exact hbefore tableName rows hrows

end Copier

namespace Copier
variable {c : Copier} {db db' source target : Database} {keyValue : String} {row : Row}
  {rows sourceRows targetRows : RowsByTableName}

theorem mem_foldl_delete {idChunks : List (List String)} {table : Table Row Row.id} :
    row ∈ idChunks.foldl (fun table ids => table.delete fun row => ids.contains row.id) table ↔
      row ∈ table ∧ row.id ∉ idChunks.flatten := by
  induction idChunks generalizing table with
  | nil => simp
  | cons ids others ih =>
    rw [foldl_cons, ih, Table.mem_delete, and_assoc]
    simp

variable {tables : List TableConfig}

theorem mem_foldl_deleteFrom {tableName : String} :
    row ∈ tables.foldl (c.deleteFrom rows) db tableName ↔
      row ∈ db tableName ∧ ∀ tableConfig ∈ tables, tableConfig.tableName = tableName →
        row.id ∉ uniqueStrings ((rowsOf rows tableConfig).map Row.id) := by
  induction tables generalizing db with
  | nil => simp
  | cons tableConfig others ih =>
    have hone : row ∈ c.deleteFrom rows db tableConfig tableName ↔
        row ∈ db tableName ∧ (tableConfig.tableName = tableName →
          row.id ∉ uniqueStrings ((rowsOf rows tableConfig).map Row.id)) := by
      unfold deleteFrom
      by_cases htable : tableConfig.tableName = tableName
      · subst htable
        rw [Function.update_self, mem_foldl_delete, flatten_chunks c.queryChunkSize_pos]
        simp
      · rw [Function.update_of_ne (Ne.symm htable)]
        simp [htable]
    rw [foldl_cons, ih, hone, forall_mem_cons, and_assoc]

theorem foldl_deleteFrom_of_not_mem {tableName : String}
    (h : tableName ∉ tables.map TableConfig.tableName) :
    tables.foldl (c.deleteFrom rows) db tableName = db tableName := by
  induction tables generalizing db with
  | nil => rfl
  | cons tableConfig others ih =>
    obtain ⟨hne, hothers⟩ := not_or.mp (mt mem_cons.mpr h)
    rw [foldl_cons, ih hothers]
    exact Function.update_of_ne hne _ _

theorem insertInto_eq (db : Database) (tableConfig : TableConfig) :
    c.insertInto rows db tableConfig =
      ((db tableConfig.tableName).insertAll? (rowsOf rows tableConfig)).map
        (Function.update db tableConfig.tableName) := by
  have hchunks : ∀ (rowChunks : List (List Row)) (table : Table Row Row.id),
      rowChunks.foldlM (fun (table : Table Row Row.id) rowsChunk => table.insertAll? rowsChunk)
        table = table.insertAll? rowChunks.flatten := by
    intro rowChunks
    induction rowChunks with
    | nil => exact fun table => rfl
    | cons rowsChunk others ih =>
      intro table
      rw [flatten_cons, Table.insertAll?_append]
      exact congrArg _ (funext ih)
  unfold insertInto
  rw [hchunks, flatten_chunks c.insertChunkSize_pos]

theorem foldlM_insertInto (c : Copier) (rows : RowsByTableName) (db : Database)
    (hnodup : (tables.map TableConfig.tableName).Nodup) :
    ((∃ db', tables.foldlM (c.insertInto rows) db = some db') ↔ ∀ tableConfig ∈ tables,
      (((db tableConfig.tableName).rows ++ rowsOf rows tableConfig).map Row.id).Nodup) ∧
    ∀ db', tables.foldlM (c.insertInto rows) db = some db' →
      (∀ tableConfig ∈ tables, (db' tableConfig.tableName).rows =
        (db tableConfig.tableName).rows ++ rowsOf rows tableConfig) ∧
      ∀ tableName ∉ tables.map TableConfig.tableName, db' tableName = db tableName := by
  induction tables generalizing db with
  | nil =>
    refine ⟨by simp, fun db' h => ?_⟩
    cases h
    exact ⟨fun _ h => absurd h not_mem_nil, fun _ _ => rfl⟩
  | cons tableConfig others ih =>
    obtain ⟨hname, hnodup⟩ := nodup_cons.mp hnodup
    have hother : ∀ other ∈ others, other.tableName ≠ tableConfig.tableName :=
      fun other hmem heq => hname (heq ▸ mem_map_of_mem hmem)
    rw [foldlM_cons, insertInto_eq, forall_mem_cons]
    cases hinsert : (db tableConfig.tableName).insertAll? (rowsOf rows tableConfig) with
    | none =>
      refine ⟨⟨fun h => ?_, fun h => ?_⟩, fun db' h => ?_⟩
      · obtain ⟨db', h⟩ := h
        cases h
      · obtain ⟨table, htable⟩ := Table.exists_insertAll?.mpr h.1
        cases hinsert.symm.trans htable
      · cases h
    | some table =>
      have hthis := Table.exists_insertAll?.mp ⟨table, hinsert⟩
      obtain ⟨hiff, hrows⟩ :=
        ih (Function.update db tableConfig.tableName table) hnodup
      refine ⟨?_, fun db' h => ?_⟩
      · refine hiff.trans ?_
        rw [and_iff_right hthis]
        refine forall₂_congr fun other hmem => ?_
        rw [Function.update_of_ne (hother other hmem)]
      · obtain ⟨hfound, hrest⟩ := hrows db' h
        refine ⟨forall_mem_cons.mpr ⟨?_, fun other hmem => ?_⟩, fun tableName hnot => ?_⟩
        · rw [hrest _ hname, Function.update_self]
          exact Table.rows_insertAll? hinsert
        · rw [hfound other hmem, Function.update_of_ne (hother other hmem)]
        · obtain ⟨hne, hnot⟩ := not_or.mp (mt mem_cons.mpr hnot)
          rw [hrest _ hnot, Function.update_of_ne hne]

/-- The rows that a copy leaves in a table: those outside the traversal, and those whose id is
    blank. -/
def Keeps (targetRows : RowsByTableName) (tableConfig : TableConfig) (row : Row) : Prop :=
  row ∈ rowsOf targetRows tableConfig → trim row.id = ""

/-- A row that is inserted has the id of a row that is kept. -/
def Clashes (c : Copier) (target : Database) (sourceRows targetRows : RowsByTableName) : Prop :=
  ∃ tableConfig ∈ c.tablePlan, ∃ row ∈ target tableConfig.tableName,
    Keeps targetRows tableConfig row ∧ ∃ sourceRow ∈ rowsOf sourceRows tableConfig,
      sourceRow.id = row.id

theorem rowsOf_traversed (h : c.loadRows db keyValue = .ok rows) {tableConfig : TableConfig}
    (ht : tableConfig ∈ c.tablePlan) :
    ∃ columnName values, scope rows keyValue tableConfig = .ok (columnName, values) ∧
      ((rowsOf rows tableConfig).Nodup ∧ ∀ row, row ∈ rowsOf rows tableConfig ↔
        row ∈ db tableConfig.tableName ∧ c.Reads row columnName values) := by
  obtain ⟨columnName, values, hscope, hrows⟩ := traversed h ht
  refine ⟨columnName, values, hscope, ?_⟩
  unfold rowsOf
  rw [hrows]
  exact ⟨nodup_queryRowsByColumn _ _ _, fun row => mem_queryRowsByColumn⟩

theorem mem_deleteRows (h : c.loadRows target keyValue = .ok targetRows) {tableConfig : TableConfig}
    (ht : tableConfig ∈ c.tablePlan) :
    row ∈ c.deleteRows targetRows target tableConfig.tableName ↔
      row ∈ target tableConfig.tableName ∧ Keeps targetRows tableConfig row := by
  obtain ⟨columnName, values, -, -, hfound⟩ := rowsOf_traversed h ht
  have hsame : ∀ other ∈ c.tablePlan, other.tableName = tableConfig.tableName →
      other = tableConfig :=
    fun other hother heq => inj_on_of_nodup_map c.tables_nodup hother ht heq
  unfold deleteRows
  rw [mem_foldl_deleteFrom]
  refine and_congr_right fun hrow => ?_
  constructor
  · intro hkept hmem
    by_contra hblank
    refine hkept tableConfig (mem_reverse.mpr ht) rfl ?_
    exact mem_uniqueStrings.mpr ⟨mem_map_of_mem hmem, hblank⟩
  · intro hkept other hother heq hid
    obtain rfl := hsame other (mem_reverse.mp hother) heq
    obtain ⟨hid, hblank⟩ := mem_uniqueStrings.mp hid
    obtain ⟨found, hmem, hid⟩ := mem_map.mp hid
    have : found = row := Table.eq_of_key ((hfound found).mp hmem).1 hrow hid
    exact hblank (hkept (this ▸ hmem))

theorem insertRows_iff (hsource : c.loadRows source keyValue = .ok sourceRows)
    (htarget : c.loadRows target keyValue = .ok targetRows) :
    ((∃ db, c.insertRows sourceRows (c.deleteRows targetRows target) = some db) ↔
      ¬c.Clashes target sourceRows targetRows) ∧
    ∀ db, c.insertRows sourceRows (c.deleteRows targetRows target) = some db →
      (∀ tableConfig ∈ c.tablePlan, ∀ row, row ∈ db tableConfig.tableName ↔
        (row ∈ target tableConfig.tableName ∧ Keeps targetRows tableConfig row) ∨
          row ∈ rowsOf sourceRows tableConfig) ∧
      ∀ tableName ∉ c.tablePlan.map TableConfig.tableName, db tableName = target tableName := by
  obtain ⟨hiff, hrows⟩ :=
    foldlM_insertInto c sourceRows (c.deleteRows targetRows target) c.tables_nodup
  refine ⟨hiff.trans ?_, fun db h => ?_⟩
  · constructor
    · rintro hnodup ⟨tableConfig, ht, row, hrow, hkept, sourceRow, hmem, hid⟩
      have := hnodup tableConfig ht
      rw [map_append] at this
      have hleft := (mem_deleteRows htarget ht).mpr ⟨hrow, hkept⟩
      exact disjoint_of_nodup_append this
        (mem_map_of_mem (Table.mem_def.mp hleft)) (hid ▸ mem_map_of_mem hmem)
    · intro hclash tableConfig ht
      obtain ⟨columnName, values, -, hnodup, hfound⟩ := rowsOf_traversed hsource ht
      rw [map_append]
      refine List.Nodup.append (Table.keys_nodup _) ?_ ?_
      · refine List.Nodup.map_on (fun first hfirst second hsecond hid => ?_) hnodup
        exact Table.eq_of_key ((hfound first).mp hfirst).1 ((hfound second).mp hsecond).1 hid
      · intro id hid hid'
        obtain ⟨row, hrow, rfl⟩ := mem_map.mp hid
        obtain ⟨sourceRow, hmem, hsame⟩ := mem_map.mp hid'
        obtain ⟨hrow, hkept⟩ := (mem_deleteRows htarget ht).mp (Table.mem_def.mpr hrow)
        exact hclash ⟨tableConfig, ht, row, hrow, hkept, sourceRow, hmem, hsame⟩
  · obtain ⟨hfound, hrest⟩ := hrows db h
    refine ⟨fun tableConfig ht row => ?_, fun tableName hnot => ?_⟩
    · rw [Table.mem_def, hfound tableConfig ht, mem_append, ← Table.mem_def,
        mem_deleteRows htarget ht]
    · rw [hrest tableName hnot, deleteRows, foldl_deleteFrom_of_not_mem]
      rwa [map_reverse, mem_reverse]

end Copier

/-! ## The theorem -/

namespace Copier
variable {c : Copier} {db source target : Database} {keyValue : String} {row : Row}
  {sourceRows targetRows newRows : RowsByTableName}

/-- When a copy mirrors the tenant: no row that it keeps has the tenant key, or the id of a parent
    that it brings, in the column that scopes its table; unless the copy fails. -/
def Settles (c : Copier) (source target : Database) (keyValue : String) : Prop :=
  ∀ sourceRows targetRows, c.loadRows source keyValue = .ok sourceRows →
    c.loadRows target keyValue = .ok targetRows → ¬c.Clashes target sourceRows targetRows →
      ∀ tableConfig ∈ c.tablePlan, ∀ row ∈ target tableConfig.tableName,
        Keeps targetRows tableConfig row → ∀ columnName values,
          scope sourceRows keyValue tableConfig = .ok (columnName, values) →
            ¬c.Reads row columnName values

theorem exists_of_loaded {plan : List TableConfig} {tableName : String} {rows : List Row} :
    ∀ {before after : RowsByTableName}, c.traversePlan db keyValue plan before = .ok after →
      after tableName = some rows → before tableName = some rows ∨
        ∃ tableConfig ∈ plan, tableConfig.tableName = tableName := by
  induction plan with
  | nil =>
    intro before after h hrows
    cases h
    exact .inl hrows
  | cons tableConfig others ih =>
    intro before after h hrows
    unfold traversePlan at h
    cases hscope : scope before keyValue tableConfig with
    | error e =>
      rw [hscope] at h
      cases h
    | ok selection =>
      rw [hscope] at h
      rcases ih h hrows with hbefore | ⟨other, hother, hname⟩
      · by_cases htable : tableName = tableConfig.tableName
        · exact .inr ⟨tableConfig, mem_cons_self, htable.symm⟩
        · rw [Function.update_of_ne htable] at hbefore
          exact .inl hbefore
      · exact .inr ⟨other, mem_cons_of_mem _ hother, hname⟩

theorem reads_congr (hsource : c.loadRows source keyValue = .ok sourceRows)
    {tableConfig : TableConfig} {columnName columnName' : String} {values values' : List String}
    (hscope : scope sourceRows keyValue tableConfig = .ok (columnName, values))
    (hscope' : scope newRows keyValue tableConfig = .ok (columnName', values'))
    (hsame : ∀ parent ∈ c.tablePlan, orNull tableConfig.keyColumn = none →
      orNull tableConfig.parentTableName = some parent.tableName →
      ∀ row, row ∈ rowsOf newRows parent ↔ row ∈ rowsOf sourceRows parent) (row : Row) :
    c.Reads row columnName' values' ↔ c.Reads row columnName values := by
  rcases scope_eq_ok.mp hscope with ⟨hkey, rfl⟩ |
    ⟨hkey, hcolumn, parentTableName, parentRows, hparent, hrows, rfl⟩
  · rcases scope_eq_ok.mp hscope' with ⟨hkey', rfl⟩ | ⟨hkey', -⟩
    · rw [Option.some.inj (hkey.symm.trans hkey')]
    · cases hkey.symm.trans hkey'
  · rcases scope_eq_ok.mp hscope' with ⟨hkey', -⟩ |
      ⟨-, hcolumn', parentTableName', parentRows', hparent', hrows', rfl⟩
    · cases hkey.symm.trans hkey'
    · cases hcolumn.symm.trans hcolumn'
      cases hparent.symm.trans hparent'
      rcases exists_of_loaded hsource hrows with hnone | ⟨parent, hmem, rfl⟩
      · cases hnone
      · have hids : ∀ value, value ∈ parentRows'.map Row.id ↔ value ∈ parentRows.map Row.id := by
          have := hsame parent hmem hkey hparent
          simp only [rowsOf, hrows, hrows', Option.getD_some] at this
          intro value
          simp [this]
        unfold Reads
        simp only [mem_uniqueStrings, hids]

theorem table_induction (h : c.loadRows db keyValue = .ok newRows) {P : TableConfig → Prop}
    (hstep : ∀ tableConfig ∈ c.tablePlan,
      (∀ parent ∈ c.tablePlan, orNull tableConfig.keyColumn = none →
        orNull tableConfig.parentTableName = some parent.tableName → P parent) → P tableConfig) :
    ∀ tableConfig ∈ c.tablePlan, P tableConfig := by
  have hnames : ∀ tableConfig ∈ c.tablePlan, ∀ other ∈ c.tablePlan,
      other.tableName = tableConfig.tableName → P other := by
    intro tableConfig ht
    refine plan_induction (P := fun tableName => ∀ other ∈ c.tablePlan,
      other.tableName = tableName → P other) (fun _ _ h => ?_) (fun tableConfig ht hparent => ?_) h
      tableConfig ht
    · cases h
    · intro other hother hname
      obtain rfl : other = tableConfig := inj_on_of_nodup_map c.tables_nodup hother ht hname
      exact hstep other hother fun parent hmem hkey hname => hparent _ hkey hname parent hmem rfl
  exact fun tableConfig ht => hnames tableConfig ht tableConfig ht rfl

theorem same_traversal (hsource : c.loadRows source keyValue = .ok sourceRows)
    (hnew : c.loadRows db keyValue = .ok newRows)
    (hrows : ∀ tableConfig ∈ c.tablePlan, ∀ row, row ∈ db tableConfig.tableName ↔
      (row ∈ target tableConfig.tableName ∧ Keeps targetRows tableConfig row) ∨
        row ∈ rowsOf sourceRows tableConfig)
    (hkept : ∀ tableConfig ∈ c.tablePlan, ∀ row ∈ target tableConfig.tableName,
      Keeps targetRows tableConfig row → ∀ columnName values,
        scope sourceRows keyValue tableConfig = .ok (columnName, values) →
          ¬c.Reads row columnName values) :
    ∀ tableConfig ∈ c.tablePlan, ∀ row,
      row ∈ rowsOf newRows tableConfig ↔ row ∈ rowsOf sourceRows tableConfig := by
  refine table_induction hsource fun tableConfig ht hparent row => ?_
  obtain ⟨columnName, values, hscope, -, hfound⟩ := rowsOf_traversed hsource ht
  obtain ⟨columnName', values', hscope', -, hfound'⟩ := rowsOf_traversed hnew ht
  have hreads := reads_congr hsource hscope hscope' hparent row
  rw [hfound', hreads, hrows tableConfig ht]
  constructor
  · rintro ⟨⟨hrow, hkeeps⟩ | hmem, hread⟩
    · exact absurd hread (hkept tableConfig ht row hrow hkeeps columnName values hscope)
    · exact hmem
  · intro hmem
    exact ⟨.inr hmem, ((hfound row).mp hmem).2⟩

theorem copy_ok (h : (c.copy source target keyValue).1 = .ok sourceRows) :
    c.loadRows source keyValue = .ok sourceRows ∧ ∃ targetRows,
      c.loadRows target keyValue = .ok targetRows ∧
      c.insertRows sourceRows (c.deleteRows targetRows target) =
        some (c.copy source target keyValue).2 := by
  unfold copy at h ⊢
  cases hsource : c.loadRows source keyValue with
  | error e =>
    rw [hsource] at h
    cases h
  | ok rows =>
    cases htarget : c.loadRows target keyValue with
    | error e =>
      rw [hsource, htarget] at h
      cases h
    | ok targetRows =>
      rw [hsource, htarget] at h
      dsimp only at h ⊢
      cases hinsert : c.insertRows rows (c.deleteRows targetRows target) with
      | none =>
        rw [hinsert] at h
        cases h
      | some db =>
        rw [hinsert] at h
        cases h
        exact ⟨rfl, targetRows, rfl, hinsert⟩

theorem copy_error {e : CopyError} (h : (c.copy source target keyValue).1 = .error e) :
    (c.copy source target keyValue).2 = target := by
  unfold copy at h ⊢
  split
  · rfl
  · rfl
  · next sourceRows targetRows hsource htarget =>
    rw [hsource, htarget] at h
    dsimp only at h
    split
    · rfl
    · next db hinsert =>
      rw [hinsert] at h
      cases h

theorem copy_again (hsource : c.loadRows source keyValue = .ok sourceRows)
    (hnew : c.loadRows db keyValue = .ok newRows)
    (hbrought : ∀ tableConfig ∈ c.tablePlan, ∀ row ∈ rowsOf sourceRows tableConfig,
      row ∈ db tableConfig.tableName)
    (hsame : ∀ tableConfig ∈ c.tablePlan, ∀ row,
      row ∈ rowsOf newRows tableConfig ↔ row ∈ rowsOf sourceRows tableConfig)
    (tableName : String) :
    ((c.copy source db keyValue).2 tableName).rows.Perm (db tableName).rows := by
  cases hagain : (c.copy source db keyValue).1 with
  | error e =>
    rw [copy_error hagain]
  | ok rows =>
    obtain ⟨hsource', targetRows, htarget, hinsert⟩ := copy_ok hagain
    cases hsource.symm.trans hsource'
    cases hnew.symm.trans htarget
    obtain ⟨hrows, hrest⟩ := (insertRows_iff hsource hnew).2 _ hinsert
    by_cases hplan : tableName ∈ c.tablePlan.map TableConfig.tableName
    · obtain ⟨tableConfig, ht, rfl⟩ := mem_map.mp hplan
      refine (perm_ext_iff_of_nodup ((Table.keys_nodup _).of_map _)
        ((Table.keys_nodup _).of_map _)).mpr fun row => ?_
      refine (hrows tableConfig ht row).trans ?_
      constructor
      · rintro (⟨hrow, -⟩ | hmem)
        · exact hrow
        · exact hbrought tableConfig ht row hmem
      · intro hrow
        by_cases hmem : row ∈ rowsOf newRows tableConfig
        · exact .inr ((hsame tableConfig ht row).mp hmem)
        · exact .inl ⟨hrow, fun h => absurd h hmem⟩
    · rw [hrest tableName hplan]

theorem settles_of_mirrors (h : c.Mirrors source target keyValue) :
    c.Settles source target keyValue := by
  intro sourceRows targetRows hsource htarget hclash tableConfig ht row hrow hkeeps columnName
    values hscope hread
  obtain ⟨db, hinsert⟩ := (insertRows_iff hsource htarget).1.mpr hclash
  have hcopy : c.copy source target keyValue = (.ok sourceRows, db) := by
    unfold copy
    rw [hsource, htarget]
    dsimp only
    rw [hinsert]
  rw [Mirrors, hcopy] at h
  obtain ⟨⟨newRows, hnew, hperm⟩, -⟩ := h
  obtain ⟨columnName', values', hscope', -, hfound'⟩ := rowsOf_traversed hnew ht
  have hreads := reads_congr hsource hscope hscope'
    (fun parent hparent _ _ row => (hperm parent hparent).mem_iff) row
  have hdb := ((insertRows_iff hsource htarget).2 db hinsert).1 tableConfig ht row
  have hmem : row ∈ rowsOf sourceRows tableConfig :=
    (hperm tableConfig ht).mem_iff.mp
      ((hfound' row).mpr ⟨hdb.mpr (.inl ⟨hrow, hkeeps⟩), hreads.mpr hread⟩)
  exact hclash ⟨tableConfig, ht, row, hrow, hkeeps, row, hmem, rfl⟩

theorem mirrors_of_settles (h : c.Settles source target keyValue) :
    c.Mirrors source target keyValue := by
  unfold Mirrors
  split
  · next e db hcopy =>
    have := copy_error (c := c) (congrArg Prod.fst hcopy)
    rw [hcopy] at this
    exact this
  · next sourceRows db hcopy =>
    obtain ⟨hsource, targetRows, htarget, hinsert⟩ := copy_ok (congrArg Prod.fst hcopy)
    rw [hcopy] at hinsert
    obtain ⟨hrows, hrest⟩ := (insertRows_iff hsource htarget).2 db hinsert
    have hclash := (insertRows_iff hsource htarget).1.mp ⟨db, hinsert⟩
    obtain ⟨newRows, hnew⟩ : ∃ newRows, c.loadRows db keyValue = .ok newRows :=
      traversePlan_of_loaded (fun _ => rfl) hsource
    have hsame := same_traversal hsource hnew hrows
      (h sourceRows targetRows hsource htarget hclash)
    refine ⟨⟨newRows, hnew, fun tableConfig ht => ?_⟩, ?_, hrest, ?_⟩
    · obtain ⟨-, -, -, hnodup, -⟩ := rowsOf_traversed hsource ht
      obtain ⟨-, -, -, hnodup', -⟩ := rowsOf_traversed hnew ht
      exact (perm_ext_iff_of_nodup hnodup' hnodup).mpr (hsame tableConfig ht)
    · intro targetRows' htarget' tableConfig ht row hrow hout
      cases htarget.symm.trans htarget'
      exact (hrows tableConfig ht row).mpr (.inl ⟨hrow, fun h => absurd h hout⟩)
    · exact copy_again hsource hnew
        (fun tableConfig ht row hmem => (hrows tableConfig ht row).mpr (.inr hmem)) hsame

/-- Projects by their id, and their tasks. -/
def projects : Copier where
  tablePlan := [{ tableName := "projects", keyColumn := some "id" },
    { tableName := "tasks", parentTableName := some "projects",
      parentColumn := some "project_id" }]
  tables_nodup := by decide

def oneProject : Database := fun tableName =>
  if tableName = "projects" then ⟨[⟨"1", fun _ => none⟩], by decide⟩ else .empty

def oneTask : Database := fun tableName =>
  if tableName = "tasks" then ⟨[⟨"7", fun _ => some "1"⟩], by decide⟩ else .empty

end Copier

end Velocious.DataCopier
