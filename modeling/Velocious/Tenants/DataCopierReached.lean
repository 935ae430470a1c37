/-
  The rows that a traversal reaches.

  * `Reached`: a row with the tenant key, or with the id of a row that is reached in the parent of
    its table; `mem_foundRows`: these are what a traversal finds.
-/
import Velocious.Tenants.DataCopierMirrors
import Velocious.Tenants.DataCopierMove

namespace Velocious.DataCopier

open Foundation List

namespace Copier

/-- A row is reached by the traversal of a plan. -/
inductive Reached (c : Copier) (db : Database) (keyValue : String) : TableConfig → Row → Prop
  | key {tableConfig : TableConfig} {row : Row} {keyColumn : String} :
      tableConfig ∈ c.tablePlan → row ∈ db tableConfig.tableName →
      orNull tableConfig.keyColumn = some keyColumn → trim keyValue ≠ "" →
      c.cell row keyColumn = some keyValue → Reached c db keyValue tableConfig row
  | child {tableConfig parent : TableConfig} {row parentRow : Row} {parentColumn : String} :
      tableConfig ∈ c.tablePlan → row ∈ db tableConfig.tableName →
      orNull tableConfig.keyColumn = none → orNull tableConfig.parentColumn = some parentColumn →
      orNull tableConfig.parentTableName = some parent.tableName →
      Reached c db keyValue parent parentRow → trim parentRow.id ≠ "" →
      c.cell row parentColumn = some parentRow.id → Reached c db keyValue tableConfig row

/-- The plan can be traversed: a table has a key column, or comes after its parent. -/
def Traversable (c : Copier) : Prop :=
  ∃ rows, c.loadRows (fun _ => .empty) "" = .ok rows

variable {c : Copier} {db db' : Database} {keyValue : String} {rows : RowsByTableName}
  {tableConfig : TableConfig} {row : Row}

namespace Reached

theorem mem_plan (h : c.Reached db keyValue tableConfig row) : tableConfig ∈ c.tablePlan := by
  cases h with
  | key ht => exact ht
  | child ht => exact ht

theorem mem (h : c.Reached db keyValue tableConfig row) : row ∈ db tableConfig.tableName := by
  cases h with
  | key _ hrow => exact hrow
  | child _ hrow => exact hrow

theorem of_scope {columnName : String} {values : List String} (ht : tableConfig ∈ c.tablePlan)
    (hrow : row ∈ db tableConfig.tableName)
    (hscope : scope rows keyValue tableConfig = .ok (columnName, values))
    (hread : c.Reads row columnName values)
    (hparent : ∀ parentTableName parentRows, rows parentTableName = some parentRows →
      ∃ parent ∈ c.tablePlan, parent.tableName = parentTableName ∧ ∀ parentRow ∈ parentRows,
        ∃ found, c.Reached db keyValue parent found ∧ found.id = parentRow.id) :
    c.Reached db keyValue tableConfig row := by
  obtain ⟨value, hvalue, hblank, hcell⟩ := hread
  rcases scope_eq_ok.mp hscope with ⟨hkey, rfl⟩ |
    ⟨hkey, hcolumn, parentTableName, parentRows, hname, hrows, rfl⟩
  · obtain rfl := mem_singleton.mp hvalue
    exact .key ht hrow hkey hblank hcell
  · obtain ⟨parent, -, rfl, hfound⟩ := hparent _ _ hrows
    obtain ⟨parentRow, hmem, rfl⟩ := mem_map.mp (mem_uniqueStrings.mp hvalue).1
    obtain ⟨found, hreached, hid⟩ := hfound parentRow hmem
    rw [← hid] at hblank hcell
    exact .child ht hrow hkey hcolumn hname hreached hblank hcell

theorem exists_of_replaced
    (h : ∀ tableConfig ∈ c.tablePlan, ∀ row ∈ db tableConfig.tableName,
      row ∈ db' tableConfig.tableName ∨
        ∃ found, c.Reached db' keyValue tableConfig found ∧ found.id = row.id)
    (hreached : c.Reached db keyValue tableConfig row) :
    ∃ found, c.Reached db' keyValue tableConfig found ∧ found.id = row.id := by
  induction hreached with
  | key ht hrow hkey hblank hcell =>
    rcases h _ ht _ hrow with hleft | hfound
    · exact ⟨_, .key ht hleft hkey hblank hcell, rfl⟩
    · exact hfound
  | child ht hrow hkey hcolumn hname _ hblank hcell ih =>
    rcases h _ ht _ hrow with hleft | hfound
    · obtain ⟨parentRow, hparent, hid⟩ := ih
      rw [← hid] at hblank hcell
      exact ⟨_, .child ht hleft hkey hcolumn hname hparent hblank hcell, rfl⟩
    · exact hfound

theorem of_id {found : Row} (h : c.Reached db keyValue tableConfig found) (hid : found.id = row.id)
    (hrow : row ∈ db tableConfig.tableName) : c.Reached db keyValue tableConfig row :=
  Table.eq_of_key h.mem hrow hid ▸ h

theorem of_subset (h : ∀ tableConfig ∈ c.tablePlan, ∀ row ∈ db tableConfig.tableName,
      row ∈ db' tableConfig.tableName) (hreached : c.Reached db keyValue tableConfig row) :
    c.Reached db' keyValue tableConfig row := by
  obtain ⟨found, hfound, hid⟩ :=
    exists_of_replaced (fun tableConfig ht row hrow => .inl (h tableConfig ht row hrow)) hreached
  exact hfound.of_id hid (h _ hreached.mem_plan _ hreached.mem)

theorem of_closed (hclosed : ∀ tableConfig ∈ c.tablePlan, ∀ row ∈ db' tableConfig.tableName,
      ∀ parent ∈ c.tablePlan, ∀ parentColumn, orNull tableConfig.keyColumn = none →
        orNull tableConfig.parentColumn = some parentColumn →
        orNull tableConfig.parentTableName = some parent.tableName →
        ∀ parentRow ∈ db parent.tableName, trim parentRow.id ≠ "" →
          c.cell row parentColumn = some parentRow.id → parentRow ∈ db' parent.tableName)
    (hreached : c.Reached db keyValue tableConfig row) (hrow : row ∈ db' tableConfig.tableName) :
    c.Reached db' keyValue tableConfig row := by
  induction hreached with
  | key ht _ hkey hblank hcell => exact .key ht hrow hkey hblank hcell
  | child ht _ hkey hcolumn hname hparent hblank hcell ih =>
    have hleft := hclosed _ ht _ hrow _ hparent.mem_plan _ hkey hcolumn hname _ hparent.mem hblank
      hcell
    exact .child ht hrow hkey hcolumn hname (ih hleft) hblank hcell

end Reached

theorem Traversable.loaded (h : c.Traversable) (db : Database) (keyValue : String) :
    ∃ rows, c.loadRows db keyValue = .ok rows :=
  let ⟨_, hrows⟩ := h
  traversePlan_of_loaded (fun _ => rfl) hrows

theorem mem_rowsOf (h : c.loadRows db keyValue = .ok rows) :
    ∀ tableConfig ∈ c.tablePlan, ∀ row,
      row ∈ rowsOf rows tableConfig ↔ c.Reached db keyValue tableConfig row := by
  have hsound : ∀ tableConfig ∈ c.tablePlan, ∀ row ∈ rowsOf rows tableConfig,
      c.Reached db keyValue tableConfig row := by
    refine table_induction h fun tableConfig ht hparent row hmem => ?_
    obtain ⟨columnName, values, hscope, -, hfound⟩ := rowsOf_traversed h ht
    obtain ⟨hrow, hread⟩ := (hfound row).mp hmem
    obtain ⟨value, hvalue, hblank, hcell⟩ := hread
    rcases scope_eq_ok.mp hscope with ⟨hkey, rfl⟩ |
      ⟨hkey, hcolumn, parentTableName, parentRows, hname, hrows, rfl⟩
    · obtain rfl := mem_singleton.mp hvalue
      exact .key ht hrow hkey hblank hcell
    · rcases exists_of_loaded h hrows with hnone | ⟨parent, hmem, rfl⟩
      · cases hnone
      · obtain ⟨parentRow, hparentRow, rfl⟩ := mem_map.mp (mem_uniqueStrings.mp hvalue).1
        have hreached := hparent parent hmem hkey hname parentRow (by simpa [rowsOf, hrows])
        exact .child ht hrow hkey hcolumn hname hreached hblank hcell
  refine fun tableConfig ht row => ⟨hsound tableConfig ht row, fun hreached => ?_⟩
  induction hreached with
  | key ht hrow hkey hblank hcell =>
    obtain ⟨columnName, values, hscope, -, hfound⟩ := rowsOf_traversed h ht
    rcases scope_eq_ok.mp hscope with ⟨hkey', rfl⟩ | ⟨hkey', -⟩
    · cases hkey.symm.trans hkey'
      exact (hfound _).mpr ⟨hrow, _, mem_singleton.mpr rfl, hblank, hcell⟩
    · cases hkey.symm.trans hkey'
  | child ht hrow hkey hcolumn hname hparent hblank hcell ih =>
    obtain ⟨columnName, values, hscope, -, hfound⟩ := rowsOf_traversed h ht
    rcases scope_eq_ok.mp hscope with ⟨hkey', -⟩ |
      ⟨-, hcolumn', parentTableName, parentRows, hname', hrows, rfl⟩
    · cases hkey.symm.trans hkey'
    · cases hcolumn.symm.trans hcolumn'
      cases hname.symm.trans hname'
      have hmem := ih hparent.mem_plan
      rw [rowsOf, hrows] at hmem
      exact (hfound _).mpr
        ⟨hrow, _, mem_uniqueStrings.mpr ⟨mem_map_of_mem hmem, hblank⟩, hblank, hcell⟩

theorem mem_foundRows (h : c.Traversable) (ht : tableConfig ∈ c.tablePlan) :
    row ∈ c.foundRows db keyValue tableConfig.tableName ↔
      c.Reached db keyValue tableConfig row := by
  obtain ⟨rows, hrows⟩ := h.loaded db keyValue
  rw [← mem_rowsOf hrows tableConfig ht, foundRows, hrows]
  rfl

theorem exists_of_foundRows {tableName : String} (h : row ∈ c.foundRows db keyValue tableName) :
    c.Traversable ∧ ∃ tableConfig ∈ c.tablePlan, tableConfig.tableName = tableName ∧
      c.Reached db keyValue tableConfig row := by
  unfold foundRows at h
  cases hrows : c.loadRows db keyValue with
  | error e =>
    rw [hrows] at h
    exact absurd h not_mem_nil
  | ok rows =>
    rw [hrows] at h
    dsimp only at h
    cases htable : rows tableName with
    | none =>
      rw [htable] at h
      exact absurd h not_mem_nil
    | some tableRows =>
      rcases exists_of_loaded hrows htable with hnone | ⟨tableConfig, ht, rfl⟩
      · cases hnone
      · refine ⟨traversePlan_of_loaded (fun _ => rfl) hrows, tableConfig, ht, rfl, ?_⟩
        exact (mem_rowsOf hrows tableConfig ht row).mp (by simpa [rowsOf, htable] using h)

end Copier

end Velocious.DataCopier
