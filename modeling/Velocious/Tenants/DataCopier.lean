/-
  Copying the rows of one tenant into another database.

  A plan lists the tables, each with how its rows belong to a tenant: by a key column, or by a
  column that refers to a row of an earlier table. `copy` reads the rows of the tenant in both
  databases, deletes those of the target and inserts those of the source, in one transaction.

  * A row has an `id`, its primary key, and other cells, each `NULL` or the text `String` gives for
    it; a `Database` has a keyed table for each name, and compares ids and keys exactly.
  * `traversePlan` reads the tables of the plan one after the other.
  * `Mirrors` says what a copy is for.
-/
import Velocious.Foundation.Javascript
import Velocious.Foundation.Table

namespace Velocious.DataCopier

open Foundation

/-! ## Rows and databases -/

/-- A row; foreign keys are not enforced while rows are copied. -/
structure Row where
  id : String
  cells : String → Option String

abbrev Database := String → Table Row Row.id

/-- `TenantTablePlanEntry` -/
structure TableConfig where
  tableName : String
  keyColumn : Option String := none
  parentTableName : Option String := none
  parentColumn : Option String := none
  deriving DecidableEq, Repr

/-- A copier; the loops over chunks end where a chunk is not empty. -/
structure Copier where
  tablePlan : List TableConfig
  idColumn : String := "id"
  insertChunkSize : ℕ := 100
  queryChunkSize : ℕ := 500
  insertChunkSize_pos : 0 < insertChunkSize := by exact Nat.zero_lt_succ _
  queryChunkSize_pos : 0 < queryChunkSize := by decide
  tables_nodup : (tablePlan.map TableConfig.tableName).Nodup

/-- The rows of a traversal, `rowsByTableName`. -/
abbrev RowsByTableName := String → Option (List Row)

/-- Why a copy fails. -/
inductive CopyError where
  | plan (message : String)
  | duplicateKey
  deriving DecidableEq, Repr

def chunks {α : Type} (values : List α) (chunkSize : ℕ) : List (List α) :=
  (List.range ((values.length + chunkSize - 1) / chunkSize)).map fun i =>
    (values.drop (i * chunkSize)).take chunkSize

/-- Distinct values that are not blank, in the order they are first seen. -/
def uniqueStrings (values : List String) : List String :=
  (values.filter fun value => trim value ≠ "").reverse.dedup.reverse

namespace Copier
variable (c : Copier)

/-- `row[columnName]` -/
def cell (row : Row) (columnName : String) : Option String :=
  if columnName = c.idColumn then some row.id else row.cells columnName

def queryRowsByColumn (db : Database) (tableName columnName : String) (values : List String) :
    List Row :=
  (chunks (uniqueStrings values) c.queryChunkSize).flatMap fun valuesChunk =>
    (db tableName).select fun row => valuesChunk.any fun value => c.cell row columnName = some value

def scope (rowsByTableName : RowsByTableName) (keyValue : String) (tableConfig : TableConfig) :
    Except CopyError (String × List String) :=
  match orNull tableConfig.keyColumn with
  | some keyColumn => .ok (keyColumn, [keyValue])
  | none =>
    match orNull tableConfig.parentColumn, orNull tableConfig.parentTableName with
    | some parentColumn, some parentTableName =>
      match rowsByTableName parentTableName with
      | some rows => .ok (parentColumn, uniqueStrings (rows.map Row.id))
      | none => .error <| .plan (s!"Tenant table plan entry {tableConfig.tableName} references " ++
          s!"parent table {parentTableName}, which has not been loaded; parent tables must " ++
          "appear before their children in the plan.")
    | _, _ => .error <| .plan (s!"Expected keyColumn or parentTableName+parentColumn for table " ++
        s!"{tableConfig.tableName} in the tenant table plan.")

def traversePlan (db : Database) (keyValue : String) :
    List TableConfig → RowsByTableName → Except CopyError RowsByTableName
  | [], rowsByTableName => .ok rowsByTableName
  | tableConfig :: others, rowsByTableName => do
    let (columnName, values) ← scope rowsByTableName keyValue tableConfig
    traversePlan db keyValue others <| Function.update rowsByTableName tableConfig.tableName <|
      some (c.queryRowsByColumn db tableConfig.tableName columnName values)

def loadRows (db : Database) (keyValue : String) : Except CopyError RowsByTableName :=
  c.traversePlan db keyValue c.tablePlan fun _ => none

/-! ## Writing -/

def rowsOf (rowsByTableName : RowsByTableName) (tableConfig : TableConfig) : List Row :=
  (rowsByTableName tableConfig.tableName).getD []

def deleteFrom (rowsByTableName : RowsByTableName) (db : Database) (tableConfig : TableConfig) :
    Database :=
  Function.update db tableConfig.tableName <|
    (chunks (uniqueStrings ((rowsOf rowsByTableName tableConfig).map Row.id))
      c.queryChunkSize).foldl (fun table rowIdsChunk => table.delete fun row =>
        rowIdsChunk.contains row.id) (db tableConfig.tableName)

def deleteRows (rowsByTableName : RowsByTableName) (db : Database) : Database :=
  c.tablePlan.reverse.foldl (c.deleteFrom rowsByTableName) db

def insertInto (rowsByTableName : RowsByTableName) (db : Database) (tableConfig : TableConfig) :
    Option Database :=
  ((chunks (rowsOf rowsByTableName tableConfig) c.insertChunkSize).foldlM
    (fun (table : Table Row Row.id) rowsChunk => table.insertAll? rowsChunk) (db tableConfig.tableName)).map
      (Function.update db tableConfig.tableName)

def insertRows (rowsByTableName : RowsByTableName) (db : Database) : Option Database :=
  c.tablePlan.foldlM (c.insertInto rowsByTableName) db

/-- What a copy returns, and the target after it; an error rolls the transaction back. -/
def copy (source target : Database) (keyValue : String) :
    Except CopyError RowsByTableName × Database :=
  match c.loadRows source keyValue, c.loadRows target keyValue with
  | .error e, _ | _, .error e => (.error e, target)
  | .ok sourceRows, .ok targetRows =>
    match c.insertRows sourceRows (c.deleteRows targetRows target) with
    | none => (.error .duplicateKey, target)
    | some db => (.ok sourceRows, db)

/-- What a copy is for: if it fails, the target stays as it was; otherwise a traversal of the target
    finds the rows of the source, no row outside the previous traversal has changed, and another
    copy changes nothing. -/
def Mirrors (source target : Database) (keyValue : String) : Prop :=
  match c.copy source target keyValue with
  | (.error _, db) => db = target
  | (.ok sourceRows, db) =>
    (∃ newRows, c.loadRows db keyValue = .ok newRows ∧
      ∀ tableConfig ∈ c.tablePlan, (rowsOf newRows tableConfig).Perm (rowsOf sourceRows tableConfig)) ∧
    (∀ targetRows, c.loadRows target keyValue = .ok targetRows → ∀ tableConfig ∈ c.tablePlan,
      ∀ row ∈ target tableConfig.tableName, row ∉ rowsOf targetRows tableConfig →
        row ∈ db tableConfig.tableName) ∧
    (∀ tableName ∉ c.tablePlan.map TableConfig.tableName, db tableName = target tableName) ∧
    ∀ tableName, ((c.copy source db keyValue).2 tableName).rows.Perm (db tableName).rows

end Copier

end Velocious.DataCopier
