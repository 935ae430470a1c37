/-
  Moving the rows of one tenant into another database.

  A move reads the rows of the tenant in the source, one statement after the other, writes them to
  the target in one transaction, and deletes them from the source in another. It can fail or crash
  between any two statements, and is then started again; the tenant writes its rows in the source
  all along.

  * `Phase`: where a move is; `Action`: what happens next.
  * `State.latest` is for the proofs only: the rows of the tenant, each as it was last written.
  * `Kept` says what a move is for.
-/
import Velocious.Foundation.Machine
import Velocious.Tenants.DataCopier

namespace Velocious.DataCopier

open Foundation

/-! ## A move -/

/-- An object that `transformRow` returns: its id as text, its keys, and the cells of its keys. -/
structure TransformedRow where
  row : Row
  hasColumn : String → Bool

/-- Why a move fails. -/
inductive MoveError where
  | transform (message : String)
  | verification (message : String)
  | duplicateKey
  deriving DecidableEq, Repr

/-- A copier with the arguments of a move. -/
structure Move extends Copier where
  keyValue : String
  transformRow : Option (String → Row → TransformedRow) := none
  /-- what a table gives a column that an `INSERT` does not list -/
  columnDefault : String → String → Option String := fun _ _ => none
  undefinedCell : Option String := none

namespace Move
variable (m : Move)

def transformed (tableName : String) (sourceRow : Row) : TransformedRow :=
  match m.transformRow with
  | some transformRow => transformRow tableName sourceRow
  | none => ⟨sourceRow, fun _ => true⟩

def transformTable (tableName : String) : List Row → Except MoveError (List TransformedRow)
  | [] => .ok []
  | sourceRow :: others =>
    if (m.transformed tableName sourceRow).row.id ≠ sourceRow.id then
      .error <| .transform (s!"DataCopier move transform must preserve {m.idColumn} for table " ++
        s!"{tableName}.")
    else (transformTable tableName others).map (m.transformed tableName sourceRow :: ·)

def transformRows (rowsByTableName : RowsByTableName) :
    Except MoveError (String → List TransformedRow) :=
  m.tablePlan.foldlM (fun transformedRowsByTableName tableConfig =>
    (m.transformTable tableConfig.tableName (Copier.rowsOf rowsByTableName tableConfig)).map
      (Function.update transformedRowsByTableName tableConfig.tableName)) fun _ => []

/-- A row as an `INSERT` with some columns writes it. -/
def insertedRow (tableName : String) (columns : String → Bool) (transformedRow : TransformedRow) :
    Row where
  id := transformedRow.row.id
  cells columnName :=
    if columns columnName then
      if transformedRow.hasColumn columnName then transformedRow.row.cells columnName
      else m.undefinedCell
    else m.columnDefault tableName columnName

def insertedRows (transformedRowsByTableName : String → List TransformedRow) : RowsByTableName :=
  fun tableName => some <|
    match transformedRowsByTableName tableName with
    | [] => []
    | first :: others => (first :: others).map (m.insertedRow tableName first.hasColumn)

def queryExistingIds (db : Database) (tableName : String) (ids : List String) : List String :=
  ((db tableName).select fun row => ids.contains row.id).map Row.id

def assertRowsExist (db : Database) (rowsByTableName : String → List TransformedRow) :
    Except MoveError Unit :=
  m.tablePlan.forM fun tableConfig =>
    let expectedIds := uniqueStrings <|
      (rowsByTableName tableConfig.tableName).map fun transformedRow => transformedRow.row.id
    if (queryExistingIds db tableConfig.tableName expectedIds).length = expectedIds.length then
      .ok ()
    else .error <| .verification
      s!"DataCopier move target verification failed for table {tableConfig.tableName}."

/-- The target after its transaction; an error rolls it back. -/
def writeTarget (sourceRowsByTableName : RowsByTableName) (target : Database) :
    Except MoveError Database := do
  let targetRowsByTableName ← m.transformRows sourceRowsByTableName
  match m.insertRows (m.insertedRows targetRowsByTableName)
      (m.deleteRows sourceRowsByTableName target) with
  | none => .error .duplicateKey
  | some db => (m.assertRowsExist db targetRowsByTableName).map fun _ => db

def rowsByTableNameHasRows (rowsByTableName : RowsByTableName) : Bool :=
  m.tablePlan.any fun tableConfig => !(Copier.rowsOf rowsByTableName tableConfig).isEmpty

end Move

/-! ## Steps -/

/-- A table that is being read: the column that scopes it, the values of the statements that are
    left, and the rows found so far. -/
structure Reading where
  columnName : String
  valuesChunks : List (List String)
  rows : List Row

/-- Where the move is. -/
inductive Phase where
  | idle
  | loading (rowsByTableName : RowsByTableName) (reading : Option Reading)
      (tables : List TableConfig)
  | loaded (sourceRowsByTableName : RowsByTableName)
  | copied (sourceRowsByTableName : RowsByTableName)

/-- Both databases, and the move. -/
structure State where
  source : Database
  target : Database
  phase : Phase
  /-- the rows of the tenant, by table and id, as they were last written -/
  latest : String → String → Option Row

/-- What can happen. -/
inductive Action where
  | insert (tableName : String) (row : Row)
  | update (tableName : String) (row : Row)
  | start
  | query
  | writeTarget
  | deleteSource
  /-- an error or a crash; a transaction that is not committed is rolled back -/
  | fail

/-- The rows that a traversal finds in a table. -/
def Copier.foundRows (c : Copier) (db : Database) (keyValue tableName : String) : List Row :=
  match c.loadRows db keyValue with
  | .ok rowsByTableName => (rowsByTableName tableName).getD []
  | .error _ => []

namespace Move
variable (m : Move)

/-- The next step of `traversePlan`. -/
def query (source : Database) (rowsByTableName : RowsByTableName) :
    Option Reading → List TableConfig → Phase
  | _, [] =>
    if m.rowsByTableNameHasRows rowsByTableName then .loaded rowsByTableName else .idle
  | none, tableConfig :: others =>
    match Copier.scope rowsByTableName m.keyValue tableConfig with
    | .ok (columnName, values) => .loading rowsByTableName
        (some ⟨columnName, chunks (uniqueStrings values) m.queryChunkSize, []⟩)
        (tableConfig :: others)
    | .error _ => .idle
  | some ⟨columnName, valuesChunk :: valuesChunks, rows⟩, tableConfig :: others =>
    .loading rowsByTableName (some ⟨columnName, valuesChunks,
      rows ++ (source tableConfig.tableName).select fun row =>
        valuesChunk.any fun value => m.cell row columnName = some value⟩) (tableConfig :: others)
  | some ⟨_, [], rows⟩, tableConfig :: others =>
    .loading (Function.update rowsByTableName tableConfig.tableName (some rows)) none others

def record (source : Database) (latest : String → String → Option Row) :
    String → String → Option Row := fun tableName id =>
  ((m.foundRows source m.keyValue tableName).find? fun row => row.id = id).or (latest tableName id)

def written (s : State) (source : Database) (tableName : String) (row : Row) : Option State :=
  if (m.foundRows source m.keyValue tableName).any fun found => found.id = row.id then
    some { s with source, latest := m.record source s.latest }
  else none

def step (s : State) : Action → Option State
  | .insert tableName row =>
    ((s.source tableName).insert? row).bind fun table =>
      m.written s (Function.update s.source tableName table) tableName row
  | .update tableName row =>
    ((s.source tableName).find? row.id).bind fun _ =>
      m.written s (Function.update s.source tableName ((s.source tableName).put row)) tableName row
  | .start =>
    match s.phase with
    | .idle => some { s with phase := .loading (fun _ => none) none m.tablePlan }
    | _ => none
  | .query =>
    match s.phase with
    | .loading rowsByTableName reading tables =>
      some { s with phase := m.query s.source rowsByTableName reading tables }
    | _ => none
  | .writeTarget =>
    match s.phase with
    | .loaded rowsByTableName =>
      match m.writeTarget rowsByTableName s.target with
      | .ok target => some { s with target, phase := .copied rowsByTableName }
      | .error _ => some { s with phase := .idle }
    | _ => none
  | .deleteSource =>
    match s.phase with
    | .copied rowsByTableName =>
      some { s with source := m.deleteRows rowsByTableName s.source, phase := .idle }
    | _ => none
  | .fail => some { s with phase := .idle }

def init (source target : Database) : State where
  source
  target
  phase := .idle
  latest := m.record source fun _ _ => none

def image (tableName : String) (row : Row) : Row :=
  m.insertedRow tableName (m.transformed tableName row).hasColumn (m.transformed tableName row)

/-- What a move is for: every row of the tenant is found in the source as it was last written, or
    what it is transformed to is found in the target, by the traversal with the key that it has
    there; every other row that the target had is unchanged, and found if it was found. -/
structure Kept (targetKey : String) (target : Database) (s : State) : Prop where
  found : ∀ tableConfig ∈ m.tablePlan, ∀ id row,
    s.latest tableConfig.tableName id = some row →
    row ∈ m.foundRows s.source m.keyValue tableConfig.tableName ∨
      m.image tableConfig.tableName row ∈ m.foundRows s.target targetKey tableConfig.tableName
  others : ∀ tableName, ∀ row ∈ target tableName, s.latest tableName row.id = none →
    row ∈ s.target tableName
  others_found : ∀ tableConfig ∈ m.tablePlan,
    ∀ row ∈ m.foundRows target targetKey tableConfig.tableName,
      s.latest tableConfig.tableName row.id = none →
        row ∈ m.foundRows s.target targetKey tableConfig.tableName

end Move

end Velocious.DataCopier
