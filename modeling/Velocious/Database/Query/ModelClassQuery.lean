/-
  Counting and loading of model queries (`count` and `toArray` of
  src/database/query/model-class-query.js).

  * A query is its clauses, and `execute` what the database returns for them: the rows of the joins
    that meet the conditions, in groups, projected, made distinct, ordered and cut.
  * `count` is a query of its own, with one aggregate for the selects, or counts the rows of the
    query as a derived table.
  * Where a database may do one thing or another (which statements it refuses, in what order it
    returns rows), it is a field of `Database`.
-/
import Mathlib.Data.Int.Notation
import Mathlib.Logic.Function.Basic
import Velocious.Foundation.Joins

namespace Velocious.ModelClassQuery

open Foundation

/-! ## Values and rows -/

/-- A value of SQL; those that are no numbers are `ν`. -/
inductive SqlValue (ν : Type) where
  | null
  | number (n : ℤ)
  | value (v : ν)
  deriving DecidableEq, Repr

/-- A row of a table, by its columns. -/
abbrev TableRow (ν : Type) := String → SqlValue ν

/-- A row of the root table, or none, with those of the joined tables by their references. -/
structure JoinedRow (ν : Type) where
  root : Option (TableRow ν)
  joined : String → Option (TableRow ν)

/-- What a statement returns, row by row. -/
abbrev Record (ν : Type) := List (SqlValue ν)

variable {ν : Type}

/-- A column of the root table; without a row it is `NULL`. -/
def JoinedRow.rootColumn (row : JoinedRow ν) (column : String) : SqlValue ν :=
  row.root.elim .null fun root => root column

def nullRow : JoinedRow ν := ⟨none, fun _ => none⟩

def JoinedRow.merge (reference : String) (row : Option (JoinedRow ν)) (table : Option (TableRow ν)) :
    JoinedRow ν :=
  let row := row.getD nullRow
  { row with joined := Function.update row.joined reference table }

/-- What is given to `setPrimaryKey`, if anything. -/
inductive PrimaryKey where
  | unset
  | null
  | column (name : String)
  | columns (names : List String)
  deriving DecidableEq

/-- What a query reads of its model. -/
structure ModelClass where
  name : String
  tableName : String
  columns : List String
  setting : PrimaryKey

namespace ModelClass

def hasPrimaryKey (m : ModelClass) : Bool := m.setting ≠ .null

/-- `primaryKey`: a column, or several. -/
def primaryKey (m : ModelClass) : String ⊕ List String :=
  match m.setting with
  | .unset | .null => .inl "id"
  | .column name => .inl (if name = "" then "id" else name)
  | .columns names => .inr names

def singleColumnPrimaryKey (m : ModelClass) : Option String :=
  if m.hasPrimaryKey then m.primaryKey.getLeft? else none

def keyColumns (m : ModelClass) : List String :=
  if m.hasPrimaryKey then m.primaryKey.elim (fun column => [column]) id else []

end ModelClass

/-- A joined table: its name, and the reference by which the query knows it. -/
structure Join (ν : Type) where
  type : JoinType
  table : String
  reference : String
  on : JoinedRow ν → TableRow ν → Bool

/-- An entry of the selects: columns of a row, or an aggregate over rows. -/
inductive Select (ν : Type) where
  | columns (f : JoinedRow ν → Record ν)
  | aggregate (f : List (JoinedRow ν) → SqlValue ν)

/-- An order is its SQL. -/
structure Query (ν : Type) where
  joins : List (Join ν) := []
  wheres : List (JoinedRow ν → Bool) := []
  groups : List (JoinedRow ν → SqlValue ν) := []
  selects : List (Select ν) := []
  distinct : Bool := false
  orders : List String := []
  limit : Option ℕ := none
  offset : Option ℕ := none

def Select.isAggregate : Select ν → Bool
  | columns _ => false
  | aggregate _ => true

/-- What an entry selects of a group; a column beside aggregates is taken of any row of it. -/
def Select.cells (group : List (JoinedRow ν)) : Select ν → Record ν
  | columns f => f (group.headD nullRow)
  | aggregate f => [f group]

def Query.where (q : Query ν) (conditions : List (JoinedRow ν → Bool)) : Query ν :=
  { q with wheres := q.wheres ++ conditions }

/-! ## Databases -/

/-- The tables, and what the server refuses. -/
structure Database (ν : Type) where
  content : String → List (TableRow ν)
  /-- the statement of a query is not refused: for an `ORDER BY` of a column beside an aggregate, or
  of the name of a select that is not there -/
  accepts : Query ν → Bool
  /-- a query is not refused as a derived table: for two columns of one name, or for its order -/
  acceptsDerived : Query ν → Bool
  arrange : Query ν → List (Record ν) → List (Record ν)
  arrange_perm : ∀ q records, (arrange q records).Perm records
  accepts_where : ∀ q conditions, accepts (q.where conditions) = accepts q
  acceptsDerived_where : ∀ q conditions, acceptsDerived (q.where conditions) = acceptsDerived q

section
variable [DecidableEq ν] (m : ModelClass) (db : Database ν)

def Query.rows (q : Query ν) : List (JoinedRow ν) :=
  let roots := (db.content m.tableName).map fun root => ⟨some root, fun _ => none⟩
  let joined := q.joins.foldl (fun rows join =>
    joinRows join.type join.on (JoinedRow.merge join.reference) rows (db.content join.table)) roots
  joined.filter fun row => q.wheres.all fun condition => condition row

/-- The groups that become one row each; without `GROUP BY`, an aggregate makes one of all rows. -/
def Query.batches (q : Query ν) : List (List (JoinedRow ν)) :=
  if q.groups ≠ [] then groupRows (fun row => q.groups.map fun group => group row) (q.rows m db)
  else if q.selects.any Select.isAggregate then [q.rows m db]
  else (q.rows m db).map fun row => [row]

def Query.cells (q : Query ν) (group : List (JoinedRow ν)) : Record ν :=
  if q.selects = [] then m.columns.map (group.headD nullRow).rootColumn
  else q.selects.flatMap (Select.cells group)

def Query.outputs (q : Query ν) : List (Record ν) :=
  let records := (q.batches m db).map (q.cells m)
  let records := if q.distinct then records.dedup else records
  window q.limit q.offset (db.arrange q records)

def execute (q : Query ν) : Option (List (Record ν)) :=
  if db.accepts q then some (q.outputs m db) else none

/-- `SELECT COUNT(*) FROM (…)`. -/
def executeDerived (q : Query ν) : Option (List (Record ν)) :=
  if db.acceptsDerived q then some [[.number (q.outputs m db).length]] else none

/-! ## Loading and counting -/

def toArray (q : Query ν) : Option (List (Record ν)) := execute m db q

/-- What `count` throws. -/
inductive CountError where
  | groupedDistinct (name : String)
  | invalidResult
  | refused
  deriving DecidableEq

def countColumn : Record ν → Option ℤ
  | [.number n] => some n
  | _ => none

def paginatedCount (q : Query ν) : Except CountError ℤ :=
  match executeDerived m db q with
  | none => .error .refused
  | some [result] => (countColumn result).elim (.error .invalidResult) .ok
  | some _ => .error .invalidResult

/-- `COUNT(*)`, or `COUNT` of a key or of its distinct values; neither counts `NULL`. -/
def countExpression (distinct : Bool) (key : Option String) : Select ν :=
  .aggregate fun rows =>
    match key with
    | none => .number rows.length
    | some column =>
      let keys := (rows.map fun row => row.rootColumn column).filter (· ≠ .null)
      .number (if distinct then keys.dedup else keys).length

def Query.countQuery (q : Query ν) : Query ν :=
  { q with distinct := false
           selects := [countExpression q.distinct m.singleColumnPrimaryKey] }

def sumCounts : List (Record ν) → Except CountError ℤ
  | [] => .ok 0
  | result :: results =>
    match countColumn result with
    | none => .error .invalidResult
    | some n => (sumCounts results).map fun total => n + total

def count (q : Query ν) : Except CountError ℤ :=
  let hasSingleColumnPrimaryKey := m.singleColumnPrimaryKey.isSome
  if q.limit ≠ none ∨ q.offset ≠ none ∨ (¬hasSingleColumnPrimaryKey ∧ q.groups = []) then
    paginatedCount m db q
  else if ¬hasSingleColumnPrimaryKey ∧ q.distinct then .error (.groupedDistinct m.name)
  else
    match execute m db (q.countQuery m) with
    | none => .error .refused
    | some [result] => (countColumn result).elim (.error .invalidResult) .ok
    | some results => sumCounts results

end

end Velocious.ModelClassQuery
