/-
  The SQL condition of a where hash.

  A hash has attributes and relationships as its keys; a value is a scalar, `null`, an array, the
  hash of a relationship, or operator tuples in nested arrays. Which of these a value is, is decided
  by its shape.

  * `addCondition` reads operator tuples, and `whereSQLFromHash` compiles a hash at a join path; the
    index says whether a condition stands before it, and is shared by nested hashes.
  * The SQL is a list of `Token`s, and an `Atom` is one comparison; `parse` is the grammar.
  * `Holds` says what a hash means in a joined row.
-/
import Mathlib.Data.List.Infix
import Velocious.Foundation.Javascript

namespace Velocious.WhereModelClassHash

open Foundation

/-- What the compiler reads of models and drivers; `μ` are the model classes. -/
structure Models (μ : Type) where
  name : μ → String
  relationship : μ → String → Option (Option μ)
  attributeColumn : μ → String → Option String
  isColumn : μ → String → Bool
  columnType : μ → String → Option String
  databaseType : String
  underscore : String → String

/-- A hash, its entries in the order of `for … in`. -/
abbrev WhereHash := List (String × Json)

variable {μ : Type}

def resolveColumnName (g : Models μ) (m : μ) (key : String) : Option String :=
  match g.attributeColumn m key with
  | some column => some column
  | none =>
    if g.isColumn m key then some key
    else if g.isColumn m (g.underscore key) then some (g.underscore key)
    else none

/-! ## Operator tuples -/

/-- The operators of a tuple. -/
inductive Operator where
  | eq
  | notEq
  | gt
  | gteq
  | lt
  | lteq
  | like
  deriving DecidableEq, Repr

/-- `relationshipWhereOperators`, normalized -/
def operator? : String → Option Operator
  | "eq" => some .eq
  | "notEq" => some .notEq
  | "gt" | ">" => some .gt
  | "gteq" | ">=" => some .gteq
  | "lt" | "<" => some .lt
  | "lteq" | "<=" => some .lteq
  | "like" => some .like
  | _ => none

/-- A condition with an operator. -/
structure Tuple where
  attributeName : String
  operator : Operator
  value : Json

/-- `_isRelationshipWhereOperatorTuple`, with the tuple -/
def tuple? : List Json → Option Tuple
  | .str attributeName :: .str operator :: value :: _ =>
    (operator? operator).map fun operator => ⟨attributeName, operator, value⟩
  | _ => none

mutual

/-- The tuples of a condition, `none` where an error is thrown. -/
def addCondition : Json → Option (List Tuple)
  | .arr items =>
    match tuple? items with
    | some tuple => (addConditions 3 items).map (tuple :: ·)
    | none => addConditions 0 items
  | _ => none

def addConditions : ℕ → List Json → Option (List Tuple)
  | _, [] => some []
  | 0, condition :: others =>
    match addCondition condition, addConditions 0 others with
    | some tuples, some more => some (tuples ++ more)
    | _, _ => none
  | index + 1, _ :: others => addConditions index others

end

/-- `_normalizeRelationshipWhereOperatorTuples`, `none` where an error is thrown -/
def normalizeTuples (value : Json) : Option (List Tuple) :=
  match addCondition value with
  | some (tuple :: tuples) => some (tuple :: tuples)
  | _ => none

/-! ## Values -/

def numberString : JsNumber → String
  | .nan => "NaN"
  | .infinity negative => if negative then "-Infinity" else "Infinity"
  | x => x.text

/-- What `_normalizeSqliteBooleanValue` does to one value. -/
def normalizeBoolean (g : Models μ) (m : μ) (column : String) (entry : Json) : Json :=
  if g.databaseType = "sqlite" ∧ (g.columnType m column).map String.toLower = some "boolean" then
    match entry with
    | .bool b => .num (.int (if b then 1 else 0))
    | _ => entry
  else entry

def isUuidType (columnType : String) : Bool := "uuid".toList <:+: columnType.toList

def stringTypes : List String :=
  ["char", "varchar", "nvarchar", "string", "enum", "json", "jsonb", "citext", "binary",
    "varbinary"]

def shouldCoerceToString (columnType : String) : Bool :=
  isUuidType columnType || "text".toList <:+: columnType.toList || columnType ∈ stringTypes

/-- What `_normalizeValueForColumnType` does to one value; `none` is `NO_MATCH`. -/
def normalizeType (g : Models μ) (m : μ) (column : String) (entry : Json) : Option Json :=
  match (g.columnType m column).map String.toLower, entry with
  | some columnType, .num x =>
    if isUuidType columnType then none
    else if shouldCoerceToString columnType then some (.str (numberString x))
    else some entry
  | _, _ => some entry

def columnValue (g : Models μ) (m : μ) (column : String) (value : Json) : Option Json :=
  normalizeType g m column (normalizeBoolean g m column value)

/-- The value that is written into the SQL; `none` is `NO_MATCH`. -/
def typedValue (g : Models μ) (m : μ) (column : String) : Json → Option Json
  | .arr items =>
    let normalized := (items.map (normalizeBoolean g m column)).filterMap (normalizeType g m column)
    if ((g.columnType m column).map String.toLower).any isUuidType ∧ normalized = [] then none
    else some (.arr normalized)
  | value => normalizeType g m column (normalizeBoolean g m column value)

/-! ## SQL -/

/-- A column, of the table joined at a path; an unqualified one is of the base table. -/
structure ColumnRef where
  table : Option (List String)
  column : String
  cast : Bool := false
  deriving DecidableEq, Repr

/-- A comparison with values that the driver quotes. -/
inductive Atom where
  | never
  | always
  | isNull (column : ColumnRef)
  | isNotNull (column : ColumnRef)
  | equals (column : ColumnRef) (value : Json)
  | differs (column : ColumnRef) (value : Json)
  | isIn (column : ColumnRef) (values : List Json)
  | isNotIn (column : ColumnRef) (values : List Json)
  | compare (column : ColumnRef) (operator : Operator) (value : Json)

/-- A token of the SQL. -/
inductive Token where
  | open
  | close
  | and
  | atom (atom : Atom)

/-- `if (index > 0) sql += " AND "` -/
def lead (index : ℕ) : List Token := if 0 < index then [.and] else []

/-- One tuple of `_whereSQLFromRelationshipWhereOperatorTuples`. -/
def tupleAtom (g : Models μ) (m : μ) (table : List String) (tuple : Tuple) : Except String Atom :=
  match resolveColumnName g m tuple.attributeName with
  | none => .error s!"Unknown attribute \"{tuple.attributeName}\" for {g.name m}"
  | some column =>
    let isString := match tuple.value with
      | .str _ => true
      | _ => false
    let ref : ColumnRef := ⟨some table, column, g.databaseType = "mssql" && isString &&
      decide ((g.columnType m column).map String.toLower = some "text")⟩
    match typedValue g m column tuple.value, tuple.operator with
    | none, .notEq => .ok .always
    | none, _ => .ok .never
    | some (.arr []), .eq => .ok .never
    | some (.arr values), .eq => .ok (.isIn ref values)
    | some .null, .eq => .ok (.isNull ref)
    | some value, .eq => .ok (.equals ref value)
    | some (.arr []), .notEq => .ok .always
    | some (.arr values), .notEq => .ok (.isNotIn ref values)
    | some .null, .notEq => .ok (.isNotNull ref)
    | some value, .notEq => .ok (.differs ref value)
    | some (.arr _), _ => .error (s!"Operator does not support array values for " ++
        s!"{g.name m}.{tuple.attributeName}")
    | some .null, _ => .error (s!"Operator does not support null values for " ++
        s!"{g.name m}.{tuple.attributeName}")
    | some value, operator => .ok (.compare ref operator value)

def tuplesSQL (g : Models μ) (m : μ) (table : List String) :
    List Tuple → ℕ → Except String (List Token)
  | [], _ => .ok []
  | tuple :: tuples, index => do
    let atom ← tupleAtom g m table tuple
    .ok (lead index ++ .atom atom :: (← tuplesSQL g m table tuples (index + 1)))

/-- The last branch of `_whereSQLFromHash`: a scalar, `null`, or an array. -/
def leafAtom (g : Models μ) (m : μ) (tableName : Option (List String)) (key : String)
    (value : Json) : Except String Atom :=
  match resolveColumnName g m key with
  | none => .error s!"Unknown attribute \"{key}\" for {g.name m}"
  | some column =>
    let isString := match value with
      | .str _ => true
      | _ => false
    let ref : ColumnRef := ⟨tableName, column, g.databaseType = "mssql" && isString &&
      decide ((g.columnType m column).map String.toLower = some "text")⟩
    match typedValue g m column value with
    | none => .ok .never
    | some (.arr values) => .ok (.isIn ref values)
    | some .null => .ok (.isNull ref)
    | some value => .ok (.equals ref value)

/-- Whether a value is the hash of a relationship, `isPlainObject`. -/
def isHash : Json → Bool
  | .obj _ => true
  | _ => false

/-- An entry that is compiled on its own, without a nested hash. -/
def entrySQL (g : Models μ) (m : μ) (path : List String) (tableName : Option (List String))
    (key : String) (value : Json) (index : ℕ) : Except String (List Token) :=
  match normalizeTuples value, g.relationship m key, resolveColumnName g m key with
  | some tuples, some (some target), _ => do
    .ok (lead index ++ (← tuplesSQL g target (path ++ [key]) tuples 0))
  | some _, some none, _ => .error
      s!"Relationship \"{key}\" for {g.name m} has no target model class"
  | some tuples, none, some _ => do
    .ok (lead index ++ (← tuplesSQL g m (tableName.getD path) tuples 0))
  | _, _, _ =>
    match value with
    | .arr [] => .ok (lead index ++ [.atom .never])
    | value => do .ok (lead index ++ [.atom (← leafAtom g m tableName key value)])

mutual

/-- One entry of `_whereSQLFromHash`. -/
def valueSQL (g : Models μ) (m : μ) (path : List String) (tableName : Option (List String))
    (key : String) : Json → ℕ → Except String (List Token)
  | .obj hash, index =>
    match g.relationship m key with
    | none => .error s!"Unknown relationship \"{key}\" for {g.name m}"
    | some none => .error s!"Relationship \"{key}\" for {g.name m} has no target model class"
    | some (some target) =>
      whereSQLFromHash g target (path ++ [key]) (some (path ++ [key])) hash index
  | value, index => entrySQL g m path tableName key value index

def whereSQLFromHash (g : Models μ) (m : μ) (path : List String)
    (tableName : Option (List String)) : WhereHash → ℕ → Except String (List Token)
  | [], _ => .ok []
  | (key, value) :: hash, index => do
    let sql ← valueSQL g m path tableName key value index
    .ok (sql ++ (← whereSQLFromHash g m path tableName hash (index + 1)))

end

def toSql (g : Models μ) (m : μ) (qualifyBaseTable : Bool) (hash : WhereHash) :
    Except String (List Token) := do
  let sql ← whereSQLFromHash g m [] (if qualifyBaseTable then some [] else none) hash 0
  .ok (.open :: sql ++ [.close])

/-! ## The meaning of SQL -/

/-- Comparisons joined by `AND`, up to the closing parenthesis. -/
def parseAtoms : List Token → Option (List Atom)
  | [.atom atom, .close] => some [atom]
  | .atom atom :: .and :: sql => (parseAtoms sql).map (atom :: ·)
  | _ => none

/-- The comparisons of a well-formed condition. -/
def parse : List Token → Option (List Atom)
  | .open :: sql => parseAtoms sql
  | _ => none

/-- How a database compares a value that is not `NULL` with what the driver writes for a JavaScript
    value; some drivers write `null` in a list as a text. -/
structure Comparisons (ν : Type) where
  equal : ν → Json → Bool
  compare : Operator → ν → Json → Bool

/-- A joined row: the columns of the tables at the join paths, `none` for `NULL`. -/
abbrev JoinedRow (ν : Type) := List String → String → Option ν

variable {ν : Type}

def ColumnRef.read (ref : ColumnRef) (row : JoinedRow ν) : Option ν :=
  row (ref.table.getD []) ref.column

/-- A comparison is true; one with `NULL` is not. -/
def Atom.IsTrue (d : Comparisons ν) (row : JoinedRow ν) : Atom → Prop
  | never => False
  | always => True
  | isNull ref => ref.read row = none
  | isNotNull ref => ref.read row ≠ none
  | equals ref value => ∃ v, ref.read row = some v ∧ d.equal v value = true
  | differs ref value => ∃ v, ref.read row = some v ∧ d.equal v value = false
  | isIn ref values => ∃ v, ref.read row = some v ∧ ∃ value ∈ values, d.equal v value = true
  | isNotIn ref values => ∃ v, ref.read row = some v ∧ ∀ value ∈ values, d.equal v value = false
  | compare ref operator value => ∃ v, ref.read row = some v ∧ d.compare operator v value = true

/-- A column has a value: `null` is `NULL`, and a scalar is what the type of the column makes of it;
    a number is no UUID. -/
def Matches (g : Models μ) (d : Comparisons ν) (m : μ) (column : String) (v : Option ν) :
    Json → Prop
  | .null => v = none
  | value => ∃ typed u, columnValue g m column value = some typed ∧ v = some u ∧
      d.equal u typed = true

mutual

def HoldsAt (g : Models μ) (d : Comparisons ν) (row : JoinedRow ν) (m : μ) (path : List String)
    (key : String) : Json → Prop
  | .obj hash => ∃ target, g.relationship m key = some (some target) ∧
      Holds g d row target (path ++ [key]) hash
  | .arr items => ∃ column, resolveColumnName g m key = some column ∧
      ∃ item ∈ items, Matches g d m column (row path column) item
  | value => ∃ column, resolveColumnName g m key = some column ∧
      Matches g d m column (row path column) value

def Holds (g : Models μ) (d : Comparisons ν) (row : JoinedRow ν) (m : μ) (path : List String) :
    WhereHash → Prop
  | [] => True
  | (key, value) :: hash => HoldsAt g d row m path key value ∧ Holds g d row m path hash

end

end Velocious.WhereModelClassHash
