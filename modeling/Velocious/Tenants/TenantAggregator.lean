/-
  An aggregate across tenant databases.

  The tenants are grouped by their server. A server whose driver can refer to another database
  answers one query over the rows of all its tenants, the others answer one query for each tenant;
  each query is a `GROUP BY`, and what the queries return is merged in JavaScript.

  * A `SourceRow` is a row of a tenant's subquery, and `groupBy` is what a database answers.
  * The driver of a connection hands a row over as a `JsRow`, one object for its key columns and
    its aggregates: it chooses how it writes a key, and whether an integer comes as a number or as
    its digits. Of two columns with one name it keeps the later, which is the aggregate.
  * `mergeRows` is translated from the source; it sees no more than `JsRow`s.
-/
import Velocious.Foundation.Aggregation
import Velocious.Foundation.Doubles
import Velocious.Foundation.EntryMap
import Velocious.Foundation.Javascript

namespace Velocious.TenantAggregator

open Foundation

/-! ## Queries -/

/-- A normalized `AggregateSpec`; databases take `*` in `COUNT` only. -/
inductive AggregateSpec where
  | countAll
  | column (op : AggregateOperation) (name : String)
  deriving DecidableEq, Repr

def AggregateSpec.op : AggregateSpec → AggregateOperation
  | countAll => .count
  | column op _ => op

/-- A row of a subquery; `κ` are the values of key columns, `NULL` among them. -/
structure SourceRow (κ : Type) where
  key : String → κ
  source : String → Option ℤ

/-- What an aggregate reads of a row; `COUNT(*)` counts each. -/
def AggregateSpec.cell {κ : Type} : AggregateSpec → SourceRow κ → Option ℤ
  | countAll, _ => some 1
  | column _ name, row => row.source name

/-- `TenantAggregateOptions`; the aggregates are the entries of an object. -/
structure Options (τ : Type) where
  identifier : String
  tenants : Option (List τ) := none
  filter : Option (τ → Bool) := none
  keyColumns : List String := []
  aggregates : List (String × AggregateSpec)
  names_nodup : (aggregates.map Prod.fst).Nodup

/-- A row that a database answers. -/
@[ext] structure SqlRow (κ : Type) where
  key : List κ
  values : String → Option ℤ

def specOf (aggregates : List (String × AggregateSpec)) (name : String) : Option AggregateSpec :=
  (aggregates.find? fun aggregate => aggregate.1 = name).map Prod.snd

namespace Options
variable {τ κ : Type} (o : Options τ)

def keyOf (row : SourceRow κ) : List κ := o.keyColumns.map row.key

def groupRow [DecidableEq κ] (rows : List (SourceRow κ)) (key : List κ) : SqlRow κ where
  key := key
  values name := (specOf o.aggregates name).bind fun spec =>
    spec.op.aggregate ((rows.filter fun row => o.keyOf row = key).map spec.cell)

/-- The keys of a query; without key columns there is one row in any case. -/
def groupKeys [DecidableEq κ] (rows : List (SourceRow κ)) : List (List κ) :=
  if o.keyColumns = [] then [[]] else (rows.map o.keyOf).dedup

/-- What a database answers on `GROUP BY` the key columns, in some order. -/
def groupBy [DecidableEq κ] (rows : List (SourceRow κ)) : List (SqlRow κ) :=
  (o.groupKeys rows).map (o.groupRow rows)

end Options

/-- A value in a row: a key as a driver writes it, or the value of an aggregate. A field that is
    missing is `null`. -/
inductive RawValue where
  | key (value : Json)
  | null
  | text (n : ℤ)
  | number (x : Double)

/-- A row as a driver hands it over, or as it is merged: the fields of an object. -/
abbrev JsRow := String → RawValue

/-- The configuration, the servers and the drivers: `τ` are the tenants, `σ` the server keys. -/
structure Environment (τ σ κ : Type) where
  listTenants : Option (List τ)
  serverKey : τ → σ
  database : τ → Option String
  supportsCrossDatabaseReferences : τ → Bool
  /-- the rows of a tenant's subquery on a server, in a database there -/
  subquery : σ → Option String → τ → List (SourceRow κ)
  order : τ → List (SqlRow κ) → List (SqlRow κ)
  order_perm : ∀ connection rows, (order connection rows).Perm rows
  keyValue : τ → String → κ → Json
  asText : τ → String → ℤ → Bool

/-- A row of an answer, with the connection that returned it. -/
structure Found (τ κ : Type) where
  connection : τ
  row : SqlRow κ

/-! ## The merge -/

namespace RawValue

/-- `Number(rawValue)`, unless it is `null`; under the name of an aggregate no key is found. -/
def number? : RawValue → Option Double
  | key _ | null => none
  | text n => some (.ofInt n)
  | number x => some x

/-- The value for `JSON.stringify`. -/
def toJson : RawValue → Json
  | key value => value
  | text n => .str (toString n)
  | number (.finite n) => .num (.int n)
  | null | number _ => .null

end RawValue

def toExactNumber (rawValue : RawValue) (value : Double) : Except String Double :=
  match rawValue with
  | .text n =>
    if value.isSafe then .ok value
    else .error (s!"Aggregate value {n} exceeds the safe-integer range and cannot be merged " ++
      "without losing precision.")
  | _ => .ok value

def combine (op : AggregateOperation) (current value : Double) : Double :=
  match op with
  | .max => current.max value
  | .min => current.min value
  | .sum | .count => current.add value

/-- The inner loop of `_mergeRows`. -/
def addValues (row : JsRow) : List (String × AggregateSpec) → JsRow → Except String JsRow
  | [], accumulator => .ok accumulator
  | (name, spec) :: others, accumulator =>
    match (row name).number? with
    | none => addValues row others accumulator
    | some number => do
      let value ← toExactNumber (row name) number
      addValues row others <| Function.update accumulator name <| .number <|
        match accumulator name with
        | .number current => combine spec.op current value
        | _ => value

namespace Options
variable {τ : Type} (o : Options τ)

def mapKey (row : JsRow) : String :=
  (Json.arr (o.keyColumns.map fun keyColumn => (row keyColumn).toJson)).stringify

/-- The first object of a key: the aggregates are set to `null` behind the key columns. -/
def newAccumulator (row : JsRow) : JsRow := fun name =>
  if (specOf o.aggregates name).isSome then .null
  else if name ∈ o.keyColumns then row name
  else .null

/-- The outer loop of `_mergeRows`. -/
def mergeInto : List JsRow → EntryMap String JsRow → Except String (EntryMap String JsRow)
  | [], merged => .ok merged
  | row :: rows, merged => do
    let accumulator := (merged.get? (o.mapKey row)).getD (o.newAccumulator row)
    let accumulator ← addValues row o.aggregates accumulator
    mergeInto rows (merged.set (o.mapKey row) accumulator)

def mergeRows (rows : List JsRow) : Except String (List JsRow) :=
  (o.mergeInto rows .empty).map EntryMap.values

end Options

/-! ## A run -/

namespace Environment
variable {τ σ κ : Type} [DecidableEq σ] [DecidableEq κ] (env : Environment τ σ κ) (o : Options τ)

def ownRows (tenant : τ) : List (SourceRow κ) :=
  env.subquery (env.serverKey tenant) (env.database tenant) tenant

/-- A key column as the driver of a connection writes it. -/
def written (found : Found τ κ) (keyColumn : String) : RawValue :=
  .key <| ((o.keyColumns.zip found.row.key).lookup keyColumn).elim .null
    (env.keyValue found.connection keyColumn)

/-- A row as the driver of its connection hands it over. -/
def hand (found : Found τ κ) : JsRow := fun name =>
  if (specOf o.aggregates name).isSome then
    match found.row.values name with
    | none => .null
    | some n => if env.asText found.connection name n then .text n else .number (.ofInt n)
  else env.written o found name

def resolveTenants : Except String (List τ) := do
  let tenants ←
    match o.tenants, env.listTenants with
    | some tenants, _ => .ok tenants
    | none, some tenants => .ok tenants
    | none, none => .error (s!"Tenant database provider for {o.identifier} must return an array " ++
        "from listTenants")
  .ok (match o.filter with
    | some filter => tenants.filter filter
    | none => tenants)

def groupByServer (tenants : List τ) : EntryMap σ (List τ) :=
  tenants.foldl (fun groups tenant =>
    groups.set (env.serverKey tenant) <|
      match groups.get? (env.serverKey tenant) with
      | some group => group ++ [tenant]
      | none => [tenant]) .empty

/-- The `UNION ALL` of a query on the connection of `first`, its tables qualified. -/
def qualifiedRows (first : τ) : List τ → Except String (List (SourceRow κ))
  | [] => .ok []
  | tenant :: tenants =>
    match orNull (env.database tenant) with
    | none => .error (s!"Cannot build a cross-database query for a tenant without a resolved " ++
        s!"database name (identifier: {o.identifier}).")
    | some database => do
      let rows ← qualifiedRows first tenants
      .ok (env.subquery (env.serverKey first) (some database) tenant ++ rows)

/-- What a connection returns on a query over some rows. -/
def answer (connection : τ) (rows : List (SourceRow κ)) : List (Found τ κ) :=
  (env.order connection (o.groupBy rows)).map (Found.mk connection)

def runForServer (group : List τ) : Except String (List (Found τ κ)) :=
  match group with
  | [] => .ok []
  | first :: _ =>
    if env.supportsCrossDatabaseReferences first then do
      .ok (env.answer o first (← env.qualifiedRows o first group))
    else .ok (group.flatMap fun tenant => env.answer o tenant (env.ownRows tenant))

def runForServers : List (List τ) → Except String (List (Found τ κ))
  | [] => .ok []
  | group :: groups => do
    let groupRows ← env.runForServer o group
    .ok (groupRows ++ (← runForServers groups))

/-- The rows that the queries return. -/
def collect (tenants : List τ) : Except String (List (Found τ κ)) :=
  env.runForServers o (env.groupByServer tenants).values

def run : Except String (List JsRow) := do
  let resolvedTenants ← env.resolveTenants o
  if resolvedTenants.isEmpty then .ok []
  else
    let rows ← env.collect o resolvedTenants
    o.mergeRows (rows.map (env.hand o))

end Environment

end Velocious.TenantAggregator
