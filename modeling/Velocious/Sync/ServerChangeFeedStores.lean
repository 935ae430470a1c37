/-
  The two stores of the server change feed (src/sync/server-change-feed.js): the one in
  process memory, used where no database is configured, and the SQL one.

  * A text column of JSON is the value whose text it holds: reading it is `viaJson`, and two
    texts are compared by `write`.
  * The statements of one append run with no other append between them, and the table is
    ready. How the database compares texts is a parameter: on MySQL the table's collation
    is `utf8mb4_unicode_ci`, which does not tell `a` from `A`.
  * `Agree`: the two answer every query alike.
-/
import Velocious.Foundation.IsoDate
import Velocious.Sync.ServerChangeFeed

namespace Velocious.FeedStores

open Foundation Foundation.JsValue DeviceIdentity

/-! ## Changes -/

/-- A JSON value; the keys of its objects are distinct. -/
structure JsonValue where
  value : JsValue
  distinct : all hasDistinctKeys value = true

/-- A record id; a number is written by `String`. -/
inductive RecordId where
  | text (s : String)
  | number (x : NumberValue)

def RecordId.string : RecordId → String
  | text s => s
  | number (.finite digits) => .ofList digits.chars
  | number .negativeZero => "0"
  | number .nan => "NaN"
  | number (.infinity negative) => if negative then "-Infinity" else "Infinity"

/-- What `append` is given. -/
structure Change where
  actorDeviceId : Option String
  actorUserId : Option String
  attributes : Option JsonValue
  createdAt : Option String
  id : Option String
  idempotencyKey : Option String
  model : String
  operation : String
  payload : Option JsonValue
  recordId : Option RecordId
  response : Option JsonValue
  scope : Option JsonValue

/-- A call of `append`, with what `randomUUID` and `new Date()` give it. -/
structure Append where
  change : Change
  randomUUID : String
  now : TimeValue

/-- `change.id || randomUUID()`. -/
def Append.id (a : Append) : String := (orNull a.change.id).getD a.randomUUID

/-- `change.createdAt || new Date().toISOString()`. -/
def Append.createdAt (a : Append) : String :=
  (orNull a.change.createdAt).getD (.ofList (isoText a.now))

/-- `value || null`, where the value may be missing. -/
def givenOrNull (v : Option JsonValue) : JsValue := (v.map fun v => valueOrNull v.value).getD .null

/-- A change. -/
structure ServerChangeFeedEntry where
  actorDeviceId : Option String
  actorUserId : Option String
  attributes : JsValue
  createdAt : String
  id : String
  idempotencyKey : Option String
  model : String
  operation : String
  payload : JsValue
  recordId : Option String
  response : JsValue
  scope : JsValue
  serverSequence : ℕ

/-! ## Settings -/

/-- What the engine and the database decide. -/
structure Platform where
  parseDate : String → Option TimeValue
  keepTime : TimeValue → TimeValue
  /-- `=` on texts in the database, by its collation -/
  sameText : String → String → Bool
  sameText_refl : ∀ s, sameText s s = true
  sameText_symm : ∀ s t, sameText s t = sameText t s
  /-- whether `length - size` is rounded to the next integer, for a size that is none -/
  roundsUp : JsNumber → ℕ → Bool

def defaultRetentionSize : ℕ := 10000

/-- `value || other`. -/
def numberOr (value : Option JsNumber) (other : JsNumber) : JsNumber :=
  match value with
  | none | some (.int 0) | some .nan => other
  | some x => x

/-- The retention size of a store: the constructor's argument, or the configuration's. -/
def retentionSize (given configured : Option JsNumber) : JsNumber :=
  numberOr given (numberOr configured (.int defaultRetentionSize))

/-- A call of `changesAfter`. A scope that is missing is `undefined`. -/
structure ChangesQuery where
  afterSequence : JsNumber
  limit : Option Json
  scope : Option JsonValue
  upToSequence : Option JsNumber

/-- A page as a store answers it. -/
structure ChangesAnswer where
  changes : List ServerChangeFeedEntry
  hasMore : Bool
  nextSequence : JsNumber
  oldestSequence : Option ℕ
  snapshotRequired : Bool
  upToSequence : JsNumber

def ChangesQuery.pageSize (q : ChangesQuery) : ℕ :=
  normalizeLimit (q.limit.getD (.num (.int defaultPageSize)))

/-- `n > x`. -/
def isAbove (n : ℕ) : JsNumber → Bool
  | .int x | .real x _ _ => x < n
  | .nan => false
  | .infinity negative => negative

/-- `n <= x`. -/
def isUpTo (n : ℕ) : JsNumber → Bool
  | .int x | .real x _ _ => n ≤ x
  | .nan => false
  | .infinity negative => !negative

/-- `afterSequence > 0 && oldestSequence !== null && oldestSequence > afterSequence + 1`. -/
def snapshotRequired (afterSequence : JsNumber) (oldestSequence : Option ℕ) : Bool :=
  match afterSequence with
  | .int x => 0 < x && oldestSequence.any fun oldest : ℕ => x + 1 < (oldest : ℤ)
  | .real x integral _ =>
    (if integral then 0 < x else 0 ≤ x) && oldestSequence.any fun oldest : ℕ => x + 1 < (oldest : ℤ)
  | .nan | .infinity _ => false

/-! ## The memory store -/

/-- The entry that `_appendMemory` keeps. -/
def Append.entry (a : Append) (serverSequence : ℕ) : ServerChangeFeedEntry where
  actorDeviceId := a.change.actorDeviceId
  actorUserId := a.change.actorUserId
  attributes := givenOrNull a.change.attributes
  createdAt := a.createdAt
  id := a.id
  idempotencyKey := a.change.idempotencyKey
  model := a.change.model
  operation := a.change.operation
  payload := givenOrNull a.change.payload
  recordId := a.change.recordId.map RecordId.string
  response := givenOrNull a.change.response
  scope := givenOrNull a.change.scope
  serverSequence

/-- The store without a database. -/
structure MemoryStore where
  memoryChanges : List ServerChangeFeedEntry
  memorySequence : ℕ

namespace MemoryStore

def empty : MemoryStore := ⟨[], 0⟩

/-- How many entries `splice(0, length - retentionSize)` removes, if `length > retentionSize`. -/
def excess (p : Platform) (size : JsNumber) (length : ℕ) : ℕ :=
  match size with
  | .int n | .real n true _ => ((length : ℤ) - n).toNat
  | .real floor false _ =>
    -- `length - size` lies between `length - floor - 1` and `length - floor`
    if floor < length then
      ((length : ℤ) - floor - 1).toNat + if p.roundsUp size length then 1 else 0
    else 0
  | .infinity negative => if negative then length else 0
  | .nan => 0

def append (p : Platform) (size : JsNumber) (s : MemoryStore) (a : Append) : MemoryStore :=
  let memoryChanges := s.memoryChanges ++ [a.entry (s.memorySequence + 1)]
  { memoryChanges := memoryChanges.drop (excess p size memoryChanges.length)
    memorySequence := s.memorySequence + 1 }

def latestSequence (s : MemoryStore) : ℕ := s.memorySequence

/-- `this._memoryChanges[0]?.serverSequence || null`. -/
def oldestSequence (s : MemoryStore) : Option ℕ :=
  (s.memoryChanges.head?.map (·.serverSequence)).filter (· ≠ 0)

def scopesEqual (changeScope : JsValue) (requestedScope : Option JsonValue) : Bool :=
  match requestedScope with
  | none => true
  | some scope => write (normal (valueOrNull changeScope)) = write (normal scope.value)

/-- `_memoryChangesAfter`. -/
def changesAfter (s : MemoryStore) (q : ChangesQuery) : ChangesAnswer :=
  let latestSequence := q.upToSequence.getD (.int s.memorySequence)
  if snapshotRequired q.afterSequence s.oldestSequence then
    { changes := []
      hasMore := false
      nextSequence := q.afterSequence
      oldestSequence := s.oldestSequence
      snapshotRequired := true
      upToSequence := latestSequence }
  else
    let rows := s.memoryChanges.filter fun change =>
      isAbove change.serverSequence q.afterSequence &&
        isUpTo change.serverSequence latestSequence && scopesEqual change.scope q.scope
    let changes := rows.take q.pageSize
    { changes
      hasMore := q.pageSize < rows.length
      nextSequence := (changes.getLast?.map fun change => .int change.serverSequence).getD
        q.afterSequence
      oldestSequence := s.oldestSequence
      snapshotRequired := false
      upToSequence := latestSequence }

end MemoryStore

/-! ## The SQL store -/

/-- The text of a JSON column. -/
def jsonText (v : JsValue) : String := .ofList (write v)

/-- A row of `frontend_model_sync_changes`. -/
structure ServerChangeFeedRow where
  actorDeviceId : Option String
  actorUserId : Option String
  attributesJson : JsValue
  createdAt : TimeValue
  id : String
  idempotencyKey : Option String
  model : String
  operation : String
  payloadJson : JsValue
  recordId : Option String
  responseJson : JsValue
  scopeJson : JsValue
  serverSequence : ℕ

/-- The row that `append` inserts. -/
def Append.row (a : Append) (createdAt : TimeValue) (serverSequence : ℕ) : ServerChangeFeedRow where
  actorDeviceId := a.change.actorDeviceId
  actorUserId := a.change.actorUserId
  attributesJson := givenOrNull a.change.attributes
  createdAt
  id := a.id
  idempotencyKey := a.change.idempotencyKey
  model := a.change.model
  operation := a.change.operation
  payloadJson := givenOrNull a.change.payload
  recordId := a.change.recordId.map RecordId.string
  responseJson := givenOrNull a.change.response
  scopeJson := normal (givenOrNull a.change.scope)
  serverSequence

def normalizeChangeRow (row : ServerChangeFeedRow) : ServerChangeFeedEntry where
  actorDeviceId := orNull row.actorDeviceId
  actorUserId := orNull row.actorUserId
  attributes := viaJson row.attributesJson
  createdAt := .ofList (isoText row.createdAt)
  id := row.id
  idempotencyKey := orNull row.idempotencyKey
  model := row.model
  operation := row.operation
  payload := viaJson row.payloadJson
  recordId := orNull row.recordId
  response := viaJson row.responseJson
  scope := viaJson row.scopeJson
  serverSequence := row.serverSequence

/-- The store over a table. -/
structure SqlStore where
  sequence : ℕ
  rows : List ServerChangeFeedRow

namespace SqlStore

def empty : SqlStore := ⟨0, []⟩

/-- `_pruneRetainedChanges`; each row is deleted by its id. -/
def pruneRetainedChanges (p : Platform) (size : JsNumber) (rows : List ServerChangeFeedRow)
    (latestSequence : ℕ) : List ServerChangeFeedRow :=
  match size.integer? with
  | none => rows
  | some retentionSize =>
    if retentionSize < 1 then rows
    else
      let pruneBeforeOrAt := (latestSequence : ℤ) - retentionSize
      if pruneBeforeOrAt < 1 then rows
      else
        let pruned := rows.filter fun row => row.serverSequence ≤ pruneBeforeOrAt
        rows.filter fun row => !(pruned.map (·.id)).any fun id => p.sameText row.id id

/-- `append`: the row is inserted, found by its id, and older ones are pruned. -/
def append (p : Platform) (size : JsNumber) (s : SqlStore) (a : Append) :
    Except String SqlStore :=
  match p.parseDate a.createdAt with
  | none => .error "Invalid time value"
  | some createdAt =>
    let rows := s.rows ++ [a.row (p.keepTime createdAt) (s.sequence + 1)]
    match rows.find? fun row => p.sameText row.id a.id with
    | none => .error "Failed to persist server change-feed entry"
    | some row => .ok ⟨s.sequence + 1, pruneRetainedChanges p size rows row.serverSequence⟩

def sorted (s : SqlStore) : List ServerChangeFeedRow :=
  sortByKey ServerChangeFeedRow.serverSequence s.rows

def latestSequence (s : SqlStore) : ℕ := (s.sorted.getLast?.map (·.serverSequence)).getD 0

def oldestSequence (s : SqlStore) : Option ℕ := s.sorted.head?.map (·.serverSequence)

def inScope (p : Platform) (row : ServerChangeFeedRow) (scope : Option JsonValue) : Bool :=
  match scope with
  | none => true
  | some scope => p.sameText (jsonText row.scopeJson) (jsonText (normal scope.value))

/-- `changesAfter`; the database takes finite numbers only. -/
def changesAfter (p : Platform) (s : SqlStore) (q : ChangesQuery) : Option ChangesAnswer :=
  let latestSequence := q.upToSequence.getD (.int s.latestSequence)
  if snapshotRequired q.afterSequence s.oldestSequence then
    some
      { changes := []
        hasMore := false
        nextSequence := q.afterSequence
        oldestSequence := s.oldestSequence
        snapshotRequired := true
        upToSequence := latestSequence }
  else if q.afterSequence.floor?.isNone || latestSequence.floor?.isNone then none
  else
    let rows := (s.sorted.filter fun row =>
      isAbove row.serverSequence q.afterSequence && isUpTo row.serverSequence latestSequence &&
        inScope p row q.scope).take (q.pageSize + 1)
    let changes := (rows.take q.pageSize).map normalizeChangeRow
    some
      { changes
        hasMore := q.pageSize < rows.length
        nextSequence := (changes.getLast?.map fun change => .int change.serverSequence).getD
          q.afterSequence
        oldestSequence := s.oldestSequence
        snapshotRequired := false
        upToSequence := latestSequence }

end SqlStore

/-! ## What is asked of them -/

def memoryRun (p : Platform) (size : JsNumber) (calls : List Append) : MemoryStore :=
  calls.foldl (MemoryStore.append p size) .empty

/-- The SQL store after these calls; one that throws inserts nothing. -/
def sqlRun (p : Platform) (size : JsNumber) (calls : List Append) : SqlStore :=
  calls.foldl (fun s a => (s.append p size a).toOption.getD s) .empty

/-- One entry, up to the order of the fields of its values. -/
structure SameEntry (e f : ServerChangeFeedEntry) : Prop where
  actorDeviceId : e.actorDeviceId = f.actorDeviceId
  actorUserId : e.actorUserId = f.actorUserId
  attributes : Same e.attributes f.attributes
  createdAt : e.createdAt = f.createdAt
  id : e.id = f.id
  idempotencyKey : e.idempotencyKey = f.idempotencyKey
  model : e.model = f.model
  operation : e.operation = f.operation
  payload : Same e.payload f.payload
  recordId : e.recordId = f.recordId
  response : Same e.response f.response
  scope : Same e.scope f.scope
  serverSequence : e.serverSequence = f.serverSequence

/-- Answers that agree. -/
structure SameAnswer (x y : ChangesAnswer) : Prop where
  changes : List.Forall₂ SameEntry x.changes y.changes
  hasMore : x.hasMore = y.hasMore
  nextSequence : x.nextSequence = y.nextSequence
  oldestSequence : x.oldestSequence = y.oldestSequence
  snapshotRequired : x.snapshotRequired = y.snapshotRequired
  upToSequence : x.upToSequence = y.upToSequence

/-- A sequence is a finite number. -/
structure ChangesQuery.Finite (q : ChangesQuery) : Prop where
  afterSequence : q.afterSequence.floor?.isSome = true
  upToSequence : ∀ x, q.upToSequence = some x → x.floor?.isSome = true

/-- The stores answer every query alike. -/
structure Agree (p : Platform) (m : MemoryStore) (s : SqlStore) : Prop where
  changesAfter : ∀ q : ChangesQuery, q.Finite →
    ∃ answer, s.changesAfter p q = some answer ∧ SameAnswer (m.changesAfter q) answer
  latestSequence : m.latestSequence = s.latestSequence
  oldestSequence : m.oldestSequence = s.oldestSequence

/-- The database finds a change under no scope but its own. -/
def Append.ScopeText (p : Platform) (a : Append) : Prop :=
  ∀ scope : JsonValue,
    p.sameText (jsonText (normal (givenOrNull a.change.scope))) (jsonText (normal scope.value)) →
      write (normal (givenOrNull a.change.scope)) = write (normal scope.value)

/-- The columns give a change back as it was given. -/
structure Append.Kept (p : Platform) (a : Append) : Prop where
  actorDeviceId : a.change.actorDeviceId ≠ some ""
  actorUserId : a.change.actorUserId ≠ some ""
  idempotencyKey : a.change.idempotencyKey ≠ some ""
  recordId : a.change.recordId.map RecordId.string ≠ some ""
  createdAt : (p.parseDate a.createdAt).map (fun t => String.ofList (isoText (p.keepTime t))) =
    some a.createdAt
  attributes : all isWritten (givenOrNull a.change.attributes) = true
  payload : all isWritten (givenOrNull a.change.payload) = true
  response : all isWritten (givenOrNull a.change.response) = true
  scope : all isWritten (givenOrNull a.change.scope) = true ∧
    all hasNoProto (givenOrNull a.change.scope) = true
  scopeText : a.ScopeText p

/-- Both stores cut the same changes off after this append. With a positive integer they do
    unless the append that leaves the window, or the one that enters it, has the id of
    another in it, as the database compares them; with another number the memory store must have nothing to cut off. -/
def RetainedAlike (p : Platform) (size : JsNumber) (before : List Append) (a : Append) : Prop :=
  match size.integer? with
  | some n =>
    if 1 ≤ n then
      ∀ oldest recent, before.drop (before.length - n.toNat) = oldest :: recent →
        n ≤ before.length →
          (∀ id ∈ (oldest :: recent).map Append.id, p.sameText id a.id = false) ∧
            ∀ id ∈ recent.map Append.id, p.sameText id oldest.id = false
    else MemoryStore.excess p size (before.length + 1) = 0
  | none => MemoryStore.excess p size (before.length + 1) = 0

end Velocious.FeedStores
