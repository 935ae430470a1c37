/-
  The store of sync scopes (src/sync/sync-scope-store.js), over a table and in memory.

  * A call over the table is a sequence of statements, and `advance` runs its next one; any number
    of stores and connections interleave theirs, each committed on its own. The table is there
    (`ensureReady`).
  * `Selects` is what the database leaves open: `LIMIT 1` without an order may give any row, and
    `ORDER BY created_at` any order of rows of one time.
  * The memory of a store is the values of its `_memoryScopes`, in the order of insertion.
-/
import Velocious.Foundation.Entries
import Velocious.Foundation.Machine
import Velocious.Sync.QueryScope

namespace Velocious.SyncScopeStore

open Foundation Foundation.JsValue StableJson QueryScope

/-- `state` of a scope. -/
inductive ScopeState where
  | active
  | removed
  deriving DecidableEq

/-- A scope row as the store hands it out; digests are `δ`. -/
structure SyncScopeRow (δ : Type) where
  conditions : JsValue
  cursorPayload : Option (List Char)
  id : ℕ
  resourceType : Option String
  scopeDigest : δ
  state : ScopeState
  storeIdentity : String

/-- A row of the table `velocious_sync_scopes`. -/
structure Row (δ : Type) where
  id : ℕ
  scopeDigest : δ
  resourceType : String
  conditionsJson : List Char
  cursorJson : Option (List Char)
  state : ScopeState
  createdAt : ℕ
  parses : (parse conditionsJson).isSome = true

/-- What the database leaves open. -/
structure Selects (δ : Type) where
  orderBy : List (Row δ) → List (Row δ)
  limitOne : List (Row δ) → Option (Row δ)
  orderBy_perm : ∀ rows, (orderBy rows).Perm rows
  mem_of_limitOne : ∀ {rows row}, limitOne rows = some row → row ∈ rows
  nil_of_limitOne : ∀ {rows}, limitOne rows = none → rows = []

/-- What the store is asked for; a cursor is an object, or null. -/
inductive Request (δ : Type) where
  | findOrCreateScope (scope : SerializedSyncScope)
  | activeScopes
  | loadCursor (scopeRow : SyncScopeRow δ)
  | saveCursor (scopeRow : SyncScopeRow δ) (cursor : Option JsValue)
  | deactivate (scope : SerializedSyncScope)

/-- What a call throws. -/
inductive ScopeError (δ : Type) where
  | otherStore
  | noScope (digest : δ)
  | notPersisted

/-- What a call answers. -/
inductive Answer (δ : Type) where
  | row (row : SyncScopeRow δ)
  | rows (rows : List (SyncScopeRow δ))
  | cursor (payload : Option (List Char))
  | done
  | error (error : ScopeError δ)

section
variable {δ : Type} [DecidableEq δ] (digest : List Char → δ)

/-- `scopeDigestForScope`: the UUIDv5 is a parameter. -/
def scopeDigestForScope (scope : SerializedSyncScope) : δ :=
  digest ("velocious-sync-scope:".toList ++ scopeKey scope)

/-! ## The table -/

def normalizeScopeRow (storeIdentity : String) (row : Row δ) : SyncScopeRow δ where
  conditions := (parse row.conditionsJson).get row.parses
  cursorPayload := row.cursorJson
  id := row.id
  resourceType := if row.resourceType = "" then none else some row.resourceType
  scopeDigest := row.scopeDigest
  state := row.state
  storeIdentity

def newRow (scope : SerializedSyncScope) (uuid now : ℕ) : Row δ where
  id := uuid
  scopeDigest := scopeDigestForScope digest scope
  resourceType := scope.typeText
  conditionsJson := StableJson.stableJsonStringify scope.conditions
  cursorJson := none
  state := .active
  createdAt := now
  parses := by rw [parse_stableJsonStringify]; rfl

/-- `UPDATE … SET state WHERE` a condition. -/
def updateState (rows : List (Row δ)) (where_ : Row δ → Bool) (state : ScopeState) : List (Row δ) :=
  rows.map fun row => if where_ row then { row with state } else row

/-- `UPDATE … SET cursor_json WHERE scope_digest`. -/
def updateCursor (rows : List (Row δ)) (scopeDigest : δ) (payload : List Char) : List (Row δ) :=
  rows.map fun row =>
    if row.scopeDigest = scopeDigest then { row with cursorJson := some payload } else row

variable (selects : Selects δ)

def rowByScopeDigest (storeIdentity : String) (rows : List (Row δ)) (scopeDigest : δ) :
    Option (SyncScopeRow δ) :=
  (selects.limitOne (rows.filter (·.scopeDigest = scopeDigest))).map
    (normalizeScopeRow storeIdentity)

def activeRows (storeIdentity : String) (rows : List (Row δ)) : List (SyncScopeRow δ) :=
  (selects.orderBy (rows.filter (·.state = .active))).map (normalizeScopeRow storeIdentity)

/-- How far a call is. -/
inductive Phase (δ : Type) where
  | started
  | reactivating (row : SyncScopeRow δ)
  | creating
  | reading
  | settled (answer : Answer δ)

/-- A call of a store. -/
structure Call (δ : Type) where
  storeIdentity : String
  request : Request δ
  uuid : ℕ
  phase : Phase δ

/-- The next statement of `findOrCreateScope`. -/
def advanceFindOrCreate (storeIdentity : String) (scope : SerializedSyncScope) (uuid now : ℕ)
    (rows : List (Row δ)) : Phase δ → List (Row δ) × Phase δ
  | .started =>
    match rowByScopeDigest selects storeIdentity rows (scopeDigestForScope digest scope) with
    | some row =>
      if row.state ≠ .active then (rows, .reactivating row) else (rows, .settled (.row row))
    | none => (rows, .creating)
  | .reactivating row =>
    (updateState rows (·.id = row.id) .active, .settled (.row { row with state := .active }))
  | .creating => (rows ++ [newRow digest scope uuid now], .reading)
  | .reading =>
    match rowByScopeDigest selects storeIdentity rows (scopeDigestForScope digest scope) with
    | some row => (rows, .settled (.row row))
    | none => (rows, .settled (.error .notPersisted))
  | .settled answer => (rows, .settled answer)

/-- The next statement of a call, at a time. -/
def advance (call : Call δ) (now : ℕ) (rows : List (Row δ)) : List (Row δ) × Phase δ :=
  match call.request with
  | .findOrCreateScope scope =>
    advanceFindOrCreate digest selects call.storeIdentity scope call.uuid now rows call.phase
  | .activeScopes => (rows, .settled (.rows (activeRows selects call.storeIdentity rows)))
  | .loadCursor scopeRow =>
    if scopeRow.storeIdentity ≠ call.storeIdentity then (rows, .settled (.error .otherStore))
    else
      let row := rowByScopeDigest selects call.storeIdentity rows scopeRow.scopeDigest
      (rows, .settled (.cursor (row.bind SyncScopeRow.cursorPayload)))
  | .saveCursor scopeRow cursor =>
    if scopeRow.storeIdentity ≠ call.storeIdentity then (rows, .settled (.error .otherStore))
    else
      match cursor with
      | none => (rows, .settled .done)
      | some cursor =>
        (updateCursor rows scopeRow.scopeDigest (write cursor), .settled .done)
  | .deactivate scope =>
    (updateState rows (·.scopeDigest = scopeDigestForScope digest scope) .removed, .settled .done)

/-! ## Any number of calls -/

def Phase.isSettled : Phase δ → Bool
  | settled _ => true
  | started | reactivating _ | creating | reading => false

/-- The table and the calls. -/
structure State (δ : Type) where
  rows : List (Row δ)
  calls : List (Call δ)
  /-- the cursor saved last for a digest; the code does not keep it apart from the table -/
  saved : δ → Option (List Char)

def initial : State δ := ⟨[], [], fun _ => none⟩

/-- What can happen. -/
inductive Action (δ : Type) where
  | call (storeIdentity : String) (request : Request δ) (uuid : ℕ)
  | run (k now : ℕ)

/-- What is saved after the next statement of a call. -/
def savedBy (saved : δ → Option (List Char)) (call : Call δ) : δ → Option (List Char) :=
  match call.request with
  | .saveCursor scopeRow (some cursor) =>
    if scopeRow.storeIdentity = call.storeIdentity then
      Function.update saved scopeRow.scopeDigest (some (write cursor))
    else saved
  | .saveCursor _ none | .findOrCreateScope _ | .activeScopes | .loadCursor _ | .deactivate _ =>
    saved

def step (s : State δ) : Action δ → Option (State δ)
  | .call storeIdentity request uuid =>
    if s.calls.all (·.uuid ≠ uuid) then
      some { s with calls := s.calls ++ [⟨storeIdentity, request, uuid, .started⟩] }
    else none
  | .run k now => s.calls[k]?.bind fun call =>
    if call.phase.isSettled then none
    else
      let (rows, phase) := advance digest selects call now s.rows
      some
        { rows
          calls := s.calls.set k { call with phase }
          saved := savedBy s.saved call }

/-- At most so many statements of a call. -/
def complete : ℕ → Call δ → ℕ → List (Row δ) → List (Row δ) × Phase δ
  | 0, call, _, rows => (rows, call.phase)
  | n + 1, call, now, rows =>
    if call.phase.isSettled then (rows, call.phase)
    else
      let (rows, phase) := advance digest selects call now rows
      complete n { call with phase } now rows

/-- A request of a history, with the UUID and the time of the call. -/
structure Entry (δ : Type) where
  request : Request δ
  uuid : ℕ
  now : ℕ

/-- A whole call over the table: it takes at most three statements. -/
def databaseCall (storeIdentity : String) (rows : List (Row δ)) (entry : Entry δ) :
    List (Row δ) × Phase δ :=
  complete digest selects 3 ⟨storeIdentity, entry.request, entry.uuid, .started⟩ entry.now rows

def databaseAnswers (storeIdentity : String) (rows : List (Row δ)) :
    List (Entry δ) → List (Phase δ)
  | [] => []
  | entry :: history =>
    let (rows, phase) := databaseCall digest selects storeIdentity rows entry
    phase :: databaseAnswers storeIdentity rows history

def get (memory : List (SyncScopeRow δ)) (scopeDigest : δ) : Option (SyncScopeRow δ) :=
  memory.find? (·.scopeDigest = scopeDigest)

def modify (memory : List (SyncScopeRow δ)) (scopeDigest : δ)
    (f : SyncScopeRow δ → SyncScopeRow δ) : List (SyncScopeRow δ) :=
  memory.map fun scope => if scope.scopeDigest = scopeDigest then f scope else scope

def newScope (storeIdentity : String) (scope : SerializedSyncScope) (uuid : ℕ) : SyncScopeRow δ where
  conditions := scope.conditions
  cursorPayload := none
  id := uuid
  resourceType := scope.resourceType
  scopeDigest := scopeDigestForScope digest scope
  state := .active
  storeIdentity

def memoryCall (storeIdentity : String) (memory : List (SyncScopeRow δ)) (entry : Entry δ) :
    List (SyncScopeRow δ) × Answer δ :=
  match entry.request with
  | .findOrCreateScope scope =>
    let scopeDigest := scopeDigestForScope digest scope
    match get memory scopeDigest with
    | some existing =>
      (modify memory scopeDigest fun scope => { scope with state := .active },
        .row { existing with state := .active })
    | none =>
      let scope := newScope digest storeIdentity scope entry.uuid
      (memory ++ [scope], .row scope)
  | .activeScopes => (memory, .rows (memory.filter (·.state = .active)))
  | .loadCursor scopeRow =>
    if scopeRow.storeIdentity ≠ storeIdentity then (memory, .error .otherStore)
    else (memory, .cursor ((get memory scopeRow.scopeDigest).bind SyncScopeRow.cursorPayload))
  | .saveCursor scopeRow cursor =>
    if scopeRow.storeIdentity ≠ storeIdentity then (memory, .error .otherStore)
    else
      match cursor with
      | none => (memory, .done)
      | some cursor =>
        match get memory scopeRow.scopeDigest with
        | some _ =>
          (modify memory scopeRow.scopeDigest fun scope =>
            { scope with cursorPayload := some (write cursor) }, .done)
        | none => (memory, .error (.noScope scopeRow.scopeDigest))
  | .deactivate scope =>
    (modify memory (scopeDigestForScope digest scope) fun scope => { scope with state := .removed },
      .done)

def memoryAnswers (storeIdentity : String) (memory : List (SyncScopeRow δ)) :
    List (Entry δ) → List (Answer δ)
  | [] => []
  | entry :: history =>
    let (memory, answer) := memoryCall digest storeIdentity memory entry
    answer :: memoryAnswers storeIdentity memory history

end

end Velocious.SyncScopeStore
