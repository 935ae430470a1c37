/-
  The change feed over an app's sync model (src/sync/sync-model-change-feed-service.js)
  and the pull that reads it (`pullChanges`, `changesPage`, `cursorPayload` and
  `syncCursorFromPayload` in src/sync/sync-api-client.js).

  A pull is a loop over requests; the table may change between two of them, so it is
  a sequence: the rows there are when each request is answered.

  * Server sequences are safe integers. How the database compares a date or an id
    with a text is a parameter, and so is `optionalInteger`, of another package.
  * A row carries the text `isoDate` makes of its date, which is not empty.
  * Applying a row does not fail, and what it reports is left out.
-/
import Velocious.Foundation.Javascript
import Velocious.Foundation.Paging

namespace Velocious

open Foundation

/-! ## Rows and cursors -/

/-- `Number.isSafeInteger`, of a number that is not negative. -/
def isSafeInteger (n : ℕ) : Bool := (n : ℤ) ≤ JsNumber.maxSafeInteger

/-- A row that is fed. -/
structure FeedRow (β : Type) where
  id : String
  serverSequence : ℕ
  updatedAt : String
  body : β
  positive : 0 < serverSequence
  safe : isSafeInteger serverSequence = true
  dated : updatedAt ≠ ""

/-- The table of a feed. -/
structure FeedTable (β : Type) where
  rows : List (FeedRow β)
  sequences : rows.Pairwise fun a b => a.serverSequence ≠ b.serverSequence

/-- What `cursorForRecord` makes. -/
structure ServerCursor where
  id : String
  serverSequence : ℕ
  updatedAt : String
  deriving DecidableEq

/-- A cursor as the client keeps it. -/
structure SyncCursor where
  id : Option String
  serverSequence : Option ℕ
  updatedAt : String
  deriving DecidableEq

/-- The three params of a cursor; `none` is missing, or no string. -/
structure CursorParams where
  id : Option String
  serverSequence : Option ℕ
  updatedAt : Option String
  deriving DecidableEq

/-- The parameters of a request. -/
structure ChangesParams where
  limit : Option ℕ
  after : CursorParams
  upTo : CursorParams
  deriving DecidableEq

/-- The answer to a request. -/
structure ChangesResponse (β : Type) where
  nextCursor : Option ServerCursor
  syncs : List (FeedRow β)
  total : ℕ
  upToCursor : Option ServerCursor

/-! ## The server -/

/-- The service's arguments, and the comparisons of the database. -/
structure SyncModelChangeFeedService (β : Type) where
  defaultLimit : ℕ
  maxLimit : ℕ
  inScope : FeedRow β → Bool
  updatedAtFrom : FeedRow β → String → Bool
  updatedAtAfter : FeedRow β → String → Bool
  updatedAtIs : FeedRow β → String → Bool
  idAfter : FeedRow β → String → Bool

namespace SyncModelChangeFeedService

variable {β : Type} (service : SyncModelChangeFeedService β)

def normalizedLimit (value : Option ℕ) : Except String ℕ :=
  match value with
  | none => pure service.defaultLimit
  | some limit =>
    if !isSafeInteger limit || limit = 0 then
      throw "Sync changes limit must be a positive integer."
    else pure (min limit service.maxLimit)

def optionalPositiveIntegerParam (value : Option ℕ) (name : String) :
    Except String (Option ℕ) :=
  match value with
  | none => pure none
  | some integer =>
    if !isSafeInteger integer || integer = 0 then throw (name ++ " must be a positive integer.")
    else pure (some integer)

def cursorForRecord (record : FeedRow β) : ServerCursor :=
  ⟨record.id, record.serverSequence, record.updatedAt⟩

def scopedQuery (table : FeedTable β) : List (FeedRow β) := table.rows.filter service.inScope

def latestRecord (table : FeedTable β) : Option (FeedRow β) :=
  (sortByKey FeedRow.serverSequence (service.scopedQuery table)).getLast?

def resolveUpToCursor (table : FeedTable β) (params : ChangesParams) :
    Except String (Option ServerCursor) := do
  let upToServerSequence ← optionalPositiveIntegerParam params.upTo.serverSequence
    "upToServerSequence"
  let latest := (service.latestRecord table).map cursorForRecord
  match upToServerSequence, params.upTo.updatedAt, params.upTo.id with
  | some serverSequence, some updatedAt, some id => pure (some ⟨id, serverSequence, updatedAt⟩)
  | none, some _, some id =>
    pure (((table.rows.find? (·.id = id)).map cursorForRecord).or latest)
  | _, _, _ => pure latest

/-- The filter on the date, of a cursor with no sequence. -/
def updatedAtFilter (params : ChangesParams) (record : FeedRow β) : Bool :=
  match orNull params.after.updatedAt with
  | none => true
  | some afterUpdatedAt =>
    match orNull params.upTo.updatedAt, orNull params.upTo.id, orNull params.after.id with
    | some _, some _, some afterId =>
      service.updatedAtAfter record afterUpdatedAt ||
        (service.updatedAtIs record afterUpdatedAt && service.idAfter record afterId)
    | _, _, _ => service.updatedAtFrom record afterUpdatedAt

def cursorFilteredQuery (table : FeedTable β) (params : ChangesParams)
    (upToCursor : ServerCursor) : Except String (List (FeedRow β)) := do
  let query := (service.scopedQuery table).filter (·.serverSequence ≤ upToCursor.serverSequence)
  match ← optionalPositiveIntegerParam params.after.serverSequence "afterServerSequence" with
  | some afterServerSequence => pure (query.filter (afterServerSequence < ·.serverSequence))
  | none => pure (query.filter (service.updatedAtFilter params))

def pageQuery (table : FeedTable β) (params : ChangesParams) (limit : ℕ)
    (upToCursor : ServerCursor) : Except String (List (FeedRow β)) := do
  let query ← service.cursorFilteredQuery table params upToCursor
  pure ((sortByKey FeedRow.serverSequence query).take limit)

def totalPendingChanges (table : FeedTable β) (params : ChangesParams)
    (upToCursor : ServerCursor) : Except String ℕ := do
  pure (← service.cursorFilteredQuery table params upToCursor).length

def changes (table : FeedTable β) (params : ChangesParams) : Except String (ChangesResponse β) := do
  let limit ← service.normalizedLimit params.limit
  match ← service.resolveUpToCursor table params with
  | none => pure ⟨none, [], 0, none⟩
  | some upToCursor =>
    let total ← service.totalPendingChanges table params upToCursor
    let records ← service.pageQuery table params limit upToCursor
    let nextCursor := (records.getLast?.map cursorForRecord).getD upToCursor
    pure ⟨some nextCursor, records, total, some upToCursor⟩

end SyncModelChangeFeedService

/-! ## The client -/

/-- A pull from a service. -/
structure ChangesPull (β : Type) where
  service : SyncModelChangeFeedService β
  batchSize : Option JsNumber
  optionalInteger : ℕ → Option ℕ

/-- Where a pull is. -/
structure PullState (β : Type) where
  afterCursor : Option SyncCursor
  upToCursor : Option SyncCursor
  pages : ℕ
  syncedCount : ℕ
  total : ℕ
  requests : ℕ
  applied : List (FeedRow β)

/-- How a pull ends; `saved` is what `saveCursor` was called with. -/
structure PullResult (β : Type) where
  saved : Option SyncCursor
  pages : ℕ
  syncedCount : ℕ
  total : ℕ
  requests : ℕ
  applied : List (FeedRow β)

namespace ChangesPull

variable {β : Type} (pull : ChangesPull β)

def normalizedBatchSize : ℕ :=
  match pull.batchSize.bind JsNumber.floor? with
  | some floor => if floor < 1 then 100 else floor.toNat
  | none => 100

def syncCursorFromPayload (payload : Option ServerCursor) : Option SyncCursor :=
  match payload with
  | none => none
  | some cursor =>
    if cursor.updatedAt = "" then none
    else some ⟨some cursor.id, pull.optionalInteger cursor.serverSequence, cursor.updatedAt⟩

def cursorPayload (cursor : Option SyncCursor) : CursorParams :=
  match cursor with
  | none => ⟨none, none, none⟩
  | some cursor => ⟨cursor.id, cursor.serverSequence.filter (· ≠ 0), some cursor.updatedAt⟩

/-- `changesPage`, before its response is normalized. -/
def changesPage (table : FeedTable β) (s : PullState β) : Except String (ChangesResponse β) :=
  pull.service.changes table ⟨some pull.normalizedBatchSize, cursorPayload s.afterCursor,
    cursorPayload s.upToCursor⟩

def finish (s : PullState β) : PullResult β :=
  ⟨s.afterCursor, s.pages, s.syncedCount, s.total, s.requests, s.applied⟩

/-- A page has come: its bound and its total. -/
def receive (s : PullState β) (response : ChangesResponse β) : PullState β :=
  { s with
    upToCursor := s.upToCursor.or (pull.syncCursorFromPayload response.upToCursor)
    total := ((pull.optionalInteger response.total).map (s.syncedCount + ·)).getD s.total
    requests := s.requests + 1 }

def applyPage (s : PullState β) (response : ChangesResponse β) : PullState β :=
  { s with
    pages := s.pages + 1
    syncedCount := s.syncedCount + response.syncs.length
    applied := s.applied ++ response.syncs
    afterCursor := pull.syncCursorFromPayload response.nextCursor }

/-- The loop of `pullChanges`; `none` is out of fuel. -/
def pullLoop (tables : ℕ → FeedTable β) : ℕ → PullState β → Option (Except String (PullResult β))
  | 0, _ => none
  | fuel + 1, s =>
    match pull.changesPage (tables s.requests) s with
    | .error message => some (.error message)
    | .ok response =>
      let s := pull.receive s response
      if response.syncs.isEmpty then some (.ok (finish s))
      else
        let s := pull.applyPage s response
        if response.syncs.length < pull.normalizedBatchSize then some (.ok (finish s))
        else pullLoop tables fuel s

def pullChanges (tables : ℕ → FeedTable β) (cursor : Option SyncCursor) (fuel : ℕ) :
    Option (Except String (PullResult β)) :=
  pull.pullLoop tables fuel ⟨cursor, none, 0, 0, 0, 0, []⟩

end ChangesPull

namespace FeedTable

variable {β : Type}

/-- A row is written with a sequence above all others; it replaces the one with its id. -/
def upsert (table : FeedTable β) (row : FeedRow β)
    (fresh : ∀ r ∈ table.rows, r.serverSequence < row.serverSequence) : FeedTable β where
  rows := row :: table.rows.filter (·.id ≠ row.id)
  sequences := by
    refine List.pairwise_cons.mpr ⟨fun r hr => ?_, table.sequences.filter _⟩
    exact (fresh r (List.mem_of_mem_filter hr)).ne'

/-- Any number of rows are upserted. -/
inductive Upserts : FeedTable β → FeedTable β → Prop where
  | none (table : FeedTable β) : Upserts table table
  | more {table later : FeedTable β} (row : FeedRow β)
      (fresh : ∀ r ∈ later.rows, r.serverSequence < row.serverSequence) :
      Upserts table later → Upserts table (later.upsert row fresh)

end FeedTable

namespace ChangesPull

variable {β : Type} (pull : ChangesPull β)

def above (cursor : Option SyncCursor) (row : FeedRow β) : Bool :=
  match cursor with
  | none => true
  | some cursor =>
    match cursor.serverSequence.filter (· ≠ 0) with
    | some sequence => sequence < row.serverSequence
    | none => cursor.updatedAt = "" || pull.service.updatedAtFrom row cursor.updatedAt

/-- What is asked of a pull from a cursor. -/
structure Feeds (tables : ℕ → FeedTable β) (cursor : Option SyncCursor)
    (result : PullResult β) : Prop where
  /-- in sequence order, and none twice -/
  increasing : result.applied.Pairwise fun a b => a.serverSequence < b.serverSequence
  /-- each row above the cursor and not above the bound of the first response, unless it
      was written to during the run -/
  complete : ∀ row, (∀ i < result.requests, row ∈ (tables i).rows) →
    pull.service.inScope row = true → pull.above cursor row = true →
    (∃ latest, pull.service.latestRecord (tables 0) = some latest ∧
      row.serverSequence ≤ latest.serverSequence) → row ∈ result.applied
  /-- a later pull reads every other row -/
  resumes : ∀ later, FeedTable.Upserts (tables (result.requests - 1)) later →
    ∀ row ∈ later.rows, pull.service.inScope row = true → pull.above cursor row = true →
      row ∈ result.applied ∨ pull.above result.saved row = true

def pending (table : FeedTable β) (cursor : Option SyncCursor) : List (FeedRow β) :=
  (pull.service.scopedQuery table).filter (pull.above cursor)

/-- The batch is no longer than the server's pages, or the server has no more than one
    page for it; and it and the cursor's sequence are safe integers. -/
structure Covers (table : FeedTable β) (cursor : Option SyncCursor) : Prop where
  batch : isSafeInteger pull.normalizedBatchSize = true
  sequence : pull.service.latestRecord table = none ∨
    ∀ c ∈ cursor, ∀ n ∈ c.serverSequence, isSafeInteger n = true
  pages : pull.normalizedBatchSize ≤ pull.service.maxLimit ∨
    (pull.pending table cursor).length ≤ pull.service.maxLimit

end ChangesPull

end Velocious
