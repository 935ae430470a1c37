/-
  The server change feed (`append`, `changesAfter` and `_pruneRetainedChanges` in
  src/sync/server-change-feed.js) and a client that reads it from sequence 0.

  An append inserts a row, which allocates its sequence, selects the rows that retention
  no longer covers, deletes them, and commits later; what it wrote and what it deleted
  become visible together. `changesAfter` is three reads, the latest sequence, the
  oldest and the page, each a step of its own.

  * The feed is in a database, and its table exists.
  * Ids are random and distinct; the sequence stands for the id, and of what a change
    says only its scope is kept. A scope is an object, or missing.
  * `committed` and `prunedAtStart` are history variables: the changes that were ever
    visible, and those that were pruned while the client's sequence was 0.
-/
import Velocious.Foundation.Machine
import Velocious.Foundation.Paging
import Velocious.Foundation.ParseInt
import Velocious.Utils.StableJson

namespace Velocious

open Foundation

/-- A change in the feed. -/
structure FeedChange where
  serverSequence : ℕ
  scopeJson : String
  deriving DecidableEq

/-- An append that has not committed; `deletes` is what it prunes, once it has. -/
structure AppendTx where
  change : FeedChange
  deletes : Option (List FeedChange)
  deriving DecidableEq

/-- Where `changesAfter` is. -/
inductive ChangesCall where
  | idle
  | latest (pageSize : ℕ)
  | oldest (pageSize latestSequence : ℕ)
  | rows (pageSize latestSequence : ℕ)
  deriving DecidableEq

/-- A page of the feed. -/
structure ChangesPage where
  changes : List FeedChange
  hasMore : Bool
  nextSequence : ℕ
  snapshotRequired : Bool
  upToSequence : ℕ
  deriving DecidableEq

/-- The table and a client that pages it. -/
structure ServerFeedWorld where
  sequence : ℕ
  rows : List FeedChange
  appends : List AppendTx
  cursor : ℕ
  continuing : Option ℕ
  call : ChangesCall
  page : Option ChangesPage
  received : List FeedChange
  committed : List FeedChange
  prunedAtStart : List FeedChange
  deriving DecidableEq

/-- What can happen. -/
inductive ServerFeedAction where
  | insert (scope : Option Json)
  | prune (append : ℕ)
  | commit (append : ℕ)
  | rollback (append : ℕ)
  | changesAfter (limit : Json)
  | readLatest
  | readOldest
  | readRows

/-- A store, and the scope of the client. -/
structure ServerChangeFeedStore where
  retentionSize : JsNumber
  scope : Option Json

def maxPageSize : ℕ := 1000

def defaultPageSize : ℕ := 100

def normalizeLimit (limit : Json) : ℕ :=
  match limit with
  | .num x =>
    match x.integer? with
    | some n => if 0 < n then min n.toNat maxPageSize else defaultPageSize
    | none => defaultPageSize
  | .str s =>
    if s.toList ≠ [] && s.toList.all (isDigit 10) then min (digitsValue 10 s.toList) maxPageSize
    else defaultPageSize
  | _ => defaultPageSize

namespace ServerChangeFeedStore

variable (store : ServerChangeFeedStore)

def pruneRetainedChanges (rows : List FeedChange) (latestSequence : ℕ) : List FeedChange :=
  match store.retentionSize.integer? with
  | none => []
  | some retentionSize =>
    if retentionSize < 1 then []
    else
      let pruneBeforeOrAt := (latestSequence : ℤ) - retentionSize
      if pruneBeforeOrAt < 1 then []
      else rows.filter fun row => row.serverSequence ≤ pruneBeforeOrAt

/-- The scope filter of `changesAfter`. -/
def inScope (change : FeedChange) : Bool :=
  match store.scope with
  | none => true
  | some scope => change.scopeJson = stableJsonStringify scope

def latestSequence (rows : List FeedChange) : ℕ :=
  ((sortByKey FeedChange.serverSequence rows).getLast?.map (·.serverSequence)).getD 0

def oldestSequence (rows : List FeedChange) : Option ℕ :=
  (sortByKey FeedChange.serverSequence rows).head?.map (·.serverSequence)

def snapshotRequired (afterSequence : ℕ) (oldestSequence : Option ℕ) : Bool :=
  0 < afterSequence && oldestSequence.any fun oldest => afterSequence + 1 < oldest

/-- The rows of the scope in `(afterSequence, latestSequence]`, in sequence order. -/
def rowsBetween (rows : List FeedChange) (afterSequence latestSequence : ℕ) : List FeedChange :=
  sortByKey FeedChange.serverSequence (rows.filter fun row =>
    afterSequence < row.serverSequence && row.serverSequence ≤ latestSequence &&
      store.inScope row)

def changesPage (rows : List FeedChange) (afterSequence pageSize latestSequence : ℕ) :
    ChangesPage :=
  let rows := (store.rowsBetween rows afterSequence latestSequence).take (pageSize + 1)
  let changes := rows.take pageSize
  { changes
    hasMore := pageSize < rows.length
    nextSequence := (changes.getLast?.map (·.serverSequence)).getD afterSequence
    snapshotRequired := false
    upToSequence := latestSequence }

end ServerChangeFeedStore

namespace ServerFeedWorld

def initial : ServerFeedWorld := ⟨0, [], [], 0, none, .idle, none, [], [], []⟩

/-- What the append wrote and deleted becomes visible. -/
def commit (w : ServerFeedWorld) (append : ℕ) (change : FeedChange) (deletes : List FeedChange) :
    ServerFeedWorld :=
  { w with
    rows := w.rows.filter (· ∉ deletes) ++ [change]
    appends := w.appends.eraseIdx append
    committed := w.committed ++ [change]
    prunedAtStart :=
      if w.cursor = 0 then w.prunedAtStart ++ w.rows.filter (· ∈ deletes) else w.prunedAtStart }

def answer (w : ServerFeedWorld) (page : ChangesPage) : ServerFeedWorld :=
  { w with
    call := .idle
    page := some page
    received := w.received ++ page.changes
    cursor := page.nextSequence
    continuing := if page.hasMore then some page.upToSequence else none }

def step (store : ServerChangeFeedStore) (w : ServerFeedWorld) :
    ServerFeedAction → Option ServerFeedWorld
  | .insert scope =>
    let change := ⟨w.sequence + 1, stableJsonStringify (scope.getD .null)⟩
    some { w with sequence := w.sequence + 1, appends := w.appends ++ [⟨change, none⟩] }
  | .prune append =>
    match w.appends[append]? with
    | some ⟨change, none⟩ =>
      let deletes := store.pruneRetainedChanges w.rows change.serverSequence
      some { w with appends := w.appends.set append ⟨change, some deletes⟩ }
    | _ => none
  | .commit append =>
    match w.appends[append]? with
    | some ⟨change, some deletes⟩ => some (w.commit append change deletes)
    | _ => none
  | .rollback append =>
    if append < w.appends.length then some { w with appends := w.appends.eraseIdx append }
    else none
  | .changesAfter limit =>
    match w.call, w.continuing with
    | .idle, none => some { w with call := .latest (normalizeLimit limit) }
    | .idle, some upToSequence =>
      some { w with call := .oldest (normalizeLimit limit) upToSequence }
    | _, _ => none
  | .readLatest =>
    match w.call with
    | .latest pageSize =>
      some { w with call := .oldest pageSize (ServerChangeFeedStore.latestSequence w.rows) }
    | _ => none
  | .readOldest =>
    match w.call with
    | .oldest pageSize latestSequence =>
      if ServerChangeFeedStore.snapshotRequired w.cursor
          (ServerChangeFeedStore.oldestSequence w.rows) then
        some (w.answer ⟨[], false, w.cursor, true, latestSequence⟩)
      else some { w with call := .rows pageSize latestSequence }
    | _ => none
  | .readRows =>
    match w.call with
    | .rows pageSize latestSequence =>
      some (w.answer (store.changesPage w.rows w.cursor pageSize latestSequence))
    | _ => none

/-- The change was returned to the client, or pruned while it had no sequence. -/
def Delivered (w : ServerFeedWorld) (change : FeedChange) : Prop :=
  change ∈ w.received ∨ change ∈ w.prunedAtStart

/-- What is asked of the feed. -/
structure Served (store : ServerChangeFeedStore) (w : ServerFeedWorld) : Prop where
  /-- in sequence order, and none twice -/
  increasing : w.received.Pairwise fun a b => a.serverSequence < b.serverSequence
  genuine : ∀ x ∈ w.received, x ∈ w.committed ∧ store.inScope x = true
  /-- `nextSequence` moves past no other change -/
  passed : ∀ x ∈ w.committed, store.inScope x = true → x.serverSequence ≤ w.cursor →
    w.Delivered x
  /-- and a page that is the last one leaves none out -/
  finished : ∀ w', w.step store .readRows = some w' → ∀ page, w'.page = some page →
    page.hasMore = false → ∀ x ∈ w'.committed, store.inScope x = true →
      x.serverSequence ≤ page.upToSequence → w'.Delivered x

/-- A change that was pruned before the client had it. -/
structure Missed (store : ServerChangeFeedStore) (w : ServerFeedWorld) (x : FeedChange) :
    Prop where
  committed : x ∈ w.committed
  inScope : store.inScope x = true
  unread : w.cursor < x.serverSequence
  pruned : x ∉ w.rows
  later : x ∉ w.prunedAtStart

/-- An append does not commit below what the client has, or what it has missed; and one
    that prunes a change the client does not have prunes all below it, and not between
    the reads of a call. -/
def Orderly (store : ServerChangeFeedStore) (w : ServerFeedWorld) : ServerFeedAction → Prop
  | .commit append =>
    ∀ change deletes, w.appends[append]? = some ⟨change, some deletes⟩ →
      (store.inScope change = true → w.cursor < change.serverSequence) ∧
      (∀ x, w.Missed store x → x.serverSequence < change.serverSequence) ∧
      (0 < w.cursor → ∀ x ∈ w.rows, x ∈ deletes → store.inScope x = true →
        w.cursor < x.serverSequence →
          (∀ z ∈ w.rows, z.serverSequence < x.serverSequence → z ∈ deletes) ∧
          ∀ pageSize latestSequence, w.call ≠ .rows pageSize latestSequence)
  | _ => True

end ServerFeedWorld

end Velocious
