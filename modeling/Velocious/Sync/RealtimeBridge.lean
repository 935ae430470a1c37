/-
  Realtime pushes and pulls (src/sync/sync-realtime-bridge.js, `pullChanges` in
  src/sync/sync-api-client.js, `pull` in src/sync/sync-client.js and the server's
  src/sync/sync-model-change-feed-service.js).

  Every change gets the next server sequence and replaces the sync row it is
  about; it is pushed to each live subscription whose scope covers the resource,
  and a pull reads the rows of a scope in sequence order, up to the bound that
  its first page fixes.

  * `pullOnReconnect` is on, and messages of the device's own origin, which are
    dropped, are left out.
  * Applying a row loads the local copy and then writes it; what a write leaves
    when another write came between the two is any copy.
  * `source` is a history variable: the change a local copy was last taken from.
-/
import Mathlib.Data.List.Nodup
import Mathlib.Order.Lattice
import Velocious.Foundation.Machine

namespace Velocious

open Foundation

/-! ## The server -/

/-- A change of a resource: the sync row that carries it, its server sequence, and
    the attributes the resource has then, if it still exists. -/
structure ServerChange (ρ α : Type) where
  rowId : ℕ
  resource : ρ
  sequence : ℕ
  target : Option α
  deriving DecidableEq

/-- The pull scopes and the page sizes of the two sides. -/
structure RealtimeConfig (ς ρ : Type) where
  scopes : List ς
  covers : ς → ρ → Bool
  batchSize : ℕ
  maxLimit : ℕ
  batchSize_pos : 0 < batchSize

section
variable {ς ρ α : Type}

def syncRows (history : List (ServerChange ρ α)) : List (ServerChange ρ α) :=
  history.filter fun x => history.all fun y => y.rowId ≠ x.rowId || y.sequence ≤ x.sequence

/-- `scopedQuery`, in sequence order. -/
def scopedQuery (config : RealtimeConfig ς ρ) (history : List (ServerChange ρ α)) (scope : ς) :
    List (ServerChange ρ α) :=
  (syncRows history).filter fun x => config.covers scope x.resource

/-- `resolveUpToCursor`, as a sequence; 0 is no cursor. -/
def resolveUpToCursor (config : RealtimeConfig ς ρ) (history : List (ServerChange ρ α))
    (scope : ς) (upTo : Option ℕ) : ℕ :=
  upTo.getD (((scopedQuery config history scope).getLast?.map (·.sequence)).getD 0)

def cursorFilteredQuery (config : RealtimeConfig ς ρ) (history : List (ServerChange ρ α))
    (scope : ς) (after upTo : ℕ) : List (ServerChange ρ α) :=
  (scopedQuery config history scope).filter fun x => after < x.sequence && x.sequence ≤ upTo

/-- `pageQuery` of a request that asks for a batch. -/
def pageQuery (config : RealtimeConfig ς ρ) (history : List (ServerChange ρ α))
    (scope : ς) (after upTo : ℕ) : List (ServerChange ρ α) :=
  (cursorFilteredQuery config history scope after upTo).take (min config.batchSize config.maxLimit)

end

/-! ## The client -/

/-- A page whose rows are being applied. -/
structure PullPage (ρ α : Type) where
  rows : List (ServerChange ρ α)
  next : ℕ
  upTo : ℕ
  last : Bool

/-- Where `pullChanges` is. -/
inductive PullStage (ρ α : Type) where
  | requesting (after : ℕ) (upTo : Option ℕ)
  | applying (page : PullPage ρ α)
  | writing (row : ServerChange ρ α) (loaded : Option α) (page : PullPage ρ α)

/-- A running `pull`: whether `schedulePull` made it, the scope it is at and those
    that follow. -/
structure PullFlight (ς ρ α : Type) where
  scheduled : Bool
  scope : ς
  todo : List ς
  stage : PullStage ρ α

/-- The connection. -/
inductive RealtimeLink where
  | offline
  | subscribing
  | connected
  deriving DecidableEq

/-- A server and a client that follows it. -/
structure RealtimeWorld (ς ρ α : Type) where
  history : List (ServerChange ρ α)
  link : RealtimeLink
  inFlight : List (ServerChange ρ α)
  applyQueue : List (ServerChange ρ α)
  applying : Option (ServerChange ρ α × Option α)
  copy : ρ → Option α
  source : ρ → Option (ServerChange ρ α)
  cursor : ς → ℕ
  scheduled : Bool
  flight : Option (PullFlight ς ρ α)

/-- What happens next; pulls are single-flighted, and a request is answered when
    the server reads it. -/
inductive RealtimeAction (ρ α : Type) where
  | change (x : ServerChange ρ α)
  | disconnect
  | subscribe
  | resume
  | deliver
  | beginApply
  | finishApply (raced : Option α)
  | failApply
  | pull
  | beginScheduled
  | skipScheduled
  | fetch
  | beginRow
  | finishRow (raced : Option α)
  | endPage
  | failPull

namespace RealtimeWorld

variable {ς ρ α : Type}

/-- No change, no copy and no connection. -/
def init : RealtimeWorld ς ρ α :=
  ⟨[], .offline, [], [], none, fun _ => none, fun _ => none, fun _ => 0, false, none⟩

def latest [DecidableEq ρ] (w : RealtimeWorld ς ρ α) (r : ρ) : Option (ServerChange ρ α) :=
  (w.history.filter (·.resource = r)).getLast?

def schedulePull (w : RealtimeWorld ς ρ α) : RealtimeWorld ς ρ α :=
  if w.scheduled || w.flight.any (·.scheduled) then w else { w with scheduled := true }

def pullScopes (scheduled : Bool) (cursor : ς → ℕ) : List ς → Option (PullFlight ς ρ α)
  | [] => none
  | scope :: todo => some ⟨scheduled, scope, todo, .requesting (cursor scope) none⟩

section
variable [DecidableEq ς] [DecidableEq ρ] [DecidableEq α]

/-- The end of `pullChanges`. -/
def saveCursor (w : RealtimeWorld ς ρ α) (flight : PullFlight ς ρ α) (after : ℕ) :
    RealtimeWorld ς ρ α :=
  let cursor := if after = 0 then w.cursor else Function.update w.cursor flight.scope after
  { w with cursor, flight := pullScopes flight.scheduled cursor flight.todo }

/-- `assign` and `save`, or `destroy`, over the copy that was loaded. -/
def write (w : RealtimeWorld ς ρ α) (row : ServerChange ρ α) (loaded raced : Option α) :
    RealtimeWorld ς ρ α :=
  { w with
    copy := Function.update w.copy row.resource
      (if w.copy row.resource = loaded then row.target else raced)
    source := Function.update w.source row.resource (some row) }

/-- One page of `pullChanges`. -/
def receivePage (config : RealtimeConfig ς ρ) (w : RealtimeWorld ς ρ α)
    (flight : PullFlight ς ρ α) (after : ℕ) (upTo : Option ℕ) : RealtimeWorld ς ρ α :=
  let upTo := resolveUpToCursor config w.history flight.scope upTo
  let rows := pageQuery config w.history flight.scope after upTo
  match rows.getLast? with
  | none => w.saveCursor flight after
  | some last =>
    let page := ⟨rows, last.sequence, upTo, rows.length < config.batchSize⟩
    { w with flight := some { flight with stage := .applying page } }

/-- One step. -/
def step (config : RealtimeConfig ς ρ) (w : RealtimeWorld ς ρ α) :
    RealtimeAction ρ α → Option (RealtimeWorld ς ρ α)
  | .change x =>
    if 0 < x.sequence && w.history.all (fun y => y.sequence < x.sequence &&
        (y.rowId ≠ x.rowId || y.resource = x.resource)) then
      let pushes := (config.scopes.filter fun s => config.covers s x.resource).map fun _ => x
      some { w with
        history := w.history ++ [x]
        inFlight := if w.link = .offline then w.inFlight else w.inFlight ++ pushes }
    else none
  | .disconnect => some { w with link := .offline, inFlight := [] }
  | .subscribe => if w.link = .offline then some { w with link := .subscribing } else none
  | .resume =>
    if w.link = .subscribing then some { w with link := .connected }.schedulePull else none
  | .deliver =>
    match w.inFlight with
    | x :: inFlight => some { w with inFlight, applyQueue := w.applyQueue ++ [x] }
    | [] => none
  | .beginApply =>
    match w.applyQueue, w.applying with
    | x :: applyQueue, none =>
      some { w with applyQueue, applying := some (x, w.copy x.resource) }
    | _, _ => none
  | .finishApply raced =>
    match w.applying with
    | some (x, loaded) => some { w.write x loaded raced with applying := none }
    | none => none
  | .failApply =>
    match w.applying with
    | some _ => some { w with applying := none }
    | none => none
  | .pull =>
    match w.flight with
    | none => some { w with flight := pullScopes false w.cursor config.scopes }
    | some _ => none
  | .beginScheduled =>
    match w.scheduled, w.flight with
    | true, none =>
      some { w with scheduled := false, flight := pullScopes true w.cursor config.scopes }
    | _, _ => none
  | .skipScheduled => if w.scheduled then some { w with scheduled := false } else none
  | .fetch =>
    match w.flight with
    | some ⟨scheduled, scope, todo, .requesting after upTo⟩ =>
      some (w.receivePage config ⟨scheduled, scope, todo, .requesting after upTo⟩ after upTo)
    | _ => none
  | .beginRow =>
    match w.flight with
    | some ⟨scheduled, scope, todo, .applying ⟨row :: rows, next, upTo, last⟩⟩ =>
      let stage := .writing row (w.copy row.resource) ⟨rows, next, upTo, last⟩
      some { w with flight := some ⟨scheduled, scope, todo, stage⟩ }
    | _ => none
  | .finishRow raced =>
    match w.flight with
    | some ⟨scheduled, scope, todo, .writing row loaded page⟩ =>
      some { w.write row loaded raced with
        flight := some ⟨scheduled, scope, todo, .applying page⟩ }
    | _ => none
  | .endPage =>
    match w.flight with
    | some ⟨scheduled, scope, todo, .applying ⟨[], next, upTo, last⟩⟩ =>
      if last then some (w.saveCursor ⟨scheduled, scope, todo, .requesting next upTo⟩ next)
      else some { w with flight := some ⟨scheduled, scope, todo, .requesting next upTo⟩ }
    | _ => none
  | .failPull =>
    match w.flight with
    | some _ => some { w with flight := none }
    | none => none

end

/-- A row is written over the copy it was compared with, which is from no later
    change. -/
def Latest (w : RealtimeWorld ς ρ α) (row : ServerChange ρ α) (loaded : Option α) : Prop :=
  w.copy row.resource = loaded ∧ ∀ y ∈ w.source row.resource, y.sequence ≤ row.sequence

/-- A resume finds no scheduled pull that has read a page; rows are written in
    order; a page is as long as a batch; and a push or a scheduled pull only fails
    while the client is not connected. -/
def Steady (config : RealtimeConfig ς ρ) (w : RealtimeWorld ς ρ α) : RealtimeAction ρ α → Prop
  | .resume => ∀ flight ∈ w.flight, flight.scheduled = true →
      flight.scope :: flight.todo = config.scopes ∧ ∃ after, flight.stage = .requesting after none
  | .finishApply _ => ∀ row loaded, w.applying = some (row, loaded) → w.Latest row loaded
  | .finishRow _ => ∀ flight ∈ w.flight, ∀ row loaded page,
      flight.stage = .writing row loaded page → w.Latest row loaded
  | .fetch => config.batchSize ≤ config.maxLimit
  | .failApply | .skipScheduled => w.link ≠ .connected
  | .failPull => ∀ flight ∈ w.flight, flight.scheduled = true → w.link ≠ .connected
  | _ => True

/-- Connected, with no pull scheduled or running, and every push applied. -/
structure Quiescent (w : RealtimeWorld ς ρ α) : Prop where
  connected : w.link = .connected
  inFlight : w.inFlight = []
  applyQueue : w.applyQueue = []
  applying : w.applying = none
  scheduled : w.scheduled = false
  flight : w.flight = none

end RealtimeWorld

end Velocious
