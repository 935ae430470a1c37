/-
  Live queries over the bus of committed record changes.

  * `RecordChanges`: the bus; while a batch is open, it keeps the latest event of each model and
    database.
  * `LiveQuery`: one controller, with the runs that have not returned.
  * `step`: what may happen next on the bus or to one of the queries, in any order. The history
    records it: `emitted`, `batched` and `ended` on the bus; `ran`, `delivered` and `closed` on a query.
-/
import Velocious.Foundation.EntryMap
import Velocious.Foundation.Javascript
import Velocious.Foundation.Machine
import Mathlib.Logic.Function.Basic

namespace Velocious.LiveQueries

open Foundation

/-- The name of a model, and the identity of the database. -/
structure Key where
  modelName : String
  databaseIdentity : String
  deriving DecidableEq

/-- `RecordChangeEvent`; the payload is the operation and the record. -/
structure RecordChangeEvent (ε : Type) where
  key : Key
  payload : ε

/-- `${modelName.length}:${modelName}:${databaseIdentity}` -/
def eventKey (key : Key) : String :=
  toString (jsLength key.modelName) ++ ":" ++ key.modelName ++ ":" ++ key.databaseIdentity

/-- The bus and its open batch. -/
structure RecordChanges (ε : Type) where
  batchDepth : ℕ
  bufferedEvents : EntryMap String (RecordChangeEvent ε)

/-! ## A live query -/

/-- What a view shows of it. -/
structure LiveQueryState (ρ err : Type) where
  error : Option err
  loading : Bool
  results : List ρ

/-- How a run ends. -/
inductive Outcome (ρ err : Type) where
  | resolved (results : List ρ)
  | rejected (error : err)

/-- A model that is observed, with the identity that was captured for it. -/
structure Subscription where
  modelName : String
  databaseIdentity : Option String

/-- A live query, mounted or not. -/
structure LiveQuery (ρ err : Type) where
  debounced : Bool
  subscriptions : List Subscription
  state : LiveQueryState ρ err
  requestId : ℕ
  started : Bool
  closed : Bool
  runScheduled : Bool
  running : List ℕ

variable {ρ err ε ι : Type}

def Subscription.observes (subscription : Subscription) (key : Key) : Bool :=
  subscription.modelName = key.modelName ∧
    subscription.databaseIdentity.all fun identity => identity = key.databaseIdentity

def observes (subscriptions : List Subscription) (key : Key) : Bool :=
  subscriptions.any fun subscription => subscription.observes key

namespace LiveQuery

def new (debounced : Bool) (subscriptions : List Subscription) : LiveQuery ρ err :=
  ⟨debounced, subscriptions, ⟨none, true, []⟩, 0, false, false, false, []⟩

/-- `_scheduleRun`: a timer is set, or a microtask is queued unless there is one. -/
def scheduleRun (query : LiveQuery ρ err) : LiveQuery ρ err := { query with runScheduled := true }

/-- What the query's listeners do with an event; there are none before `start` and after `close`. -/
def onRecordChange (query : LiveQuery ρ err) (key : Key) : LiveQuery ρ err :=
  if query.started && !query.closed && observes query.subscriptions key then query.scheduleRun
  else query

/-- `_run`, up to the query that it awaits. -/
def run (query : LiveQuery ρ err) : LiveQuery ρ err :=
  { query with requestId := query.requestId + 1, running := (query.requestId + 1) :: query.running }

def close (query : LiveQuery ρ err) : LiveQuery ρ err :=
  { query with closed := true, runScheduled := !query.debounced && query.runScheduled }

def setState (query : LiveQuery ρ err) : Outcome ρ err → LiveQuery ρ err
  | .resolved results => { query with state := ⟨none, false, results⟩ }
  | .rejected error => { query with state := ⟨some error, false, query.state.results⟩ }

end LiveQuery

/-! ## Steps -/

/-- What happened. -/
inductive Entry (ρ err ι : Type) where
  /-- an event was emitted; the flag says that it was kept for the end of a batch -/
  | emitted (key : Key) (buffered : Bool)
  | batched
  | ended (flushed : Option (List Key))
  | ran (query : ι) (requestId : ℕ)
  | delivered (query : ι) (requestId : ℕ) (outcome : Outcome ρ err)
  | closed (query : ι)

/-- The bus and all queries. -/
structure State (ρ err ε ι : Type) where
  bus : RecordChanges ε
  queries : ι → LiveQuery ρ err
  history : List (Entry ρ err ι)

/-- What can happen. -/
inductive Action (ρ err ε ι : Type) where
  | emit (event : RecordChangeEvent ε)
  | batch
  | endBatch
  | start (query : ι)
  | tick (query : ι)
  | finish (query : ι) (requestId : ℕ) (outcome : Outcome ρ err)
  | close (query : ι)

section Steps

variable [DecidableEq ι]

/-- `_emitter.emit`, for each event. -/
def dispatch (queries : ι → LiveQuery ρ err) (events : List (RecordChangeEvent ε)) :
    ι → LiveQuery ρ err :=
  fun q => events.foldl (fun query event => query.onRecordChange event.key) (queries q)

def State.record (s : State ρ err ε ι) (entry : Entry ρ err ι) : State ρ err ε ι :=
  { s with history := s.history ++ [entry] }

def State.setQuery (s : State ρ err ε ι) (q : ι) (query : LiveQuery ρ err) : State ρ err ε ι :=
  { s with queries := Function.update s.queries q query }

def emit (s : State ρ err ε ι) (event : RecordChangeEvent ε) : State ρ err ε ι :=
  if 0 < s.bus.batchDepth then
    { s with
      bus := { s.bus with bufferedEvents := s.bus.bufferedEvents.set (eventKey event.key) event }
    }.record (.emitted event.key true)
  else { s with queries := dispatch s.queries [event] }.record (.emitted event.key false)

/-- The `finally` of `batch`, with `_flushBufferedEvents`. -/
def endBatch (s : State ρ err ε ι) : State ρ err ε ι :=
  if s.bus.batchDepth - 1 = 0 then
    let events := s.bus.bufferedEvents.values
    { s with bus := ⟨0, .empty⟩, queries := dispatch s.queries events }.record
      (.ended (some (events.map RecordChangeEvent.key)))
  else
    { s with bus := { s.bus with batchDepth := s.bus.batchDepth - 1 } }.record (.ended none)

def runQuery (s : State ρ err ε ι) (q : ι) (query : LiveQuery ρ err) : State ρ err ε ι :=
  (s.setQuery q query.run).record (.ran q query.run.requestId)

def step (s : State ρ err ε ι) : Action ρ err ε ι → Option (State ρ err ε ι)
  | .emit event => some (emit s event)
  | .batch =>
    some ({ s with bus := { s.bus with batchDepth := s.bus.batchDepth + 1 } }.record .batched)
  | .endBatch => if s.bus.batchDepth = 0 then none else some (endBatch s)
  | .start q =>
    if (s.queries q).closed || (s.queries q).started then some s
    else some (runQuery s q { s.queries q with started := true })
  | .tick q =>
    if (s.queries q).runScheduled then
      if (s.queries q).closed && !(s.queries q).debounced then
        some (s.setQuery q { s.queries q with runScheduled := false })
      else some (runQuery s q { s.queries q with runScheduled := false })
    else none
  | .finish q requestId outcome =>
    if requestId ∈ (s.queries q).running then
      let query := { s.queries q with running := (s.queries q).running.erase requestId }
      if query.closed || requestId ≠ query.requestId then some (s.setQuery q query)
      else some ((s.setQuery q (query.setState outcome)).record (.delivered q requestId outcome))
    else none
  | .close q =>
    if (s.queries q).closed then some s
    else some ((s.setQuery q (s.queries q).close).record (.closed q))

/-- No batch, no run; each query has its own options. -/
def initial (debounced : ι → Bool) (subscriptions : ι → List Subscription) : State ρ err ε ι where
  bus := ⟨0, .empty⟩
  queries q := .new (debounced q) (subscriptions q)
  history := []

end Steps

def deliveries [DecidableEq ι] (history : List (Entry ρ err ι)) (q : ι) :
    List (ℕ × Outcome ρ err) :=
  history.filterMap fun
    | .delivered q' requestId outcome => if q' = q then some (requestId, outcome) else none
    | _ => none

/-- A change of a model that the query observes. -/
def Entry.IsChange (subscriptions : List Subscription) : Entry ρ err ι → Prop
  | .emitted key _ => observes subscriptions key = true
  | _ => False

def LiveQueryState.Holds (state : LiveQueryState ρ err) : Outcome ρ err → Prop
  | .resolved results => state = ⟨none, false, results⟩
  | .rejected error => state.error = some error ∧ state.loading = false

/-- Open, with no batch open and no run scheduled or running. -/
structure Quiescent (s : State ρ err ε ι) (q : ι) : Prop where
  batchDepth : s.bus.batchDepth = 0
  started : (s.queries q).started = true
  closed : (s.queries q).closed = false
  runScheduled : (s.queries q).runScheduled = false
  running : (s.queries q).running = []

end Velocious.LiveQueries
