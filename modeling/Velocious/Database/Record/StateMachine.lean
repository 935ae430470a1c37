/-
  The state machine of a record: events, the transition that they leave behind, and the saves that
  run its callbacks.

  * `Definition`: events with their sources, target and guard, and which callbacks there are.
  * `State`: one record in memory (what was loaded, what is changed, the pending transition), its
    row, and the calls on it that have not returned; `callbacks`, `persisted` and `accepted` record
    what happened.
  * `step`: one part of one call, up to what it awaits next; a save is a transaction, and the row
    that it has written is locked until it ends.
-/
import Velocious.Foundation.Machine
import Mathlib.Logic.Function.Basic

namespace Velocious.StateMachine

/-! ## Definitions -/

/-- `EventDefinition`, with a list of sources. -/
structure EventDefinition (S : Type) where
  fromStates : List S
  toState : S
  guard : Bool
  before : Bool
  after : Bool

/-- `StateDefinition`: which callbacks a state has. -/
structure StateDefinition where
  beforeEnter : Bool
  afterEnter : Bool
  beforeExit : Bool
  afterExit : Bool

/-- `StateMachineDefinition` -/
structure Definition (E S : Type) where
  events : E → Option (EventDefinition S)
  states : S → Option StateDefinition
  /-- what the database writes for a new record without a state -/
  columnDefault : S

/-- The pending transition. -/
structure Transition (E S : Type) where
  eventName : E
  fromState : S
  toState : S
  deriving DecidableEq

/-- The kinds of callbacks. -/
inductive Kind where
  | before
  | beforeExit
  | beforeEnter
  | afterEnter
  | afterExit
  | after
  deriving DecidableEq

/-- A callback that is run, with the transition that it is run for. -/
structure Callback (E S : Type) where
  kind : Kind
  transition : Transition E S
  deriving DecidableEq

variable {E S : Type} (definition : Definition E S)

def callbacksBefore (t : Transition E S) : List (Callback E S) :=
  (if (definition.events t.eventName).any (·.before) then [⟨.before, t⟩] else []) ++
    (if (definition.states t.fromState).any (·.beforeExit) then [⟨.beforeExit, t⟩] else []) ++
    (if (definition.states t.toState).any (·.beforeEnter) then [⟨.beforeEnter, t⟩] else [])

def callbacksAfter (t : Transition E S) : List (Callback E S) :=
  (if (definition.states t.toState).any (·.afterEnter) then [⟨.afterEnter, t⟩] else []) ++
    (if (definition.states t.fromState).any (·.afterExit) then [⟨.afterExit, t⟩] else []) ++
    (if (definition.events t.eventName).any (·.after) then [⟨.after, t⟩] else [])

def callbacksOf (t : Transition E S) : List (Callback E S) :=
  callbacksBefore definition t ++ callbacksAfter definition t

/-! ## Calls -/

/-- Where a save is. -/
inductive Stage (E S : Type) where
  | starting
  /-- in `beforeSave`, which has read a transition: the callbacks that are left -/
  | before (read : Option (Transition E S)) (todo : List (Callback E S))
  | written
  | after (read : Option (Transition E S)) (todo : List (Callback E S))

/-- A call that has not returned. -/
inductive Task (E S : Type) where
  | guarding (eventName : E) (currentState : S)
  | saving (stage : Stage E S)

/-- A record and its row. -/
structure State (E S : Type) where
  db : Option S
  isNewRecord : Bool
  attributes : Option S
  changes : Option S
  otherChanges : Bool
  pending : Option (Transition E S)
  tasks : ℕ → Option (Task E S)
  /-- the save whose transaction has written the row, and what was there -/
  lock : Option (ℕ × Option S)
  callbacks : List (Callback E S)
  persisted : List (S × S)
  /-- the events whose guards accepted, and the state that the row had -/
  accepted : List (E × Option S)

namespace State

def read (s : State E S) : Option S := s.changes.or s.attributes

def setTask (s : State E S) (n : ℕ) (task : Option (Task E S)) : State E S :=
  { s with tasks := Function.update s.tasks n task }

def setState [DecidableEq S] (s : State E S) (value : S) : State E S :=
  if s.attributes = some value then s else { s with changes := some value }

end State

section Steps

variable [DecidableEq S]

/-- An event that is let through: the transition is stashed, the state is set. -/
def fire (s : State E S) (eventName : E) (event : EventDefinition S) (currentState : S) :
    State E S :=
  { s with
    pending := some ⟨eventName, currentState, event.toState⟩
    accepted := if event.guard then s.accepted ++ [(eventName, s.db)] else s.accepted }.setState
    event.toState

/-- The insert or the update, and the reload. -/
def write (s : State E S) (n : ℕ) : Option (State E S) :=
  if s.isNewRecord then
    if s.db.isSome ∨ s.lock.isSome then none
    else
      let value := s.read.getD definition.columnDefault
      some { s with
        db := some value, attributes := some value, changes := none, otherChanges := false
        isNewRecord := false, lock := some (n, none) }
  else if s.changes.isSome || s.otherChanges then
    if s.lock.isSome then none
    else s.db.map fun old =>
      let value := s.changes.getD old
      { s with
        db := some value, attributes := some value, changes := none, otherChanges := false
        lock := some (n, some old) }
  else some s

/-- The transaction of a save is committed. -/
def commit (s : State E S) (n : ℕ) : State E S :=
  match s.lock with
  | none => s
  | some (m, old) =>
    if m = n then
      { s with
        lock := none
        persisted := s.persisted ++ match old, s.db with
          | some old, some value => if old = value then [] else [(old, value)]
          | _, _ => [] }
    else s

/-- The transaction of a save is rolled back. -/
def rollback (s : State E S) (n : ℕ) : State E S :=
  match s.lock with
  | none => s
  | some (m, old) => if m = n then { s with lock := none, db := old } else s

/-- The next part of a save. -/
def advance (s : State E S) (n : ℕ) : Stage E S → Option (State E S)
  | .starting =>
    let todo := s.pending.elim [] (callbacksBefore definition)
    some (s.setTask n (some (.saving (.before s.pending todo))))
  | .before read (callback :: todo) =>
    some ({ s with callbacks := s.callbacks ++ [callback] }.setTask n
      (some (.saving (.before read todo))))
  | .before _ [] => (write definition s n).map fun s' => s'.setTask n (some (.saving .written))
  | .written =>
    let todo := s.pending.elim [] (callbacksAfter definition)
    some ({ s with pending := none }.setTask n (some (.saving (.after s.pending todo))))
  | .after read (callback :: todo) =>
    some ({ s with callbacks := s.callbacks ++ [callback] }.setTask n
      (some (.saving (.after read todo))))
  | .after _ [] => some ((commit s n).setTask n none)

/-- What can happen. -/
inductive Action (E : Type) where
  | change
  | event (eventName : E) (guard : Bool)
  | eventAndSave (n : ℕ) (eventName : E)
  | guarded (n : ℕ) (allowed : Bool)
  | save (n : ℕ)
  | advance (n : ℕ)
  | fail (n : ℕ)

def enabledEvent (s : State E S) (eventName : E) : Option (EventDefinition S × S) :=
  (definition.events eventName).bind fun event => s.read.bind fun currentState =>
    if currentState ∈ event.fromStates then some (event, currentState) else none

def step (s : State E S) : Action E → Option (State E S)
  | .change => some { s with otherChanges := true }
  | .event eventName guard =>
    match enabledEvent definition s eventName with
    | none => some s
    | some (event, currentState) =>
      if event.guard && !guard then some s else some (fire s eventName event currentState)
  | .eventAndSave n eventName =>
    if (s.tasks n).isSome then none
    else
      match enabledEvent definition s eventName with
      | none => some s
      | some (event, currentState) =>
        if event.guard then some (s.setTask n (some (.guarding eventName currentState)))
        else some ((fire s eventName event currentState).setTask n (some (.saving .starting)))
  | .guarded n allowed =>
    match s.tasks n with
    | some (.guarding eventName currentState) =>
      if allowed then
        (definition.events eventName).map fun event =>
          (fire s eventName event currentState).setTask n (some (.saving .starting))
      else some (s.setTask n none)
    | _ => none
  | .save n =>
    if (s.tasks n).isSome then none else some (s.setTask n (some (.saving .starting)))
  | .advance n =>
    match s.tasks n with
    | some (.saving stage) => advance definition s n stage
    | _ => none
  | .fail n =>
    match s.tasks n with
    | some (.saving _) => some ((rollback s n).setTask n none)
    | _ => none

end Steps

def Loaded (s : State E S) (value : S) : Prop :=
  s.changes = none ∧ s.attributes = some value ∧ s.isNewRecord = false

/-- The record is new, or as its row is, and nothing was called on it. -/
structure Initial (s : State E S) : Prop where
  loaded : ∀ value, s.db = some value → Loaded s value
  pending : s.pending = none
  tasks : ∀ n, s.tasks n = none
  lock : s.lock = none
  callbacks : s.callbacks = []
  persisted : s.persisted = []

/-- A declared event leads from one state to the other, and its guard accepted in the first one, at
    some time: two transitions may stand on one acceptance. -/
def Declared (s : State E S) (t : Transition E S) : Prop :=
  ∃ event, definition.events t.eventName = some event ∧ t.fromState ∈ event.fromStates ∧ t.toState = event.toState ∧
    (event.guard → (t.eventName, some t.fromState) ∈ s.accepted)

/-- A save has run a part of its transaction. -/
def Busy (s : State E S) (n : ℕ) : Prop :=
  ∃ stage, s.tasks n = some (.saving stage) ∧ stage ≠ .starting

/-- The persisted changes are transitions of declared events, and where no save is running, these
    are the ones that callbacks were run for, each once. -/
def Consistent (s : State E S) : Prop :=
  ∃ ts : List (Transition E S), s.persisted = ts.map (fun t => (t.fromState, t.toState)) ∧
    (∀ t ∈ ts, Declared definition s t) ∧
    ((∀ n, ¬ Busy s n) → s.callbacks = ts.flatMap (callbacksOf definition))

end Velocious.StateMachine
