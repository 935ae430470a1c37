/-
  The shared transaction broker (src/testing/shared-transaction-broker.js), for one physical
  connection.

  A step is the arrival of a request, the loss of a session, the shutdown of the broker, or the
  settling of what one of its asynchronous functions awaits.

  * The promise chain `state.queue` is the list of the work that is chained and not over; its first
    entry is the one whose turn it is. The chain `lease.operations` is likewise a list.
  * A root savepoint's start stays the first entry, `held`, until its lease is released.
  * What follows a callback up to the next `await` is one step: the `finally` of a finish runs
    before the next operation of the lease begins.
  * `closed` are the sockets that are no longer open; a request comes from an open one.
  * `settled`, and the `ended` of a lease, are history, which the broker does not read.
-/
import Velocious.Foundation.Machine
import Mathlib.Tactic

namespace Velocious.SharedTransactionBroker

open Foundation

/-! ## The state -/

abbrev Session := ℕ

/-- A request, with the first argument where it is a string. -/
inductive Request where
  | operation
  | rootTransactionStart (savePointName : Option String)
  | rootTransactionRelease (savePointName : Option String)
  | rootTransactionRollback (savePointName : Option String)

/-- Why an entry is queued. -/
inductive EntryKind where
  | operation
  | root (savePointName : String)

/-- Where an entry of the connection's queue is. -/
inductive EntryStage where
  | waiting
  | running
  | held (lease : ℕ)

/-- What is queued. -/
structure Entry where
  request : ℕ
  session : Session
  kind : EntryKind
  stage : EntryStage

/-- What a call does. -/
inductive OperationKind where
  | operation
  | release
  | rollback
  | cleanup
  deriving DecidableEq

/-- Whether the lease is over once the operation is. -/
def OperationKind.finishes : OperationKind → Bool
  | operation => false
  | release | rollback | cleanup => true

/-- A call under a lease. -/
structure Operation where
  request : Option ℕ
  kind : OperationKind
  running : Bool

/-- A root transaction of a session. -/
structure Lease where
  session : Session
  savePointName : String
  operations : List Operation
  released : Bool
  ended : Bool

/-- The broker. -/
structure World where
  accepting : Bool
  closed : List Session
  queue : List Entry
  rootSessions : List Session
  lease : Option ℕ
  leases : List Lease
  sessionCleanup : List Session
  requests : ℕ
  settled : List ℕ

/-- What can happen. -/
inductive BrokerAction where
  | request (session : Session) (request : Request)
  | begin
  | settle (ok : Bool)
  | proceed
  | beginOperation (lease : ℕ)
  | settleOperation (lease : ℕ) (ok : Bool)
  | disconnect (session : Session)
  | revoke
  | closeTransport

/-- Whether a step is taken by what was already received. -/
def BrokerAction.internal : BrokerAction → Bool
  | begin | settle _ | proceed | beginOperation _ | settleOperation _ _ => true
  | _ => false

namespace World

def init : World := ⟨true, [], [], [], none, [], [], 0, []⟩

/-! ## Leases -/

def current (w : World) : Option Lease := w.lease.bind fun i => w.leases[i]?

/-- The lease that a session holds, by its place. -/
def leaseOf (w : World) (session : Session) : Option ℕ :=
  w.lease.filter fun i => (w.leases[i]?).any fun lease => lease.session = session

def modifyLease (w : World) (i : ℕ) (f : Lease → Lease) : World :=
  { w with leases := w.leases.modify i f }

/-- `serializeLease`, up to its first `await`. -/
def serializeLease (w : World) (i : ℕ) (request : Option ℕ) (kind : OperationKind) : World :=
  w.modifyLease i fun lease =>
    { lease with operations := lease.operations ++ [⟨request, kind, false⟩] }

/-- `scheduleSessionCleanup`; where the session holds no lease, the cleanup ends at once. -/
def scheduleSessionCleanup (w : World) (session : Session) : World :=
  if session ∈ w.sessionCleanup then w
  else match w.leaseOf session with
    | none => w
    | some i =>
      { w with sessionCleanup := w.sessionCleanup ++ [session] }.serializeLease i none .cleanup

/-- How a request of a lease's holder is serialized with its lease, if it is. -/
def leaseOperation (w : World) (session : Session) : Request → Option (ℕ × OperationKind)
  | .operation => (w.leaseOf session).map fun i => (i, .operation)
  | .rootTransactionStart _ => none
  | .rootTransactionRelease savePointName =>
    ((w.leaseOf session).filter fun i =>
      (w.leases[i]?).any fun lease => savePointName = some lease.savePointName).map
        fun i => (i, .release)
  | .rootTransactionRollback savePointName =>
    ((w.leaseOf session).filter fun i =>
      (w.leases[i]?).any fun lease => savePointName = some lease.savePointName).map
        fun i => (i, .rollback)

/-- `runConnectionRequest`, up to its first `await`, with the number `request`. -/
def runConnectionRequest (w : World) (request : ℕ) (session : Session) (r : Request) : World :=
  match w.leaseOperation session r with
  | some (i, kind) => w.serializeLease i (some request) kind
  | none =>
    match r with
    | .operation => { w with queue := w.queue ++ [⟨request, session, .operation, .waiting⟩] }
    | .rootTransactionStart (some savePointName) =>
      -- `startRootLease`
      if savePointName = "" ∨ session ∈ w.rootSessions then
        { w with settled := w.settled ++ [request] }
      else { w with
        rootSessions := w.rootSessions ++ [session]
        queue := w.queue ++ [⟨request, session, .root savePointName, .waiting⟩] }
    -- no savepoint name, or a finish of a lease that the session does not hold
    | _ => { w with settled := w.settled ++ [request] }

/-- `handleRequest`, up to its first `await`. -/
def handleRequest (w : World) (session : Session) (r : Request) : World :=
  let request := w.requests
  let w := { w with requests := w.requests + 1 }
  if w.accepting then w.runConnectionRequest request session r
  else { w with settled := w.settled ++ [request] }

/-! ## The connection's queue -/

/-- The first entry of the queue is over, and its request answered. -/
def leave (w : World) (entry : Entry) : World :=
  { w with
    queue := w.queue.tail
    settled := w.settled ++ [entry.request] }

/-- The first entry of the queue goes on. -/
def setStage (w : World) (entry : Entry) (stage : EntryStage) : World :=
  { w with queue := { entry with stage } :: w.queue.tail }

def rejectStart (w : World) (entry : Entry) : World :=
  { w with rootSessions := w.rootSessions.erase entry.session }.leave entry

/-- A start whose savepoint was made: its session holds the connection. -/
def grant (w : World) (entry : Entry) (savePointName : String) : World :=
  let i := w.leases.length
  let lease : Lease := ⟨entry.session, savePointName, [], false, false⟩
  let w := { w with
    leases := w.leases ++ [lease]
    lease := some i
    settled := w.settled ++ [entry.request] }.setStage entry (.held i)
  if w.accepting then w else w.scheduleSessionCleanup entry.session

def begin (w : World) (entry : Entry) : World :=
  match entry.kind with
  | .operation => w.setStage entry .running
  | .root _ =>
    if entry.session ∈ w.closed then w.rejectStart entry else w.setStage entry .running

def settle (w : World) (entry : Entry) (ok : Bool) : World :=
  match entry.kind with
  | .operation => w.leave entry
  | .root savePointName => if ok then w.grant entry savePointName else w.rejectStart entry

/-- The `finally` of a finish: the lease of the connection is given up. -/
def finishRootLease (w : World) (i : ℕ) (session : Session) (ok : Bool) : World :=
  { w with
    lease := none
    rootSessions := w.rootSessions.erase session }.modifyLease i
      fun lease => { lease with released := true, ended := ok }

def settleOperation (w : World) (i : ℕ) (lease : Lease) (operation : Operation) (ok : Bool) :
    World :=
  let w := { w with settled := w.settled ++ operation.request.toList }.modifyLease i
    fun lease => { lease with operations := lease.operations.tail }
  match operation.kind with
  | .operation => w
  | .release | .rollback => w.finishRootLease i lease.session ok
  | .cleanup =>
    { w with sessionCleanup := w.sessionCleanup.erase lease.session }.finishRootLease i
      lease.session ok

def step (w : World) : BrokerAction → Option World
  | .request session r => if session ∈ w.closed then none else some (w.handleRequest session r)
  | .begin =>
    match w.queue with
    | ⟨request, session, kind, .waiting⟩ :: _ => some (w.begin ⟨request, session, kind, .waiting⟩)
    | _ => none
  | .settle ok =>
    match w.queue with
    | ⟨request, session, kind, .running⟩ :: _ =>
      some (w.settle ⟨request, session, kind, .running⟩ ok)
    | _ => none
  | .proceed =>
    match w.queue with
    | ⟨_, _, _, .held i⟩ :: rest =>
      if (w.leases[i]?).any (·.released) then some { w with queue := rest } else none
    | _ => none
  | .beginOperation i =>
    match w.leases[i]? with
    | some ⟨_, _, ⟨_, _, false⟩ :: _, _, _⟩ =>
      some (w.modifyLease i fun lease =>
        { lease with operations := lease.operations.modifyHead ({ · with running := true }) })
    | _ => none
  | .settleOperation i ok =>
    match w.leases[i]? with
    | some ⟨session, savePointName, ⟨request, kind, true⟩ :: rest, released, ended⟩ =>
      some (w.settleOperation i
        ⟨session, savePointName, ⟨request, kind, true⟩ :: rest, released, ended⟩
        ⟨request, kind, true⟩ ok)
    | _ => none
  | .disconnect session =>
    if session ∈ w.closed then none
    else some ({ w with closed := w.closed ++ [session] }.scheduleSessionCleanup session)
  | .revoke => some { w with accepting := false }
  | .closeTransport =>
    let w := { w with accepting := false }
    -- of the open sessions only the holder's has something to clean up
    some (match w.current with
      | some lease =>
        if lease.session ∈ w.closed then w else w.scheduleSessionCleanup lease.session
      | none => w)

end World

end Velocious.SharedTransactionBroker
