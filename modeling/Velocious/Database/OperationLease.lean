/-
  Operation leases on a shared driver connection.

  A `World` is one connection: the installed lease, the transaction count, the mutex of the
  transaction actions, the stack of callback frames, and every call made on it with where it is. An
  operation is a call too, and its lease is named by it. A call runs from one `await` to the next;
  which one goes on is left open, and so is whom a free mutex lets in.

  * `_waitForOperationLease` is `blocking`: the installed lease when another owner's;
  * `query` and `affectedRows` look once and then execute, `startTransaction` looks again under the
    mutex, where `setOperationLease` installs;
  * `work` bounds the steps that need nothing new from outside.
-/
import Velocious.Foundation.Entries
import Velocious.Foundation.Machine

namespace Velocious.OperationLease

open Foundation

/-! ## The model -/

/-- What is called; `writable` is whether `_assertWritableQuery` accepts the statement. -/
inductive CallKind where
  | query (writable : Bool)
  | affectedRows (writable : Bool)
  | afterCommit (callback : ℕ)
  | startTransaction
  /-- `runOwnedOperation`: install a lease, run, release and clear it -/
  | operation
  deriving DecidableEq, Repr

/-- Where a call is. -/
inductive Stage where
  /-- awaits the lease of an operation -/
  | waiting (lease : ℕ)
  /-- the lease check is passed -/
  | admitted
  | queued
  /-- its statement is on the connection, for the `tries`-th time -/
  | executing (tries : ℕ)
  /-- its statement failed and is tried again -/
  | backoff (tries : ℕ)
  | opened
  | installed
  | finished
  deriving DecidableEq, Repr

/-- A call; `ending` is whether its transaction is being ended, and whether by a rollback. -/
structure Call where
  kind : CallKind
  operationOwner : Option ℕ
  stage : Stage
  ending : Option Bool := none
  deriving DecidableEq, Repr

/-- A driver connection. -/
structure World where
  operationLease : Option ℕ := none
  transactionsCount : ℕ := 0
  /-- who holds `_transactionsActionsMutex` -/
  mutex : Option ℕ := none
  /-- `_transactionCallbackFrames`, the last one first, with their after-commit callbacks -/
  frames : List (List ℕ) := []
  ran : List ℕ := []
  calls : List Call := []

def maxTries : ℕ := 5

namespace World

/-- A connection without a call. -/
def init : World := {}

def setStage (w : World) (i : ℕ) (stage : Stage) : World :=
  { w with calls := w.calls.modify i fun call => { call with stage } }

def leaseOwner (w : World) (lease : ℕ) : Option ℕ := w.calls[lease]?.bind Call.operationOwner

def released (w : World) (lease : ℕ) : Bool := w.calls[lease]?.any fun call =>
  call.stage = .finished

/-- `_waitForOperationLease`: the lease that is waited for, if any. -/
def blocking (w : World) (operationOwner : Option ℕ) : Option ℕ :=
  w.operationLease.filter fun lease => operationOwner ≠ w.leaseOwner lease

/-- Where a call goes that waits for a lease of another owner. -/
def checked (w : World) (operationOwner : Option ℕ) : Stage :=
  match w.blocking operationOwner with
  | some lease => .waiting lease
  | none => .admitted

def enter (w : World) (call : Call) : World := { w with calls := w.calls ++ [call] }

/-- `afterCommit`, once the lease check is passed -/
def registerAfterCommit (w : World) (callback : ℕ) : World :=
  match w.frames with
  | [] => { w with ran := w.ran ++ [callback] }
  | currentFrame :: parents => { w with frames := (currentFrame ++ [callback]) :: parents }

/-- `_commitTransactionCallbackFrame`, or the `pop` of a transaction that failed -/
def popFrame (w : World) (committed : Bool) : World :=
  match w.frames with
  | [] => w
  | committedFrame :: parents =>
    if committed then
      match parents with
      | [] => { w with frames := [], ran := w.ran ++ committedFrame }
      | parentFrame :: others => { w with frames := (parentFrame ++ committedFrame) :: others }
    else { w with frames := parents }

/-- `setOperationLease`, in the mutex: an error ends the operation, and `finally` releases. -/
def setOperationLease (w : World) (i : ℕ) : World :=
  if w.operationLease.isSome || 0 < w.transactionsCount then w.setStage i .finished
  else { w with operationLease := some i }.setStage i .installed

/-- The mutex lets call `i` in: `setOperationLease`, `startTransaction`, and the `COMMIT` or
    `ROLLBACK` of a transaction. -/
def enterMutex (w : World) (i : ℕ) (call : Call) : World :=
  match call.kind, call.ending with
  | .operation, _ => w.setOperationLease i
  | _, none =>
    match w.blocking call.operationOwner with
    | some lease => w.setStage i (.waiting lease)
    | none => { w with mutex := some i }.setStage i .admitted
  | _, some _ => { w with mutex := some i }.setStage i (w.checked call.operationOwner)

/-- A call goes on after its lease check. -/
def proceed (w : World) (i : ℕ) (call : Call) : World :=
  match call.kind with
  | .query writable | .affectedRows writable =>
    w.setStage i (if writable then .executing 1 else .finished)
  | .afterCommit callback => (w.registerAfterCommit callback).setStage i .finished
  | .startTransaction => w.setStage i (if w.mutex = some i then .executing 1 else .queued)
  | .operation => w

/-- How a statement ends. -/
inductive Outcome where
  | ok
  | failed
  /-- an error that `retryableDatabaseError` calls retryable -/
  | retryable
  deriving DecidableEq, Repr

/-- The statement of call `i` is over, and not tried again. -/
def finish (w : World) (i : ℕ) (call : Call) (ok : Bool) : World :=
  match call.kind, call.ending with
  | .startTransaction, none =>
    if ok then
      { w with mutex := none, transactionsCount := w.transactionsCount + 1 }.setStage i .opened
    else { w with mutex := none }.setStage i .finished
  | .startTransaction, some rollback =>
    if ok || rollback then
      { w with mutex := none, transactionsCount := w.transactionsCount - 1 }.setStage i .finished
    else
      { w with
        mutex := none
        calls := w.calls.modify i fun call => { call with stage := .opened, ending := none } }
  | _, _ => w.setStage i .finished

/-- The statement of call `i` settles; only `query` tries again. -/
def settle (w : World) (i : ℕ) (call : Call) (tries : ℕ) (outcome : Outcome) : World :=
  match outcome, call.kind with
  | .retryable, .affectedRows _ => w.finish i call false
  | .retryable, _ => if tries < maxTries then w.setStage i (.backoff tries) else w.finish i call false
  | .ok, _ => w.finish i call true
  | .failed, _ => w.finish i call false

def releaseLease (w : World) (i : ℕ) : World :=
  { w with operationLease := if w.operationLease = some i then none else w.operationLease }.setStage
    i .finished

end World

/-- What can happen. The last five need no caller. -/
inductive LeaseAction where
  | query (operationOwner : Option ℕ) (writable : Bool)
  | affectedRows (operationOwner : Option ℕ) (writable : Bool)
  | afterCommit (operationOwner : Option ℕ) (callback : ℕ)
  | startTransaction (operationOwner : Option ℕ)
  | endTransaction (i : ℕ) (rollback : Bool)
  | operation (owner : ℕ)
  | releaseOperation (i : ℕ)
  | pushFrame
  | popFrame (committed : Bool)
  /-- a call whose lease check is passed, or whose lease was released, goes on -/
  | resume (i : ℕ)
  | enterMutex (i : ℕ)
  | settle (i : ℕ) (outcome : World.Outcome)
  | retry (i : ℕ)
  deriving DecidableEq, Repr

/-- Whether a step needs no caller. -/
def LeaseAction.isInternal : LeaseAction → Bool
  | .resume _ | .enterMutex _ | .settle _ _ | .retry _ => true
  | _ => false

namespace World

def step (w : World) : LeaseAction → Option World
  | .query operationOwner writable =>
    some (w.enter ⟨.query writable, operationOwner, w.checked operationOwner, none⟩)
  | .affectedRows operationOwner writable =>
    some (w.enter ⟨.affectedRows writable, operationOwner, w.checked operationOwner, none⟩)
  | .afterCommit operationOwner callback =>
    some (w.enter ⟨.afterCommit callback, operationOwner, w.checked operationOwner, none⟩)
  | .startTransaction operationOwner =>
    some (w.enter ⟨.startTransaction, operationOwner, .queued, none⟩)
  | .endTransaction i rollback =>
    match w.calls[i]? with
    | some ⟨_, _, .opened, _⟩ =>
      some { w with
        calls := w.calls.modify i fun call =>
          { call with stage := .queued, ending := some rollback } }
    | _ => none
  | .operation owner => some (w.enter ⟨.operation, some owner, .queued, none⟩)
  | .releaseOperation i =>
    match w.calls[i]? with
    | some ⟨_, _, .installed, _⟩ => some (w.releaseLease i)
    | _ => none
  | .pushFrame => some { w with frames := [] :: w.frames }
  | .popFrame committed => some (w.popFrame committed)
  | .resume i =>
    match w.calls[i]? with
    | some call =>
      match call.stage with
      | .admitted => some (w.proceed i call)
      | .waiting lease => if w.released lease then some (w.proceed i call) else none
      | _ => none
    | none => none
  | .enterMutex i =>
    match w.calls[i]? with
    | some call =>
      if call.stage = .queued ∧ w.mutex = none then some (w.enterMutex i call) else none
    | none => none
  | .settle i outcome =>
    match w.calls[i]? with
    | some call =>
      match call.stage with
      | .executing tries => some (w.settle i call tries outcome)
      | _ => none
    | none => none
  | .retry i =>
    match w.calls[i]? with
    | some call =>
      match call.stage with
      | .backoff tries =>
        if tries < maxTries then some (w.setStage i (.executing (tries + 1))) else none
      | _ => none
    | none => none

end World

end Velocious.OperationLease
