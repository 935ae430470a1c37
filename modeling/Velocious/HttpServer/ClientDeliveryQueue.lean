/-
  The outbound queue of a client (src/http-server/client-delivery-queue.js).

  * A method has nothing left to do when it calls a delivery or the overflow handler; what these call
    in turn are actions that follow, as any others.
  * The queue is kept with what happened around it: the tasks that were accepted and started, the
    deliveries that still run, and the calls that settled a promise. Byte sizes are natural numbers;
    the counters are integers.
  * `Sound` is what a queue guarantees in every state, `Proceeds` what each step does to the calls and
    the deliveries, and `Follows` what the actions of a run say of its state.
-/
import Mathlib
import Velocious.Foundation.Machine

namespace Velocious.ClientDeliveryQueue

open Foundation

/-! ## The queue -/

/-- The options of a queue. -/
structure Options where
  clientCount : ℕ
  maxBytes : ℕ
  maxFrames : ℕ

/-- A task; `id` is that of its promise. -/
structure DeliveryTask where
  id : ℕ
  byteLength : ℕ
  countedFrame : Bool
  deriving DecidableEq

/-- `ClientDeliveryQueueOverflowError` -/
structure OverflowError where
  clientCount : ℕ
  maxBytes : ℕ
  maxFrames : ℕ
  pendingBytes : ℤ
  pendingFrames : ℤ
  rejectedBytes : ℕ
  deriving DecidableEq

/-- How a promise is settled; an error of a delivery is `ε`. -/
inductive Outcome (ε : Type) where
  | resolved
  | rejected (error : ε)
  | overflowed (error : OverflowError)

/-- A client's queue. -/
structure Queue where
  tasks : List DeliveryTask
  activeTask : Option DeliveryTask
  pendingBytes : ℤ
  pendingFrames : ℤ
  destroyed : Bool

/-- A queue, and what became of its tasks. -/
structure State (ε : Type) where
  queue : Queue
  calls : ℕ
  accepted : List DeliveryTask
  started : List DeliveryTask
  running : List DeliveryTask
  settled : List (ℕ × Outcome ε)

variable {ε : Type}

/-- A queue as it is built. -/
def initial : State ε := ⟨⟨[], none, 0, 0, false⟩, 0, [], [], [], []⟩

/-- `_drain`: the next task is active before its delivery is called. -/
def drain (s : State ε) : State ε :=
  if s.queue.destroyed ∨ s.queue.activeTask.isSome then s
  else
    match s.queue.tasks with
    | [] => s
    | task :: tasks =>
      { s with
        queue := { s.queue with tasks, activeTask := some task }
        started := s.started ++ [task]
        running := s.running ++ [task] }

/-- A task is accepted. -/
def enqueue (s : State ε) (byteLength : ℕ) (countedFrame : Bool) : State ε :=
  let task := ⟨s.calls, byteLength, countedFrame⟩
  drain
    { s with
      queue := { s.queue with tasks := s.queue.tasks ++ [task] }
      calls := s.calls + 1
      accepted := s.accepted ++ [task] }

/-- A call whose promise is settled when it returns. -/
def settleCall (s : State ε) (outcome : Outcome ε) : State ε :=
  { s with calls := s.calls + 1, settled := s.settled ++ [(s.calls, outcome)] }

/-- `enqueueFrame`: admits a frame, or overflows. -/
def enqueueFrame (o : Options) (s : State ε) (byteLength : ℕ) : State ε :=
  let q := s.queue
  if q.destroyed then settleCall s .resolved
  else if q.pendingFrames + 1 > o.maxFrames ∨ q.pendingBytes + byteLength > o.maxBytes then
    settleCall s (.overflowed
      { clientCount := o.clientCount
        maxBytes := o.maxBytes
        maxFrames := o.maxFrames
        pendingBytes := q.pendingBytes
        pendingFrames := q.pendingFrames
        rejectedBytes := byteLength })
  else
    enqueue
      { s with
        queue := { q with
          pendingFrames := q.pendingFrames + 1
          pendingBytes := q.pendingBytes + byteLength } }
      byteLength true

/-- `enqueueControl` -/
def enqueueControl (s : State ε) : State ε :=
  if s.queue.destroyed then settleCall s .resolved else enqueue s 0 false

/-- The tasks that wait, or run. -/
def Queue.held (q : Queue) : List DeliveryTask := q.activeTask.toList ++ q.tasks

/-- `destroy` -/
def destroy (s : State ε) : State ε :=
  if s.queue.destroyed then s
  else
    { s with
      queue := ⟨[], none, 0, 0, true⟩
      settled := s.settled ++ s.queue.held.map fun task => (task.id, .resolved) }

/-- A delivery is over. -/
def finish (s : State ε) (task : DeliveryTask) (error : Option ε) : State ε :=
  if s.queue.destroyed ∨ s.queue.activeTask ≠ some task then s
  else
    let q := { s.queue with activeTask := none }
    let q :=
      if task.countedFrame then
        { q with pendingBytes := q.pendingBytes - task.byteLength
                 pendingFrames := q.pendingFrames - 1 }
      else q
    drain
      { s with
        queue := q
        settled := s.settled ++ [(task.id, error.elim .resolved .rejected)] }

/-- What can happen. -/
inductive Action (ε : Type) where
  | enqueueFrame (byteLength : ℕ)
  | enqueueControl
  | destroy
  | delivered (task : DeliveryTask) (error : Option ε)

/-- A delivery that runs resolves or rejects once; the rest may be called at any time. -/
def step (o : Options) (s : State ε) : Action ε → Option (State ε)
  | .enqueueFrame byteLength => some (ClientDeliveryQueue.enqueueFrame o s byteLength)
  | .enqueueControl => some (ClientDeliveryQueue.enqueueControl s)
  | .destroy => some (ClientDeliveryQueue.destroy s)
  | .delivered task error =>
    if task ∈ s.running then
      some (finish { s with running := s.running.erase task } task error)
    else none

/-- The calls that are settled. -/
def State.settledIds (s : State ε) : List ℕ := s.settled.map Prod.fst

/-- The frames that are not settled. -/
def State.unfinishedFrames (s : State ε) : List DeliveryTask :=
  s.accepted.filter fun task => task.countedFrame && decide (task.id ∉ s.settledIds)

/-- What is asked of every run. -/
structure Sound (o : Options) (s : State ε) : Prop where
  oneActive : s.running.length ≤ 1
  startedInOrder : s.started <+: s.accepted
  pendingFrames : s.queue.pendingFrames = s.unfinishedFrames.length
  pendingBytes : s.queue.pendingBytes = ((s.unfinishedFrames.map DeliveryTask.byteLength).sum : ℕ)
  withinFrames : s.queue.pendingFrames ≤ o.maxFrames
  withinBytes : s.queue.pendingBytes ≤ o.maxBytes
  settledOnce : s.settledIds.Nodup
  /-- where no delivery runs, or after `destroy`, the queue is empty and every promise is settled -/
  quiescent : s.running = [] ∨ s.queue.destroyed = true →
    s.queue.held = [] ∧ ∀ id < s.calls, id ∈ s.settledIds
  drained : s.queue.activeTask = none → s.queue.tasks = []

/-- A call is accepted as a task; its promise stays open. -/
def Accepts (s s' : State ε) (task : DeliveryTask) : Prop :=
  s'.accepted = s.accepted ++ [task] ∧ s'.settled = s.settled

/-- A call is not accepted; its promise is settled at once. -/
def Declines (s s' : State ε) (outcome : Outcome ε) : Prop :=
  s'.accepted = s.accepted ∧ s'.settled = s.settled ++ [(s.calls, outcome)]

/-- The frame fits into the queue. -/
def HasRoom (o : Options) (q : Queue) (byteLength : ℕ) : Prop :=
  q.pendingFrames + 1 ≤ o.maxFrames ∧ q.pendingBytes + byteLength ≤ o.maxBytes

/-- What a step does to the calls and the deliveries. -/
structure Proceeds (o : Options) (s s' : State ε) (a : Action ε) : Prop where
  /-- before `destroy` a frame is accepted if it fits, and overflows otherwise -/
  frame : ∀ byteLength, a = .enqueueFrame byteLength → s.queue.destroyed = false →
    (HasRoom o s.queue byteLength → Accepts s s' ⟨s.calls, byteLength, true⟩) ∧
    (¬ HasRoom o s.queue byteLength → Declines s s' (.overflowed ⟨o.clientCount, o.maxBytes,
      o.maxFrames, s.queue.pendingBytes, s.queue.pendingFrames, byteLength⟩))
  control : a = .enqueueControl → s.queue.destroyed = false → Accepts s s' ⟨s.calls, 0, false⟩
  /-- after `destroy` a call resolves at once -/
  late : (∃ byteLength, a = .enqueueFrame byteLength) ∨ a = .enqueueControl →
    s.queue.destroyed = true → Declines s s' .resolved
  /-- `destroy` empties the queue and resolves what it held -/
  released : a = .destroy → s.queue.destroyed = false → s'.queue.held = [] ∧
    s'.settled = s.settled ++ s.queue.held.map fun task => (task.id, .resolved)
  /-- no delivery starts after `destroy` -/
  stopped : s.queue.destroyed = true → s'.started = s.started
  /-- a delivery that ends, also by an error, settles its promise and starts the next task -/
  next : ∀ task error, a = .delivered task error → s.queue.destroyed = false →
    s'.settled = s.settled ++ [(task.id, error.elim .resolved .rejected)] ∧
      s'.started = s.started ++ s.queue.tasks.head?.toList ∧
      s'.queue.activeTask = s.queue.tasks.head?

/-- A call of `enqueueFrame` or `enqueueControl`. -/
def Action.isEnqueue : Action ε → Bool
  | enqueueFrame _ | enqueueControl => true
  | destroy | delivered _ _ => false

/-- The task whose delivery ends. -/
def Action.ended? : Action ε → Option DeliveryTask
  | delivered task _ => some task
  | enqueueFrame _ | enqueueControl | destroy => none

/-- What the actions of a run say of the state it ends in. -/
structure Follows (as : List (Action ε)) (s : State ε) : Prop where
  calls : s.calls = as.countP Action.isEnqueue
  /-- the deliveries that started are those that ended, in this order, and the one that runs -/
  started : s.started = as.filterMap Action.ended? ++ s.running
  destroyed : s.queue.destroyed = true ↔ .destroy ∈ as
  settled : ∀ id ∈ s.settledIds, id < s.calls

end Velocious.ClientDeliveryQueue
