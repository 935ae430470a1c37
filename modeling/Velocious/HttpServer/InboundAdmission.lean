/-
  The admission of a websocket session's inbound messages
  (src/http-server/client/websocket-session.js).

  A message is admitted, counted, and chained behind the messages before it. While the message
  handler is being resolved, its turn in the chain moves it to a queue; the end of the resolution
  is chained too, and dispatches what was queued. A close starts a new generation of the counts.

  * The chain is one of promises: a task begins when the one that was the last before it has
    settled, and whether it failed does not matter to the next one.
  * The messages are named by the order in which they were admitted; which handler a message is
    dispatched to is left out.
  * `inbound_admission`: in every state that a session reaches, the counts are those of the
    messages that are not finished, and the messages are dispatched one at a time, in order.
-/
import Velocious.HttpServer.WebsocketFrames

namespace Velocious.InboundAdmission

open Foundation

/-! ## The program -/

/-- What `_admitInboundMessage` answers, with what the message was decoded to. -/
structure InboundMessageAdmission (μ : Type) where
  byteLength : ℕ
  generation : ℕ
  released : Bool
  message : Option μ

/-- What the chain runs: `_runMessageWork`, or the end of the handler's resolution. -/
inductive TaskKind where
  | work (message : ℕ)
  | drain
  deriving DecidableEq

/-- Where a task is: a message of it is being dispatched, and these come after it. -/
inductive TaskState where
  | queued
  | dispatching (message : ℕ) (rest : List ℕ)
  | settled
  deriving DecidableEq

/-- A task of the chain, and the task whose promise it waits for. -/
structure ChainTask where
  kind : TaskKind
  previous : Option ℕ
  state : TaskState
  deriving DecidableEq

/-- The message that is being dispatched. -/
def ChainTask.current (task : ChainTask) : Option ℕ :=
  match task.state with
  | .dispatching n _ => some n
  | .queued | .settled => none

/-- The messages that the task dispatches next. -/
def ChainTask.rest (task : ChainTask) : List ℕ :=
  match task.state with
  | .dispatching _ rest => rest
  | .queued | .settled => []

/-- The message of a task that has not begun. -/
def ChainTask.queuedWork (task : ChainTask) : Option ℕ :=
  match task.kind, task.state with
  | .work n, .queued => some n
  | _, _ => none

/-- Where `_resolveMessageHandlerPromise` is. -/
inductive ResolverStage where
  | awaiting
  | opening
  | over
  deriving DecidableEq

/-- What resolving a handler ends in. -/
inductive Resolution where
  | failure
  | none
  | handler

/-- A session and its backlog. -/
structure InboundSession (μ : Type) where
  inboundClosed : Bool
  inboundBacklogOverloaded : Bool
  accountingGeneration : ℕ
  pendingMessages : ℤ
  pendingBytes : ℤ
  admissions : List (InboundMessageAdmission μ)
  resolver : ResolverStage
  pendingMessageHandler : Bool
  messageQueue : List ℕ
  tasks : List ChainTask
  messageChain : Option ℕ
  dispatched : List ℕ

/-- What can happen. -/
inductive InboundAct (μ : Type) where
  | receive (byteLength : ℕ) (message : Option μ)
  | start (i : ℕ)
  | finish (i : ℕ) (failed : Bool)
  | resolve (resolution : Resolution)
  | opened (failed : Bool)
  | close

namespace InboundSession

variable {μ : Type}

/-- A new session, which may have a message handler to resolve. -/
def init (messageHandlerPromise : Bool) : InboundSession μ where
  inboundClosed := false
  inboundBacklogOverloaded := false
  accountingGeneration := 0
  pendingMessages := 0
  pendingBytes := 0
  admissions := []
  resolver := if messageHandlerPromise then .awaiting else .over
  pendingMessageHandler := messageHandlerPromise
  messageQueue := []
  tasks := []
  messageChain := none
  dispatched := []

def abandonInboundMessages (s : InboundSession μ) : InboundSession μ :=
  { s with
    inboundClosed := true
    accountingGeneration := s.accountingGeneration + 1
    pendingBytes := 0
    pendingMessages := 0
    messageQueue := [] }

def closeForInboundBacklog (s : InboundSession μ) : InboundSession μ :=
  if s.inboundBacklogOverloaded || s.inboundClosed then s
  else { s with inboundBacklogOverloaded := true }.abandonInboundMessages

def admitInboundMessage (limits : InboundQueueLimits) (s : InboundSession μ) (byteLength : ℕ)
    (message : Option μ) : InboundSession μ × Option ℕ :=
  if s.inboundClosed then (s, none)
  else if s.pendingMessages + 1 > limits.maxMessages ∨
      s.pendingBytes + byteLength > limits.maxBytes then (s.closeForInboundBacklog, none)
  else
    ({ s with
      pendingMessages := s.pendingMessages + 1
      pendingBytes := s.pendingBytes + byteLength
      admissions := s.admissions ++ [⟨byteLength, s.accountingGeneration, false, message⟩] },
      some s.admissions.length)

def releaseInboundAdmission (s : InboundSession μ) (n : ℕ) : InboundSession μ :=
  match s.admissions[n]? with
  | none => s
  | some admission =>
    if admission.released then s
    else
      let s := { s with admissions := s.admissions.set n { admission with released := true } }
      if admission.generation ≠ s.accountingGeneration then s
      else
        { s with
          pendingMessages := s.pendingMessages - 1
          pendingBytes := s.pendingBytes - admission.byteLength }

def chain (s : InboundSession μ) (kind : TaskKind) : InboundSession μ :=
  { s with
    tasks := s.tasks ++ [⟨kind, s.messageChain, .queued⟩]
    messageChain := some s.tasks.length }

/-- A text arrives: it is admitted, and chained by `_handleMessageWork` if it can be decoded. -/
def receive (limits : InboundQueueLimits) (s : InboundSession μ) (byteLength : ℕ)
    (message : Option μ) : InboundSession μ :=
  match s.admitInboundMessage limits byteLength message with
  | (s, none) => s
  | (s, some n) => if message.isSome then s.chain (.work n) else s.releaseInboundAdmission n

def setTask (s : InboundSession μ) (i : ℕ) (state : TaskState) : InboundSession μ :=
  { s with tasks := s.tasks.modify i fun task => { task with state } }

/-- The loop of `_flushQueuedMessages`, up to a dispatch. -/
def flushQueuedMessages (s : InboundSession μ) (i : ℕ) : List ℕ → InboundSession μ
  | [] => s.setTask i .settled
  | n :: rest =>
    if s.inboundClosed then (s.releaseInboundAdmission n).flushQueuedMessages i rest
    else { s with dispatched := s.dispatched ++ [n] }.setTask i (.dispatching n rest)

/-- `_runMessageWork`, up to its dispatch. -/
def runMessageWork (s : InboundSession μ) (i n : ℕ) : InboundSession μ :=
  if s.inboundClosed then (s.releaseInboundAdmission n).setTask i .settled
  else if s.pendingMessageHandler then
    { s with messageQueue := s.messageQueue ++ [n] }.setTask i .settled
  else { s with dispatched := s.dispatched ++ [n] }.setTask i (.dispatching n [])

/-- What `_finishMessageHandlerResolution` chains. -/
def drain (s : InboundSession μ) (i : ℕ) : InboundSession μ :=
  let s := { s with pendingMessageHandler := false }
  if s.inboundClosed then { s with messageQueue := [] }.setTask i .settled
  else { s with messageQueue := [] }.flushQueuedMessages i s.messageQueue

/-- The promise of a task has settled; nothing is before the first one. -/
def settledAt (s : InboundSession μ) : Option ℕ → Bool
  | none => true
  | some i => (s.tasks[i]?).any (·.state = .settled)

def step (limits : InboundQueueLimits) (s : InboundSession μ) :
    InboundAct μ → Option (InboundSession μ)
  | .receive byteLength message => some (s.receive limits byteLength message)
  | .start i =>
    match s.tasks[i]? with
    | some ⟨kind, previous, .queued⟩ =>
      if s.settledAt previous then
        match kind with
        | .work n => some (s.runMessageWork i n)
        | .drain => some (s.drain i)
      else none
    | _ => none
  | .finish i _failed =>
    match s.tasks[i]? with
    | some ⟨_, _, .dispatching n rest⟩ =>
      some ((s.releaseInboundAdmission n).flushQueuedMessages i rest)
    | _ => none
  | .resolve resolution =>
    if s.resolver = .awaiting then
      match resolution with
      | .failure | .none => some ({ s with resolver := .over }.chain .drain)
      | .handler =>
        if s.inboundClosed then some { s with resolver := .over, pendingMessageHandler := false }
        else some { s with resolver := .opening }
    else none
  | .opened _failed =>
    if s.resolver = .opening then some ({ s with resolver := .over }.chain .drain) else none
  | .close => some s.abandonInboundMessages

/-- The messages that wait for their turn, in order: those that a task dispatches next, those
    that were queued, and those in the chain. -/
def waiting (s : InboundSession μ) : List ℕ :=
  s.tasks.flatMap ChainTask.rest ++ (s.messageQueue ++ s.tasks.filterMap ChainTask.queuedWork)

def dispatching (s : InboundSession μ) : List ℕ := s.tasks.filterMap ChainTask.current

/-- The messages of the current generation that were admitted and are not finished. -/
def unfinished (s : InboundSession μ) : List ℕ :=
  (s.dispatching ++ s.waiting).filter fun n =>
    (s.admissions[n]?).any (·.generation = s.accountingGeneration)

/-- The messages that could be decoded, in the order of their arrival. -/
def arrived (s : InboundSession μ) : List ℕ :=
  (List.range s.admissions.length).filter fun n => (s.admissions[n]?).any (·.message.isSome)

/-- The bytes that a message was admitted with. -/
def bytesOf (s : InboundSession μ) (n : ℕ) : ℕ := ((s.admissions[n]?).map (·.byteLength)).getD 0

/-- What is asked of every state. -/
structure Sound (limits : InboundQueueLimits) (s : InboundSession μ) : Prop where
  messages : s.pendingMessages = s.unfinished.length
  bytes : s.pendingBytes = (s.unfinished.map s.bytesOf).sum
  messagesBounded : 0 ≤ s.pendingMessages ∧ s.pendingMessages ≤ limits.maxMessages
  bytesBounded : 0 ≤ s.pendingBytes ∧ s.pendingBytes ≤ limits.maxBytes
  oneAtATime : s.dispatching.length ≤ 1
  /-- what was dispatched is a beginning of what arrived -/
  inOrder : s.dispatched <+: s.arrived
  /-- while the session is open the rest waits for its turn -/
  complete : s.inboundClosed = false → s.dispatched ++ s.waiting = s.arrived
  /-- a task that has not settled can begin, or what it dispatches can end -/
  progress : (∃ task ∈ s.tasks, task.state ≠ .settled) →
    ∃ i, (s.step limits (.start i)).isSome ∨ (s.step limits (.finish i false)).isSome
  /-- when the handler is resolved and all tasks have settled, no message waits -/
  exhausted : s.inboundClosed = false → s.resolver = .over →
    (∀ task ∈ s.tasks, task.state = .settled) → s.waiting = []

end InboundSession

end Velocious.InboundAdmission
