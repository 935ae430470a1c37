/-
  The local in-process dispatcher (src/background-jobs/local-dispatcher.js), over the local store.

  A step is a call on the dispatcher, the end of a job's performance, the elapse of a timer, or
  the settling of what an asynchronous function awaits, with the code up to its next `await`.

  * A store call takes effect and settles in one step. It may throw before it takes effect, and an
    acknowledgement, or the recovery at a start, also after (`CallOutcome`).
  * What a performance runs once it is acknowledged, up to its `finally`, is one step: no other
    callback can be called between.
  * `enqueue` is an enqueue that is committed, with the wake that follows its commit.
  * `log` and `accepted` are the history of the dispatcher, which it does not read.
-/
import Velocious.Foundation.EntryMap
import Velocious.Foundation.Machine
import Velocious.BackgroundJobs.LocalStore.Leases

namespace Velocious.LocalDispatcher

open Foundation LocalStore

/-! ## The state -/

/-- `LocalBackgroundJobAcknowledgement` -/
inductive Acknowledgement where
  | completed
  | failed (error : JobError)
  | rescheduled (delayMs : JsNumber)

/-- `PendingLocalBackgroundJobAcknowledgement` -/
structure PendingAcknowledgement where
  acknowledgement : Acknowledgement
  handoff : Handoff
  job : JobRow

/-- A promise of `_perform`. -/
structure Performance where
  handoff : Handoff
  job : JobRow
  /-- the acknowledgement that is awaited, once the job was performed -/
  acknowledgement : Option Acknowledgement

/-- What a drain awaits. -/
inductive DrainStage where
  | queued
  | retrying (rest : List PendingAcknowledgement)
  | looking
  | claiming (job : JobRow)
  /-- `nextScheduledJob`; `lookedAt` is when the drain found no available job -/
  | arming (lookedAt : Option ℤ)

/-- A running drain. -/
structure Drain where
  id : ℕ
  stage : DrainStage

/-- What a start awaits. -/
inductive StartStage where
  | initializing
  | reconciling
  | recovering

/-- What a stop awaits. -/
inductive StopStage where
  | drain (id : ℕ)
  | performances (handoffIds : List String)
  | retrying (rest : List PendingAcknowledgement)

/-- What happened. -/
inductive DispatchEvent where
  | startCalled
  | stopResolved
  | claimed (handoffId : String)
  | performed (handoffId : String)

/-- A dispatcher over its store. -/
structure World where
  accepting : Bool
  started : Bool
  startPromise : Option StartStage
  drainPromise : Option Drain
  redrain : Bool
  wakeQueued : Bool
  inFlight : List Performance
  pendingAcknowledgements : EntryMap String PendingAcknowledgement
  idleWaiters : ℕ
  scheduledTimer : Option ℤ
  recoveryTimer : Option ℤ
  drains : ℕ
  stops : List StopStage
  now : ℤ
  store : Db
  log : List DispatchEvent
  /-- the handoffs whose acknowledgement took effect or was answered -/
  accepted : List String

/-- What the dispatcher is configured with. -/
structure Configuration where
  maxConcurrentInlineJobs : ℕ
  queues : Queues
  queuePriority : String → ℚ
  sha256 : String → String

def maxTimerMs : ℤ := 2147483647
def errorRecoveryDelayMs : ℤ := 1000

/-- How a call settles. -/
inductive CallOutcome where
  | answers
  | throws
  | throwsAfterEffect
  deriving DecidableEq

/-- What can happen. -/
inductive DispatchAction where
  | enqueue (input : EnqueueInput) (dbOrder : String → ℕ)
  | wake
  | start
  | startStep (outcome : CallOutcome) (stack : String) (dbOrder : String → ℕ)
  | stop
  | stopStep (i : ℕ) (outcome : CallOutcome)
  | waitForIdle
  /-- what the drain awaits settles; `handoffId` is the identifier a claim generates -/
  | drainStep (outcome : CallOutcome) (handoffId : String)
  | performed (i : ℕ) (acknowledgement : Acknowledgement)
  | acknowledged (i : ℕ) (outcome : CallOutcome)
  | scheduledTimer
  | recoveryTimer
  | tick (ms : ℕ)

namespace World

/-- A dispatcher that was just created, over a store. -/
def init (store : Db) (now : ℤ) : World where
  accepting := false
  started := false
  startPromise := none
  drainPromise := none
  redrain := false
  wakeQueued := false
  inFlight := []
  pendingAcknowledgements := .empty
  idleWaiters := 0
  scheduledTimer := none
  recoveryTimer := none
  drains := 0
  stops := []
  now
  store
  log := []
  accepted := []

/-! ## Waking -/

def isIdle (w : World) : Bool :=
  !w.wakeQueued && w.drainPromise.isNone && w.inFlight.isEmpty &&
    w.pendingAcknowledgements.values.isEmpty

def resolveIdleWaiters (w : World) : World :=
  { w with idleWaiters := if w.isIdle then 0 else w.idleWaiters }

def wake (w : World) : World :=
  if !w.accepting then w
  else if w.drainPromise.isSome || w.wakeQueued then { w with redrain := true }
  else { w with
    wakeQueued := true
    drainPromise := some ⟨w.drains, .queued⟩
    drains := w.drains + 1 }

def endDrain (w : World) : World :=
  if w.redrain && w.accepting then
    { w with drainPromise := none, redrain := false }.wake
  else { w with drainPromise := none }.resolveIdleWaiters

def armRecoveryTimer (w : World) : World :=
  if !w.accepting || w.recoveryTimer.isSome then w
  else { w with recoveryTimer := some (w.now + errorRecoveryDelayMs) }

def failDrain (w : World) : World := w.armRecoveryTimer.endDrain

def setStage (w : World) (stage : DrainStage) : World :=
  { w with drainPromise := w.drainPromise.map fun drain => { drain with stage } }

/-- The store call of `_acknowledge`. -/
def acknowledgeTx (w : World) (jobId handoffId : String) : Acknowledgement → Tx
  | .completed => .markCompleted jobId (some handoffId) w.now
  | .failed error => .markFailed jobId (some handoffId) error w.now
  | .rescheduled delayMs => .markRescheduled jobId (some handoffId) delayMs w.now

/-- `_acknowledge`: whether it returns, and the state after it. -/
def acknowledge (c : Configuration) (w : World) (e : PendingAcknowledgement)
    (outcome : CallOutcome) : Bool × World :=
  if outcome = .throws then (false, w)
  else match (w.acknowledgeTx e.job.id e.handoff.handoffId e.acknowledgement).exec c.sha256
      w.store with
    | (.error _, _) => (false, w)
    | (.ok _, store) =>
      (outcome = .answers, { w with store, accepted := w.accepted ++ [e.handoff.handoffId] })

def deleteAcknowledgement (w : World) (jobId : String) : World :=
  { w with pendingAcknowledgements := w.pendingAcknowledgements.delete jobId }

/-! ## Draining -/

def ownedPerformanceCount (w : World) : ℕ :=
  w.inFlight.length + w.pendingAcknowledgements.values.length

/-- `_armScheduledTimer`, up to its query. -/
def armScheduledTimer (w : World) (lookedAt : Option ℤ) : World :=
  let w := { w with scheduledTimer := none }
  if w.accepting then w.setStage (.arming lookedAt) else w.endDrain

/-- The `while` of `_drain`. -/
def loop (c : Configuration) (w : World) : World :=
  if w.accepting && w.ownedPerformanceCount < c.maxConcurrentInlineJobs then w.setStage .looking
  else w.armScheduledTimer none

/-- A pass of `_drain` over the acknowledgements it has left. -/
def retryAcknowledgements (c : Configuration) (w : World) : List PendingAcknowledgement → World
  | [] => w.loop c
  | e :: rest => w.setStage (.retrying (e :: rest))

def startPerformance (w : World) (handoff : Handoff) (job : JobRow) : World :=
  { w with
    inFlight := w.inFlight ++ [⟨handoff, job, none⟩]
    log := w.log ++ [.performed handoff.handoffId] }

/-- A claim was granted, and its job begins to run. -/
def granted (w : World) (store : Db) (handoff : Handoff) (job : JobRow) : World :=
  { w with
    store
    log := w.log ++ [DispatchEvent.claimed handoff.handoffId] }.startPerformance handoff job

/-- `nextAvailableJob` settles. -/
def looked (c : Configuration) (w : World) (outcome : CallOutcome) : World :=
  if outcome = .answers then
    match (commit (nextAvailableJob c.queuePriority w.now) w.store).1 with
    | .error _ => w.failDrain
    | .ok none => w.armScheduledTimer (some w.now)
    | .ok (some job) => w.setStage (.claiming job)
  else w.failDrain

/-- `markHandedOff` settles. -/
def claimed (c : Configuration) (w : World) (job : JobRow) (outcome : CallOutcome)
    (handoffId : String) : World :=
  if outcome = .answers then
    match (Tx.markHandedOff job.id handoffId none w.now w.now).exec c.sha256 w.store with
    | (.ok (.handoff (some handoff)), store) =>
      (w.granted store handoff job).loop c
    | (.ok _, store) => { w with store, redrain := true }.armScheduledTimer none
    | (.error _, _) => w.failDrain
  else w.failDrain

/-- `nextScheduledJob` settles. -/
def armed (w : World) (outcome : CallOutcome) : World :=
  if outcome = .answers then
    match (commit (nextScheduledJob w.now) w.store).1 with
    | .error _ => w.failDrain
    | .ok none => w.endDrain
    | .ok (some nextJob) =>
      let delayMs := max 0 (min (nextJob.scheduledAtMs - w.now) maxTimerMs)
      { w with scheduledTimer := some (w.now + delayMs) }.endDrain
  else w.failDrain

/-- What the drain awaits settles. -/
def drainStep (c : Configuration) (w : World) (outcome : CallOutcome) (handoffId : String) :
    DrainStage → World
  | .queued =>
    { w with wakeQueued := false }.retryAcknowledgements c w.pendingAcknowledgements.values
  | .retrying [] => w.loop c
  | .retrying (e :: rest) =>
    match w.acknowledge c e outcome with
    | (true, w') => (w'.deleteAcknowledgement e.job.id).retryAcknowledgements c rest
    | (false, w') => w'.armRecoveryTimer.retryAcknowledgements c rest
  | .looking => w.looked c outcome
  | .claiming job => w.claimed c job outcome handoffId
  | .arming _ => w.armed outcome

/-- The end of `_perform`, and the `finally` of `_startPerformance`. -/
def settlePerformance (c : Configuration) (w : World) (i : ℕ) (p : Performance)
    (acknowledgement : Acknowledgement) (outcome : CallOutcome) : World :=
  let e : PendingAcknowledgement := ⟨acknowledgement, p.handoff, p.job⟩
  match w.acknowledge c e outcome with
  | (true, w') => { w' with inFlight := w'.inFlight.eraseIdx i }.wake.resolveIdleWaiters
  | (false, w') =>
    { w' with
      inFlight := w'.inFlight.eraseIdx i
      pendingAcknowledgements :=
        w'.pendingAcknowledgements.set p.job.id e }.wake.resolveIdleWaiters

/-! ## Starting and stopping -/

/-- What a start awaits settles. -/
def startStep (c : Configuration) (w : World) (outcome : CallOutcome) (stack : String)
    (dbOrder : String → ℕ) : StartStage → World
  | .initializing =>
    { w with startPromise := if outcome = .answers then some .reconciling else none }
  | .reconciling =>
    match (Tx.reconcileQueueConcurrency c.queues dbOrder).exec c.sha256 w.store with
    | (.ok _, store) =>
      match outcome with
      | .answers => { w with store, startPromise := some .recovering }
      | .throwsAfterEffect => { w with store, startPromise := none }
      | .throws => { w with startPromise := none }
    | (.error _, _) => { w with startPromise := none }
  | .recovering =>
    match (Tx.recoverHandedOffJobs c.queues stack (fun _ => w.now) dbOrder).exec c.sha256
        w.store with
    | (.ok _, store) =>
      match outcome with
      | .answers =>
        { w with store, accepting := true, started := true, startPromise := none }.wake
      | .throwsAfterEffect => { w with store, startPromise := none }
      | .throws => { w with startPromise := none }
    | (.error _, _) => { w with startPromise := none }

/-- What a stop awaits once no drain is left. -/
def stopPerformances (w : World) : StopStage :=
  if w.inFlight.isEmpty then .retrying w.pendingAcknowledgements.values
  else .performances (w.inFlight.map fun p => p.handoff.handoffId)

/-- `stop`, up to its first `await`. -/
def stop (w : World) : World :=
  { w with
    accepting := false
    redrain := false
    scheduledTimer := none
    recoveryTimer := none
    stops := w.stops ++ [match w.drainPromise with
      | some drain => .drain drain.id
      | none => w.stopPerformances] }

/-- The end of `stop`. -/
def stopped (w : World) (i : ℕ) : World :=
  { w with
    wakeQueued := false
    started := false
    stops := w.stops.eraseIdx i
    log := w.log ++ [DispatchEvent.stopResolved] }.resolveIdleWaiters

def setStop (w : World) (i : ℕ) (stage : StopStage) : World :=
  { w with stops := w.stops.set i stage }

/-- What the `i`-th stop awaits settles. -/
def stopStep (c : Configuration) (w : World) (i : ℕ) (outcome : CallOutcome) :
    StopStage → Option World
  | .drain id =>
    if w.drainPromise.any (·.id = id) then none else some (w.setStop i w.stopPerformances)
  | .performances handoffIds =>
    if w.inFlight.any fun p => p.handoff.handoffId ∈ handoffIds then none
    else some (w.setStop i (.retrying w.pendingAcknowledgements.values))
  | .retrying [] => some (w.stopped i)
  | .retrying (e :: rest) =>
    match w.acknowledge c e outcome with
    | (true, w') => some ((w'.deleteAcknowledgement e.job.id).setStop i (.retrying rest))
    -- it rethrows, and the stop rejects
    | (false, w') => some { w' with stops := w'.stops.eraseIdx i }

/-- `start`, up to its first `await`. -/
def start (w : World) : World :=
  let w := { w with log := w.log ++ [.startCalled] }
  if w.started || w.startPromise.isSome then w
  else { w with startPromise := some .initializing }

/-- The handoffs that were claimed, in order. -/
def claims (w : World) : List String :=
  w.log.filterMap fun
    | .claimed handoffId => some handoffId
    | _ => none

/-- The handoffs whose jobs were run, in order. -/
def performances (w : World) : List String :=
  w.log.filterMap fun
    | .performed handoffId => some handoffId
    | _ => none

def elapsed (w : World) (timer : Option ℤ) : Bool := timer.any fun at' => at' ≤ w.now

def step (c : Configuration) (w : World) : DispatchAction → Option World
  | .enqueue input dbOrder =>
    match (Tx.enqueue { input with createdAtMs := w.now, queues := c.queues } dbOrder).exec c.sha256
        w.store with
    | (.ok _, store) => some { w with store }.wake
    | (.error _, _) => some w
  | .wake => some w.wake
  | .start => some w.start
  | .startStep outcome stack dbOrder => w.startPromise.map (w.startStep c outcome stack dbOrder)
  | .stop => some w.stop
  | .stopStep i outcome => w.stops[i]?.bind (w.stopStep c i outcome)
  | .waitForIdle =>
    some (if w.isIdle then w else { w with idleWaiters := w.idleWaiters + 1 })
  | .drainStep outcome handoffId =>
    -- identifiers are not generated twice
    if handoffId ∈ w.claims then none
    else w.drainPromise.map fun drain => w.drainStep c outcome handoffId drain.stage
  | .performed i acknowledgement =>
    match w.inFlight[i]? with
    | some ⟨handoff, job, none⟩ =>
      some { w with inFlight := w.inFlight.set i ⟨handoff, job, some acknowledgement⟩ }
    | _ => none
  | .acknowledged i outcome =>
    match w.inFlight[i]? with
    | some ⟨handoff, job, some acknowledgement⟩ =>
      some (w.settlePerformance c i ⟨handoff, job, some acknowledgement⟩ acknowledgement outcome)
    | _ => none
  | .scheduledTimer =>
    if w.elapsed w.scheduledTimer then some { w with scheduledTimer := none }.wake else none
  | .recoveryTimer =>
    if w.elapsed w.recoveryTimer then some { w with recoveryTimer := none }.wake else none
  | .tick ms => some { w with now := w.now + ms }

end World

end Velocious.LocalDispatcher
