/-
  Subscribing and unsubscribing the realtime bridge (`subscribe`, `_subscribe` and
  `unsubscribe` in src/sync/sync-realtime-bridge.js, `subscribeUserScope`,
  `_subscribeUserScope` and `unsubscribeUserScope` in src/sync/sync-client.js).

  Everything a call awaits is settled in a step of its own, resolved or rejected, and
  the steps of different calls mix freely. A promise and its `finally` are two steps.

  * `opened` is a history variable: the attempts whose channel subscriptions are open.
  * A subscribe loop that throws half way closes what it opened before anything else
    happens, so it opens nothing; it counts as a token that is rejected.
  * `assertTenantReady` fails, where it does, before the bridge is entered.
  * `disconnectAndStopReconnect` may be rejected, also where there is no client to
    disconnect; that of a shared connection is not called.
  * Closing a subscription does not throw, and what the messages of a channel do is
    left out.
-/
import Velocious.Foundation.Machine

namespace Velocious

open Foundation

/-- `_state` and `_userScopeState`. -/
inductive SubscriptionFlag where
  | subscribed
  | subscribing
  | unsubscribed
  deriving DecidableEq

/-! ## The bridge -/

/-- What `_subscribe` awaits. -/
inductive SubscribeStage where
  | channelDescriptors
  | createClient
  | connect
  | authenticationToken
  | waitForReady
  | teardown (failed : Bool)
  | settled (resolved : Bool)
  deriving DecidableEq

/-- A run of `_subscribe`. -/
structure SubscribeAttempt where
  id : ℕ
  generation : ℕ
  stage : SubscribeStage
  deriving DecidableEq

/-- The state of a bridge. -/
structure SubscriptionBridge where
  state : SubscriptionFlag
  generation : ℕ
  channels : Option ℕ
  attempt : Option SubscribeAttempt
  nextAttempt : ℕ
  outcome : ℕ → Option Bool
  opened : List ℕ

namespace SubscriptionBridge

def initial : SubscriptionBridge := ⟨.unsubscribed, 0, none, none, 0, fun _ => none, []⟩

/-- `subscribe`, and the attempt it awaits. -/
def subscribe (b : SubscriptionBridge) : SubscriptionBridge × Option ℕ :=
  if b.state = .subscribed then (b, none)
  else
    match b.attempt with
    | some attempt => (b, some attempt.id)
    | none =>
      ({ b with
        state := .subscribing
        attempt := some ⟨b.nextAttempt, b.generation, .channelDescriptors⟩
        nextAttempt := b.nextAttempt + 1 }, some b.nextAttempt)

/-- `unsubscribe`, up to where it awaits `disconnectAndStopReconnect`. -/
def unsubscribe (b : SubscriptionBridge) : SubscriptionBridge :=
  { b with
    generation := b.generation + 1, channels := none, state := .unsubscribed
    opened := b.opened.filter fun a => some a ≠ b.channels }

def setStage (b : SubscriptionBridge) (attempt : SubscribeAttempt) (stage : SubscribeStage) :
    SubscriptionBridge :=
  { b with attempt := some { attempt with stage } }

/-- `teardown`, up to where it awaits `disconnectAndStopReconnect`. -/
def startTeardown (b : SubscriptionBridge) (attempt : SubscribeAttempt) (failed : Bool) :
    SubscriptionBridge :=
  { b.setStage attempt (.teardown failed) with opened := b.opened.filter (· ≠ attempt.id) }

/-- What `_subscribe` awaits is settled. -/
def continueSubscribe (shared : Bool) (b : SubscriptionBridge) (attempt : SubscribeAttempt)
    (resolved : Bool) : Option SubscriptionBridge :=
  let stale := attempt.generation ≠ b.generation
  let next (stage : SubscribeStage) : SubscriptionBridge :=
    if !resolved then b.startTeardown attempt true
    else if stale then b.startTeardown attempt false
    else b.setStage attempt stage
  match attempt.stage with
  | .channelDescriptors =>
    if !resolved then some (b.startTeardown attempt true)
    else if stale then some (b.setStage attempt (.settled true))
    else some (b.setStage attempt (if shared then .connect else .createClient))
  | .createClient => some (next .connect)
  | .connect => some (next .authenticationToken)
  | .authenticationToken =>
    if resolved && !stale then
      some { b.setStage attempt .waitForReady with opened := b.opened ++ [attempt.id] }
    else some (next .waitForReady)
  | .waitForReady =>
    if resolved && !stale then
      some { b.setStage attempt (.settled true) with
        channels := some attempt.id, state := .subscribed }
    else some (next .waitForReady)
  | .teardown failed =>
    if !resolved then
      if shared then none
      -- the `catch` tears down once more
      else some (b.setStage attempt (if failed then .settled false else .teardown true))
    else if failed then
      some { b.setStage attempt (.settled false) with
        state := if stale then b.state else .unsubscribed }
    else some (b.setStage attempt (.settled true))
  | .settled _ => none

/-- The `finally` of `_subscribePromise`. -/
def clearSubscribe (b : SubscriptionBridge) : Option SubscriptionBridge :=
  match b.attempt with
  | some ⟨id, _, .settled resolved⟩ =>
    some { b with
      attempt := none, outcome := fun a => if a = id then some resolved else b.outcome a }
  | _ => none

end SubscriptionBridge

/-! ## The sync client -/

/-- What `_subscribeUserScope` awaits. -/
inductive UserScopeStage where
  | userScope
  | findOrCreateScope
  | subscribeRealtime (attempt : Option ℕ)
  | pull
  | settled (resolved : Bool)
  | done (resolved : Bool)
  deriving DecidableEq

/-- What is called. -/
inductive SubscriptionCallKind where
  | subscribe
  | unsubscribe
  | subscribeUserScope
  | unsubscribeUserScope
  deriving DecidableEq

/-- What a call awaits. -/
inductive SubscriptionCallStage where
  | attempt (id : ℕ)
  | userScopeRun (run : ℕ)
  | userScope
  | deactivate
  | disconnect
  | settled (resolved : Bool)
  deriving DecidableEq

/-- A call, and what it awaits. -/
structure SubscriptionCall where
  kind : SubscriptionCallKind
  stage : SubscriptionCallStage
  deriving DecidableEq

/-- A client and its bridge. -/
structure SubscriptionWorld where
  shared : Bool
  bridge : SubscriptionBridge
  userScopeState : SubscriptionFlag
  subscribeUserScopePromise : Option ℕ
  runs : List UserScopeStage
  calls : List SubscriptionCall

/-- What can happen. -/
inductive SubscriptionAction where
  | subscribe (tenantReady : Bool)
  | unsubscribe
  | subscribeUserScope
  | unsubscribeUserScope
  | continueSubscribe (resolved : Bool)
  | clearSubscribe
  | continueRun (run : ℕ) (resolved : Bool)
  | clearRun (run : ℕ)
  | continueCall (call : ℕ) (resolved : Bool)
  deriving DecidableEq

namespace SubscriptionWorld

def initial (shared : Bool) : SubscriptionWorld :=
  ⟨shared, .initial, .unsubscribed, none, [], []⟩

def addCall (w : SubscriptionWorld) (kind : SubscriptionCallKind)
    (stage : SubscriptionCallStage) : SubscriptionWorld :=
  { w with calls := w.calls ++ [⟨kind, stage⟩] }

def setCall (w : SubscriptionWorld) (call : ℕ) (stage : SubscriptionCallStage) :
    SubscriptionWorld :=
  { w with calls := w.calls.modify call fun c => { c with stage } }

def setRun (w : SubscriptionWorld) (run : ℕ) (stage : UserScopeStage) : SubscriptionWorld :=
  { w with runs := w.runs.set run stage }

def subscribe (w : SubscriptionWorld) (tenantReady : Bool) : SubscriptionWorld :=
  if !tenantReady then w.addCall .subscribe (.settled false)
  else
    match w.bridge.subscribe with
    | (bridge, none) => { w with bridge }.addCall .subscribe (.settled true)
    | (bridge, some attempt) => { w with bridge }.addCall .subscribe (.attempt attempt)

def subscribeUserScope (w : SubscriptionWorld) : SubscriptionWorld :=
  if w.userScopeState = .subscribed then w.addCall .subscribeUserScope (.settled true)
  else
    match w.subscribeUserScopePromise with
    | some run => w.addCall .subscribeUserScope (.userScopeRun run)
    | none =>
      { w with
        userScopeState := .subscribing, subscribeUserScopePromise := some w.runs.length
        runs := w.runs ++ [UserScopeStage.userScope] }.addCall .subscribeUserScope
          (.userScopeRun w.runs.length)

/-- `_subscribeUserScope` goes on. -/
def continueRun (w : SubscriptionWorld) (run : ℕ) (resolved : Bool) : Option SubscriptionWorld :=
  w.runs[run]?.bind fun stage =>
    match stage with
    | .userScope =>
      some (w.setRun run (if resolved then .findOrCreateScope else .settled false))
    | .findOrCreateScope =>
      if resolved then
        let (bridge, attempt) := w.bridge.subscribe
        some ({ w with bridge }.setRun run (.subscribeRealtime attempt))
      else some (w.setRun run (.settled false))
    | .subscribeRealtime none => some (w.setRun run .pull)
    | .subscribeRealtime (some attempt) =>
      (w.bridge.outcome attempt).map fun subscribed =>
        w.setRun run (if subscribed then .pull else .settled false)
    | .pull =>
      if resolved then some ({ w with userScopeState := .subscribed }.setRun run (.settled true))
      else some (w.setRun run (.settled false))
    | .settled _ | .done _ => none

/-- The `finally` of `_subscribeUserScopePromise`. -/
def clearRun (w : SubscriptionWorld) (run : ℕ) : Option SubscriptionWorld :=
  match w.runs[run]? with
  | some (.settled resolved) =>
    some ({ w with subscribeUserScopePromise := none }.setRun run (.done resolved))
  | _ => none

/-- A call goes on. -/
def continueCall (w : SubscriptionWorld) (call : ℕ) (resolved : Bool) : Option SubscriptionWorld :=
  w.calls[call]?.bind fun c =>
    match c.stage with
    | .attempt attempt =>
      (w.bridge.outcome attempt).map fun subscribed => w.setCall call (.settled subscribed)
    | .userScopeRun run =>
      match w.runs[run]? with
      | some (.done subscribed) => some (w.setCall call (.settled subscribed))
      | _ => none
    | .userScope => some (w.setCall call (if resolved then .deactivate else .settled false))
    | .deactivate =>
      if resolved then some ({ w with bridge := w.bridge.unsubscribe }.setCall call .disconnect)
      else some (w.setCall call (.settled false))
    | .disconnect =>
      if !resolved then
        if w.shared then none else some (w.setCall call (.settled false))
      else if c.kind = .unsubscribeUserScope then
        some ({ w with
          userScopeState := .unsubscribed, subscribeUserScopePromise := none }.setCall call
            (.settled true))
      else some (w.setCall call (.settled true))
    | .settled _ => none

def step (w : SubscriptionWorld) : SubscriptionAction → Option SubscriptionWorld
  | .subscribe tenantReady => some (w.subscribe tenantReady)
  | .unsubscribe =>
    some ({ w with bridge := w.bridge.unsubscribe }.addCall .unsubscribe .disconnect)
  | .subscribeUserScope => some w.subscribeUserScope
  | .unsubscribeUserScope => some (w.addCall .unsubscribeUserScope .userScope)
  | .continueSubscribe resolved =>
    w.bridge.attempt.bind fun attempt =>
      (w.bridge.continueSubscribe w.shared attempt resolved).map fun bridge => { w with bridge }
  | .clearSubscribe => w.bridge.clearSubscribe.map fun bridge => { w with bridge }
  | .continueRun run resolved => w.continueRun run resolved
  | .clearRun run => w.clearRun run
  | .continueCall call resolved => w.continueCall call resolved

end SubscriptionWorld

/-! ## What is asked of it -/

def SubscriptionCallKind.subscribes : SubscriptionCallKind → Bool
  | .subscribe | .subscribeUserScope => true
  | .unsubscribe | .unsubscribeUserScope => false

namespace SubscriptionWorld

/-- No unsubscribe was called since this call. -/
def Fresh (w : SubscriptionWorld) (call : ℕ) : Prop :=
  ∀ i c, call < i → w.calls[i]? = some c → c.kind.subscribes = true

/-- All promises that were returned have settled. -/
def Quiescent (w : SubscriptionWorld) : Prop :=
  ∀ c ∈ w.calls, ∃ resolved, c.stage = .settled resolved

/-- The last call was a subscribe that resolved. -/
def LastSubscribed (w : SubscriptionWorld) : Prop :=
  ∃ c, w.calls.getLast? = some c ∧ c.kind.subscribes = true ∧ c.stage = .settled true

/-- The bridge has one set of channel subscriptions, and no other is open. -/
def Subscribed (w : SubscriptionWorld) : Prop :=
  w.bridge.state = .subscribed ∧ ∃ a, w.bridge.channels = some a ∧ w.bridge.opened = [a]

def Unsubscribed (w : SubscriptionWorld) : Prop :=
  w.bridge.state ≠ .subscribed ∧ w.bridge.opened = []

/-- What is asked of it. -/
structure Honoured (w : SubscriptionWorld) : Prop where
  /-- a subscribe that resolved, with no later unsubscribe, leaves the bridge subscribed -/
  resolved : ∀ i c, w.calls[i]? = some c → c.kind.subscribes = true → w.Fresh i →
    c.stage = .settled true → w.bridge.state = .subscribed
  subscribed : w.Quiescent → w.LastSubscribed → w.Subscribed
  unsubscribed : w.Quiescent → ¬ w.LastSubscribed → w.Unsubscribed

end SubscriptionWorld

/-! ## Steps that undo what was asked for -/

def SubscribeStage.goes : SubscribeStage → Bool
  | .channelDescriptors | .createClient | .connect | .authenticationToken | .waitForReady => true
  | .teardown _ | .settled _ => false

def SubscribeStage.fails : SubscribeStage → Bool
  | .teardown true | .settled false => true
  | _ => false

namespace SubscriptionBridge

def Live (b : SubscriptionBridge) : Prop :=
  b.state = .subscribed ∨
    ∃ attempt, b.attempt = some attempt ∧ attempt.generation = b.generation ∧
      attempt.stage.goes = true

/-- No attempt is in flight that an `unsubscribe` has made stale. -/
def NoStale (b : SubscriptionBridge) : Prop :=
  ∀ attempt, b.attempt = some attempt → b.state ≠ .subscribed →
    attempt.generation = b.generation

def Sound (b : SubscriptionBridge) (a : ℕ) : Prop :=
  (∀ attempt, b.attempt = some attempt → attempt.id = a →
      attempt.generation = b.generation ∨ attempt.stage.fails = true) ∧
    (b.outcome a = some true → b.state = .subscribed)

def Counts (b : SubscriptionBridge) (a : ℕ) : Prop :=
  (∃ attempt, b.attempt = some attempt ∧ attempt.id = a ∧ attempt.stage.fails = false) ∨
    b.outcome a = some true

/-- If this run goes well, the bridge is subscribed. -/
def SoundRun (b : SubscriptionBridge) : UserScopeStage → Prop
  | .userScope | .findOrCreateScope | .settled false | .done false => True
  | .subscribeRealtime (some attempt) => b.Sound attempt
  | .subscribeRealtime none | .pull | .settled true | .done true => b.state = .subscribed

/-- The run has entered the bridge, and may go well. -/
def CountsRun (b : SubscriptionBridge) : UserScopeStage → Prop
  | .userScope | .findOrCreateScope | .settled false | .done false => False
  | .subscribeRealtime (some attempt) => b.Counts attempt
  | .subscribeRealtime none | .pull | .settled true | .done true => True

end SubscriptionBridge

/-- An unsubscribe that has taken effect, or a call that was rejected. -/
def SubscriptionCall.Spent (c : SubscriptionCall) : Prop :=
  c.stage = .settled false ∨
    c.kind.subscribes = false ∧ (c.stage = .disconnect ∨ c.stage = .settled true)

namespace SubscriptionWorld

/-- The call has entered the bridge, and may resolve. -/
def Counts (w : SubscriptionWorld) : SubscriptionCallStage → Prop
  | .attempt attempt => w.bridge.Counts attempt
  | .userScopeRun run => ∃ stage, w.runs[run]? = some stage ∧ w.bridge.CountsRun stage
  | .settled resolved => resolved = true
  | .userScope | .deactivate | .disconnect => False

/-- The last call is such a call. -/
def Spent (w : SubscriptionWorld) : Prop :=
  ∀ c, w.calls.getLast? = some c → c.Spent

/-- The call is rejected when what it awaits is settled. -/
def Rejects (w : SubscriptionWorld) (resolved : Bool) : SubscriptionCallStage → Prop
  | .attempt attempt => w.bridge.outcome attempt = some false
  | .userScopeRun run => w.runs[run]? = some (.done false)
  | .userScope | .deactivate | .disconnect => resolved = false
  | .settled _ => False

/-- The step undoes nothing that was asked for since. -/
def Respects (w : SubscriptionWorld) : SubscriptionAction → Prop
  -- it joins no stale attempt
  | .subscribe tenantReady => if tenantReady then w.bridge.NoStale else ¬ w.bridge.Live
  -- its flag and the run it joins say the truth about the bridge
  | .subscribeUserScope =>
    if w.userScopeState = .subscribed then w.bridge.state = .subscribed
    else ∀ run stage, w.subscribeUserScopePromise = some run → w.runs[run]? = some stage →
      w.bridge.SoundRun stage
  -- it does not enter the bridge after a later unsubscribe, or to join a stale attempt
  | .continueRun run resolved =>
    w.runs[run]? = some .findOrCreateScope → resolved = true →
      ¬ w.Spent ∧
        ((∃ i c, w.calls[i]? = some c ∧ c.kind.subscribes = true ∧ w.Fresh i ∧
          c.stage = .userScopeRun run) → w.bridge.NoStale)
  | .continueCall call resolved =>
    ∀ c, w.calls[call]? = some c →
      -- it does not unsubscribe what a later subscribe counts on
      (c.stage = .deactivate → resolved = true → ∀ i d, w.calls[i]? = some d →
        d.kind.subscribes = true → w.Fresh i → ¬ w.Counts d.stage) ∧
      -- the last call is not rejected while the bridge is subscribed, or on its way to be
      (call + 1 = w.calls.length → w.Rejects resolved c.stage → ¬ w.bridge.Live)
  | .unsubscribe | .unsubscribeUserScope | .continueSubscribe _ | .clearSubscribe
  | .clearRun _ => True

end SubscriptionWorld

end Velocious
