/-
  Nested transactions on one driver connection (`transaction` of src/database/drivers/base.js).

  The outermost call begins a transaction, a nested one a savepoint; each has a frame of callbacks.
  `exec` is what the driver does with its count, its savepoints and its frames, for a callback that
  is the list of what it does. `Stmt.effect` says what such a callback means and knows none of
  these: a call that is not completed leaves nothing, and the callbacks of a completed one belong
  to its caller. `transaction_refines`: they agree, over every retry of the outermost call.

  Left out: a database that rolls the whole transaction back on its own, after which `RELEASE` finds
  no savepoint and its error is ignored.
-/
import Velocious.Foundation.Savepoints

namespace Velocious.NestedTransactions

open Foundation List

variable {σ κ : Type}

/-! ## The driver -/

/-- A callback of `afterCommit`. -/
structure Callback (κ : Type) where
  id : κ
  throws : Bool

/-- A callback of `beforeCommit`: what it writes, and whether it accepts the commit. -/
structure Guard (σ : Type) where
  write : σ → σ
  accepts : Bool

/-- `TransactionCallbackFrame` -/
structure Frame (σ κ : Type) where
  beforeCommitCallbacks : List (Guard σ) := []
  afterCommitCallbacks : List (Callback κ) := []

/-- What the database refuses in one attempt. -/
structure Faults where
  /-- BEGIN or SAVEPOINT -/
  start : Bool := false
  /-- RELEASE or COMMIT -/
  finish : Bool := false
  /-- ROLLBACK TO, and whether the message of the error names the savepoint -/
  rollbackSavePoint : Option Bool := none
  rollback : Bool := false

/-- A connection of the driver. -/
structure Connection (σ κ : Type) where
  db : Savepoints σ
  transactionsCount : ℤ := 0
  transactionCallbackFrames : List (Frame σ κ) := []
  /-- the savepoint names that were generated -/
  savePoints : ℕ := 0
  /-- the callbacks that were run after a commit, in order -/
  ran : List κ := []

namespace Connection

def startTransaction (fails : Bool) (c : Connection σ κ) : Option (Connection σ κ) :=
  if fails then none else c.db.startTransaction?.map fun db =>
    { c with db, transactionsCount := c.transactionsCount + 1 }

def startSavePoint (name : ℕ) (fails : Bool) (c : Connection σ κ) : Option (Connection σ κ) :=
  if fails then none else (c.db.savepoint? name).map fun db => { c with db }

def commitTransaction (fails : Bool) (c : Connection σ κ) : Option (Connection σ κ) :=
  if fails then none else c.db.commit?.map fun db =>
    { c with db, transactionsCount := c.transactionsCount - 1 }

def releaseSavePoint (name : ℕ) (fails : Bool) (c : Connection σ κ) : Option (Connection σ κ) :=
  if fails then none else (c.db.release? name).map fun db => { c with db }

/-- The count is lowered in a `finally`. -/
def rollbackTransaction (fails : Bool) (c : Connection σ κ) : Connection σ κ :=
  { c with
    db := if fails then c.db else c.db.rollback?.getD c.db
    transactionsCount := c.transactionsCount - 1 }

def rollbackSavePoint (name : ℕ) (c : Connection σ κ) : Connection σ κ :=
  { c with db := (c.db.rollbackTo? name).getD c.db }

def runBeforeCommitCallbacks : List (Guard σ) → Connection σ κ → Connection σ κ × Bool
  | [], c => (c, true)
  | guard :: guards, c =>
    let c := { c with db := c.db.write guard.write }
    if guard.accepts then c.runBeforeCommitCallbacks guards else (c, false)

/-- The callbacks that are run until one throws, and whether none did. -/
def runCallbacks : List (Callback κ) → List κ × Bool
  | [] => ([], true)
  | callback :: callbacks =>
    if callback.throws then ([callback.id], false)
    else
      let (ran, ok) := runCallbacks callbacks
      (callback.id :: ran, ok)

end Connection

/-- How an attempt ends; the error of an `afterCommit` callback is told from the others. -/
inductive Outcome where
  | returned | threw | callbackThrew
  deriving DecidableEq

namespace Connection

/-- `_commitTransactionCallbackFrame` -/
def commitTransactionCallbackFrame (c : Connection σ κ) : Connection σ κ × Outcome :=
  match c.transactionCallbackFrames with
  | [] => (c, .returned)
  | [frame] =>
    let (ran, ok) := runCallbacks frame.afterCommitCallbacks
    ({ c with transactionCallbackFrames := [], ran := c.ran ++ ran },
      if ok then .returned else .callbackThrew)
  | frame :: parent :: frames =>
    ({ c with
       transactionCallbackFrames := { parent with
         afterCommitCallbacks := parent.afterCommitCallbacks ++ frame.afterCommitCallbacks } ::
         frames }, .returned)

def undo (started : Bool) (name : ℕ) (faults : Faults) (c : Connection σ κ) : Connection σ κ :=
  if started then
    if 0 < c.transactionsCount then c.rollbackTransaction faults.rollback else c
  else
    match faults.rollbackSavePoint with
    | none => c.rollbackSavePoint name
    -- the whole transaction is rolled back instead
    | some true => c.rollbackTransaction faults.rollback
    | some false => c

/-- The rest of an attempt, once its callback has ended: the guards, then RELEASE or COMMIT. -/
def finish (started : Bool) (name : ℕ) (faults : Faults) (c : Connection σ κ) (ok : Bool) :
    Connection σ κ × Outcome :=
  let (c, ok) := if ok then
      c.runBeforeCommitCallbacks (c.transactionCallbackFrames.headD {}).beforeCommitCallbacks
    else (c, false)
  let finished := if ok then
      if started then c.commitTransaction faults.finish else c.releaseSavePoint name faults.finish
    else none
  match finished with
  | some c => c.commitTransactionCallbackFrame
  | none =>
    let c := c.undo started name faults
    ({ c with transactionCallbackFrames := c.transactionCallbackFrames.tail }, .threw)

/-- `_runTransactionAttempt` -/
def runTransactionAttempt (faults : Faults) (callback : Connection σ κ → Connection σ κ × Bool)
    (c : Connection σ κ) : Connection σ κ × Outcome :=
  let name := c.savePoints
  let started : Bool := c.transactionsCount = 0
  let entered := { c with
    savePoints := name + 1
    transactionCallbackFrames := {} :: c.transactionCallbackFrames }
  match if started then entered.startTransaction faults.start
    else entered.startSavePoint name faults.start with
  | none => ({ entered with transactionCallbackFrames := c.transactionCallbackFrames }, .threw)
  | some c =>
    let (c, ok) := callback c
    c.finish started name faults ok

/-- A change of the current frame. -/
def pushCallback (f : Frame σ κ → Frame σ κ) (c : Connection σ κ) : Connection σ κ :=
  { c with transactionCallbackFrames := c.transactionCallbackFrames.modifyHead f }

end Connection

/-- What a callback does on the connection. -/
inductive Stmt (σ κ : Type) where
  | write (w : σ → σ) (fails : Bool)
  | throw
  | beforeCommit (guard : Guard σ)
  | afterCommit (callback : Callback κ)
  /-- a nested call, whose error the callback may catch -/
  | transaction (faults : Faults) (caught : Bool) (body : List (Stmt σ κ))

mutual

/-- What is done, and whether nothing is thrown. -/
def Stmt.exec : Stmt σ κ → Connection σ κ → Connection σ κ × Bool
  | .write w fails, c => if fails then (c, false) else ({ c with db := c.db.write w }, true)
  | .throw, c => (c, false)
  | .beforeCommit guard, c =>
    (c.pushCallback fun frame =>
      { frame with beforeCommitCallbacks := frame.beforeCommitCallbacks ++ [guard] }, true)
  | .afterCommit callback, c =>
    (c.pushCallback fun frame =>
      { frame with afterCommitCallbacks := frame.afterCommitCallbacks ++ [callback] }, true)
  | .transaction faults caught body, c =>
    let (c, outcome) := c.runTransactionAttempt faults fun c => execBody body c
    (c, outcome = .returned || caught)

def execBody : List (Stmt σ κ) → Connection σ κ → Connection σ κ × Bool
  | [], c => (c, true)
  | stmt :: body, c =>
    let (c, ok) := stmt.exec c
    if ok then execBody body c else (c, false)

end

/-- One attempt of an outermost call: `retryable` is whether its error is a deadlock. -/
structure Attempt (σ κ : Type) where
  faults : Faults
  retryable : Bool
  body : List (Stmt σ κ)

namespace Connection

/-- The loop of `transaction`, at its attempt number `attempt`, with `left` more of them. -/
def attemptLoop (attempts : ℕ → Attempt σ κ) (attempt : ℕ) :
    ℕ → Connection σ κ → Connection σ κ × Bool
  | left, c =>
    let a := attempts attempt
    match c.runTransactionAttempt a.faults (execBody a.body), left with
    | (c, .returned), _ => (c, true)
    | (c, .callbackThrew), _ | (c, .threw), 0 => (c, false)
    | (c, .threw), left + 1 =>
      if a.retryable && c.transactionsCount = 0 then attemptLoop attempts (attempt + 1) left c
      else (c, false)

/-- `transaction`, of which `attempts` are the runs of its callback. -/
def transaction (maxAttempts : ℕ) (attempts : ℕ → Attempt σ κ) (c : Connection σ κ) :
    Connection σ κ × Bool :=
  if 0 < c.transactionsCount then
    let a := attempts 0
    let (c, outcome) := c.runTransactionAttempt a.faults (execBody a.body)
    (c, outcome = .returned)
  else c.attemptLoop attempts 0 (maxAttempts - 1)

end Connection

/-! ## What a callback means -/

/-- What a callback has done where it ended, and whether it ended without a throw. -/
structure Effect (σ κ : Type) where
  completes : Bool
  writes : List (σ → σ) := []
  guards : List (Guard σ) := []
  callbacks : List (Callback κ) := []

namespace Effect

/-- One after the other, as long as nothing is thrown. -/
def andThen (e e' : Effect σ κ) : Effect σ κ :=
  if e.completes then
    ⟨e'.completes, e.writes ++ e'.writes, e.guards ++ e'.guards, e.callbacks ++ e'.callbacks⟩
  else e

/-- What a completed call leaves: its writes, and its callbacks for after the commit. -/
def committed (faults : Faults) (e : Effect σ κ) : Option (List (σ → σ) × List (Callback κ)) :=
  if faults.start || !e.completes || e.guards.any (!·.accepts) || faults.finish then none
  else some (e.writes ++ e.guards.map (·.write), e.callbacks)

end Effect

mutual

def Stmt.effect : Stmt σ κ → Effect σ κ
  | .write w fails => ⟨!fails, if fails then [] else [w], [], []⟩
  | .throw => { completes := false }
  | .beforeCommit guard => { completes := true, guards := [guard] }
  | .afterCommit callback => { completes := true, callbacks := [callback] }
  | .transaction faults caught body =>
    match (bodyEffect body).committed faults with
    | some (writes, callbacks) => { completes := true, writes, callbacks }
    | none => { completes := caught }

def bodyEffect : List (Stmt σ κ) → Effect σ κ
  | [] => { completes := true }
  | stmt :: body => stmt.effect.andThen (bodyEffect body)

end

def Attempt.committed (a : Attempt σ κ) : Option (List (σ → σ) × List (Callback κ)) :=
  (bodyEffect a.body).committed a.faults

/-- ROLLBACK and ROLLBACK TO are taken. -/
def Faults.Undoes (faults : Faults) : Prop :=
  faults.rollbackSavePoint = none ∧ faults.rollback = false

mutual

def Stmt.Undoes : Stmt σ κ → Prop
  | .transaction faults _ body => faults.Undoes ∧ BodyUndoes body
  | _ => True

def BodyUndoes : List (Stmt σ κ) → Prop
  | [] => True
  | stmt :: body => stmt.Undoes ∧ BodyUndoes body

end

/-- The attempt that commits: the first that is completed, unless an error before it ends the
loop. -/
def committedAttempt (attempts : ℕ → Attempt σ κ) (attempt : ℕ) :
    ℕ → Option (List (σ → σ) × List (Callback κ))
  | 0 => (attempts attempt).committed
  | left + 1 => (attempts attempt).committed.or
    (if (attempts attempt).retryable then committedAttempt attempts (attempt + 1) left else none)

/-! ## The driver does what a callback means -/

/-- The content after some writes. -/
def applied (writes : List (σ → σ)) (s : σ) : σ := writes.foldl (fun s w => w s) s

theorem applied_append (ws ws' : List (σ → σ)) (s : σ) :
    applied (ws ++ ws') s = applied ws' (applied ws s) :=
  foldl_append

/-- A callback is running: a transaction is open, with savepoints of generated names. -/
structure Connection.Inside (c : Connection σ κ) (frame : Frame σ κ) (frames : List (Frame σ κ)) :
    Prop where
  count : 0 < c.transactionsCount
  begun : c.db.begun.isSome
  frames : c.transactionCallbackFrames = frame :: frames

/-- From `c` on, `e` was done in the current frame. -/
structure Does (c : Connection σ κ) (frame : Frame σ κ) (frames : List (Frame σ κ))
    (e : Effect σ κ) (c' : Connection σ κ) : Prop where
  content : c'.db.content = applied e.writes c.db.content
  frames : c'.transactionCallbackFrames = ⟨frame.beforeCommitCallbacks ++ e.guards,
    frame.afterCommitCallbacks ++ e.callbacks⟩ :: frames
  count : c'.transactionsCount = c.transactionsCount
  ran : c'.ran = c.ran
  names : c.savePoints ≤ c'.savePoints
  grown : Savepoints.Grown c.savePoints c'.savePoints c.db c'.db

variable {c c' c₁ : Connection σ κ} {frame : Frame σ κ} {frames : List (Frame σ κ)}
  {e e' : Effect σ κ}

theorem Does.inside (h : Does c frame frames e c') (hc : c.Inside frame frames) :
    c'.Inside ⟨frame.beforeCommitCallbacks ++ e.guards, frame.afterCommitCallbacks ++ e.callbacks⟩
      frames :=
  ⟨h.count ▸ hc.count, h.grown.begun ▸ hc.begun, h.frames⟩

theorem Does.andThen (h : Does c frame frames e c₁) (he : e.completes = true)
    (h₁ : Does c₁ ⟨frame.beforeCommitCallbacks ++ e.guards,
      frame.afterCommitCallbacks ++ e.callbacks⟩ frames e' c') :
    Does c frame frames (e.andThen e') c' := by
  rw [Effect.andThen, if_pos he]
  refine ⟨?_, ?_, h₁.count.trans h.count, h₁.ran.trans h.ran, h.names.trans h₁.names,
    h.grown.trans h₁.grown h.names h₁.names⟩
  · rw [h₁.content, h.content, applied_append]
  · rw [h₁.frames, append_assoc, append_assoc]

theorem Does.of_db (content : c'.db.content = applied e.writes c.db.content)
    (hframes : c'.transactionCallbackFrames = ⟨frame.beforeCommitCallbacks ++ e.guards,
      frame.afterCommitCallbacks ++ e.callbacks⟩ :: frames)
    (count : c'.transactionsCount = c.transactionsCount) (ran : c'.ran = c.ran)
    (names : c'.savePoints = c.savePoints) (hbegun : c'.db.begun = c.db.begun)
    (hpoints : c'.db.points = c.db.points) : Does c frame frames e c' :=
  ⟨content, hframes, count, ran, names.ge, names ▸ .of_eq hbegun hpoints⟩

theorem runBeforeCommitCallbacks_eq (guards : List (Guard σ)) : ∀ c : Connection σ κ,
    ∃ s, (c.runBeforeCommitCallbacks guards).1 = { c with db := { c.db with content := s } } ∧
      (c.runBeforeCommitCallbacks guards).2 = !guards.any (!·.accepts) ∧
      ((c.runBeforeCommitCallbacks guards).2 = true →
        s = applied (guards.map (·.write)) c.db.content) := by
  induction guards with
  | nil => exact fun c => ⟨_, rfl, rfl, fun _ => rfl⟩
  | cons guard guards ih =>
    intro c
    cases haccepts : guard.accepts with
    | false =>
      simp only [Connection.runBeforeCommitCallbacks, haccepts]
      exact ⟨_, rfl, by simp [haccepts], nofun⟩
    | true =>
      obtain ⟨s, hc, hok, hs⟩ := ih { c with db := c.db.write guard.write }
      simp only [Connection.runBeforeCommitCallbacks, haccepts, if_true]
      exact ⟨s, hc, by simpa [haccepts] using hok, hs⟩

/-- How an attempt finishes: its call is completed, or its throw is undone. -/
theorem finish_cases {faults : Faults} (started : Bool) (name : ℕ) (hstart : faults.start = false)
    (hframes : c.transactionCallbackFrames = ⟨e.guards, e.callbacks⟩ :: frames) :
    (e.committed faults = none ∧ ∃ s,
      let c' := ({ c with db := { c.db with content := s } } : Connection σ κ).undo started name
        faults
      c.finish started name faults e.completes =
        ({ c' with transactionCallbackFrames := c'.transactionCallbackFrames.tail }, .threw)) ∨
    (e.committed faults = some (e.writes ++ e.guards.map (·.write), e.callbacks) ∧
      ∃ c', c' = ({ c with db := { c.db with
          content := applied (e.guards.map (·.write)) c.db.content } } : Connection σ κ) ∧
        ∀ c'', (if started then c'.commitTransaction false else c'.releaseSavePoint name false) =
          some c'' →
          c.finish started name faults e.completes = c''.commitTransactionCallbackFrame) := by
  have hguards : (c.transactionCallbackFrames.headD {}).beforeCommitCallbacks = e.guards := by
    rw [hframes, headD_cons]
  unfold Connection.finish
  simp only [Effect.committed, hstart, Bool.false_or]
  cases hcompletes : e.completes with
  | false => exact .inl ⟨rfl, c.db.content, rfl⟩
  | true =>
    obtain ⟨s, hguarded, hok, hs⟩ := runBeforeCommitCallbacks_eq e.guards c
    rw [hguards, if_pos rfl]
    cases hrefused : e.guards.any (!·.accepts) with
    | true =>
      rw [hrefused, Bool.not_true] at hok
      simp only [hguarded, hok]
      exact .inl ⟨rfl, s, rfl⟩
    | false =>
      rw [hrefused, Bool.not_false] at hok
      simp only [hguarded, hok, Bool.not_true, Bool.or_self, Bool.false_or, if_true]
      cases hfinish : faults.finish with
      | true =>
        refine .inl ⟨rfl, s, ?_⟩
        cases started <;> rfl
      | false =>
        refine .inr ⟨rfl, _, rfl, fun c'' hc'' => ?_⟩
        rw [hs hok, hc'']

/-- What a call leaves for its caller. -/
def called : Option (List (σ → σ) × List (Callback κ)) → Effect σ κ
  | some (writes, callbacks) => { completes := true, writes, callbacks }
  | none => { completes := false }

/-- The connection in a nested call: on its savepoint, with a frame of its own. -/
def Connection.entered (c : Connection σ κ) (db : Savepoints σ) : Connection σ κ :=
  { c with
    db
    savePoints := c.savePoints + 1
    transactionCallbackFrames := {} :: c.transactionCallbackFrames }

section Nested

variable {faults : Faults} {db : Savepoints σ} (hundoes : faults.Undoes)
  (hpoint : c.db.savepoint? c.savePoints = some db)
include hundoes hpoint

theorem undo_nested (h : Does (c.entered db) {} (frame :: frames) e c₁)
    (s : σ) :
    let c₂ := ({ c₁ with db := { c₁.db with content := s } } : Connection σ κ).undo false
      c.savePoints faults
    Does c frame frames (called none)
      { c₂ with transactionCallbackFrames := c₂.transactionCallbackFrames.tail } := by
  have hback := Savepoints.rollbackTo_grown hpoint (h.grown.content s)
  simp only [Connection.undo, Bool.false_eq_true, if_false, hundoes.1,
    Connection.rollbackSavePoint, hback, Option.getD_some]
  obtain ⟨old, -, rfl⟩ := Option.map_eq_some_iff.mp hpoint
  have hnames : c.savePoints + 1 ≤ c₁.savePoints := h.names
  refine ⟨rfl, ?_, h.count, h.ran, Nat.le_of_succ_le hnames, ⟨rfl, [(c.savePoints, _)], rfl, ?_⟩⟩
  · simp [h.frames, called]
  · rintro p hp
    obtain rfl := mem_singleton.mp hp
    exact ⟨le_rfl, hnames⟩

theorem finish_nested (hstart : faults.start = false)
    (h : Does (c.entered db) {} (frame :: frames) e c₁) :
    Does c frame frames (called (e.committed faults))
      (c₁.finish false c.savePoints faults e.completes).1 ∧
    (c₁.finish false c.savePoints faults e.completes).2 =
      if (e.committed faults).isSome then .returned else .threw := by
  rcases finish_cases false c.savePoints hstart h.frames with
    ⟨hnone, s, hfinish⟩ | ⟨hsome, c₂, rfl, hfinish⟩
  · rw [hnone, hfinish]
    exact ⟨undo_nested hundoes hpoint h s, rfl⟩
  · have hrelease := Savepoints.release_grown hpoint (h.grown.content
      (applied (e.guards.map (·.write)) c₁.db.content))
    rw [hsome, hfinish _ (by
      rw [if_neg Bool.false_ne_true, Connection.releaseSavePoint, hrelease]; rfl)]
    simp only [Connection.commitTransactionCallbackFrame, h.frames, nil_append]
    refine ⟨⟨?_, by simp [called], h.count, h.ran, Nat.le_of_succ_le h.names, .of_eq rfl rfl⟩, rfl⟩
    have hcontent : db.content = c.db.content := by
      obtain ⟨old, -, rfl⟩ := Option.map_eq_some_iff.mp hpoint
      rfl
    rw [called, applied_append, ← hcontent]
    exact congrArg (applied _) h.content

end Nested

/-- **A nested attempt** leaves what it means. -/
theorem runTransactionAttempt_nested {faults : Faults} (hundoes : faults.Undoes)
    {callback : Connection σ κ → Connection σ κ × Bool} (hc : c.Inside frame frames)
    (hcallback : ∀ {c₁ : Connection σ κ}, c₁.Inside {} (frame :: frames) →
      Does c₁ {} (frame :: frames) e (callback c₁).1 ∧ (callback c₁).2 = e.completes) :
    Does c frame frames (called (e.committed faults)) (c.runTransactionAttempt faults callback).1 ∧
      (c.runTransactionAttempt faults callback).2 =
        if (e.committed faults).isSome then .returned else .threw := by
  obtain ⟨old, hold⟩ := Option.isSome_iff_exists.mp hc.begun
  have hstarted : decide (c.transactionsCount = 0) = false := decide_eq_false hc.count.ne'
  unfold Connection.runTransactionAttempt
  simp only [hstarted, Bool.false_eq_true, if_false, Connection.startSavePoint]
  cases hstart : faults.start with
  | true =>
    simp only [if_true, Effect.committed, hstart, Bool.true_or]
    refine ⟨⟨rfl, ?_, rfl, rfl, Nat.le_succ _, .of_eq rfl rfl⟩, rfl⟩
    simpa [called] using hc.frames
  | false =>
    obtain ⟨db, hpoint⟩ : ∃ db, c.db.savepoint? c.savePoints = some db := by
      simp [Savepoints.savepoint?, hold]
    have hbegun : db.begun.isSome := by
      obtain ⟨old, -, rfl⟩ := Option.map_eq_some_iff.mp hpoint
      exact hc.begun
    simp only [Bool.false_eq_true, if_false, hpoint, Option.map_some]
    have hentered : (c.entered db).Inside {} (frame :: frames) :=
      ⟨hc.count, hbegun, by rw [Connection.entered, hc.frames]⟩
    obtain ⟨hdoes, hok⟩ := hcallback hentered
    have hfinish := finish_nested hundoes hpoint hstart hdoes
    rw [← hok] at hfinish
    exact hfinish

mutual

theorem exec_does : ∀ {stmt : Stmt σ κ}, stmt.Undoes → ∀ {c : Connection σ κ} {frame frames},
    c.Inside frame frames →
      Does c frame frames stmt.effect (stmt.exec c).1 ∧ (stmt.exec c).2 = stmt.effect.completes
  | .write w fails, _, c, frame, frames, hc => by
    cases fails <;>
      exact ⟨.of_db rfl (by simp [Stmt.exec, Stmt.effect, hc.frames]) rfl rfl rfl rfl rfl, rfl⟩
  | .throw, _, c, frame, frames, hc =>
    ⟨.of_db rfl (by simp [Stmt.exec, Stmt.effect, hc.frames]) rfl rfl rfl rfl rfl, rfl⟩
  | .beforeCommit guard, _, c, frame, frames, hc =>
    ⟨.of_db rfl (by simp [Stmt.exec, Stmt.effect, Connection.pushCallback, hc.frames]) rfl rfl rfl
      rfl rfl, rfl⟩
  | .afterCommit callback, _, c, frame, frames, hc =>
    ⟨.of_db rfl (by simp [Stmt.exec, Stmt.effect, Connection.pushCallback, hc.frames]) rfl rfl rfl
      rfl rfl, rfl⟩
  | .transaction faults caught body, hundoes, c, frame, frames, hc => by
    obtain ⟨hdoes, houtcome⟩ := runTransactionAttempt_nested hundoes.1 hc
      fun hc₁ => body_does hundoes.2 hc₁
    simp only [Stmt.exec, Stmt.effect, houtcome]
    cases hcommitted : (bodyEffect body).committed faults with
    | none =>
      rw [hcommitted] at hdoes
      exact ⟨⟨hdoes.content, hdoes.frames, hdoes.count, hdoes.ran, hdoes.names, hdoes.grown⟩,
        Bool.false_or _⟩
    | some left =>
      rw [hcommitted] at hdoes
      exact ⟨hdoes, Bool.true_or _⟩

theorem body_does : ∀ {body : List (Stmt σ κ)}, BodyUndoes body →
    ∀ {c : Connection σ κ} {frame frames}, c.Inside frame frames →
      Does c frame frames (bodyEffect body) (execBody body c).1 ∧
        (execBody body c).2 = (bodyEffect body).completes
  | [], _, c, frame, frames, hc =>
    ⟨.of_db rfl (by simp [execBody, bodyEffect, hc.frames]) rfl rfl rfl rfl rfl, rfl⟩
  | stmt :: body, hundoes, c, frame, frames, hc => by
    obtain ⟨hdoes, hok⟩ := exec_does hundoes.1 hc
    simp only [execBody, bodyEffect, hok]
    cases hcompletes : stmt.effect.completes with
    | false =>
      simp only [Effect.andThen, hcompletes, Bool.false_eq_true, if_false]
      exact ⟨hdoes, trivial⟩
    | true =>
      obtain ⟨hrest, hrestOk⟩ := body_does hundoes.2 (hdoes.inside hc)
      refine ⟨hdoes.andThen hcompletes hrest, hrestOk.trans ?_⟩
      rw [Effect.andThen, if_pos hcompletes]

end

/-! ## The outermost call -/

/-- No transaction is open. -/
structure Connection.Idle (c : Connection σ κ) : Prop where
  count : c.transactionsCount = 0
  frames : c.transactionCallbackFrames = []
  begun : c.db.begun = none
  points : c.db.points = []

/-- A call that leaves this has ended: its writes are kept, and its callbacks were run in order,
up to one that throws. -/
structure Settles (c : Connection σ κ) (left : Effect σ κ) (c' : Connection σ κ) : Prop where
  idle : c'.Idle
  content : c'.db.content = applied left.writes c.db.content
  ran : c'.ran = c.ran ++ (Connection.runCallbacks left.callbacks).1

/-- The connection in an outermost call. -/
def Connection.started (c : Connection σ κ) : Connection σ κ :=
  { c with
    db := ⟨c.db.content, some c.db.content, []⟩
    transactionsCount := c.transactionsCount + 1
    savePoints := c.savePoints + 1
    transactionCallbackFrames := [{}] }

section Outermost

variable {faults : Faults} (hundoes : faults.Undoes) (hc : c.Idle)
include hundoes hc

theorem undo_outermost (h : Does c.started {} [] e c₁) (s : σ) :
    let c₂ := ({ c₁ with db := { c₁.db with content := s } } : Connection σ κ).undo true
      c.savePoints faults
    Settles c (called none)
      { c₂ with transactionCallbackFrames := c₂.transactionCallbackFrames.tail } := by
  have hcount : c₁.transactionsCount = 1 := by
    rw [h.count, Connection.started, hc.count]
    rfl
  have hbegun : c₁.db.begun = some c.db.content := h.grown.begun
  simp only [Connection.undo, if_true, hcount, Connection.rollbackTransaction, hundoes.2,
    zero_lt_one, Bool.false_eq_true, if_false, Savepoints.rollback?, hbegun, Option.map_some,
    Option.getD_some, h.frames]
  exact ⟨⟨rfl, rfl, rfl, rfl⟩, rfl, h.ran.trans (append_nil _).symm⟩

theorem finish_outermost (hstart : faults.start = false) (h : Does c.started {} [] e c₁) :
    Settles c (called (e.committed faults))
      (c₁.finish true c.savePoints faults e.completes).1 ∧
    (c₁.finish true c.savePoints faults e.completes).2 =
      if (e.committed faults).isSome then
        if (Connection.runCallbacks (called (e.committed faults)).callbacks).2 then .returned
        else .callbackThrew
      else .threw := by
  have hcount : c₁.transactionsCount - 1 = 0 := by
    rw [h.count, Connection.started, hc.count]
    rfl
  have hbegun : c₁.db.begun = some c.db.content := h.grown.begun
  rcases finish_cases true c.savePoints hstart h.frames with
    ⟨hnone, s, hfinish⟩ | ⟨hsome, c₂, rfl, hfinish⟩
  · rw [hnone, hfinish]
    exact ⟨undo_outermost hundoes hc h s, rfl⟩
  · rw [hsome, hfinish _ (by
      rw [if_pos rfl, Connection.commitTransaction, if_neg Bool.false_ne_true, Savepoints.commit?,
        hbegun]
      rfl)]
    simp only [Connection.commitTransactionCallbackFrame, h.frames, nil_append, hcount, h.ran]
    refine ⟨⟨⟨rfl, rfl, rfl, rfl⟩, ?_, rfl⟩, rfl⟩
    rw [called, applied_append]
    exact congrArg (applied _) h.content

end Outermost

theorem runTransactionAttempt_outermost {a : Attempt σ κ} (hundoes : a.faults.Undoes)
    (hbody : BodyUndoes a.body) (hc : c.Idle) :
    Settles c (called a.committed) (c.runTransactionAttempt a.faults (execBody a.body)).1 ∧
      (c.runTransactionAttempt a.faults (execBody a.body)).2 =
        if a.committed.isSome then
          if (Connection.runCallbacks (called a.committed).callbacks).2 then .returned
          else .callbackThrew
        else .threw := by
  have hstarted : decide (c.transactionsCount = 0) = true := decide_eq_true hc.count
  unfold Connection.runTransactionAttempt
  simp only [hstarted, if_true, Connection.startTransaction, Savepoints.startTransaction?, hc.begun,
    Option.isSome_none, Bool.false_eq_true, if_false, Option.map_some, hc.frames]
  cases hstart : a.faults.start with
  | true =>
    simp only [if_true, Attempt.committed, Effect.committed, hstart, Bool.true_or]
    exact ⟨⟨⟨hc.count, rfl, hc.begun, hc.points⟩, rfl, (append_nil _).symm⟩, rfl⟩
  | false =>
    simp only [Bool.false_eq_true, if_false]
    obtain ⟨hdoes, hok⟩ := body_does hbody (c := c.started)
      ⟨by rw [Connection.started, hc.count]; exact zero_lt_one, rfl, rfl⟩
    have hfinish := finish_outermost hundoes hc hstart hdoes
    rw [← hok] at hfinish
    exact hfinish

/-- What the loop does with an attempt: one that is completed is the last, and from another one it
goes on, if at all, with a connection that is as it was. -/
theorem attemptLoop_cases {attempts : ℕ → Attempt σ κ} (attempt : ℕ)
    (hundoes : (attempts attempt).faults.Undoes ∧ BodyUndoes (attempts attempt).body)
    (hc : c.Idle) :
    (∃ done c', (attempts attempt).committed = some done ∧ Settles c (called (some done)) c' ∧
      ∀ left, c.attemptLoop attempts attempt left =
        (c', (Connection.runCallbacks (called (some done)).callbacks).2)) ∨
    ((attempts attempt).committed = none ∧ ∃ c', Settles c (called none) c' ∧
      c.attemptLoop attempts attempt 0 = (c', false) ∧
      ∀ left, c.attemptLoop attempts attempt (left + 1) =
        if (attempts attempt).retryable then c'.attemptLoop attempts (attempt + 1) left
        else (c', false)) := by
  have hrun := runTransactionAttempt_outermost hundoes.1 hundoes.2 hc
  generalize hended : c.runTransactionAttempt (attempts attempt).faults
    (execBody (attempts attempt).body) = ended at hrun
  obtain ⟨c', outcome⟩ := ended
  obtain ⟨hsettles, rfl⟩ := hrun
  cases hcommitted : (attempts attempt).committed with
  | some done =>
    rw [hcommitted] at hsettles hended
    refine .inl ⟨done, c', rfl, hsettles, fun left => ?_⟩
    cases hok : (Connection.runCallbacks (called (some done)).callbacks).2 <;> cases left <;>
      simp [Connection.attemptLoop, hended, hok]
  | none =>
    rw [hcommitted] at hsettles hended
    have hcount : c'.transactionsCount = 0 := hsettles.idle.count
    refine .inr ⟨rfl, c', hsettles, ?_, fun left => ?_⟩
    · simp [Connection.attemptLoop, hended]
    · simp [Connection.attemptLoop, hended, hcount]

theorem Settles.of_retried {left : Effect σ κ} (h : Settles c (called none) c₁)
    (h₁ : Settles c₁ left c') : Settles c left c' := by
  refine ⟨h₁.idle, ?_, ?_⟩
  · rw [h₁.content, h.content]
    rfl
  · rw [h₁.ran, h.ran]
    exact congrArg (· ++ _) (append_nil _)

theorem attemptLoop_settles {attempts : ℕ → Attempt σ κ}
    (hundoes : ∀ n, (attempts n).faults.Undoes ∧ BodyUndoes (attempts n).body) (left : ℕ) :
    ∀ (attempt : ℕ) {c : Connection σ κ}, c.Idle →
      Settles c (called (committedAttempt attempts attempt left))
        (c.attemptLoop attempts attempt left).1 ∧
      (c.attemptLoop attempts attempt left).2 = ((committedAttempt attempts attempt left).isSome &&
        (Connection.runCallbacks (called (committedAttempt attempts attempt left)).callbacks).2) := by
  induction left with
  | zero =>
    intro attempt c hc
    rw [committedAttempt]
    rcases attemptLoop_cases attempt (hundoes attempt) hc with
      ⟨done, c', hdone, hsettles, hloop⟩ | ⟨hnone, c', hsettles, hloop, -⟩
    · rw [hdone, hloop]
      exact ⟨hsettles, rfl⟩
    · rw [hnone, hloop]
      exact ⟨hsettles, rfl⟩
  | succ left ih =>
    intro attempt c hc
    rw [committedAttempt]
    rcases attemptLoop_cases attempt (hundoes attempt) hc with
      ⟨done, c', hdone, hsettles, hloop⟩ | ⟨hnone, c', hsettles, -, hloop⟩
    · rw [hdone, hloop]
      exact ⟨hsettles, rfl⟩
    · rw [hnone, hloop, Option.none_or]
      cases (attempts attempt).retryable with
      | false => exact ⟨hsettles, rfl⟩
      | true =>
        obtain ⟨hrest, hok⟩ := ih (attempt + 1) hsettles.idle
        exact ⟨hsettles.of_retried hrest, hok⟩

/-- **A transaction call does what its callback means.**  Unless the database refuses a ROLLBACK,
an outermost call leaves no transaction open, keeps the writes of the first completed attempt and
nothing of the others, and runs that attempt's callbacks once, in the order they were registered
in, up to one that throws. -/
theorem transaction_refines (attempts : ℕ → Attempt σ κ)
    (hundoes : ∀ n, (attempts n).faults.Undoes ∧ BodyUndoes (attempts n).body)
    (maxAttempts : ℕ) {c : Connection σ κ} (hc : c.Idle) :
    Settles c (called (committedAttempt attempts 0 (maxAttempts - 1)))
      (c.transaction maxAttempts attempts).1 ∧
    (c.transaction maxAttempts attempts).2 =
      ((committedAttempt attempts 0 (maxAttempts - 1)).isSome && (Connection.runCallbacks
        (called (committedAttempt attempts 0 (maxAttempts - 1))).callbacks).2) := by
  rw [Connection.transaction, if_neg (by rw [hc.count]; exact lt_irrefl 0)]
  exact attemptLoop_settles hundoes _ 0 hc

/-- The first attempt meets a deadlock; the second nests a call that throws, which is caught. -/
def deadlockThenCaught : ℕ → Attempt (List ℕ) ℕ
  | 0 => ⟨{}, true, [.write (· ++ [1]) false, .afterCommit ⟨1, false⟩, .write id true]⟩
  | _ => ⟨{}, false, [.write (· ++ [2]) false,
      .transaction {} true [.write (· ++ [3]) false, .afterCommit ⟨3, false⟩, .throw],
      .transaction {} false [.write (· ++ [4]) false, .afterCommit ⟨4, false⟩],
      .afterCommit ⟨2, false⟩]⟩

theorem transaction_refines_deadlockThenCaught :
    let c := (⟨⟨[], none, []⟩, 0, [], 0, []⟩ : Connection (List ℕ) ℕ)
    (c.transaction 8 deadlockThenCaught).1.db.content = [2, 4] ∧
      (c.transaction 8 deadlockThenCaught).1.ran = [4, 2] := by
  have hrefines := (transaction_refines deadlockThenCaught
    (fun n => by
      cases n <;> simp [deadlockThenCaught, BodyUndoes, Stmt.Undoes, Faults.Undoes]) 8
    (c := (⟨⟨[], none, []⟩, 0, [], 0, []⟩ : Connection (List ℕ) ℕ)) ⟨rfl, rfl, rfl, rfl⟩).1
  exact ⟨hrefines.content, hrefines.ran⟩

end Velocious.NestedTransactions
