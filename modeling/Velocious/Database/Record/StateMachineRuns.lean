/-
  Which runs keep a record's transitions and its callbacks together.

  * `MayFire`: an event is let through while the record is in its source state, in memory and in the
    database, with no transition pending and no save running.
  * `step_inv`: a step that follows keeps a phase; `transitions_consistent` is the induction over
    runs.
-/
import Velocious.Database.Record.StateMachine
import Mathlib.Tactic.Tauto

namespace Velocious.StateMachine

open Foundation List

variable {E S : Type} {definition : Definition E S}

/-- The record is in the state, in memory and in the database; the event leads elsewhere; and no
    other transition or save is on the way. -/
structure MayFire (s : State E S) (currentState : S) (event : EventDefinition S) : Prop where
  db : s.db = some currentState
  read : s.read = some currentState
  pending : s.pending = none
  moves : currentState ≠ event.toState
  idle : ∀ n, ¬ Busy s n

/-- The transition that a save carries, once its callbacks have begun. -/
def carried (s : State E S) : Stage E S → Option (Transition E S)
  | .starting => none
  | .before read _ => read
  | .written => s.pending
  | .after read _ => read

variable (definition) in
/-- An event is let through where it may; a save that carries a transition runs alone up to
    `afterSave`, and it does not fail once its callbacks have begun. -/
def Follows [DecidableEq S] (s : State E S) : Action E → Prop
  | .event eventName guard => ∀ event currentState,
    enabledEvent definition s eventName = some (event, currentState) →
      (event.guard → guard = true) → MayFire s currentState event
  | .eventAndSave _ eventName => ∀ event currentState,
    enabledEvent definition s eventName = some (event, currentState) → event.guard = false →
      MayFire s currentState event
  | .guarded n true => ∀ eventName currentState event,
    s.tasks n = some (.guarding eventName currentState) →
      definition.events eventName = some event → MayFire s currentState event
  | .advance n => s.tasks n = some (.saving .starting) → s.pending ≠ none → ∀ m, ¬ Busy s m
  | .fail n => ∀ stage, s.tasks n = some (.saving stage) → carried s stage = none
  | _ => True

/-! ## Phases -/

/-- Not a save, or one that has not begun its transaction. -/
def Calm : Option (Task E S) → Prop
  | some (.saving .starting) => True
  | some (.saving _) => False
  | _ => True

/-- Not a save that carries a transition. -/
def Quiet : Option (Task E S) → Prop
  | some (.saving (.before read todo)) => read = none ∧ todo = []
  | some (.saving (.after read todo)) => read = none ∧ todo = []
  | _ => True

theorem Calm.quiet {task : Option (Task E S)} (h : Calm task) : Quiet task := by
  match task with
  | none => trivial
  | some (.guarding _ _) => trivial
  | some (.saving .starting) => trivial

theorem calm_of_not_busy {s : State E S} {n : ℕ} (h : ¬ Busy s n) : Calm (s.tasks n) := by
  match htask : s.tasks n with
  | none => trivial
  | some (.guarding _ _) => trivial
  | some (.saving .starting) => trivial
  | some (.saving (.before read todo)) => exact absurd ⟨_, htask, by simp⟩ h
  | some (.saving .written) => exact absurd ⟨_, htask, by simp⟩ h
  | some (.saving (.after read todo)) => exact absurd ⟨_, htask, by simp⟩ h

theorem not_busy_of_calm {s : State E S} {n : ℕ} (h : Calm (s.tasks n)) : ¬ Busy s n := by
  rintro ⟨stage, htask, hstage⟩
  rw [htask] at h
  cases stage with
  | starting => exact hstage rfl
  | before read todo => exact h
  | written => exact h
  | after read todo => exact h

/-- The lock is that of a save that does not change the state of the row. -/
def Held (s : State E S) : Prop :=
  ∀ m old, s.lock = some (m, old) → (s.tasks m = some (.saving .written) ∨
    s.tasks m = some (.saving (.after none []))) ∧ (old = none ∨ old = s.db)

variable (definition) in
/-- Where the transition is that the record carries, after the transitions `ts`. -/
inductive Phase (s : State E S) (ts : List (Transition E S)) : Prop
  | idle (hpending : s.pending = none)
      (hloaded : ∀ value, s.db = some value → Loaded s value)
      (hquiet : ∀ m, Quiet (s.tasks m)) (hheld : Held s)
      (hcallbacks : s.callbacks = ts.flatMap (callbacksOf definition))
  | fired (t : Transition E S) (hdeclared : Declared definition s t)
      (hmoves : t.fromState ≠ t.toState) (hpending : s.pending = some t)
      (hdb : s.db = some t.fromState) (hchanges : s.changes = some t.toState)
      (hlock : s.lock = none) (hcalm : ∀ m, Calm (s.tasks m)) (hnew : s.isNewRecord = false)
      (hcallbacks : s.callbacks = ts.flatMap (callbacksOf definition))
  | before (n : ℕ) (t : Transition E S) (todo : List (Callback E S))
      (hdeclared : Declared definition s t) (hmoves : t.fromState ≠ t.toState)
      (htask : s.tasks n = some (.saving (.before (some t) todo))) (hpending : s.pending = some t)
      (hdb : s.db = some t.fromState) (hchanges : s.changes = some t.toState)
      (hlock : s.lock = none) (hcalm : ∀ m, m ≠ n → Calm (s.tasks m))
      (hnew : s.isNewRecord = false)
      (hcallbacks : s.callbacks ++ todo =
        ts.flatMap (callbacksOf definition) ++ callbacksBefore definition t)
  | written (n : ℕ) (t : Transition E S) (hdeclared : Declared definition s t)
      (hmoves : t.fromState ≠ t.toState) (htask : s.tasks n = some (.saving .written))
      (hpending : s.pending = some t) (hdb : s.db = some t.toState)
      (hloaded : Loaded s t.toState)
      (hlock : s.lock = some (n, some t.fromState)) (hcalm : ∀ m, m ≠ n → Calm (s.tasks m))
      (hcallbacks : s.callbacks =
        ts.flatMap (callbacksOf definition) ++ callbacksBefore definition t)
  | after (n : ℕ) (t : Transition E S) (todo : List (Callback E S))
      (hdeclared : Declared definition s t) (hmoves : t.fromState ≠ t.toState)
      (htask : s.tasks n = some (.saving (.after (some t) todo))) (hpending : s.pending = none)
      (hdb : s.db = some t.toState)
      (hloaded : Loaded s t.toState)
      (hlock : s.lock = some (n, some t.fromState)) (hquiet : ∀ m, m ≠ n → Quiet (s.tasks m))
      (hcallbacks : s.callbacks ++ todo =
        ts.flatMap (callbacksOf definition) ++ callbacksOf definition t)

section Phases

variable {s : State E S} {ts : List (Transition E S)}

/-! ## Steps that carry nothing -/

@[simp] theorem setTask_tasks_self (n : ℕ) (task : Option (Task E S)) :
    (s.setTask n task).tasks n = task := Function.update_self ..

variable {n : ℕ}

theorem setTask_tasks_of_ne {m : ℕ} (h : m ≠ n) (task : Option (Task E S)) :
    (s.setTask n task).tasks m = s.tasks m := Function.update_of_ne h ..

variable {task : Option (Task E S)}

theorem forall_setTask {P : ℕ → Option (Task E S) → Prop}
    (h : ∀ m, m ≠ n → P m (s.tasks m)) (htask : P n task) (m : ℕ) :
    P m ((s.setTask n task).tasks m) := by
  by_cases hm : m = n
  · rw [hm, setTask_tasks_self]
    exact htask
  · rw [setTask_tasks_of_ne hm]
    exact h m hm

theorem Phase.change (h : Phase definition s ts) :
    Phase definition { s with otherChanges := true } ts := by
  cases h with
  | idle hpending hloaded hquiet hheld hcallbacks =>
    exact .idle hpending hloaded hquiet hheld hcallbacks
  | fired t hdeclared hmoves hpending hdb hchanges hlock hcalm hnew hcallbacks =>
    exact .fired t hdeclared hmoves hpending hdb hchanges hlock hcalm hnew hcallbacks
  | before n t todo hdeclared hmoves htask hpending hdb hchanges hlock hcalm hnew hcallbacks =>
    exact .before n t todo hdeclared hmoves htask hpending hdb hchanges hlock hcalm hnew hcallbacks
  | written n t hdeclared hmoves htask hpending hdb hloaded hlock hcalm hcallbacks =>
    exact .written n t hdeclared hmoves htask hpending hdb hloaded hlock hcalm hcallbacks
  | after n t todo hdeclared hmoves htask hpending hdb hloaded hlock hquiet hcallbacks =>
    exact .after n t todo hdeclared hmoves htask hpending hdb hloaded hlock hquiet hcallbacks

theorem Phase.setTask (h : Phase definition s ts)
    (hold : Calm (s.tasks n)) (htask : Calm task) : Phase definition (s.setTask n task) ts := by
  have hcarrier {m : ℕ} {stage : Stage E S} (hm : s.tasks m = some (.saving stage))
      (hbusy : ¬ Calm (some (Task.saving stage))) : m ≠ n := by
    rintro rfl
    exact hbusy (hm ▸ hold)
  cases h with
  | idle hpending hloaded hquiet hheld hcallbacks =>
    refine .idle hpending hloaded ?_ ?_ hcallbacks
    · exact forall_setTask (P := fun _ task => Quiet task) (fun m _ => hquiet m) htask.quiet
    · intro m old hlock
      obtain ⟨hm, hold'⟩ := hheld m old hlock
      have hne : m ≠ n := by
        rcases hm with hm | hm
        · exact hcarrier hm id
        · exact hcarrier hm id
      rw [setTask_tasks_of_ne hne]
      exact ⟨hm, hold'⟩
  | fired t hdeclared hmoves hpending hdb hchanges hlock hcalm hnew hcallbacks =>
    exact .fired t hdeclared hmoves hpending hdb hchanges hlock
      (forall_setTask (P := fun _ task => Calm task) (fun m _ => hcalm m) htask) hnew hcallbacks
  | before m t todo hdeclared hmoves hm hpending hdb hchanges hlock hcalm hnew hcallbacks =>
    refine .before m t todo hdeclared hmoves ?_ hpending hdb hchanges hlock ?_ hnew hcallbacks
    · rwa [setTask_tasks_of_ne (hcarrier hm id)]
    · exact forall_setTask (P := fun m' task => m' ≠ m → Calm task) (fun m' _ => hcalm m')
        fun _ => htask
  | written m t hdeclared hmoves hm hpending hdb hloaded hlock hcalm hcallbacks =>
    refine .written m t hdeclared hmoves ?_ hpending hdb hloaded hlock ?_ hcallbacks
    · rwa [setTask_tasks_of_ne (hcarrier hm id)]
    · exact forall_setTask (P := fun m' task => m' ≠ m → Calm task) (fun m' _ => hcalm m')
        fun _ => htask
  | after m t todo hdeclared hmoves hm hpending hdb hloaded hlock hquiet hcallbacks =>
    refine .after m t todo hdeclared hmoves ?_ hpending hdb hloaded hlock ?_ hcallbacks
    · rwa [setTask_tasks_of_ne (hcarrier hm id)]
    · exact forall_setTask (P := fun m' task => m' ≠ m → Quiet task) (fun m' _ => hquiet m')
        fun _ => htask.quiet

theorem Phase.idle_of_mayFire (h : Phase definition s ts) {currentState : S}
    {event : EventDefinition S} (hfire : MayFire s currentState event) :
    Loaded s currentState ∧ s.lock = none ∧ s.callbacks = ts.flatMap (callbacksOf definition) := by
  have hbusy {n : ℕ} {stage : Stage E S} (hn : s.tasks n = some (.saving stage))
      (hstage : stage ≠ .starting) : False := hfire.idle n ⟨stage, hn, hstage⟩
  cases h with
  | idle hpending hloaded hquiet hheld hcallbacks =>
    refine ⟨hloaded currentState hfire.db, ?_, hcallbacks⟩
    cases hlock : s.lock with
    | none => rfl
    | some lock =>
      rcases (hheld lock.1 lock.2 hlock).1 with hm | hm
      · exact (hbusy hm (by simp)).elim
      · exact (hbusy hm (by simp)).elim
  | fired t _ _ hpending => cases hpending.symm.trans hfire.pending
  | before n t todo _ _ htask => exact (hbusy htask (by simp)).elim
  | written n t _ _ htask => exact (hbusy htask (by simp)).elim
  | after n t todo _ _ htask => exact (hbusy htask (by simp)).elim

theorem Phase.fire [DecidableEq S] (h : Phase definition s ts) {eventName : E}
    {event : EventDefinition S} {currentState : S}
    (hevent : definition.events eventName = some event)
    (hsource : currentState ∈ event.fromStates) (hfire : MayFire s currentState event) :
    Phase definition (fire s eventName event currentState) ts := by
  obtain ⟨hloaded, hlock, hcallbacks⟩ := h.idle_of_mayFire hfire
  have hattributes : s.attributes ≠ some event.toState := by
    rw [hloaded.2.1]
    exact fun heq => hfire.moves (Option.some.inj heq)
  have hstate : StateMachine.fire s eventName event currentState =
      { s with
        pending := some ⟨eventName, currentState, event.toState⟩
        accepted := if event.guard then s.accepted ++ [(eventName, s.db)] else s.accepted
        changes := some event.toState } := by
    rw [StateMachine.fire, State.setState, if_neg hattributes]
  rw [hstate]
  refine .fired ⟨eventName, currentState, event.toState⟩ ⟨event, hevent, hsource, rfl, ?_⟩ hfire.moves
    rfl hfire.db rfl hlock (fun m => calm_of_not_busy (hfire.idle m)) hloaded.2.2 hcallbacks
  intro hguard
  simp [hguard, hfire.db]

theorem Phase.holder (h : Phase definition s ts) {old : Option S} (hlock : s.lock = some (n, old)) :
    s.tasks n = some (.saving .written) ∨ ∃ read todo, s.tasks n = some (.saving (.after read todo)) := by
  cases h with
  | idle hpending hloaded hquiet hheld =>
    rcases (hheld n old hlock).1 with hn | hn
    · exact .inl hn
    · exact .inr ⟨none, [], hn⟩
  | fired t _ _ _ _ _ hnone => cases hnone.symm.trans hlock
  | before m t todo _ _ _ _ _ _ hnone => cases hnone.symm.trans hlock
  | written m t _ _ htask _ _ _ hm =>
    cases hm.symm.trans hlock
    exact .inl htask
  | after m t todo _ _ htask _ _ _ hm =>
    cases hm.symm.trans hlock
    exact .inr ⟨_, _, htask⟩

theorem Phase.setTask_quiet (h : Phase definition s ts) (hpending : s.pending = none)
    (hold : Quiet (s.tasks n)) (htask : Quiet task)
    (hlock : ∀ old, s.lock = some (n, old) → task = some (.saving .written) ∨
      task = some (.saving (.after none []))) : Phase definition (s.setTask n task) ts := by
  cases h with
  | idle _ hloaded hquiet hheld hcallbacks =>
    refine .idle hpending hloaded ?_ ?_ hcallbacks
    · exact forall_setTask (P := fun _ task => Quiet task) (fun m _ => hquiet m) htask
    · intro m old hm
      refine ⟨?_, (hheld m old hm).2⟩
      by_cases hne : m = n
      · subst hne
        rw [setTask_tasks_self]
        exact hlock old hm
      · rw [setTask_tasks_of_ne hne]
        exact (hheld m old hm).1
  | fired t _ _ hsome => cases hsome.symm.trans hpending
  | before m t todo _ _ _ hsome => cases hsome.symm.trans hpending
  | written m t _ _ _ hsome => cases hsome.symm.trans hpending
  | after m t todo hdeclared hmoves hm _ hdb hloaded hlock hquiet hcallbacks =>
    have hne : m ≠ n := by
      rintro rfl
      rw [hm] at hold
      cases hold.1
    refine .after m t todo hdeclared hmoves ?_ hpending hdb hloaded hlock ?_ hcallbacks
    · rwa [setTask_tasks_of_ne hne]
    · exact forall_setTask (P := fun m' task => m' ≠ m → Quiet task) (fun m' _ => hquiet m')
        fun _ => htask

theorem Phase.release [DecidableEq S] (h : Phase definition s ts) (hpending : s.pending = none)
    (hold : Quiet (s.tasks n)) :
    (Phase definition ((commit s n).setTask n none) ts ∧ (commit s n).persisted = s.persisted) ∧
      Phase definition ((rollback s n).setTask n none) ts ∧
        (rollback s n).persisted = s.persisted := by
  by_cases hholder : ∃ old, s.lock = some (n, old)
  · obtain ⟨old, hlock⟩ := hholder
    cases h with
    | idle _ hloaded hquiet hheld hcallbacks =>
      have hquiet' (m : ℕ) : Quiet ((s.setTask n none).tasks m) :=
        forall_setTask (P := fun _ task => Quiet task) (fun m _ => hquiet m)
          (show Quiet (none : Option (Task E S)) from trivial) m
      have hpersisted : (commit s n).persisted = s.persisted := by
        rw [commit, hlock]
        rcases (hheld n old hlock).2 with rfl | rfl
        · simp
        · cases s.db <;> simp
      have hcommit : commit s n = { s with lock := none, persisted := (commit s n).persisted } := by
        rw [commit, hlock]
        simp
      have hrollback : rollback s n = { s with lock := none, db := old } := by
        rw [rollback, hlock]
        simp
      refine ⟨⟨?_, hpersisted⟩, ?_, ?_⟩
      · rw [hcommit]
        exact .idle hpending hloaded hquiet' (fun m old hm => by cases hm) hcallbacks
      · rw [hrollback]
        refine .idle hpending (fun value hvalue => ?_) hquiet' (fun m old hm => by cases hm)
          hcallbacks
        rcases (hheld n old hlock).2 with rfl | rfl
        · cases hvalue
        · exact hloaded value hvalue
      · rw [hrollback]
    | fired t _ _ hsome => cases hsome.symm.trans hpending
    | before m t todo _ _ _ hsome => cases hsome.symm.trans hpending
    | written m t _ _ _ hsome => cases hsome.symm.trans hpending
    | after m t todo _ _ hm _ _ _ hmlock =>
      cases hmlock.symm.trans hlock
      rw [hm] at hold
      cases hold.1
  · have hcommit : commit s n = s := by
      rw [commit]
      match hlock : s.lock with
      | none => rfl
      | some (m, old) => exact if_neg fun hm : m = n => hholder ⟨old, hm ▸ hlock⟩
    have hrollback : rollback s n = s := by
      rw [rollback]
      match hlock : s.lock with
      | none => rfl
      | some (m, old) => exact if_neg fun hm : m = n => hholder ⟨old, hm ▸ hlock⟩
    have hremoved : Phase definition (s.setTask n none) ts :=
      h.setTask_quiet hpending hold trivial fun old hlock => absurd ⟨old, hlock⟩ hholder
    rw [hcommit, hrollback]
    exact ⟨⟨hremoved, rfl⟩, hremoved, rfl⟩

/-! ## Saves -/

variable [DecidableEq S]

/-- What a step gives: the phase, after one more transition where the save that carries it is
    committed. -/
def Advanced (definition : Definition E S) (s s' : State E S) (ts : List (Transition E S)) : Prop :=
  (Phase definition s' ts ∧ s'.persisted = s.persisted) ∨
    ∃ t, Declared definition s t ∧ Phase definition s' (ts ++ [t]) ∧
      s'.persisted = s.persisted ++ [(t.fromState, t.toState)]

omit [DecidableEq S] in
theorem advance_starting (h : Phase definition s ts)
    (hn : s.tasks n = some (.saving .starting)) (hfollows : s.pending ≠ none → ∀ m, ¬ Busy s m) :
    Phase definition (s.setTask n (some (.saving
      (.before s.pending (s.pending.elim [] (callbacksBefore definition)))))) ts := by
  have hold : Calm (s.tasks n) := by
    rw [hn]
    trivial
  cases hpending : s.pending with
  | none =>
    refine h.setTask_quiet hpending hold.quiet ⟨rfl, rfl⟩ fun old hlock => ?_
    rcases h.holder hlock with hn' | ⟨read, todo, hn'⟩
    · cases hn.symm.trans hn'
    · cases hn.symm.trans hn'
  | some t =>
    have hidle := hfollows (by simp [hpending])
    have hbusy {m : ℕ} {stage : Stage E S} (hm : s.tasks m = some (.saving stage))
        (hstage : stage ≠ .starting) : False := hidle m ⟨stage, hm, hstage⟩
    cases h with
    | idle hnone => cases hnone.symm.trans hpending
    | fired t' hdeclared hmoves hpending' hdb hchanges hlock hcalm hnew hcallbacks =>
      cases hpending.symm.trans hpending'
      refine .before n t (callbacksBefore definition t) hdeclared hmoves ?_ hpending hdb hchanges
        hlock ?_ hnew ?_
      · rw [setTask_tasks_self]
        rfl
      · intro m hm
        rw [setTask_tasks_of_ne hm]
        exact hcalm m
      · rw [← hcallbacks]
        rfl
    | before m _ _ _ _ hm => exact (hbusy hm (by simp)).elim
    | written m _ _ _ hm => exact (hbusy hm (by simp)).elim
    | after m _ _ _ _ hm => exact (hbusy hm (by simp)).elim

omit [DecidableEq S] in
theorem write_idle (h : Phase definition s ts) (hpending : s.pending = none)
    (hn : s.tasks n = some (.saving (.before none []))) {s' : State E S}
    (hwrite : write definition s n = some s') :
    Phase definition (s'.setTask n (some (.saving .written))) ts ∧ s'.persisted = s.persisted := by
  have hold : Quiet (s.tasks n) := by
    rw [hn]
    exact ⟨rfl, rfl⟩
  have hnotHolder (old : Option S) : s.lock ≠ some (n, old) := by
    intro hlock
    rcases h.holder hlock with hn' | ⟨read, todo, hn'⟩
    · cases hn.symm.trans hn'
    · cases hn.symm.trans hn'
  have hwritten {s' : State E S} (hidle : s.lock = none)
      (hs' : ∃ value old, s' =
        { s with
          db := some value, attributes := some value, changes := none, otherChanges := false
          isNewRecord := false, lock := some (n, old) } ∧ (old = none ∨ old = some value)) :
      Phase definition (s'.setTask n (some (.saving .written))) ts ∧
        s'.persisted = s.persisted := by
    obtain ⟨value, old, rfl, hold'⟩ := hs'
    refine ⟨?_, rfl⟩
    cases h with
    | idle _ hloaded hquiet hheld hcallbacks =>
      refine .idle hpending (fun value' hvalue => ⟨rfl, hvalue, rfl⟩) ?_ ?_ hcallbacks
      · exact forall_setTask (P := fun _ task => Quiet task) (fun m _ => hquiet m)
          (show Quiet (some (Task.saving Stage.written) : Option (Task E S)) from trivial)
      · intro m old' hm
        cases hm
        exact ⟨.inl (setTask_tasks_self ..), hold'⟩
    | fired t _ _ hsome => cases hsome.symm.trans hpending
    | before m t todo _ _ _ hsome => cases hsome.symm.trans hpending
    | written m t _ _ _ hsome => cases hsome.symm.trans hpending
    | after m t todo _ _ hm _ _ _ hmlock => cases hmlock.symm.trans hidle
  rw [write] at hwrite
  split_ifs at hwrite with hnew hguard hchanged hlocked
  · cases hwrite
    rw [not_or] at hguard
    exact hwritten (Option.not_isSome_iff_eq_none.1 hguard.2) ⟨_, none, rfl, .inl rfl⟩
  · obtain ⟨old, hdb, rfl⟩ := Option.map_eq_some_iff.1 hwrite
    rw [Option.not_isSome_iff_eq_none] at hlocked
    have hloaded : Loaded s old := by
      cases h with
      | idle _ hloaded => exact hloaded old hdb
      | fired t _ _ hsome => cases hsome.symm.trans hpending
      | before m t todo _ _ _ hsome => cases hsome.symm.trans hpending
      | written m t _ _ _ hsome => cases hsome.symm.trans hpending
      | after m t todo _ _ hm _ _ _ hmlock => cases hmlock.symm.trans hlocked
    refine hwritten hlocked ⟨old, some old, ?_, .inr rfl⟩
    rw [hloaded.1, Option.getD_none, hloaded.2.2]
  · cases hwrite
    exact ⟨h.setTask_quiet hpending hold trivial fun old hlock => absurd hlock (hnotHolder old), rfl⟩

omit [DecidableEq S] in
theorem advance_callback (h : Phase definition s ts) {callback : Callback E S}
    {todo : List (Callback E S)} {stage : List (Callback E S) → Stage E S}
    (hstage : (∃ read, stage = .before read) ∨ ∃ read, stage = .after read)
    (hn : s.tasks n = some (.saving (stage (callback :: todo)))) :
    Phase definition ({ s with callbacks := s.callbacks ++ [callback] }.setTask n
      (some (.saving (stage todo)))) ts := by
  have hnotQuiet : ¬ Quiet (s.tasks n) := by
    rw [hn]
    rcases hstage with ⟨read, rfl⟩ | ⟨read, rfl⟩
    · exact fun hquiet => by cases hquiet.2
    · exact fun hquiet => by cases hquiet.2
  cases h with
  | idle _ _ hquiet => exact absurd (hquiet n) hnotQuiet
  | fired t _ _ _ _ _ _ hcalm => exact absurd (hcalm n).quiet hnotQuiet
  | before m t todo' hdeclared hmoves hm hpending hdb hchanges hlock hcalm hnew hcallbacks =>
    obtain rfl : n = m := by
      by_contra hne
      exact hnotQuiet (hcalm n hne).quiet
    rcases hstage with ⟨read, rfl⟩ | ⟨read, rfl⟩
    · cases hm.symm.trans hn
      refine .before n t todo hdeclared hmoves (setTask_tasks_self ..) hpending hdb hchanges hlock
        ?_ hnew ?_
      · intro m hm'
        rw [setTask_tasks_of_ne hm']
        exact hcalm m hm'
      · rw [← hcallbacks]
        exact append_assoc ..
    · cases hm.symm.trans hn
  | written m t _ _ hm _ _ _ _ hcalm =>
    have hne : n ≠ m := by
      rintro rfl
      rcases hstage with ⟨read, rfl⟩ | ⟨read, rfl⟩
      · cases hm.symm.trans hn
      · cases hm.symm.trans hn
    exact absurd (hcalm n hne).quiet hnotQuiet
  | after m t todo' hdeclared hmoves hm hpending hdb hloaded hlock hquiet hcallbacks =>
    obtain rfl : n = m := by
      by_contra hne
      exact hnotQuiet (hquiet n hne)
    rcases hstage with ⟨read, rfl⟩ | ⟨read, rfl⟩
    · cases hm.symm.trans hn
    · cases hm.symm.trans hn
      refine .after n t todo hdeclared hmoves (setTask_tasks_self ..) hpending hdb hloaded hlock
        ?_ ?_
      · intro m hm'
        rw [setTask_tasks_of_ne hm']
        exact hquiet m hm'
      · rw [← hcallbacks]
        exact append_assoc ..

omit [DecidableEq S] in
theorem advance_write (h : Phase definition s ts) {read : Option (Transition E S)}
    (hn : s.tasks n = some (.saving (.before read []))) {s' : State E S}
    (hwrite : write definition s n = some s') :
    Phase definition (s'.setTask n (some (.saving .written))) ts ∧ s'.persisted = s.persisted := by
  have hquietRead (hquiet : Quiet (s.tasks n)) : read = none := by
    rw [hn] at hquiet
    exact hquiet.1
  have hcalmAbsurd (hcalm : Calm (s.tasks n)) : False := by
    rw [hn] at hcalm
    exact hcalm
  cases h with
  | idle hpending hloaded hquiet hheld hcallbacks =>
    obtain rfl := hquietRead (hquiet n)
    exact write_idle (.idle hpending hloaded hquiet hheld hcallbacks) hpending hn hwrite
  | fired t _ _ _ _ _ _ hcalm => exact (hcalmAbsurd (hcalm n)).elim
  | before m t todo' hdeclared hmoves hm hpending hdb hchanges hlock hcalm hnew hcallbacks =>
    obtain rfl : n = m := by
      by_contra hne
      exact hcalmAbsurd (hcalm n hne)
    cases hm.symm.trans hn
    simp only [write, hnew, hchanges, hlock, hdb, Bool.false_eq_true, if_false, Option.isSome_some,
      Bool.true_or, if_true, Option.isSome_none, Option.map_some, Option.getD_some,
      Option.some.injEq] at hwrite
    subst hwrite
    refine ⟨.written n t hdeclared hmoves (setTask_tasks_self ..) hpending rfl ⟨rfl, rfl, rfl⟩ rfl ?_
      ?_, rfl⟩
    · intro m hm'
      rw [setTask_tasks_of_ne hm']
      exact hcalm m hm'
    · rw [append_nil] at hcallbacks
      exact hcallbacks
  | written m t _ _ hm _ _ _ _ hcalm =>
    have hne : n ≠ m := by
      rintro rfl
      cases hm.symm.trans hn
    exact (hcalmAbsurd (hcalm n hne)).elim
  | after m t todo' hdeclared hmoves hm hpending hdb hloaded hlock hquiet hcallbacks =>
    have hne : n ≠ m := by
      rintro rfl
      cases hm.symm.trans hn
    obtain rfl := hquietRead (hquiet n hne)
    exact write_idle (.after m t todo' hdeclared hmoves hm hpending hdb hloaded hlock hquiet hcallbacks)
      hpending hn hwrite

omit [DecidableEq S] in
theorem advance_written (h : Phase definition s ts) (hn : s.tasks n = some (.saving .written)) :
    Phase definition ({ s with pending := none }.setTask n
      (some (.saving (.after s.pending (s.pending.elim [] (callbacksAfter definition)))))) ts := by
  cases hpending : s.pending with
  | none =>
    have hold : Quiet (s.tasks n) := by
      rw [hn]
      trivial
    have hsame : { s with pending := none } = s := by rw [← hpending]
    rw [hsame]
    exact h.setTask_quiet hpending hold ⟨rfl, rfl⟩ fun _ _ => .inr rfl
  | some t =>
    have hcalmAbsurd (hcalm : Calm (s.tasks n)) : False := by
      rw [hn] at hcalm
      exact hcalm
    cases h with
    | idle hnone => cases hnone.symm.trans hpending
    | fired t _ _ _ _ _ _ hcalm => exact (hcalmAbsurd (hcalm n)).elim
    | before m t' _ _ _ hm _ _ _ _ hcalm =>
      have hne : n ≠ m := by
        rintro rfl
        cases hm.symm.trans hn
      exact (hcalmAbsurd (hcalm n hne)).elim
    | written m t' hdeclared hmoves hm hpending' hdb hloaded hlock hcalm hcallbacks =>
      obtain rfl : n = m := by
        by_contra hne
        exact hcalmAbsurd (hcalm n hne)
      cases hpending.symm.trans hpending'
      refine .after n t (callbacksAfter definition t) hdeclared hmoves (setTask_tasks_self ..) rfl hdb
        hloaded hlock ?_ ?_
      · intro m hm'
        rw [setTask_tasks_of_ne hm']
        exact (hcalm m hm').quiet
      · show s.callbacks ++ _ = _
        rw [hcallbacks, append_assoc]
        rfl
    | after m _ _ _ _ _ hnone => cases hnone.symm.trans hpending

theorem advance_commit (h : Phase definition s ts) {read : Option (Transition E S)}
    (hn : s.tasks n = some (.saving (.after read []))) :
    Advanced definition s ((commit s n).setTask n none) ts := by
  have hcalmAbsurd (hcalm : Calm (s.tasks n)) : False := by
    rw [hn] at hcalm
    exact hcalm
  cases h with
  | idle hpending hloaded hquiet hheld hcallbacks =>
    have hphase : Phase definition s ts := .idle hpending hloaded hquiet hheld hcallbacks
    exact .inl (hphase.release hpending (hquiet n)).1
  | fired t _ _ _ _ _ _ hcalm => exact (hcalmAbsurd (hcalm n)).elim
  | before m t' _ _ _ hm _ _ _ _ hcalm =>
    have hne : n ≠ m := by
      rintro rfl
      cases hm.symm.trans hn
    exact (hcalmAbsurd (hcalm n hne)).elim
  | written m t' _ _ hm _ _ _ _ hcalm =>
    have hne : n ≠ m := by
      rintro rfl
      cases hm.symm.trans hn
    exact (hcalmAbsurd (hcalm n hne)).elim
  | after m t todo hdeclared hmoves hm hpending hdb hloaded hlock hquiet hcallbacks =>
    by_cases hne : n = m
    · subst hne
      cases hm.symm.trans hn
      have hcommit : commit s n = { s with
          lock := none, persisted := s.persisted ++ [(t.fromState, t.toState)] } := by
        simp [commit, hlock, hdb, hmoves]
      refine .inr ⟨t, hdeclared, ?_, by rw [hcommit]; rfl⟩
      rw [hcommit]
      refine .idle hpending (fun value hvalue => ?_) ?_ (fun m old hm => by cases hm) ?_
      · cases hdb.symm.trans hvalue
        exact hloaded
      · exact forall_setTask (P := fun _ task => Quiet task) hquiet
          (show Quiet (none : Option (Task E S)) from trivial)
      · show s.callbacks = _
        rw [append_nil] at hcallbacks
        rw [hcallbacks]
        simp
    · have hphase : Phase definition s ts :=
        .after m t todo hdeclared hmoves hm hpending hdb hloaded hlock hquiet hcallbacks
      exact .inl (hphase.release hpending (hquiet n hne)).1

theorem fail_phase (h : Phase definition s ts) {stage : Stage E S}
    (hn : s.tasks n = some (.saving stage)) (hcarried : carried s stage = none) :
    Phase definition ((rollback s n).setTask n none) ts ∧
      (rollback s n).persisted = s.persisted := by
  by_cases hpending : s.pending = none
  · refine (h.release hpending ?_).2
    cases h with
    | idle _ _ hquiet => exact hquiet n
    | fired t _ _ hsome => cases hsome.symm.trans hpending
    | before m t todo _ _ _ hsome => cases hsome.symm.trans hpending
    | written m t _ _ _ hsome => cases hsome.symm.trans hpending
    | after m t todo _ _ hm _ _ _ _ hquiet =>
      refine hquiet n ?_
      rintro rfl
      cases hm.symm.trans hn
      cases hcarried
  · -- a transition is stashed, so the save has not begun its transaction
    have hcalm : Calm (s.tasks n) := by
      cases h with
      | idle hnone => exact absurd hnone hpending
      | fired t _ _ _ _ _ _ hcalm => exact hcalm n
      | before m t todo _ _ hm _ _ _ _ hcalm =>
        refine hcalm n ?_
        rintro rfl
        cases hm.symm.trans hn
        cases hcarried
      | written m t _ _ hm hsome _ _ _ hcalm =>
        refine hcalm n ?_
        rintro rfl
        cases hm.symm.trans hn
        exact hpending hcarried
      | after m t todo _ _ _ hnone => exact absurd hnone hpending
    have hrollback : rollback s n = s := by
      rw [rollback]
      match hlock : s.lock with
      | none => rfl
      | some (m, old) =>
        refine if_neg fun hm : m = n => ?_
        subst hm
        rcases h.holder hlock with hm | ⟨read, todo, hm⟩
        · rw [hm] at hcalm
          exact hcalm
        · rw [hm] at hcalm
          exact hcalm
    rw [hrollback]
    exact ⟨h.setTask hcalm trivial, rfl⟩

end Phases

/-! ## Runs -/

section Runs

variable [DecidableEq S] (definition)

/-- A guard that is awaited belongs to an event from the state that was read. -/
def Sources (s : State E S) : Prop :=
  ∀ n eventName currentState, s.tasks n = some (.guarding eventName currentState) →
    ∃ event, definition.events eventName = some event ∧ currentState ∈ event.fromStates

def Inv (s : State E S) : Prop :=
  Sources definition s ∧ ∃ ts : List (Transition E S),
    s.persisted = ts.map (fun t => (t.fromState, t.toState)) ∧ (∀ t ∈ ts, Declared definition s t) ∧
      Phase definition s ts

variable {definition} {s s' : State E S}

omit [DecidableEq S] in
theorem Declared.mono {t : Transition E S} (h : Declared definition s t)
    (haccepted : s.accepted ⊆ s'.accepted) : Declared definition s' t := by
  obtain ⟨event, hevent, hsource, htarget, hguard⟩ := h
  exact ⟨event, hevent, hsource, htarget, fun hg => haccepted (hguard hg)⟩

omit [DecidableEq S] in
theorem Sources.setTask (h : Sources definition s) {n : ℕ} {task : Option (Task E S)}
    (htask : ∀ eventName currentState, task = some (.guarding eventName currentState) →
      ∃ event, definition.events eventName = some event ∧ currentState ∈ event.fromStates) :
    Sources definition (s.setTask n task) := fun m =>
  forall_setTask (P := fun _ task => ∀ eventName currentState,
    task = some (.guarding eventName currentState) →
      ∃ event, definition.events eventName = some event ∧ currentState ∈ event.fromStates)
    (fun m _ => h m) htask m

theorem enabledEvent_eq_some {eventName : E} {event : EventDefinition S} {currentState : S}
    (h : enabledEvent definition s eventName = some (event, currentState)) :
    definition.events eventName = some event ∧ s.read = some currentState ∧
      currentState ∈ event.fromStates := by
  obtain ⟨event', hevent, h⟩ := Option.bind_eq_some_iff.1 h
  obtain ⟨currentState', hread, h⟩ := Option.bind_eq_some_iff.1 h
  rw [Option.ite_none_right_eq_some] at h
  obtain ⟨hsource, heq⟩ := h
  cases heq
  exact ⟨hevent, hread, hsource⟩

theorem setState_fields (s : State E S) (value : S) :
    (s.setState value).tasks = s.tasks ∧ (s.setState value).persisted = s.persisted ∧
      (s.setState value).accepted = s.accepted := by
  rw [State.setState]
  split <;> exact ⟨rfl, rfl, rfl⟩

theorem fire_fields (s : State E S) (eventName : E) (event : EventDefinition S) (currentState : S) :
    (fire s eventName event currentState).tasks = s.tasks ∧
      (fire s eventName event currentState).persisted = s.persisted ∧
      s.accepted ⊆ (fire s eventName event currentState).accepted := by
  obtain ⟨htasks, hpersisted, haccepted⟩ := setState_fields
    { s with
      pending := some ⟨eventName, currentState, event.toState⟩
      accepted := if event.guard then s.accepted ++ [(eventName, s.db)] else s.accepted }
    event.toState
  refine ⟨htasks, hpersisted, ?_⟩
  rw [fire, haccepted]
  show s.accepted ⊆ if event.guard then s.accepted ++ [(eventName, s.db)] else s.accepted
  split
  · exact subset_append_left ..
  · exact List.Subset.refl _

omit [DecidableEq S] in
theorem Inv.of_phase (h : Inv definition s) (hsources : Sources definition s')
    (haccepted : s.accepted ⊆ s'.accepted)
    (hphase : ∀ ts, Phase definition s ts → Phase definition s' ts ∧ s'.persisted = s.persisted) :
    Inv definition s' := by
  obtain ⟨-, ts, hpersisted, hdeclared, hts⟩ := h
  obtain ⟨hts', hsame⟩ := hphase ts hts
  exact ⟨hsources, ts, hsame.trans hpersisted, fun t ht => (hdeclared t ht).mono haccepted, hts'⟩

omit [DecidableEq S] in
theorem Inv.setTask (h : Inv definition s) {n : ℕ} {task : Option (Task E S)}
    (hold : Calm (s.tasks n)) (htask : Calm task)
    (hsources : ∀ eventName currentState, task = some (.guarding eventName currentState) →
      ∃ event, definition.events eventName = some event ∧ currentState ∈ event.fromStates) :
    Inv definition (s.setTask n task) :=
  h.of_phase (h.1.setTask hsources) (List.Subset.refl _) fun _ hts => ⟨hts.setTask hold htask, rfl⟩

theorem Inv.fire (h : Inv definition s) {eventName : E} {event : EventDefinition S}
    {currentState : S} (hevent : definition.events eventName = some event)
    (hsource : currentState ∈ event.fromStates) (hfire : MayFire s currentState event) :
    Inv definition (fire s eventName event currentState) := by
  obtain ⟨htasks, hpersisted, haccepted⟩ := fire_fields s eventName event currentState
  refine h.of_phase ?_ haccepted fun ts hts => ⟨hts.fire hevent hsource hfire, hpersisted⟩
  intro n
  rw [htasks]
  exact h.1 n

theorem Inv.advance (h : Inv definition s) {n : ℕ} {stage : Stage E S}
    (hn : s.tasks n = some (.saving stage))
    (hfollows : s.tasks n = some (.saving .starting) → s.pending ≠ none → ∀ m, ¬ Busy s m)
    (hstep : advance definition s n stage = some s') : Inv definition s' := by
  have hsaving (stage : Stage E S) {s : State E S} (h : Sources definition s) :
      Sources definition (s.setTask n (some (.saving stage))) :=
    h.setTask fun _ _ heq => by cases heq
  match stage with
  | .starting =>
    cases hstep
    exact h.of_phase (hsaving _ h.1) (List.Subset.refl _) fun ts hts =>
      ⟨advance_starting hts hn (hfollows hn), rfl⟩
  | .before read (callback :: todo) =>
    cases hstep
    exact h.of_phase (hsaving _ h.1) (List.Subset.refl _) fun ts hts =>
      ⟨advance_callback hts (.inl ⟨read, rfl⟩) hn, rfl⟩
  | .before read [] =>
    obtain ⟨s₁, hwrite, rfl⟩ := Option.map_eq_some_iff.1 hstep
    have hsame : s₁.tasks = s.tasks ∧ s₁.accepted = s.accepted := by
      rw [write] at hwrite
      split_ifs at hwrite
      · cases hwrite
        exact ⟨rfl, rfl⟩
      · obtain ⟨old, -, rfl⟩ := Option.map_eq_some_iff.1 hwrite
        exact ⟨rfl, rfl⟩
      · cases hwrite
        exact ⟨rfl, rfl⟩
    refine h.of_phase (hsaving _ fun m => ?_) ?_ fun ts hts => advance_write hts hn hwrite
    · rw [hsame.1]
      exact h.1 m
    · rw [← hsame.2]
      exact List.Subset.refl _
  | .written =>
    cases hstep
    exact h.of_phase (hsaving _ h.1) (List.Subset.refl _) fun ts hts =>
      ⟨advance_written hts hn, rfl⟩
  | .after read (callback :: todo) =>
    cases hstep
    exact h.of_phase (hsaving _ h.1) (List.Subset.refl _) fun ts hts =>
      ⟨advance_callback hts (.inr ⟨read, rfl⟩) hn, rfl⟩
  | .after read [] =>
    cases hstep
    have hsame : (commit s n).tasks = s.tasks ∧ (commit s n).accepted = s.accepted := by
      rw [commit]
      split
      · exact ⟨rfl, rfl⟩
      · split <;> exact ⟨rfl, rfl⟩
    have hsources : Sources definition ((commit s n).setTask n none) :=
      Sources.setTask (fun m => by rw [hsame.1]; exact h.1 m) fun _ _ heq => by cases heq
    obtain ⟨-, ts, hpersisted, hdeclared, hts⟩ := h
    have hkept (t : Transition E S) (ht : Declared definition s t) :
        Declared definition ((commit s n).setTask n none) t :=
      ht.mono (by rw [← hsame.2]; exact List.Subset.refl _)
    rcases advance_commit hts hn with ⟨hphase, hsame'⟩ | ⟨t, ht, hphase, hmore⟩
    · exact ⟨hsources, ts, hsame'.trans hpersisted, fun t ht => hkept t (hdeclared t ht), hphase⟩
    · refine ⟨hsources, ts ++ [t], ?_, fun t' ht' => ?_, hphase⟩
      · rw [hmore, hpersisted, map_append]
        rfl
      · rcases mem_append.1 ht' with ht' | ht'
        · exact hkept t' (hdeclared t' ht')
        · rw [mem_singleton.1 ht']
          exact hkept t ht

theorem step_inv (s : State E S) (a : Action E) (s' : State E S) (h : Inv definition s)
    (hfollows : Follows definition s a) (hstep : step definition s a = some s') :
    Inv definition s' := by
  have hfree {n : ℕ} (hn : ¬ (s.tasks n).isSome) : Calm (s.tasks n) := by
    rw [Option.not_isSome_iff_eq_none.1 hn]
    trivial
  cases a with
  | change =>
    cases hstep
    exact h.of_phase h.1 (List.Subset.refl _) fun ts hts => ⟨hts.change, rfl⟩
  | event eventName guard =>
    rw [step] at hstep
    cases henabled : enabledEvent definition s eventName with
    | none =>
      rw [henabled] at hstep
      cases hstep
      exact h
    | some enabled =>
      obtain ⟨event, currentState⟩ := enabled
      obtain ⟨hevent, -, hsource⟩ := enabledEvent_eq_some henabled
      simp only [henabled] at hstep
      split_ifs at hstep with hguard
      · cases hstep
        exact h
      · cases hstep
        refine h.fire hevent hsource (hfollows event currentState henabled fun hg => ?_)
        simpa [hg] using hguard
  | eventAndSave n eventName =>
    rw [step] at hstep
    split_ifs at hstep with hn
    cases henabled : enabledEvent definition s eventName with
    | none =>
      rw [henabled] at hstep
      cases hstep
      exact h
    | some enabled =>
      obtain ⟨event, currentState⟩ := enabled
      obtain ⟨hevent, -, hsource⟩ := enabledEvent_eq_some henabled
      simp only [henabled] at hstep
      split_ifs at hstep with hguard
      · cases hstep
        refine h.setTask (hfree hn) trivial fun eventName' currentState' heq => ?_
        cases heq
        exact ⟨event, hevent, hsource⟩
      · cases hstep
        have hfire := hfollows event currentState henabled (by simpa using hguard)
        refine (h.fire hevent hsource hfire).setTask ?_ trivial fun _ _ heq => by cases heq
        rw [(fire_fields s eventName event currentState).1]
        exact hfree hn
  | guarded n allowed =>
    rw [step] at hstep
    match hn : s.tasks n with
    | none =>
      rw [hn] at hstep
      cases hstep
    | some (.saving stage) =>
      rw [hn] at hstep
      cases hstep
    | some (.guarding eventName currentState) =>
      simp only [hn] at hstep
      have hcalm : Calm (s.tasks n) := by
        rw [hn]
        trivial
      obtain ⟨event, hevent, hsource⟩ := h.1 n eventName currentState hn
      cases allowed with
      | true =>
        simp only [if_true, hevent, Option.map_some, Option.some.injEq] at hstep
        subst hstep
        have hfire := hfollows eventName currentState event hn hevent
        refine (h.fire hevent hsource hfire).setTask ?_ trivial fun _ _ heq => by cases heq
        rw [(fire_fields s eventName event currentState).1]
        exact hcalm
      | false =>
        simp only [Bool.false_eq_true, if_false, Option.some.injEq] at hstep
        subst hstep
        exact h.setTask hcalm trivial fun _ _ heq => by cases heq
  | save n =>
    rw [step] at hstep
    split_ifs at hstep with hn
    cases hstep
    exact h.setTask (hfree hn) trivial fun _ _ heq => by cases heq
  | advance n =>
    rw [step] at hstep
    match hn : s.tasks n with
    | none =>
      rw [hn] at hstep
      cases hstep
    | some (.guarding eventName currentState) =>
      rw [hn] at hstep
      cases hstep
    | some (.saving stage) =>
      simp only [hn] at hstep
      exact h.advance hn hfollows hstep
  | fail n =>
    rw [step] at hstep
    match hn : s.tasks n with
    | none =>
      rw [hn] at hstep
      cases hstep
    | some (.guarding eventName currentState) =>
      rw [hn] at hstep
      cases hstep
    | some (.saving stage) =>
      simp only [hn, Option.some.injEq] at hstep
      subst hstep
      have hsame : (rollback s n).tasks = s.tasks ∧ (rollback s n).accepted = s.accepted := by
        rw [rollback]
        split
        · exact ⟨rfl, rfl⟩
        · split <;> exact ⟨rfl, rfl⟩
      refine h.of_phase ?_ ?_ fun ts hts => fail_phase hts hn (hfollows stage hn)
      · exact Sources.setTask (fun m => by rw [hsame.1]; exact h.1 m) fun _ _ heq => by cases heq
      · rw [← hsame.2]
        exact List.Subset.refl _

end Runs

variable (definition) in
/-- **Transitions and callbacks agree** in every state of a run whose events are let through where
    they may, and whose saves carry their transition alone and to the end. -/
theorem transitions_consistent [DecidableEq S] {s s' : State E S} {actions : List (Action E)}
    (hs : Initial s) (hfollows : Along (step definition) (Follows definition) s actions)
    (h : runActions (step definition) s actions = some s') : Consistent definition s' := by
  have hinv : Inv definition s := by
    refine ⟨fun n eventName currentState hn => ?_, [], hs.persisted, fun t ht => (by cases ht), ?_⟩
    · cases (hs.tasks n).symm.trans hn
    · refine .idle hs.pending hs.loaded (fun m => ?_) (fun m old hm => ?_) hs.callbacks
      · rw [hs.tasks m]
        trivial
      · cases hs.lock.symm.trans hm
  obtain ⟨-, ts, hpersisted, hdeclared, hphase⟩ :=
    runActions_invariant step_inv actions hinv hfollows h
  refine ⟨ts, hpersisted, hdeclared, fun hidle => ?_⟩
  have hbusy {n : ℕ} {stage : Stage E S} (hn : s'.tasks n = some (.saving stage))
      (hstage : stage ≠ .starting) : False := hidle n ⟨stage, hn, hstage⟩
  cases hphase with
  | idle _ _ _ _ hcallbacks => exact hcallbacks
  | fired _ _ _ _ _ _ _ _ _ hcallbacks => exact hcallbacks
  | before n t todo _ _ hn => exact (hbusy hn (by simp)).elim
  | written n t _ _ hn => exact (hbusy hn (by simp)).elim
  | after n t todo _ _ hn => exact (hbusy hn (by simp)).elim

/-! ## Builds -/

/-- States of a build. -/
inductive BuildState where
  | queued
  | running
  | cancelled
  deriving DecidableEq

/-- Events of a build. -/
inductive BuildEvent where
  | run
  | cancel

/-- Both events lead away from a queued build, and have a guard. -/
def builds : Definition BuildEvent BuildState where
  events
    | .run => some ⟨[.queued], .running, true, true, false⟩
    | .cancel => some ⟨[.queued], .cancelled, true, false, false⟩
  states _ := some ⟨false, false, false, false⟩
  columnDefault := .queued

def queuedBuild : State BuildEvent BuildState where
  db := some .queued
  isNewRecord := false
  attributes := some .queued
  changes := none
  otherChanges := false
  pending := none
  tasks _ := none
  lock := none
  callbacks := []
  persisted := []
  accepted := []

def runAndSave : List (Action BuildEvent) :=
  [.eventAndSave 0 .run, .guarded 0 true, .advance 0, .advance 0, .advance 0, .advance 0, .advance 0]

theorem initial_queuedBuild : Initial queuedBuild where
  loaded value hvalue := by
    cases hvalue
    exact ⟨rfl, rfl, rfl⟩
  pending := rfl
  tasks _ := rfl
  lock := rfl
  callbacks := rfl
  persisted := rfl

theorem transitions_consistent_run : ∃ s', runActions (step builds) queuedBuild runAndSave = some s' ∧
    s'.persisted = [(.queued, .running)] ∧ Consistent builds s' := by
  have hcalm (task : Task BuildEvent BuildState) (htask : Calm (some task)) (n : ℕ) :
      Calm ((queuedBuild.setTask 0 (some task)).tasks n) :=
    forall_setTask (P := fun _ task => Calm task)
      (fun m _ => show Calm (queuedBuild.tasks m) from trivial) htask n
  have hguarding : Calm (some (.guarding .run .queued : Task BuildEvent BuildState)) := trivial
  have hfollows : Along (step builds) (Follows builds) queuedBuild runAndSave := by
    refine ⟨fun event currentState henabled hguard => ?_, fun eventName currentState event hn hevent =>
      ?_, fun _ _ m => ?_, fun hn => ?_, fun hn => ?_, fun hn => ?_, fun hn => ?_, trivial⟩
    · cases henabled
      cases hguard
    · cases hn
      cases hevent
      exact ⟨rfl, rfl, rfl, by decide, fun n => not_busy_of_calm (hcalm _ hguarding n)⟩
    · refine not_busy_of_calm (forall_setTask (P := fun _ task => Calm task) (fun m _ => ?_) ?_ m)
      · exact hcalm _ hguarding m
      · trivial
    all_goals cases hn
  exact ⟨_, rfl, rfl, transitions_consistent builds initial_queuedBuild hfollows rfl⟩

theorem not_consistent_of_cancelled {s : State BuildEvent BuildState}
    (h : s.persisted = [(.queued, .running), (.running, .cancelled)]) : ¬ Consistent builds s := by
  rintro ⟨ts, hpersisted, hdeclared, -⟩
  rw [h] at hpersisted
  have hmem : (BuildState.running, BuildState.cancelled) ∈
      ts.map fun t => (t.fromState, t.toState) := by
    rw [← hpersisted]
    simp
  obtain ⟨t, ht, heq⟩ := mem_map.1 hmem
  obtain ⟨event, hevent, hsource, -⟩ := hdeclared t ht
  rw [(Prod.mk.inj heq).1] at hsource
  cases hname : t.eventName <;> rw [hname] at hevent <;> cases hevent <;> simp at hsource

/-- `build.runAndSave()` and `build.cancelAndSave()`, both started on a queued build: the running
    build is cancelled, which no event allows. -/
theorem running_build_is_cancelled : ∃ s', runActions (step builds) queuedBuild
    [.eventAndSave 0 .run, .eventAndSave 1 .cancel, .guarded 0 true, .advance 0, .advance 0,
      .advance 0, .advance 0, .advance 0, .guarded 1 true, .advance 1, .advance 1, .advance 1,
      .advance 1] = some s' ∧ ¬ Consistent builds s' :=
  ⟨_, rfl, not_consistent_of_cancelled rfl⟩

end Velocious.StateMachine
