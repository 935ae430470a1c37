/-
  The readiness of the sequence and scope tables: `ensureReady` of
  src/sync/server-sequence-allocator.js and src/sync/sync-scope-store.js, on databases whose DDL is
  transactional.

  * Calls of `next` and `findOrCreateScope` on any number of instances and connections run up to
    their next statement in one step. What the code does when a statement has returned, up to its
    next one, is part of the step of the statement.
  * A transaction neither begins nor ends on a connection between the two statements of a check, as
    a call is made either outside transactions or inside one that ends later.
  * The schema cache of a connection is cleared when a table is created and when a transaction is
    rolled back. So the probe sees no table that is not there; that it may miss one is allowed.
    Savepoints are left out: rolling back to one does not clear the cache.
-/
import Velocious.Foundation.Machine
import Velocious.Foundation.TransactionalDdl

namespace Velocious.TableReadiness

open Foundation List

/-- Who asks. -/
inductive Kind where
  | allocator
  | store
  deriving DecidableEq

/-- The fields of an instance; a promise is named by the call that made it. -/
structure Instance where
  isReady : Bool
  readyPromise : Option ℕ
  /-- `_transactionReadyPromises` of a store: the number of the connection's transaction, which
  stands for its completion, and the promise -/
  transactionReady : ℕ → Option (ℕ × ℕ)

/-- Where a call is. -/
inductive Phase where
  | starting
  | awaitingCheck (call : ℕ)
  | awaitingReady (call : ℕ)
  | probing
  | creating
  | ready
  | inserted
  | missing
  | failed
  deriving DecidableEq

/-- A call that needs the table. -/
structure Call where
  owner : ℕ
  connection : ℕ
  phase : Phase
  completion : Option ℕ
  created : Bool
  deriving DecidableEq

/-- The database and its callers. -/
structure State where
  database : Ddl ℕ ℕ
  instances : ℕ → Instance
  calls : List Call
  /-- a check has found the table in the transaction that created it, which is still open; the code
  does not keep this -/
  found : ℕ → Bool

def initial : State := ⟨.empty, fun _ => ⟨false, none, fun _ => none⟩, [], fun _ => false⟩

/-- What can happen. -/
inductive Action where
  | call (owner connection : ℕ)
  | ensure (k : ℕ)
  | resume (k : ℕ)
  | probe (k : ℕ) (seen : Bool)
  | create (k : ℕ)
  | fail (k : ℕ)
  | insert (k : ℕ)
  | begin (connection : ℕ)
  | commit (connection : ℕ)
  | rollback (connection : ℕ)
  deriving DecidableEq

def Call.checking (call : Call) : Bool := call.phase = .probing || call.phase = .creating

def State.busy (s : State) (connection : ℕ) : Bool :=
  s.calls.any fun call => call.connection = connection && call.checking

def setCall (s : State) (k : ℕ) (call : Call) : State := { s with calls := s.calls.set k call }

def setInstance (s : State) (owner : ℕ) (i : Instance) : State :=
  { s with instances := Function.update s.instances owner i }

section
variable (kind : ℕ → Kind) (table : ℕ → ℕ)

/-! ## The code -/

def beginCheck (s : State) (k : ℕ) (call : Call) (completion : Option ℕ) : State :=
  let i := s.instances call.owner
  let transactionReady := match completion with
    | none => i.transactionReady
    | some n => Function.update i.transactionReady call.connection (some (n, k))
  setInstance (setCall s k { call with phase := .probing, completion, created := false }) call.owner
    { i with readyPromise := some k, transactionReady }

/-- `ensureReady` of an allocator that is not ready. -/
def ensureAllocator (s : State) (k : ℕ) (call : Call) : State :=
  match (s.instances call.owner).readyPromise with
  | some p => setCall s k { call with phase := .awaitingCheck p }
  | none => beginCheck s k call none

def ensureReadyWithDb (s : State) (k : ℕ) (call : Call) : State :=
  let i := s.instances call.owner
  let completion := if s.database.inside call.connection then
    some (s.database.transactions call.connection) else none
  let transactionReady := completion.bind fun n =>
    (i.transactionReady call.connection).filter fun ready => ready.1 = n
  match transactionReady, i.readyPromise with
  | some (_, p), _ => setCall s k { call with phase := .awaitingCheck p }
  | none, some p => setCall s k { call with phase := .awaitingReady p }
  | none, none => beginCheck s k call completion

def ensureReady (s : State) (k : ℕ) (call : Call) : State :=
  if (s.instances call.owner).isReady then setCall s k { call with phase := .ready }
  else
    match kind call.owner with
    | .allocator => ensureAllocator s k call
    | .store => ensureReadyWithDb s k call

def foundTable (s : State) (k : ℕ) (call : Call) : State :=
  let t := table call.owner
  { setInstance (setCall s k { call with phase := .ready }) call.owner
      { s.instances call.owner with isReady := true } with
    found := if s.database.pending t = some call.connection then Function.update s.found t true
      else s.found }

/-- The `finally` of a check: what is not ready is checked again. -/
def Instance.again (i : Instance) : Instance :=
  { i with readyPromise := if i.isReady then i.readyPromise else none }

/-- The check of a call has created the table. -/
def createdTable (s : State) (k : ℕ) (call : Call) : State :=
  let i := s.instances call.owner
  let i' := match kind call.owner, call.completion with
    | .allocator, _ =>
      if s.database.inside call.connection then i.again else { i with isReady := true }
    | .store, none => { i with isReady := true }
    -- the promise awaits the end of the transaction
    | .store, some _ => i
  { setInstance (setCall s k { call with phase := .ready, created := true }) call.owner i' with
    database := s.database.create call.connection (table call.owner) }

def failCheck (s : State) (k : ℕ) (call : Call) : State :=
  let i := s.instances call.owner
  let i' := match kind call.owner, call.completion with
    | .allocator, _ | .store, none => i.again
    -- the store keeps the promise that was rejected
    | .store, some _ => i
  setInstance (setCall s k { call with phase := .failed }) call.owner i'

/-- The `_readyPromise` that a call has made has settled. -/
def settled (s : State) (maker : Call) : Bool :=
  !maker.checking && !(maker.created && maker.completion.any fun n =>
    s.database.inside maker.connection && s.database.transactions maker.connection = n)

/-- A call that awaits the check of another goes on. -/
def resumeChecked (s : State) (k : ℕ) (call maker : Call) : State :=
  setCall s k { call with phase := if maker.phase = .failed then .failed else .ready }

/-- A call that awaits the `_readyPromise` of another goes on. -/
def resumeReady (s : State) (k p : ℕ) (call maker : Call) : State :=
  let i := s.instances call.owner
  if maker.phase = .failed then setCall s k { call with phase := .failed }
  else setInstance (setCall s k { call with phase := if i.isReady then .ready else .starting })
    call.owner { i with readyPromise := i.readyPromise.filter (· ≠ p) }

/-- What has been found, but for what the transaction of a connection has created. -/
def stillFound (s : State) (connection t : ℕ) : Bool :=
  s.found t && s.database.pending t ≠ some connection

def step (s : State) : Action → Option State
  | .call owner connection =>
    some { s with calls := s.calls ++ [⟨owner, connection, .starting, none, false⟩] }
  | .ensure k => s.calls[k]?.bind fun call =>
    if call.phase = .starting then some (ensureReady kind s k call) else none
  | .resume k => s.calls[k]?.bind fun call =>
    match call.phase with
    | .awaitingCheck p => s.calls[p]?.bind fun maker =>
      if maker.checking = false then some (resumeChecked s k call maker) else none
    | .awaitingReady p => s.calls[p]?.bind fun maker =>
      if settled s maker = true then some (resumeReady s k p call maker) else none
    | .starting | .probing | .creating | .ready | .inserted | .missing | .failed => none
  | .probe k true => s.calls[k]?.bind fun call =>
    if call.phase = .probing ∧ s.database.visible call.connection (table call.owner) = true then
      some (foundTable table s k call)
    else none
  | .probe k false => s.calls[k]?.bind fun call =>
    if call.phase = .probing then some (setCall s k { call with phase := .creating }) else none
  | .create k => s.calls[k]?.bind fun call =>
    if call.phase = .creating ∧
        s.database.canCreate call.connection (table call.owner) = true then
      some (createdTable kind table s k call)
    else none
  | .fail k => s.calls[k]?.bind fun call =>
    if call.checking = true then some (failCheck kind s k call) else none
  | .insert k => s.calls[k]?.bind fun call =>
    if call.phase = .ready then
      let there := s.database.visible call.connection (table call.owner)
      some (setCall s k { call with phase := if there then .inserted else .missing })
    else none
  | .begin connection =>
    if s.database.inside connection = false ∧ s.busy connection = false then
      some { s with database := s.database.beginTransaction connection }
    else none
  | .commit connection =>
    if s.database.inside connection = true ∧ s.busy connection = false then
      some { s with
        database := s.database.commit connection
        found := stillFound s connection }
    else none
  | .rollback connection =>
    if s.database.inside connection = true ∧ s.busy connection = false then
      some { s with
        database := s.database.rollback connection
        found := stillFound s connection }
    else none

def Durable (s : State) : Prop :=
  ∀ owner, (s.instances owner).isReady = true → s.database.committed (table owner) = true

/-- The table of an instance that is ready is committed, or will be if the transaction that has
created it commits. -/
def Backed (s : State) : Prop :=
  ∀ owner, (s.instances owner).isReady = true →
    s.database.committed (table owner) = true ∨ s.database.pending (table owner) ≠ none

def FindsCommitted (s : State) : Action → Prop
  | .probe k true => ∀ call, s.calls[k]? = some call →
    s.database.committed (table call.owner) = true
  | .call _ _ | .ensure _ | .resume _ | .probe _ false | .create _ | .fail _ | .insert _
  | .begin _ | .commit _ | .rollback _ => True

/-- A transaction that is rolled back has created no table that a check has found since. -/
def UndoesUnfound (s : State) : Action → Prop
  | .rollback connection => ∀ t, s.database.pending t = some connection → s.found t = false
  | .call _ _ | .ensure _ | .resume _ | .probe _ _ | .create _ | .fail _ | .insert _
  | .begin _ | .commit _ => True

/-! ## Steps -/

/-- A store that checks outside transactions does so on a connection that is in none. -/
def Call.Sound (d : Ddl ℕ ℕ) (call : Call) : Prop :=
  call.checking = true → kind call.owner = .store → call.completion = none →
    d.inside call.connection = false

variable {kind table}

/-- What a step does, as far as readiness depends on it. -/
inductive Moves (kind : ℕ → Kind) (table : ℕ → ℕ) (s : State) : Action → State → Prop where
  /-- calls and promises only -/
  | quiet {a s'} : s'.database = s.database → s'.found = s.found →
      (∀ owner, (s'.instances owner).isReady = (s.instances owner).isReady) →
      ((∀ call ∈ s.calls, call.Sound kind s.database) →
        ∀ call ∈ s'.calls, call.Sound kind s.database) →
      (∀ k, a ≠ .probe k true) → (∀ connection, a ≠ .rollback connection) → Moves kind table s a s'
  | found {k call} : s.calls[k]? = some call →
      s.database.visible call.connection (table call.owner) = true →
      Moves kind table s (.probe k true) (foundTable table s k call)
  | created {k call} : s.calls[k]? = some call → call.checking = true →
      s.database.canCreate call.connection (table call.owner) = true →
      Moves kind table s (.create k) (createdTable kind table s k call)
  | begun {connection} : s.busy connection = false →
      Moves kind table s (.begin connection)
        { s with database := s.database.beginTransaction connection }
  | committed {connection} : Moves kind table s (.commit connection)
      { s with database := s.database.commit connection, found := stillFound s connection }
  | rolledBack {connection} : Moves kind table s (.rollback connection)
      { s with database := s.database.rollback connection, found := stillFound s connection }

variable {s s' : State} {a : Action} {k : ℕ} {call new : Call}

theorem mem_setCall (h : call ∈ (setCall s k new).calls) : call ∈ s.calls ∨ call = new :=
  mem_or_eq_of_mem_set h

theorem sound_setCall {d : Ddl ℕ ℕ} (h : ∀ call ∈ s.calls, call.Sound kind d)
    (hnew : new.Sound kind d) : ∀ call ∈ (setCall s k new).calls, call.Sound kind d := by
  intro call hcall
  rcases mem_setCall hcall with hold | rfl
  · exact h call hold
  · exact hnew

theorem sound_of_not_checking {d : Ddl ℕ ℕ} (h : call.checking = false) : call.Sound kind d := by
  intro hchecking
  rw [h] at hchecking
  cases hchecking

theorem moves_setCall (h : new.checking = false) (hprobe : ∀ k, a ≠ .probe k true)
    (hrollback : ∀ connection, a ≠ .rollback connection) :
    Moves kind table s a (setCall s k new) := by
  exact .quiet rfl rfl (fun _ => rfl) (fun hs => sound_setCall hs (sound_of_not_checking h)) hprobe
    hrollback

theorem isReady_setInstance {owner owner' : ℕ} {i : Instance}
    (h : i.isReady = (s.instances owner).isReady) :
    ((setInstance s owner i).instances owner').isReady = (s.instances owner').isReady := by
  by_cases howner : owner' = owner
  · subst howner
    simpa [setInstance] using h
  · simp [setInstance, howner]

theorem moves_setInstance {owner : ℕ} {i : Instance} (h : new.checking = false)
    (hi : i.isReady = (s.instances owner).isReady) (hprobe : ∀ k, a ≠ .probe k true)
    (hrollback : ∀ connection, a ≠ .rollback connection) :
    Moves kind table s a (setInstance (setCall s k new) owner i) := by
  exact .quiet rfl rfl (fun _ => isReady_setInstance hi)
    (fun hs => sound_setCall hs (sound_of_not_checking h)) hprobe hrollback

theorem moves_beginCheck {completion : Option ℕ}
    (h : kind call.owner = .store → completion = none →
      s.database.inside call.connection = false) :
    Moves kind table s (.ensure k) (beginCheck s k call completion) := by
  exact .quiet rfl rfl (fun _ => isReady_setInstance rfl)
    (fun hs => sound_setCall hs fun _ hkind hnone => h hkind hnone) (by simp) (by simp)

theorem moves_ensureReady : Moves kind table s (.ensure k) (ensureReady kind s k call) := by
  unfold ensureReady
  split
  · exact moves_setCall rfl (by simp) (by simp)
  split
  · rename_i hkind
    unfold ensureAllocator
    split
    · exact moves_setCall rfl (by simp) (by simp)
    · exact moves_beginCheck (by simp [hkind])
  · unfold ensureReadyWithDb
    dsimp only
    split
    · exact moves_setCall rfl (by simp) (by simp)
    · exact moves_setCall rfl (by simp) (by simp)
    · refine moves_beginCheck fun _ hnone => ?_
      simpa using hnone

theorem moves_of_step (h : step kind table s a = some s') : Moves kind table s a s' := by
  cases a with
  | call owner connection =>
    cases h
    refine .quiet rfl rfl (fun _ => rfl) (fun hs call hcall => ?_) (by simp) (by simp)
    rcases mem_append.mp hcall with hold | hnew
    · exact hs call hold
    · obtain rfl := mem_singleton.mp hnew
      exact sound_of_not_checking rfl
  | ensure k =>
    simp only [step, Option.bind_eq_some_iff, Option.ite_none_right_eq_some] at h
    obtain ⟨call, -, -, h⟩ := h
    cases h
    exact moves_ensureReady
  | resume k =>
    simp only [step, Option.bind_eq_some_iff] at h
    obtain ⟨call, -, h⟩ := h
    split at h
    · simp only [Option.bind_eq_some_iff, Option.ite_none_right_eq_some] at h
      obtain ⟨maker, -, -, h⟩ := h
      cases h
      unfold resumeChecked
      split <;> exact moves_setCall rfl (by simp) (by simp)
    · simp only [Option.bind_eq_some_iff, Option.ite_none_right_eq_some] at h
      obtain ⟨maker, -, -, h⟩ := h
      cases h
      unfold resumeReady
      split
      · exact moves_setCall rfl (by simp) (by simp)
      · dsimp only
        split <;> exact moves_setInstance rfl rfl (by simp) (by simp)
    all_goals cases h
  | probe k seen =>
    cases seen with
    | true =>
      simp only [step, Option.bind_eq_some_iff, Option.ite_none_right_eq_some] at h
      obtain ⟨call, hcall, ⟨-, hvisible⟩, h⟩ := h
      cases h
      exact .found hcall hvisible
    | false =>
      simp only [step, Option.bind_eq_some_iff, Option.ite_none_right_eq_some] at h
      obtain ⟨call, hcall, hphase, h⟩ := h
      cases h
      refine .quiet rfl rfl (fun _ => rfl) (fun hs => sound_setCall hs fun _ => ?_) (by simp)
        (by simp)
      exact hs call (mem_of_getElem? hcall) (by simp [Call.checking, hphase])
  | create k =>
    simp only [step, Option.bind_eq_some_iff, Option.ite_none_right_eq_some] at h
    obtain ⟨call, hcall, ⟨hphase, hcan⟩, h⟩ := h
    cases h
    exact .created hcall (by simp [Call.checking, hphase]) hcan
  | fail k =>
    simp only [step, Option.bind_eq_some_iff, Option.ite_none_right_eq_some] at h
    obtain ⟨call, -, -, h⟩ := h
    cases h
    refine moves_setInstance rfl ?_ (by simp) (by simp)
    split <;> rfl
  | insert k =>
    simp only [step, Option.bind_eq_some_iff, Option.ite_none_right_eq_some] at h
    obtain ⟨call, -, -, h⟩ := h
    cases h
    refine moves_setCall ?_ (by simp) (by simp)
    split <;> rfl
  | begin connection =>
    simp only [step, Option.ite_none_right_eq_some] at h
    obtain ⟨⟨-, hbusy⟩, h⟩ := h
    cases h
    exact .begun hbusy
  | commit connection =>
    simp only [step, Option.ite_none_right_eq_some] at h
    cases h.2
    exact .committed
  | rollback connection =>
    simp only [step, Option.ite_none_right_eq_some] at h
    cases h.2
    exact .rolledBack

/-! ## The invariant -/

/-- The invariant of the runs. -/
structure Inv (kind : ℕ → Kind) (table : ℕ → ℕ) (s : State) : Prop where
  valid : s.database.Valid
  sound : ∀ call ∈ s.calls, call.Sound kind s.database
  /-- what a check has found is pending, and made an instance ready -/
  found : ∀ t, s.found t = true → s.database.pending t ≠ none ∧
    ∃ owner, table owner = t ∧ (s.instances owner).isReady = true

theorem inv_initial : Inv kind table initial :=
  ⟨Ddl.valid_empty, by simp [initial], by simp [initial]⟩

section
variable {owner connection t : ℕ}

theorem isReady_foundTable : ((foundTable table s k call).instances owner).isReady = true ↔
    owner = call.owner ∨ (s.instances owner).isReady = true := by
  by_cases h : owner = call.owner <;> simp [foundTable, setInstance, setCall, h]

theorem isReady_createdTable (hsound : call.Sound kind s.database) (hcheck : call.checking = true)
    (h : ((createdTable kind table s k call).instances owner).isReady = true) :
    (s.instances owner).isReady = true ∨
      owner = call.owner ∧ s.database.inside call.connection = false := by
  by_cases howner : owner = call.owner
  · subst howner
    simp only [createdTable, setInstance, Function.update_self] at h
    split at h
    · split at h
      · exact .inl h
      · rename_i hinside
        exact .inr ⟨rfl, by simpa using hinside⟩
    · rename_i hkind hnone
      exact .inr ⟨rfl, hsound hcheck hkind hnone⟩
    · exact .inl h
  · simpa [createdTable, setInstance, setCall, howner] using h

theorem isReady_createdTable_of (h : (s.instances owner).isReady = true) :
    ((createdTable kind table s k call).instances owner).isReady = true := by
  by_cases howner : owner = call.owner
  · subst howner
    simp only [createdTable, setInstance, Function.update_self]
    split
    · split
      · exact h
      · rfl
    · rfl
    · exact h
  · simpa [createdTable, setInstance, setCall, howner] using h

theorem not_checking_of_busy (hbusy : s.busy connection = false) (hcall : call ∈ s.calls)
    (hconnection : call.connection = connection) : call.checking = false := by
  simp only [State.busy, any_eq_false] at hbusy
  simpa [hconnection] using hbusy call hcall

theorem Inv.ended (h : Inv kind table s) {d : Ddl ℕ ℕ} (hvalid : d.Valid)
    (hinside : d.inside = Function.update s.database.inside connection false)
    (hpending : d.pending = fun t => (s.database.pending t).filter (· ≠ connection)) :
    Inv kind table { s with database := d, found := stillFound s connection } := by
  refine ⟨hvalid, fun call hcall hcheck hkind hnone => ?_, fun t ht => ?_⟩
  · by_cases hconnection : call.connection = connection
    · simp [hinside, hconnection]
    · simpa [hinside, hconnection] using h.sound call hcall hcheck hkind hnone
  · simp only [stillFound, Bool.and_eq_true, decide_eq_true_eq] at ht
    obtain ⟨hne, hready⟩ := h.found t ht.1
    refine ⟨?_, hready⟩
    obtain ⟨c, hc⟩ := Option.ne_none_iff_exists'.mp hne
    have hcne : c ≠ connection := by
      rintro rfl
      exact ht.2 hc
    simp [hpending, hc, hcne]

theorem Inv.step (h : Inv kind table s) (hmoves : Moves kind table s a s') :
    Inv kind table s' := by
  cases hmoves with
  | quiet hdatabase hfound hready hsound =>
    refine ⟨hdatabase ▸ h.valid, ?_, fun t ht => ?_⟩
    · rw [hdatabase]
      exact hsound h.sound
    · rw [hfound] at ht
      obtain ⟨hne, owner, howner, howner'⟩ := h.found t ht
      exact ⟨hdatabase ▸ hne, owner, howner, (hready owner).trans howner'⟩
  | @found k call hcall hvisible =>
    refine ⟨h.valid, sound_setCall h.sound (sound_of_not_checking rfl), fun t ht => ?_⟩
    simp only [foundTable] at ht
    have hold : s.found t = true → (foundTable table s k call).database.pending t ≠ none ∧
        ∃ owner, table owner = t ∧
          ((foundTable table s k call).instances owner).isReady = true := by
      intro ht
      obtain ⟨hne, owner, howner, hready⟩ := h.found t ht
      exact ⟨hne, owner, howner, isReady_foundTable.mpr (.inr hready)⟩
    split at ht
    · rename_i hpending
      by_cases heq : t = table call.owner
      · subst heq
        refine ⟨?_, call.owner, rfl, isReady_foundTable.mpr (.inl rfl)⟩
        intro hnone
        have hnone' : s.database.pending (table call.owner) = none := hnone
        rw [hnone'] at hpending
        cases hpending
      · exact hold (by simpa [heq] using ht)
    · exact hold ht
  | @created k call hcall hcheck hcan =>
    refine ⟨h.valid.create hcan, ?_, fun t ht => ?_⟩
    · intro call' hcall' hcheck' hkind hnone
      have hnew : Call.Sound kind s.database { call with phase := .ready, created := true } :=
        sound_of_not_checking rfl
      have hinside := sound_setCall h.sound hnew call' hcall' hcheck' hkind hnone
      simpa [createdTable] using hinside
    · obtain ⟨hne, owner, howner, hready⟩ := h.found t ht
      exact ⟨Ddl.pending_create hne, owner, howner, isReady_createdTable_of hready⟩
  | @begun connection hbusy =>
    refine ⟨h.valid.beginTransaction, fun call hcall hcheck hkind hnone => ?_, h.found⟩
    have hne : call.connection ≠ connection := by
      intro hconnection
      rw [not_checking_of_busy hbusy hcall hconnection] at hcheck
      cases hcheck
    simpa [Ddl.beginTransaction, hne] using h.sound call hcall hcheck hkind hnone
  | committed => exact h.ended h.valid.commit rfl rfl
  | rolledBack => exact h.ended h.valid.rollback rfl rfl

end

/-! ## One step of readiness -/

theorem findsCommitted_of_ne (h : ∀ k, a ≠ .probe k true) : FindsCommitted table s a := by
  unfold FindsCommitted
  split
  · exact absurd rfl (h _)
  all_goals trivial

theorem undoesUnfound_of_ne (h : ∀ connection, a ≠ .rollback connection) : UndoesUnfound s a := by
  unfold UndoesUnfound
  split
  · exact absurd rfl (h _)
  all_goals trivial

/-- **A step keeps the tables of ready instances committed** exactly if a check that finds a table
finds one that is committed. -/
theorem durable_step (h : Inv kind table s) (hdurable : Durable table s)
    (hmoves : Moves kind table s a s') : Durable table s' ↔ FindsCommitted table s a := by
  cases hmoves with
  | quiet hdatabase hfound hready hsound hprobe hrollback =>
    refine iff_of_true (fun owner howner => ?_) (findsCommitted_of_ne hprobe)
    rw [hready] at howner
    rw [hdatabase]
    exact hdurable owner howner
  | @found k call hcall hvisible =>
    constructor
    · intro h' call' hcall'
      cases hcall.symm.trans hcall'
      exact h' call.owner (isReady_foundTable.mpr (.inl rfl))
    · intro hcommitted owner hready
      rcases isReady_foundTable.mp hready with rfl | hready
      · exact hcommitted call hcall
      · exact hdurable owner hready
  | @created k call hcall hcheck hcan =>
    refine iff_of_true (fun owner hready => ?_) (findsCommitted_of_ne (by simp))
    rcases isReady_createdTable (h.sound call (mem_of_getElem? hcall)) hcheck hready with
      hready | ⟨rfl, hinside⟩
    · exact Ddl.committed_create (hdurable owner hready)
    · exact Ddl.create_committed hinside
  | begun hbusy => exact iff_of_true hdurable (findsCommitted_of_ne (by simp))
  | committed =>
    exact iff_of_true (fun owner hready => Ddl.committed_commit (hdurable owner hready))
      (findsCommitted_of_ne (by simp))
  | rolledBack => exact iff_of_true hdurable (findsCommitted_of_ne (by simp))

/-- An instance that is ready has a table that is committed, or pending and found. -/
def Tracked (table : ℕ → ℕ) (s : State) : Prop :=
  ∀ owner, (s.instances owner).isReady = true →
    s.database.committed (table owner) = true ∨ s.found (table owner) = true

theorem Inv.backed (h : Inv kind table s) (htracked : Tracked table s) : Backed table s :=
  fun owner hready => (htracked owner hready).imp_right fun hfound => (h.found _ hfound).1

theorem tracked_step (h : Inv kind table s) (htracked : Tracked table s)
    (hmoves : Moves kind table s a s') (hok : UndoesUnfound s a) : Tracked table s' := by
  cases hmoves with
  | quiet hdatabase hfound hready hsound =>
    intro owner howner
    rw [hready] at howner
    rw [hdatabase, hfound]
    exact htracked owner howner
  | @found k call hcall hvisible =>
    intro owner hready
    have hmono : s.found (table owner) = true →
        (foundTable table s k call).found (table owner) = true := by
      intro hfound
      simp only [foundTable]
      split
      · by_cases heq : table owner = table call.owner <;> simp [heq, hfound]
      · exact hfound
    rcases isReady_foundTable.mp hready with rfl | hready
    · rcases Bool.or_eq_true_iff.mp hvisible with hcommitted | hpending
      · exact .inl hcommitted
      · simp [foundTable, of_decide_eq_true hpending]
    · exact (htracked owner hready).imp_right hmono
  | @created k call hcall hcheck hcan =>
    intro owner hready
    rcases isReady_createdTable (h.sound call (mem_of_getElem? hcall)) hcheck hready with
      hready | ⟨rfl, hinside⟩
    · exact (htracked owner hready).imp_left Ddl.committed_create
    · exact .inl (Ddl.create_committed hinside)
  | begun hbusy => exact htracked
  | @committed connection =>
    intro owner hready
    rcases htracked owner hready with hcommitted | hfound
    · exact .inl (Ddl.committed_commit hcommitted)
    · by_cases hpending : s.database.pending (table owner) = some connection
      · simp [Ddl.commit, hpending]
      · simp [stillFound, hfound, hpending]
  | @rolledBack connection =>
    intro owner hready
    refine (htracked owner hready).imp_right fun hfound => ?_
    have hpending : s.database.pending (table owner) ≠ some connection := by
      intro hpending
      rw [hok (table owner) hpending] at hfound
      cases hfound
    simp [stillFound, hfound, hpending]

theorem undoesUnfound_of_backed (h : Inv kind table s) (hmoves : Moves kind table s a s')
    (hbacked : Backed table s') : UndoesUnfound s a := by
  cases hmoves with
  | quiet hdatabase hfound hready hsound hprobe hrollback => exact undoesUnfound_of_ne hrollback
  | found hcall hvisible => trivial
  | created hcall hcheck hcan => trivial
  | begun hbusy => trivial
  | committed => trivial
  | @rolledBack connection =>
    intro t hpending
    by_contra hfound
    obtain ⟨-, owner, rfl, hready⟩ := h.found t (by simpa using hfound)
    rcases hbacked owner hready with hcommitted | hstill
    · have hcommitted' : s.database.committed (table owner) = true := hcommitted
      rw [h.valid.uncommitted hpending] at hcommitted'
      cases hcommitted'
    · simp [Ddl.rollback, Ddl.endTransaction, hpending] at hstill

variable {actions : List Action}

/-- **When readiness lasts.**  The tables of ready instances are committed in all states of a run
exactly if no check finds a table that only its own transaction has created; they are committed or
pending exactly if no transaction is rolled back in which a check has found the table that it has
created. -/
theorem readiness_iff (hrun : runActions (step kind table) initial actions = some s) :
    (Always (step kind table) (Durable table) initial actions ↔
      Along (step kind table) (FindsCommitted table) initial actions) ∧
    (Always (step kind table) (Backed table) initial actions ↔
      Along (step kind table) UndoesUnfound initial actions) := by
  constructor
  · refine always_iff (I := fun s => Inv kind table s ∧ Durable table s) (fun s h => h.2)
      (fun s a s' h hstep => ?_) ⟨inv_initial, by simp [Durable, initial]⟩ hrun
    have hmoves := moves_of_step hstep
    have hiff := durable_step h.1 h.2 hmoves
    exact ⟨fun hok => ⟨h.1.step hmoves, hiff.mpr hok⟩, hiff.mp⟩
  · refine always_iff (I := fun s => Inv kind table s ∧ Tracked table s)
      (fun s h => h.1.backed h.2) (fun s a s' h hstep => ?_)
      ⟨inv_initial, by simp [Tracked, initial]⟩ hrun
    have hmoves := moves_of_step hstep
    exact ⟨fun hok => ⟨h.1.step hmoves, tracked_step h.1 h.2 hmoves hok⟩,
      undoesUnfound_of_backed h.1 hmoves⟩

end

/-- An allocator creates its table in a transaction that commits, and finds it in the next one. -/
theorem readiness_iff_committed :
    Always (step (fun _ => .allocator) id) (Durable id) initial
      [.begin 0, .call 0 0, .ensure 0, .probe 0 false, .create 0, .insert 0, .commit 0,
        .begin 1, .call 0 1, .ensure 1, .probe 1 true, .rollback 1, .insert 1] := by
  refine (readiness_iff rfl).1.mpr ?_
  refine ⟨trivial, trivial, trivial, trivial, trivial, trivial, trivial, trivial, trivial, trivial,
    fun call hcall => ?_, trivial, trivial, trivial⟩
  cases hcall
  rfl

/-- An allocator creates its table in a transaction, finds it there and is ready; the transaction is
rolled back, and the next call inserts into no table. -/
theorem ready_without_table : ∃ s,
    runActions (step (fun _ => .allocator) id) initial
      [.begin 0, .call 0 0, .ensure 0, .probe 0 false, .create 0, .insert 0,
        .call 0 0, .ensure 1, .probe 1 true, .insert 1, .rollback 0,
        .call 0 1, .ensure 2, .insert 2] = some s ∧
      ¬Durable id s ∧ ¬Backed id s ∧ (s.calls[2]?).map Call.phase = some .missing := by
  refine ⟨_, rfl, fun h => ?_, fun h => ?_, rfl⟩
  · exact absurd (h 0 rfl) (by decide)
  · exact absurd (h 0 rfl) (by decide)

/-- Of a store, another instance finds the table. -/
example : ((runActions (step (fun _ => .store) fun _ => 0) initial
    [.begin 0, .call 0 0, .ensure 0, .probe 0 false, .create 0, .insert 0,
      .call 1 0, .ensure 1, .probe 1 true, .insert 1, .rollback 0,
      .call 1 1, .ensure 2, .insert 2]).bind fun s => s.calls[2]?).map Call.phase =
        some .missing := by
  decide

end Velocious.TableReadiness
