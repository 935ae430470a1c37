/-
  The answers of a scope store over a table against those of one in memory, for calls made one after
  the other, and the main result on scope stores.
-/
import Velocious.Sync.SyncScopeStoreRuns

namespace Velocious.SyncScopeStore

open Foundation Foundation.JsValue StableJson DeviceIdentity QueryScope List

section
variable {δ : Type} [DecidableEq δ]

/-- Rows with the same fields; the conditions up to the order of keys. -/
structure SyncScopeRow.Same (a b : SyncScopeRow δ) : Prop where
  conditions : Equal a.conditions b.conditions
  cursorPayload : a.cursorPayload = b.cursorPayload
  id : a.id = b.id
  resourceType : a.resourceType = b.resourceType
  scopeDigest : a.scopeDigest = b.scopeDigest
  state : a.state = b.state
  storeIdentity : a.storeIdentity = b.storeIdentity

/-- Answers that say the same; the active scopes may stand in another order. -/
inductive Answer.Agrees : Answer δ → Answer δ → Prop where
  | row {a b} : a.Same b → Agrees (.row a) (.row b)
  | rows {as bs cs} : cs.Perm bs → List.Forall₂ SyncScopeRow.Same as cs →
      Agrees (.rows as) (.rows bs)
  | cursor {payload} : Agrees (.cursor payload) (.cursor payload)
  | done : Agrees .done .done
  | error {e} : Agrees (.error e) (.error e)

/-- A call over the table has answered what the memory does. -/
def Phase.Answers (phase : Phase δ) (answer : Answer δ) : Prop :=
  ∃ answer', phase = .settled answer' ∧ answer.Agrees answer'

variable (digest : List Char → δ) (selects : Selects δ) (storeIdentity : String)

/-- Every request of a history is known when it is made. -/
def KnownAlong (memory : List (SyncScopeRow δ)) : List (Entry δ) → Prop
  | [] => True
  | entry :: history =>
    entry.request.Known (fun d => get memory d ≠ none) storeIdentity ∧
      KnownAlong (memoryCall digest storeIdentity memory entry).1 history

/-! ## A memory and a table -/

/-- The rows of the two stores agree. -/
structure Related (memory : List (SyncScopeRow δ)) (rows : List (Row δ)) : Prop where
  same : List.Forall₂ (fun scope row => scope.Same (normalizeScopeRow storeIdentity row))
    memory rows
  digests : (rows.map Row.scopeDigest).Nodup
  ids : (rows.map Row.id).Nodup

variable {digest selects storeIdentity} {memory : List (SyncScopeRow δ)} {rows : List (Row δ)}
  {row : Row δ} {entry : Entry δ} {scopeDigest : δ}

omit [DecidableEq δ] in
theorem related_nil : Related storeIdentity ([] : List (SyncScopeRow δ)) [] :=
  ⟨.nil, nodup_nil, nodup_nil⟩

theorem Related.get (h : Related storeIdentity memory rows) (scopeDigest : δ) :
    (get memory scopeDigest = none ∧ ¬HasRow rows scopeDigest) ∨
      ∃ scope row, get memory scopeDigest = some scope ∧ row ∈ rows ∧
        row.scopeDigest = scopeDigest ∧ scope.Same (normalizeScopeRow storeIdentity row) := by
  obtain ⟨hsame, -, -⟩ := h
  induction hsame with
  | nil => exact .inl ⟨rfl, by simp [HasRow]⟩
  | @cons scope row memory rows hscope hsame ih =>
    by_cases heq : row.scopeDigest = scopeDigest
    · refine .inr ⟨scope, row, ?_, mem_cons_self, heq, hscope⟩
      have hscope' : scope.scopeDigest = scopeDigest := hscope.scopeDigest.trans heq
      simp [SyncScopeStore.get, hscope']
    · have hne : scope.scopeDigest ≠ scopeDigest := fun h => heq (hscope.scopeDigest.symm.trans h)
      rcases ih with ⟨hnone, hrow⟩ | ⟨scope', row', hget, hmem, hdigest, hsame'⟩
      · refine .inl ⟨?_, ?_⟩
        · simpa [SyncScopeStore.get, hne] using hnone
        · simpa [HasRow, Ne.symm heq] using hrow
      · refine .inr ⟨scope', row', ?_, mem_cons_of_mem row hmem, hdigest, hsame'⟩
        simpa [SyncScopeStore.get, hne] using hget

theorem Related.updateState_id (h : Related storeIdentity memory rows) (hrow : row ∈ rows)
    (state : ScopeState) : updateState rows (·.id = row.id) state =
      updateState rows (·.scopeDigest = row.scopeDigest) state := by
  refine map_congr_left fun row' hrow' => ?_
  have hiff : row'.id = row.id ↔ row'.scopeDigest = row.scopeDigest :=
    ⟨fun hid => congrArg Row.scopeDigest (inj_on_of_nodup_map h.ids hrow' hrow hid),
      fun hdigest => congrArg Row.id (inj_on_of_nodup_map h.digests hrow' hrow hdigest)⟩
  simp only [hiff]

omit [DecidableEq δ] in
theorem updateState_id_eq_self (hids : (rows.map Row.id).Nodup) (hrow : row ∈ rows) :
    updateState rows (·.id = row.id) row.state = rows := by
  rw [updateState]
  conv_rhs => rw [← map_id rows]
  refine map_congr_left fun row' hrow' => ?_
  by_cases hid : row'.id = row.id
  · simp [inj_on_of_nodup_map hids hrow' hrow hid]
  · simp [hid]

omit [DecidableEq δ] in
theorem ids_updateState (where_ : Row δ → Bool) (state : ScopeState) :
    (updateState rows where_ state).map Row.id = rows.map Row.id := by
  rw [updateState, map_map]
  refine map_congr_left fun row _ => ?_
  simp only [Function.comp_apply]
  split <;> rfl

theorem ids_updateCursor (payload : List Char) :
    (updateCursor rows scopeDigest payload).map Row.id = rows.map Row.id := by
  rw [updateCursor, map_map]
  refine map_congr_left fun row _ => ?_
  simp only [Function.comp_apply]
  split <;> rfl

theorem Related.updateState (h : Related storeIdentity memory rows) (state : ScopeState) :
    Related storeIdentity (modify memory scopeDigest fun scope => { scope with state })
      (updateState rows (·.scopeDigest = scopeDigest) state) := by
  refine ⟨?_, by rw [digests_updateState]; exact h.digests, by rw [ids_updateState]; exact h.ids⟩
  rw [modify, SyncScopeStore.updateState, forall₂_map_left_iff, forall₂_map_right_iff]
  refine h.same.imp fun scope row hsame => ?_
  have hdigest : scope.scopeDigest = row.scopeDigest := hsame.scopeDigest
  by_cases heq : row.scopeDigest = scopeDigest
  · simp only [hdigest, heq]
    exact ⟨hsame.conditions, hsame.cursorPayload, hsame.id, hsame.resourceType, heq ▸ rfl, rfl,
      hsame.storeIdentity⟩
  · simpa [hdigest, heq] using hsame

theorem Related.updateCursor (h : Related storeIdentity memory rows) (payload : List Char) :
    Related storeIdentity
      (modify memory scopeDigest fun scope => { scope with cursorPayload := some payload })
      (updateCursor rows scopeDigest payload) := by
  refine ⟨?_, by rw [digests_updateCursor]; exact h.digests, by rw [ids_updateCursor]; exact h.ids⟩
  rw [modify, SyncScopeStore.updateCursor, forall₂_map_left_iff, forall₂_map_right_iff]
  refine h.same.imp fun scope row hsame => ?_
  have hdigest : scope.scopeDigest = row.scopeDigest := hsame.scopeDigest
  by_cases heq : row.scopeDigest = scopeDigest
  · simp only [hdigest, heq]
    exact ⟨hsame.conditions, rfl, hsame.id, hsame.resourceType, heq ▸ rfl, hsame.state,
      hsame.storeIdentity⟩
  · simpa [hdigest, heq] using hsame

omit [DecidableEq δ] in
theorem same_newRow {scope : SerializedSyncScope} (hplain : scope.Plain) (uuid now : ℕ) :
    (newScope digest storeIdentity scope uuid).Same
      (normalizeScopeRow storeIdentity (newRow digest scope uuid now)) := by
  have hparse := parse_stableJsonStringify scope.conditions
  refine ⟨?_, rfl, rfl, ?_, rfl, rfl, rfl⟩
  · have hget : (parse (newRow digest scope uuid now).conditionsJson).get
        (newRow digest scope uuid now).parses = viaJson (normal scope.conditions) :=
      Option.some.inj ((Option.some_get _).trans hparse)
    rw [normalizeScopeRow, hget]
    exact ((equal_viaJson_normal scope.parsed).mpr hplain.conditions).symm
  · simp only [newScope, normalizeScopeRow, newRow, SerializedSyncScope.typeText]
    rcases Option.eq_none_or_eq_some scope.resourceType with h | ⟨name, h⟩
    · simp [h]
    · have hne : name ≠ "" := fun hempty => hplain.named (h.trans (congrArg some hempty))
      simp [h, hne]

omit [DecidableEq δ] in
theorem Related.create (h : Related storeIdentity memory rows) {scope : SerializedSyncScope}
    (hplain : scope.Plain) {uuid now : ℕ}
    (hrow : ¬HasRow rows (scopeDigestForScope digest scope))
    (hfresh : ∀ row ∈ rows, row.id ≠ uuid) :
    Related storeIdentity (memory ++ [newScope digest storeIdentity scope uuid])
      (rows ++ [newRow digest scope uuid now]) := by
  refine ⟨?_, ?_, ?_⟩
  · exact rel_append h.same (.cons (same_newRow hplain uuid now) .nil)
  · rw [map_append, map_singleton, ← concat_eq_append, nodup_concat]
    exact ⟨hrow, h.digests⟩
  · rw [map_append, map_singleton, ← concat_eq_append, nodup_concat]
    refine ⟨fun hmem => ?_, h.ids⟩
    obtain ⟨row, hrow', hid⟩ := mem_map.mp hmem
    exact hfresh row hrow' hid

/-! ## One call -/

variable {answer : Answer δ}

theorem complete_of_settled {n now : ℕ} {call : Call δ} (h : call.phase = .settled answer) :
    complete digest selects n call now rows = (rows, .settled answer) := by
  cases n with
  | zero => rw [complete, h]
  | succ n => simp [complete, h, Phase.isSettled]

theorem databaseCall_of_advance {rows' : List (Row δ)}
    (h : advance digest selects ⟨storeIdentity, entry.request, entry.uuid, .started⟩ entry.now
      rows = (rows', .settled answer)) :
    databaseCall digest selects storeIdentity rows entry = (rows', .settled answer) := by
  rw [databaseCall, complete]
  simp only [h]
  exact complete_of_settled rfl

/-- The outcome of a call: the answers agree, the two stay related, and no id but that of the call
is new. -/
structure CallAgrees (digest : List Char → δ) (storeIdentity : String) (rows : List (Row δ))
    (entry : Entry δ) (outcome : List (Row δ) × Phase δ)
    (memory : List (SyncScopeRow δ) × Answer δ) : Prop where
  answers : outcome.2.Answers memory.2
  related : Related storeIdentity memory.1 outcome.1
  ids : ∀ row ∈ outcome.1, row.id = entry.uuid ∨ ∃ old ∈ rows, old.id = row.id

theorem Related.findOrCreateScope (h : Related storeIdentity memory rows)
    {scope : SerializedSyncScope} (hrequest : entry.request = .findOrCreateScope scope)
    (hplain : scope.Plain) (hfresh : ∀ row ∈ rows, row.id ≠ entry.uuid) :
    CallAgrees digest storeIdentity rows entry
      (databaseCall digest selects storeIdentity rows entry)
      (memoryCall digest storeIdentity memory entry) := by
  rcases h.get (scopeDigestForScope digest scope) with
    ⟨hget, hnot⟩ | ⟨existing, row, hget, hrow, hdigest, hsame⟩
  · -- found missing, inserted and read back
    have hcreate := @Related.create _ digest _ _ _ h scope hplain entry.uuid entry.now hnot hfresh
    have hnone : rowByScopeDigest selects storeIdentity rows (scopeDigestForScope digest scope) =
        none := rowByScopeDigest_eq_none.mpr hnot
    have hread : rowByScopeDigest selects storeIdentity
        (rows ++ [newRow digest scope entry.uuid entry.now]) (scopeDigestForScope digest scope) =
          some (normalizeScopeRow storeIdentity (newRow digest scope entry.uuid entry.now)) :=
      rowByScopeDigest_of_mem hcreate.digests (mem_append_right rows mem_cons_self)
    have hcall : databaseCall digest selects storeIdentity rows entry =
        (rows ++ [newRow digest scope entry.uuid entry.now], .settled (.row
          (normalizeScopeRow storeIdentity (newRow digest scope entry.uuid entry.now)))) := by
      simp [databaseCall, complete, advance, advanceFindOrCreate, hrequest, hnone, hread,
        Phase.isSettled]
    have hmemory : memoryCall digest storeIdentity memory entry =
        (memory ++ [newScope digest storeIdentity scope entry.uuid],
          .row (newScope digest storeIdentity scope entry.uuid)) := by
      simp [memoryCall, hrequest, hget]
    rw [hcall, hmemory]
    refine ⟨⟨_, rfl, .row (same_newRow hplain _ _)⟩, hcreate, fun row hrow => ?_⟩
    rcases mem_append.mp hrow with hold | hnew
    · exact .inr ⟨row, hold, rfl⟩
    · rw [mem_singleton.mp hnew]
      exact .inl rfl
  · have hfound : rowByScopeDigest selects storeIdentity rows (scopeDigestForScope digest scope) =
        some (normalizeScopeRow storeIdentity row) := by
      rw [← hdigest]
      exact rowByScopeDigest_of_mem h.digests hrow
    have hmemory : memoryCall digest storeIdentity memory entry =
        (modify memory (scopeDigestForScope digest scope) fun scope =>
          { scope with state := .active }, .row { existing with state := .active }) := by
      simp [memoryCall, hrequest, hget]
    have hactive : SyncScopeRow.Same { existing with state := .active }
        { normalizeScopeRow storeIdentity row with state := .active } :=
      { hsame with state := rfl }
    have hrelated : Related storeIdentity (modify memory (scopeDigestForScope digest scope)
        fun scope => { scope with state := .active })
          (SyncScopeStore.updateState rows (·.id = row.id) .active) := by
      rw [h.updateState_id hrow, hdigest]
      exact h.updateState .active
    rw [hmemory]
    cases hstate : row.state with
    | active =>
      have hcall : databaseCall digest selects storeIdentity rows entry =
          (rows, .settled (.row (normalizeScopeRow storeIdentity row))) := by
        refine databaseCall_of_advance ?_
        simp [advance, advanceFindOrCreate, hrequest, hfound, normalizeScopeRow, hstate]
      rw [← hstate, updateState_id_eq_self h.ids hrow, hstate] at hrelated
      rw [hcall]
      refine ⟨⟨_, rfl, .row ?_⟩, hrelated, fun row hrow => .inr ⟨row, hrow, rfl⟩⟩
      simpa [normalizeScopeRow, hstate] using hactive
    | removed =>
      have hcall : databaseCall digest selects storeIdentity rows entry =
          (SyncScopeStore.updateState rows (·.id = row.id) .active,
            .settled (.row { normalizeScopeRow storeIdentity row with state := .active })) := by
        simp [databaseCall, complete, advance, advanceFindOrCreate, hrequest, hfound,
          Phase.isSettled, normalizeScopeRow, hstate]
      rw [hcall]
      refine ⟨⟨_, rfl, .row hactive⟩, hrelated, fun row' hrow' => .inr ?_⟩
      have hid := mem_map_of_mem (f := Row.id) hrow'
      rw [ids_updateState] at hid
      exact mem_map.mp hid

theorem Related.cursor (h : Related storeIdentity memory rows) (scopeDigest : δ) :
    (rowByScopeDigest selects storeIdentity rows scopeDigest).bind SyncScopeRow.cursorPayload =
      (SyncScopeStore.get memory scopeDigest).bind SyncScopeRow.cursorPayload := by
  rcases h.get scopeDigest with ⟨hget, hnot⟩ | ⟨scope, row, hget, hrow, rfl, hsame⟩
  · rw [hget, rowByScopeDigest_eq_none.mpr hnot]
  · rw [hget, rowByScopeDigest_of_mem h.digests hrow]
    exact hsame.cursorPayload.symm

omit [DecidableEq δ] in
theorem Related.active (h : Related storeIdentity memory rows) :
    List.Forall₂ SyncScopeRow.Same (memory.filter (·.state = .active))
      ((rows.filter (·.state = .active)).map (normalizeScopeRow storeIdentity)) := by
  rw [forall₂_map_right_iff]
  refine rel_filter (fun scope row hsame => ?_) h.same
  have hstate : scope.state = row.state := hsame.state
  simp [hstate]

theorem callAgrees_of_advance {rows' : List (Row δ)} {answer' : Answer δ}
    {memory' : List (SyncScopeRow δ)}
    (hadvance : advance digest selects ⟨storeIdentity, entry.request, entry.uuid, .started⟩
      entry.now rows = (rows', .settled answer'))
    (hmemory : memoryCall digest storeIdentity memory entry = (memory', answer))
    (hagrees : answer.Agrees answer') (hrelated : Related storeIdentity memory' rows')
    (hids : rows'.map Row.id = rows.map Row.id) :
    CallAgrees digest storeIdentity rows entry
      (databaseCall digest selects storeIdentity rows entry)
      (memoryCall digest storeIdentity memory entry) := by
  rw [databaseCall_of_advance hadvance, hmemory]
  refine ⟨⟨answer', rfl, hagrees⟩, hrelated, fun row hrow => .inr ?_⟩
  have hid := mem_map_of_mem (f := Row.id) hrow
  rw [hids] at hid
  exact mem_map.mp hid

/-- **A call over the table answers as one in memory**, and the two stay related. -/
theorem Related.call (h : Related storeIdentity memory rows)
    (hknown : entry.request.Known (fun d => SyncScopeStore.get memory d ≠ none) storeIdentity)
    (hfresh : ∀ row ∈ rows, row.id ≠ entry.uuid) :
    CallAgrees digest storeIdentity rows entry
      (databaseCall digest selects storeIdentity rows entry)
      (memoryCall digest storeIdentity memory entry) := by
  cases hrequest : entry.request with
  | findOrCreateScope scope =>
    rw [hrequest] at hknown
    exact h.findOrCreateScope hrequest hknown hfresh
  | activeScopes =>
    refine callAgrees_of_advance (by rw [hrequest]; rfl) (by rw [memoryCall, hrequest])
      (.rows ?_ h.active) h rfl
    exact ((selects.orderBy_perm _).map _).symm
  | loadCursor scopeRow =>
    by_cases hidentity : scopeRow.storeIdentity = storeIdentity
    · have hadvance : advance digest selects ⟨storeIdentity, entry.request, entry.uuid, .started⟩
          entry.now rows = (rows, .settled (.cursor ((SyncScopeStore.get memory
            scopeRow.scopeDigest).bind SyncScopeRow.cursorPayload))) := by
        simp [advance, hrequest, hidentity, h.cursor]
      exact callAgrees_of_advance hadvance (by simp [memoryCall, hrequest, hidentity]) .cursor h rfl
    · have hadvance : advance digest selects ⟨storeIdentity, entry.request, entry.uuid, .started⟩
          entry.now rows = (rows, .settled (.error .otherStore)) := by
        simp [advance, hrequest, hidentity]
      exact callAgrees_of_advance hadvance (by simp [memoryCall, hrequest, hidentity]) .error h
        rfl
  | saveCursor scopeRow cursor =>
    by_cases hidentity : scopeRow.storeIdentity = storeIdentity
    · cases cursor with
      | none =>
        have hadvance : advance digest selects ⟨storeIdentity, entry.request, entry.uuid, .started⟩
            entry.now rows = (rows, .settled .done) := by
          simp [advance, hrequest, hidentity]
        exact callAgrees_of_advance hadvance (by simp [memoryCall, hrequest, hidentity]) .done h
          rfl
      | some cursor =>
        rw [hrequest] at hknown
        obtain ⟨scope, hget⟩ := Option.ne_none_iff_exists'.mp (hknown hidentity)
        have hadvance : advance digest selects ⟨storeIdentity, entry.request, entry.uuid, .started⟩
            entry.now rows = (SyncScopeStore.updateCursor rows scopeRow.scopeDigest (write cursor),
              .settled .done) := by
          simp [advance, hrequest, hidentity]
        exact callAgrees_of_advance hadvance (by simp [memoryCall, hrequest, hidentity, hget])
          .done (h.updateCursor (write cursor)) (ids_updateCursor _)
    · have hadvance : advance digest selects ⟨storeIdentity, entry.request, entry.uuid, .started⟩
          entry.now rows = (rows, .settled (.error .otherStore)) := by
        simp [advance, hrequest, hidentity]
      exact callAgrees_of_advance hadvance (by simp [memoryCall, hrequest, hidentity]) .error h
        rfl
  | deactivate scope =>
    exact callAgrees_of_advance (by rw [hrequest]; rfl) (by rw [memoryCall, hrequest])
      .done (h.updateState .removed) (ids_updateState _ _)

/-- **A history is answered alike** over a table and in memory. -/
theorem Related.answers {history : List (Entry δ)} (hknown : KnownAlong digest storeIdentity memory
    history) (hnodup : (history.map Entry.uuid).Nodup)
    (hfresh : ∀ entry ∈ history, ∀ row ∈ rows, row.id ≠ entry.uuid)
    (h : Related storeIdentity memory rows) :
    List.Forall₂ (fun answer phase => phase.Answers answer)
      (memoryAnswers digest storeIdentity memory history)
      (databaseAnswers digest selects storeIdentity rows history) := by
  induction history generalizing memory rows with
  | nil => exact .nil
  | cons entry history ih =>
    obtain ⟨hentry, hrest⟩ := hknown
    rw [map_cons, nodup_cons] at hnodup
    obtain ⟨hanswers, hrelated, hids⟩ := @Related.call _ _ digest selects _ _ _ _ h hentry
      (hfresh entry mem_cons_self)
    refine .cons hanswers (ih hrest hnodup.2 (fun later hlater row hrow => ?_) hrelated)
    rcases hids row hrow with hid | ⟨old, hold, hid⟩
    · rw [hid]
      exact fun heq => hnodup.1 (mem_map.mpr ⟨later, hlater, heq.symm⟩)
    · rw [← hid]
      exact hfresh later (mem_cons_of_mem entry hlater) old hold

/-- **Sync scopes are kept.**  Where digests do not collide, plain scopes share a digest exactly if
they are one scope; in every run in which no call looks for a scope that another is about to insert,
every state reached has one row per scope, lists each active scope once and has the cursors saved
last; and a history of calls one after the other is answered as by the memory. -/
theorem scopes_kept (hdigest : Function.Injective digest) :
    (∀ {a b : SerializedSyncScope}, a.Plain → b.Plain →
      (scopeDigestForScope digest a = scopeDigestForScope digest b ↔ SameScope a b)) ∧
    (∀ {as : List (Action δ)} {s : State δ},
      Along (step digest selects) (FindsFirst digest) initial as →
        runActions (step digest selects) initial as = some s → Guarantees selects s) ∧
    ∀ {storeIdentity : String} {history : List (Entry δ)},
      KnownAlong digest storeIdentity [] history → (history.map Entry.uuid).Nodup →
        List.Forall₂ (fun answer phase => phase.Answers answer)
          (memoryAnswers digest storeIdentity [] history)
          (databaseAnswers digest selects storeIdentity [] history) := by
  refine ⟨fun ha hb => ?_, fun hfirst hrun => ?_, fun hknown hnodup => ?_⟩
  · rw [scopeDigestForScope, scopeDigestForScope, hdigest.eq_iff, append_cancel_left_eq]
    exact scopeKey_eq_iff ha hb
  · have hinv : ∀ s a s', Inv digest s → FindsFirst digest s a →
        step digest selects s a = some s' → Inv digest s' := fun s a s' h => h.step
    exact (runActions_invariant hinv _ inv_initial hfirst hrun).guarantees
  · exact related_nil.answers hknown hnodup (fun entry _ row hrow => by cases hrow)

end

/-! ## Runs of two stores -/

/-- `ORDER BY created_at` and `LIMIT 1`, by the order of insertion otherwise. -/
def byCreation : Selects (List Char) where
  orderBy rows := rows.mergeSort fun a b => a.createdAt ≤ b.createdAt
  limitOne := List.head?
  orderBy_perm _ := mergeSort_perm _ _
  mem_of_limitOne := mem_of_mem_head?
  nil_of_limitOne := head?_eq_none_iff.mp

def tasks : SerializedSyncScope where
  owner := none
  resourceType := some "Task"
  conditions := .obj true []
  record := ⟨[], rfl⟩
  parsed := ⟨by decide, by decide⟩

theorem plain_tasks : tasks.Plain where
  conditions := ⟨by decide, by decide⟩
  named := by decide
  unowned := by
    rintro - owner rest h
    have hhead := congrArg List.head? h
    simp [tasks, SerializedSyncScope.typeText, ownerPrefix] at hhead

/-- The tasks of a user that are not done. -/
def mine : SerializedSyncScope where
  owner := some "ann"
  resourceType := some "Task"
  conditions := .obj true [("done", .bool false)]
  record := ⟨_, rfl⟩
  parsed := ⟨by decide, by decide⟩

theorem plain_mine : mine.Plain where
  conditions := ⟨by decide, by decide⟩
  named := by decide
  unowned h := by cases h

/-- Two stores declare two scopes at once; a cursor is saved for one of them, and the other is
    removed and declared again by the other store. -/
def declared : List (Action (List Char)) :=
  [.call "a" (.findOrCreateScope tasks) 1, .call "b" (.findOrCreateScope mine) 2,
    .run 0 10, .run 1 10, .run 0 10, .run 1 11, .run 0 12, .run 1 12,
    .call "b" (.saveCursor (newScope id "b" mine 2) (some (.obj true []))) 3, .run 2 20,
    .call "a" (.deactivate tasks) 4, .run 3 30,
    .call "b" (.findOrCreateScope tasks) 5, .run 4 40, .run 4 40]

/-- The requests of `declared`, as one store makes them. -/
def history : List (Entry (List Char)) :=
  [⟨.findOrCreateScope tasks, 1, 10⟩, ⟨.findOrCreateScope mine, 2, 11⟩,
    ⟨.saveCursor (newScope id "a" mine 2) (some (.obj true [])), 3, 20⟩, ⟨.deactivate tasks, 4, 30⟩,
    ⟨.activeScopes, 5, 31⟩, ⟨.findOrCreateScope tasks, 6, 40⟩,
    ⟨.loadCursor (newScope id "a" mine 2), 7, 41⟩, ⟨.activeScopes, 8, 42⟩]

/-- Two stores declare a scope at once. -/
def overlapping : List (Action (List Char)) :=
  [.call "a" (.findOrCreateScope tasks) 1, .call "b" (.findOrCreateScope tasks) 2,
    .run 0 10, .run 1 10, .run 0 10, .run 1 10]

theorem scopes_kept_declared :
    (∃ s, runActions (step id byCreation) initial declared = some s ∧
      (s.rows.map fun row => (row.id, row.state)) = [(1, .active), (2, .active)] ∧
      Guarantees byCreation s) ∧
    (scopeDigestForScope id tasks = scopeDigestForScope id mine ↔ SameScope tasks mine) ∧
    List.Forall₂ (fun answer phase => phase.Answers answer) (memoryAnswers id "a" [] history)
      (databaseAnswers id byCreation "a" [] history) := by
  obtain ⟨hkeys, hruns, hhistories⟩ :=
    @scopes_kept (List Char) _ id byCreation Function.injective_id
  have hne : scopeDigestForScope id tasks ≠ scopeDigestForScope id mine := by decide
  have hne' := hne.symm
  refine ⟨?_, hkeys plain_tasks plain_mine, hhistories ?_ (by decide)⟩
  · have hrun : ∃ s, runActions (step id byCreation) initial declared = some s ∧
        (s.rows.map fun row => (row.id, row.state)) = [(1, .active), (2, .active)] := by
      simp [declared, runActions, step, initial, advance, advanceFindOrCreate, rowByScopeDigest,
        byCreation, Phase.isSettled, newRow, newScope, normalizeScopeRow, updateState, updateCursor,
        hne, hne']
    obtain ⟨s, hs, hrows⟩ := hrun
    refine ⟨s, hs, hrows, hruns ?_ hs⟩
    simp [declared, Along, step, FindsFirst, initial, advance, advanceFindOrCreate,
      rowByScopeDigest, byCreation, Phase.isSettled, newRow, newScope, normalizeScopeRow,
      updateState, updateCursor, Request.Known, HasRow, plain_tasks, plain_mine, Call.creates, hne,
      hne']
    refine ⟨?_, ?_, ?_⟩
    -- the other call inserts another scope
    · rintro _ scope rfl hrequest -
      cases hrequest
      exact hne
    -- neither call looks for its scope again
    · rintro _ scope rfl - hphase
      cases hphase
    · rintro _ scope rfl - hphase
      cases hphase
  · simp [history, KnownAlong, Request.Known, memoryCall, get, newScope, plain_tasks, plain_mine,
      hne]

/-- Two rows of one scope. -/
theorem scopes_doubled :
    Function.Injective (id : List Char → List Char) ∧ tasks.Plain ∧
      ∃ s, runActions (step id byCreation) initial overlapping = some s ∧
        ¬Guarantees byCreation s := by
  refine ⟨Function.injective_id, plain_tasks, ?_⟩
  have hrun : runActions (step id byCreation) initial overlapping = some
      { rows := [newRow id tasks 1 10, newRow id tasks 2 10]
        calls := [⟨"a", .findOrCreateScope tasks, 1, .reading⟩,
          ⟨"b", .findOrCreateScope tasks, 2, .reading⟩]
        saved := fun _ => none } := by
    simp [overlapping, runActions, step, initial, advance, advanceFindOrCreate, rowByScopeDigest,
      byCreation, Phase.isSettled, savedBy]
  refine ⟨_, hrun, fun hguarantees => ?_⟩
  have hone := hguarantees.one (scopeDigestForScope id tasks)
  simp [newRow] at hone

end Velocious.SyncScopeStore
