/-
  One row per scope, for all interleavings of the calls of any number of scope stores.

  * `FindsFirst`: what the calls and the order of their statements must meet. The find and the
    insert of `findOrCreateScope` are two statements, and nothing makes a digest unique.
-/
import Velocious.Sync.SyncScopeStore

namespace Velocious.SyncScopeStore

open Foundation Foundation.JsValue StableJson QueryScope List

section
variable {δ : Type} [DecidableEq δ] (digest : List Char → δ) (selects : Selects δ)

/-- The scopes of a request are plain, and a cursor is saved for a scope that has a row. -/
def Request.Known (known : δ → Prop) (storeIdentity : String) : Request δ → Prop
  | findOrCreateScope scope | deactivate scope => scope.Plain
  | saveCursor scopeRow (some _) =>
    scopeRow.storeIdentity = storeIdentity → known scopeRow.scopeDigest
  | saveCursor _ none | activeScopes | loadCursor _ => True

def HasRow (rows : List (Row δ)) (scopeDigest : δ) : Prop := scopeDigest ∈ rows.map Row.scopeDigest

/-- The digest under which a call is about to insert a row. -/
def Call.creates (call : Call δ) : Option δ :=
  match call.request, call.phase with
  | .findOrCreateScope scope, .creating => some (scopeDigestForScope digest scope)
  | _, _ => none

/-- Requests are known, and no call looks for a scope that another one is about to insert. -/
def FindsFirst (s : State δ) : Action δ → Prop
  | .call storeIdentity request _ => request.Known (HasRow s.rows) storeIdentity
  | .run k _ => ∀ call scope, s.calls[k]? = some call →
    call.request = .findOrCreateScope scope → call.phase = .started →
      ∀ other ∈ s.calls, other.creates digest ≠ some (scopeDigestForScope digest scope)

/-- What the store promises of the table. -/
structure Guarantees (s : State δ) : Prop where
  one : ∀ scopeDigest, (s.rows.filter (·.scopeDigest = scopeDigest)).length ≤ 1
  /-- `activeScopes` lists each active scope once -/
  listed : ∀ storeIdentity,
    ((activeRows selects storeIdentity s.rows).map SyncScopeRow.scopeDigest).Nodup ∧
      ∀ scopeDigest, scopeDigest ∈ (activeRows selects storeIdentity s.rows).map
        SyncScopeRow.scopeDigest ↔ ∃ row ∈ s.rows, row.scopeDigest = scopeDigest ∧ row.state = .active
  /-- `loadCursor` returns the cursor that was saved last -/
  cursor : ∀ storeIdentity scopeDigest,
    (rowByScopeDigest selects storeIdentity s.rows scopeDigest).bind SyncScopeRow.cursorPayload =
      s.saved scopeDigest

variable {digest selects} {rows : List (Row δ)} {row : Row δ} {storeIdentity : String}
  {scopeDigest : δ}

theorem filter_digest (h : (rows.map Row.scopeDigest).Nodup) (hrow : row ∈ rows) :
    rows.filter (·.scopeDigest = row.scopeDigest) = [row] := by
  induction rows with
  | nil => cases hrow
  | cons r rows ih =>
    rw [map_cons, nodup_cons] at h
    rcases mem_cons.mp hrow with rfl | hrow
    · have hnone : rows.filter (·.scopeDigest = row.scopeDigest) = [] := by
        refine filter_eq_nil_iff.mpr fun r hr heq => h.1 ?_
        exact mem_map.mpr ⟨r, hr, of_decide_eq_true heq⟩
      simp [hnone]
    · have hne : r.scopeDigest ≠ row.scopeDigest := fun heq =>
        h.1 (heq ▸ mem_map_of_mem hrow)
      simp [hne, ih h.2 hrow]

theorem filter_digest_eq_nil :
    rows.filter (·.scopeDigest = scopeDigest) = [] ↔ ¬HasRow rows scopeDigest := by
  simp [HasRow]

omit [DecidableEq δ] in
theorem limitOne_singleton : selects.limitOne [row] = some row := by
  cases h : selects.limitOne [row] with
  | none => cases selects.nil_of_limitOne h
  | some r => rw [mem_singleton.mp (selects.mem_of_limitOne h)]

theorem rowByScopeDigest_of_mem (h : (rows.map Row.scopeDigest).Nodup) (hrow : row ∈ rows) :
    rowByScopeDigest selects storeIdentity rows row.scopeDigest =
      some (normalizeScopeRow storeIdentity row) := by
  rw [rowByScopeDigest, filter_digest h hrow, limitOne_singleton, Option.map_some]

theorem rowByScopeDigest_eq_none :
    rowByScopeDigest selects storeIdentity rows scopeDigest = none ↔ ¬HasRow rows scopeDigest := by
  rw [rowByScopeDigest, Option.map_eq_none_iff, ← filter_digest_eq_nil]
  constructor
  · exact selects.nil_of_limitOne
  · intro h
    rw [h]
    cases hone : selects.limitOne [] with
    | none => rfl
    | some row => cases selects.mem_of_limitOne hone

/-! ## Statements -/

omit [DecidableEq δ] in
theorem digests_updateState (where_ : Row δ → Bool) (state : ScopeState) :
    (updateState rows where_ state).map Row.scopeDigest = rows.map Row.scopeDigest := by
  rw [updateState, map_map]
  refine map_congr_left fun row _ => ?_
  simp only [Function.comp_apply]
  split <;> rfl

theorem digests_updateCursor (payload : List Char) :
    (updateCursor rows scopeDigest payload).map Row.scopeDigest = rows.map Row.scopeDigest := by
  rw [updateCursor, map_map]
  refine map_congr_left fun row _ => ?_
  simp only [Function.comp_apply]
  split <;> rfl

omit [DecidableEq δ] in
theorem cursors_updateState {where_ : Row δ → Bool} {state : ScopeState}
    (h : row ∈ updateState rows where_ state) :
    ∃ old ∈ rows, old.scopeDigest = row.scopeDigest ∧ old.cursorJson = row.cursorJson := by
  obtain ⟨old, hold, rfl⟩ := mem_map.mp h
  refine ⟨old, hold, ?_⟩
  split <;> exact ⟨rfl, rfl⟩

variable {call : Call δ} {now : ℕ} {saved : δ → Option (List Char)}

/-- What a statement does to the digests, the cursors and the inserts to come. -/
inductive Moves (digest : List Char → δ) (call : Call δ) (now : ℕ) (rows : List (Row δ))
    (saved : δ → Option (List Char)) :
    List (Row δ) → Phase δ → (δ → Option (List Char)) → Prop where
  | kept {rows' phase} : rows'.map Row.scopeDigest = rows.map Row.scopeDigest →
      (∀ row ∈ rows', ∃ old ∈ rows,
        old.scopeDigest = row.scopeDigest ∧ old.cursorJson = row.cursorJson) →
      Call.creates digest { call with phase } = none →
      Moves digest call now rows saved rows' phase saved
  | missed {scope} : call.request = .findOrCreateScope scope → call.phase = .started →
      ¬HasRow rows (scopeDigestForScope digest scope) →
      Moves digest call now rows saved rows .creating saved
  | created {scope} : call.request = .findOrCreateScope scope → call.phase = .creating →
      Moves digest call now rows saved (rows ++ [newRow digest scope call.uuid now]) .reading saved
  | saved {scopeRow cursor} : call.request = .saveCursor scopeRow (some cursor) →
      scopeRow.storeIdentity = call.storeIdentity →
      Moves digest call now rows saved
        (updateCursor rows scopeRow.scopeDigest (write cursor)) (.settled .done)
        (Function.update saved scopeRow.scopeDigest (some (write cursor)))

omit [DecidableEq δ] in
theorem creates_eq_some : call.creates digest = some scopeDigest ↔
    ∃ scope, call.request = .findOrCreateScope scope ∧ call.phase = .creating ∧
      scopeDigestForScope digest scope = scopeDigest := by
  unfold Call.creates
  constructor
  · intro h
    split at h
    · rename_i scope hrequest hphase
      exact ⟨scope, hrequest, hphase, Option.some.inj h⟩
    · cases h
  · rintro ⟨scope, hrequest, hphase, rfl⟩
    rw [hrequest, hphase]

omit [DecidableEq δ] in
theorem creates_of_phase (h : call.phase ≠ .creating) : call.creates digest = none := by
  rw [Option.eq_none_iff_forall_not_mem]
  intro d hd
  obtain ⟨-, -, hphase, -⟩ := creates_eq_some.mp hd
  exact h hphase

theorem moves_settled {phase : Phase δ} (h : phase ≠ .creating) :
    Moves digest call now rows saved rows phase saved := by
  exact .kept rfl (fun row hrow => ⟨row, hrow, rfl, rfl⟩) (creates_of_phase h)

theorem moves_advance (h : call.phase.isSettled = false) :
    Moves digest call now rows saved (advance digest selects call now rows).1
      (advance digest selects call now rows).2 (savedBy saved call) := by
  unfold advance savedBy
  cases hrequest : call.request with
  | findOrCreateScope scope =>
    cases hphase : call.phase with
    | started =>
      simp only [advanceFindOrCreate]
      split
      · split
        · exact moves_settled (by simp)
        · exact moves_settled (by simp)
      · rename_i hnone
        exact .missed hrequest hphase (rowByScopeDigest_eq_none.mp hnone)
    | reactivating row =>
      exact .kept (digests_updateState _ _) (fun _ => cursors_updateState)
        (creates_of_phase (by simp [advanceFindOrCreate]))
    | creating => exact .created hrequest hphase
    | reading =>
      simp only [advanceFindOrCreate]
      split <;> exact moves_settled (by simp)
    | settled answer =>
      rw [hphase] at h
      cases h
  | activeScopes => exact moves_settled (by simp)
  | loadCursor scopeRow =>
    dsimp only
    split <;> exact moves_settled (by simp)
  | saveCursor scopeRow cursor =>
    cases cursor with
    | none =>
      dsimp only
      split <;> exact moves_settled (by simp)
    | some cursor =>
      dsimp only
      by_cases hidentity : scopeRow.storeIdentity = call.storeIdentity
      · rw [if_neg (not_not.mpr hidentity), if_pos hidentity]
        exact .saved hrequest hidentity
      · rw [if_pos hidentity, if_neg hidentity]
        exact moves_settled (by simp)
  | deactivate scope =>
    exact .kept (digests_updateState _ _) (fun _ => cursors_updateState)
      (creates_of_phase (by simp))

/-- The invariant of the runs. -/
structure Inv (digest : List Char → δ) (s : State δ) : Prop where
  nodup : (s.rows.map Row.scopeDigest).Nodup
  /-- what a call is about to insert is not there, and no other call is about to insert it -/
  creating : ∀ {i : ℕ} {call : Call δ} {scopeDigest : δ}, s.calls[i]? = some call →
    call.creates digest = some scopeDigest → ¬HasRow s.rows scopeDigest ∧
      ∀ {j : ℕ} {other : Call δ}, j ≠ i → s.calls[j]? = some other →
        other.creates digest ≠ some scopeDigest
  saved : ∀ row ∈ s.rows, row.cursorJson = s.saved row.scopeDigest
  unsaved : ∀ scopeDigest, ¬HasRow s.rows scopeDigest → s.saved scopeDigest = none
  known : ∀ call ∈ s.calls, ∀ scopeRow cursor, call.request = .saveCursor scopeRow (some cursor) →
    scopeRow.storeIdentity = call.storeIdentity → HasRow s.rows scopeRow.scopeDigest

omit [DecidableEq δ] in
theorem inv_initial : Inv digest (initial : State δ) := by
  constructor <;> simp [initial]

variable {s s' : State δ} {a : Action δ} {k uuid : ℕ} {request : Request δ}

omit [DecidableEq δ] in
theorem Inv.called (h : Inv digest s) (hknown : request.Known (HasRow s.rows) storeIdentity) :
    Inv digest { s with calls := s.calls ++ [⟨storeIdentity, request, uuid, .started⟩] } where
  __ := h
  creating {i call d} hcall hcreates := by
    rcases append_cases hcall with ⟨rfl, rfl⟩ | hcall
    · have hnone : Call.creates digest ⟨storeIdentity, request, uuid, .started⟩ = none :=
        creates_of_phase (by simp)
      rw [hnone] at hcreates
      cases hcreates
    · obtain ⟨hnot, hothers⟩ := h.creating hcall hcreates
      refine ⟨hnot, fun {j other} hj hother => ?_⟩
      rcases append_cases hother with ⟨rfl, rfl⟩ | hother
      · have hnone : Call.creates digest ⟨storeIdentity, request, uuid, .started⟩ = none :=
          creates_of_phase (by simp)
        rw [hnone]
        exact Option.some_ne_none d |>.symm
      · exact hothers hj hother
  known call hcall scopeRow cursor hrequest hidentity := by
    rcases mem_append.mp hcall with hcall | hcall
    · exact h.known call hcall scopeRow cursor hrequest hidentity
    · obtain rfl := mem_singleton.mp hcall
      obtain rfl : request = _ := hrequest
      exact hknown hidentity

omit [DecidableEq δ] in
theorem Inv.set (h : Inv digest s) {rows' : List (Row δ)} {phase : Phase δ}
    (hcall : s.calls[k]? = some call) (hnodup : (rows'.map Row.scopeDigest).Nodup)
    (hmono : ∀ d, HasRow s.rows d → HasRow rows' d)
    (hothers : ∀ {i other d}, i ≠ k → s.calls[i]? = some other → other.creates digest = some d →
      ¬HasRow rows' d ∧ Call.creates digest { call with phase } ≠ some d)
    (hself : ∀ {d}, Call.creates digest { call with phase } = some d → ¬HasRow rows' d)
    (hsaved : ∀ row ∈ rows', row.cursorJson = saved row.scopeDigest)
    (hunsaved : ∀ d, ¬HasRow rows' d → saved d = none) :
    Inv digest { rows := rows', calls := s.calls.set k { call with phase }, saved } where
  nodup := hnodup
  creating {i other d} hother hcreates := by
    rcases set_cases hother with ⟨rfl, rfl⟩ | ⟨hi, hold⟩
    · refine ⟨hself hcreates, fun {j another} hj hanother hsame => ?_⟩
      rcases set_cases hanother with ⟨rfl, rfl⟩ | ⟨-, hold⟩
      · exact hj rfl
      · exact (hothers hj hold hsame).2 hcreates
    · refine ⟨(hothers hi hold hcreates).1, fun {j another} hj hanother hsame => ?_⟩
      rcases set_cases hanother with ⟨rfl, rfl⟩ | ⟨-, hold'⟩
      · exact (hothers hi hold hcreates).2 hsame
      · exact (h.creating hold hcreates).2 hj hold' hsame
  saved := hsaved
  unsaved := hunsaved
  known other hother scopeRow cursor hrequest hidentity := by
    refine hmono _ ?_
    rcases mem_or_eq_of_mem_set hother with hother | rfl
    · exact h.known other hother scopeRow cursor hrequest hidentity
    · exact h.known call (mem_of_getElem? hcall) scopeRow cursor hrequest hidentity

/-- **A statement keeps the invariant**, if no other call is about to insert what a call looks
for. -/
theorem Inv.step (h : Inv digest s) (hfirst : FindsFirst digest s a)
    (hstep : step digest selects s a = some s') : Inv digest s' := by
  cases a with
  | call storeIdentity request uuid =>
    simp only [SyncScopeStore.step, Option.ite_none_right_eq_some] at hstep
    cases hstep.2
    exact h.called hfirst
  | run k now =>
    simp only [SyncScopeStore.step, Option.bind_eq_some_iff, Option.ite_none_left_eq_some] at hstep
    obtain ⟨call, hcall, hopen, hs'⟩ := hstep
    cases hs'
    have hmoves := @moves_advance δ _ digest selects s.rows call now s.saved (by simpa using hopen)
    generalize (advance digest selects call now s.rows).1 = rows' at hmoves ⊢
    generalize (advance digest selects call now s.rows).2 = phase at hmoves ⊢
    generalize savedBy s.saved call = saved at hmoves ⊢
    cases hmoves with
    | kept hdigests hcursors hnone =>
      have hrow : ∀ d, HasRow rows' d ↔ HasRow s.rows d := fun d => by rw [HasRow, hdigests, HasRow]
      refine h.set hcall (hdigests ▸ h.nodup) (fun d => (hrow d).mpr)
        (fun {i other d} hi hother hcreates => ⟨?_, by simp [hnone]⟩) (by simp [hnone])
        (fun row hrow => ?_) fun d hd => h.unsaved d fun hold => hd ((hrow d).mpr hold)
      · rw [hrow]
        exact (h.creating hother hcreates).1
      · obtain ⟨old, hold, hdigest, hcursor⟩ := hcursors row hrow
        rw [← hcursor, ← hdigest]
        exact h.saved old hold
    | @missed scope hrequest hphase hnot =>
      have hcreates : ∀ {d}, Call.creates digest { call with phase := .creating } = some d →
          d = scopeDigestForScope digest scope := by
        intro d hd
        obtain ⟨scope', hrequest', -, rfl⟩ := creates_eq_some.mp hd
        cases hrequest.symm.trans hrequest'
        rfl
      refine h.set hcall h.nodup (fun d => id) (fun {i other d} hi hother hd => ?_)
        (fun hd => ?_) h.saved h.unsaved
      · refine ⟨(h.creating hother hd).1, fun hsame => ?_⟩
        rw [hcreates hsame] at hd
        exact hfirst call scope hcall hrequest hphase other (mem_of_getElem? hother) hd
      · rw [hcreates hd]
        exact hnot
    | @created scope hrequest hphase =>
      have hself : call.creates digest = some (scopeDigestForScope digest scope) :=
        creates_eq_some.mpr ⟨scope, hrequest, hphase, rfl⟩
      obtain ⟨hnot, hothers⟩ := h.creating hcall hself
      have hrow : ∀ d, HasRow (s.rows ++ [newRow digest scope call.uuid now]) d ↔
          HasRow s.rows d ∨ d = scopeDigestForScope digest scope := by
        intro d
        simp [HasRow, newRow]
      have hnone : Call.creates digest { call with phase := .reading } = none :=
        creates_of_phase (by simp)
      refine h.set hcall ?_ (fun d hd => (hrow d).mpr (.inl hd))
        (fun {i other d} hi hother hd => ⟨fun hrow' => ?_, by simp [hnone]⟩) (by simp [hnone])
        (fun row hmem => ?_) (fun d hd => h.unsaved d fun hold => hd ((hrow d).mpr (.inl hold)))
      · rw [map_append, map_singleton, ← concat_eq_append, nodup_concat]
        exact ⟨hnot, h.nodup⟩
      · rcases (hrow d).mp hrow' with hold | rfl
        · exact (h.creating hother hd).1 hold
        · exact hothers hi hother hd
      · rcases mem_append.mp hmem with hold | hnew
        · exact h.saved row hold
        · obtain rfl := mem_singleton.mp hnew
          exact (h.unsaved _ hnot).symm
    | @saved scopeRow cursor hrequest hidentity =>
      have hdigests := @digests_updateCursor δ _ s.rows scopeRow.scopeDigest (write cursor)
      have hrow : ∀ d, HasRow (updateCursor s.rows scopeRow.scopeDigest (write cursor)) d ↔
          HasRow s.rows d := fun d => by rw [HasRow, hdigests, HasRow]
      have hknown := h.known call (mem_of_getElem? hcall) scopeRow cursor hrequest hidentity
      have hnone : Call.creates digest { call with phase := .settled .done } = none :=
        creates_of_phase (by simp)
      refine h.set hcall (hdigests ▸ h.nodup) (fun d => (hrow d).mpr)
        (fun {i other d} hi hother hcreates => ⟨?_, by simp [hnone]⟩) (by simp [hnone])
        (fun row hmem => ?_) fun d hd => ?_
      · rw [hrow]
        exact (h.creating hother hcreates).1
      · obtain ⟨old, hold, rfl⟩ := mem_map.mp hmem
        by_cases heq : old.scopeDigest = scopeRow.scopeDigest
        · simp [heq]
        · simpa [heq] using h.saved old hold
      · have hne : d ≠ scopeRow.scopeDigest := by
          rintro rfl
          exact hd ((hrow _).mpr hknown)
        rw [Function.update_of_ne hne]
        exact h.unsaved d fun hold => hd ((hrow d).mpr hold)

theorem Inv.guarantees (h : Inv digest s) : Guarantees selects s where
  one scopeDigest := by
    by_cases hrow : HasRow s.rows scopeDigest
    · obtain ⟨row, hmem, rfl⟩ := mem_map.mp hrow
      rw [filter_digest h.nodup hmem]
      exact le_rfl
    · rw [filter_digest_eq_nil.mpr hrow]
      exact Nat.zero_le 1
  listed storeIdentity := by
    have hmap : (activeRows selects storeIdentity s.rows).map SyncScopeRow.scopeDigest =
        (selects.orderBy (s.rows.filter (·.state = .active))).map Row.scopeDigest := by
      rw [activeRows, map_map]
      rfl
    have hperm := (selects.orderBy_perm (s.rows.filter (·.state = .active))).map Row.scopeDigest
    rw [hmap]
    refine ⟨hperm.nodup_iff.mpr ?_, fun scopeDigest => ?_⟩
    · exact h.nodup.sublist (filter_sublist.map _)
    · rw [hperm.mem_iff]
      simp only [mem_map, mem_filter, decide_eq_true_eq]
      exact ⟨fun ⟨row, ⟨hmem, hactive⟩, hdigest⟩ => ⟨row, hmem, hdigest, hactive⟩,
        fun ⟨row, hmem, hdigest, hactive⟩ => ⟨row, ⟨hmem, hactive⟩, hdigest⟩⟩
  cursor storeIdentity scopeDigest := by
    by_cases hrow : HasRow s.rows scopeDigest
    · obtain ⟨row, hmem, rfl⟩ := mem_map.mp hrow
      rw [rowByScopeDigest_of_mem h.nodup hmem]
      exact h.saved row hmem
    · rw [rowByScopeDigest_eq_none.mpr hrow, h.unsaved _ hrow]
      rfl

end

end Velocious.SyncScopeStore
