/-
  Concurrent deliveries of one mutation to the replay service.

  Each delivery normalizes the sync, looks its row up, waits for the advisory lock of the
  resource if it is to apply the mutation, compares versions and writes under
  the lock, and persists the sync row after releasing it.
-/
import Velocious.Sync.SyncEnvelopeReplay
import Velocious.Foundation.Machine

namespace Velocious

open Foundation

/-! ## The program -/

/-- Where a delivery is. -/
inductive DeliveryStage where
  | received
  | waiting (existing : Option SyncRow)
  | locked (existing : Option SyncRow)
  /-- holds the lock, found no conflict with this record; awaits its write -/
  | found (existing : Option SyncRow) (record : Option SyncVersion)
  | written (existing : Option SyncRow) (result : ReplayApplyResult)
  | persisting (existing : Option SyncRow) (result : ReplayApplyResult)
  | skipping (existing : Option SyncRow)
  | answered (answer : ReplayAnswer)

/-- A delivery that is to apply the mutation and has not persisted it yet. -/
def DeliveryStage.applying : DeliveryStage → Bool
  | waiting _ | locked _ | found _ _ | written _ _ | persisting _ _ => true
  | received | skipping _ | answered _ => false

/-- A delivery that has written the mutation and has not persisted it yet. -/
def DeliveryStage.wrote : DeliveryStage → Bool
  | written _ _ | persisting _ _ => true
  | received | waiting _ | locked _ | found _ _ | skipping _ | answered _ => false

/-- The record, its sync rows and its lock, the deliveries, and the history:
    the version of each write of the mutation, and how often its row was
    persisted. -/
structure DeliveryWorld (ι : Type) where
  record : Option SyncVersion
  rows : List SyncRow
  lock : Option ι
  stage : ι → DeliveryStage
  applications : List SyncVersion
  persists : ℕ

/-- What happens next in a delivery; a write comes with the version it leaves,
    a persist with the id of a created row. -/
inductive DeliveryAction (ι : Type) where
  | lookup (i : ι)
  | lock (i : ι)
  | find (i : ι)
  | write (i : ι) (version : SyncVersion)
  | release (i : ι)
  | persist (i : ι) (rowId : ℕ)
  | skip (i : ι)

def DeliveryAction.delivery {ι : Type} : DeliveryAction ι → ι
  | lookup i | lock i | find i | write i _ | release i | persist i _ | skip i => i

namespace DeliveryWorld

variable {ι : Type}

/-- Nothing is looked up yet. -/
def init (record : Option SyncVersion) (rows : List SyncRow) : DeliveryWorld ι :=
  ⟨record, rows, none, fun _ => .received, [], 0⟩

section
variable [DecidableEq ι]

def goto (w : DeliveryWorld ι) (i : ι) (s : DeliveryStage) : DeliveryWorld ι :=
  { w with stage := Function.update w.stage i s }

/-- The write of a delivery that found `record`: a delete destroys the record
    it found, an upsert saves or creates it under another version. -/
def write (w : DeliveryWorld ι) (m : SyncReplayMutation) (i : ι) (existing : Option SyncRow)
    (record : Option SyncVersion) (version : SyncVersion) : Option (DeliveryWorld ι) :=
  if m.syncType = "delete" then
    match record with
    | none => some (w.goto i (.written existing ⟨false, false, false, none⟩))
    | some old =>
      some { w.goto i (.written existing ⟨false, true, false, some old⟩) with
        record := none, applications := w.applications ++ [old] }
  else if record.any (sameVersion version) then none
  else
    some { w.goto i (.written existing ⟨record.isNone, false, false, some version⟩) with
      record := some version, applications := w.applications ++ [version] }

/-- What happens next to a delivery whose sync is normalized to `m`. -/
def step (sha256Hex : String → String) (strategy : ConflictStrategy) (m : SyncReplayMutation)
    (w : DeliveryWorld ι) : DeliveryAction ι → Option (DeliveryWorld ι)
  | .lookup i =>
    match w.stage i with
    | .received =>
      let existing := w.rows.head?
      if shouldApplyReplayMutation existing m then some (w.goto i (.waiting existing))
      else some (w.goto i (.skipping existing))
    | _ => none
  | .lock i =>
    match w.stage i with
    | .waiting existing =>
      if w.lock.isNone then some { w.goto i (.locked existing) with lock := some i } else none
    | _ => none
  | .find i =>
    match w.stage i with
    | .locked existing =>
      if routedReplayConflict strategy w.record m then
        some { w.goto i (.answered (.conflict w.record)) with lock := none }
      else some (w.goto i (.found existing w.record))
    | _ => none
  | .write i version =>
    match w.stage i with
    | .found existing record => w.write m i existing record version
    | _ => none
  | .release i =>
    match w.stage i with
    | .written existing result => some { w.goto i (.persisting existing result) with lock := none }
    | _ => none
  | .persist i rowId =>
    match w.stage i with
    | .persisting existing result =>
      some { w.goto i (.answered (replayAnswer sha256Hex existing m true result)) with
        rows := upsertSyncRow w.rows existing rowId m (persistedReplayData sha256Hex m result)
        persists := w.persists + 1 }
    | _ => none
  | .skip i =>
    match w.stage i with
    | .skipping existing =>
      let skipped : Option ReplayApplyResult :=
        if isDuplicateReplayMutation sha256Hex existing m then some ⟨false, false, true, w.record⟩
        else none
      some (w.goto i (.answered (replayAnswer sha256Hex existing m false skipped)))
    | _ => none

/-- A step of one of the deliveries of `sync`, each of which normalizes it when it arrives, at the
    server time `now` of its own. -/
def replayStep (sha256Hex : String → String) (strategy : ConflictStrategy)
    (parseDate : String → Option ℤ) (now : ι → ℤ) (sync : ReplaySync) (w : DeliveryWorld ι)
    (a : DeliveryAction ι) : Option (DeliveryWorld ι) :=
  w.step sha256Hex strategy (normalizeReplaySync parseDate (now a.delivery) sync) a

end

/-- A look-up happens while no delivery is applying the mutation. -/
def Alone (w : DeliveryWorld ι) : DeliveryAction ι → Prop
  | .lookup _ => ∀ j, (w.stage j).applying = false
  | _ => True

/-! ## The invariants -/

section
variable (sha256Hex : String → String) (strategy : ConflictStrategy) (m : SyncReplayMutation)
  (record₀ : Option SyncVersion) (rows₀ : List SyncRow)

/-- A delivery that looked the row up before the mutation was persisted is to
    apply it. -/
def LooksUp (existing : Option SyncRow) : Prop :=
  existing = rows₀.head? ∧ shouldApplyReplayMutation existing m = true

/-- What a delivery knows before the row is persisted. -/
def Knows (applications : List SyncVersion) : DeliveryStage → Prop
  | .received => True
  | .waiting existing | .locked existing => LooksUp m rows₀ existing
  | .found existing record =>
    LooksUp m rows₀ existing ∧ record = record₀ ∧ routedReplayConflict strategy record₀ m = false
  | .written existing result | .persisting existing result =>
    LooksUp m rows₀ existing ∧ routedReplayConflict strategy record₀ m = false ∧
      applications = result.record.toList
  | .skipping existing =>
    existing = rows₀.head? ∧ shouldApplyReplayMutation existing m = false
  | .answered _ =>
    routedReplayConflict strategy record₀ m = true ∨
      shouldApplyReplayMutation rows₀.head? m = false

/-- The row is not persisted, and at most one delivery is on its way to. -/
structure Unsettled (w : DeliveryWorld ι) : Prop where
  rows : w.rows = rows₀
  persists : w.persists = 0
  one : ∀ i j, (w.stage i).applying = true → (w.stage j).applying = true → i = j
  unwritten : (∀ i, (w.stage i).wrote = false) → w.record = record₀ ∧ w.applications = []
  knows : ∀ i, Knows strategy m record₀ rows₀ w.applications (w.stage i)

/-- The answers after the application `result`. -/
def Reports (result : ReplayApplyResult) (answer : ReplayAnswer) : Prop :=
  ∀ version, result.record = some version →
    answer = .successful (some version.toJson) ∨ answer = .duplicate (some version.toJson)

/-- The row is persisted with its acknowledgement; who looks it up skips. -/
structure Settled (result : ReplayApplyResult) (row : SyncRow) (w : DeliveryWorld ι) : Prop where
  rows : w.rows.head? = some row
  clientUpdatedAt : row.clientUpdatedAt = some m.clientUpdatedAt
  data : row.data = persistedReplayData sha256Hex m result
  persists : w.persists = 1
  applications : w.applications = result.record.toList
  stage : ∀ i, w.stage i = .received ∨ w.stage i = .skipping (some row) ∨
    ∃ answer, w.stage i = .answered answer ∧ Reports result answer

end

section
variable [DecidableEq ι] {sha256Hex : String → String} {strategy : ConflictStrategy}
  {m : SyncReplayMutation} {record₀ : Option SyncVersion} {rows₀ : List SyncRow}
  {w w' : DeliveryWorld ι} {i : ι}

@[simp] theorem goto_stage_self (s : DeliveryStage) : (w.goto i s).stage i = s := by simp [goto]

@[simp] theorem goto_stage_ne (s : DeliveryStage) {j : ι} (hj : j ≠ i) :
    (w.goto i s).stage j = w.stage j := by simp [goto, hj]

omit [DecidableEq ι] in
theorem unsettled_init : Unsettled strategy m record₀ rows₀ (init record₀ rows₀ : DeliveryWorld ι)
    where
  rows := rfl
  persists := rfl
  one := fun _ _ h => nomatch h
  unwritten := fun _ => ⟨rfl, rfl⟩
  knows := fun _ => trivial

variable {s : DeliveryStage}

theorem knows_of_not_applying {applications applications' : List SyncVersion}
    (hs : s.applying = false) (h : Knows strategy m record₀ rows₀ applications s) :
    Knows strategy m record₀ rows₀ applications' s := by
  cases s with
  | received => exact h
  | skipping _ => exact h
  | answered _ => exact h
  | waiting _ => cases hs
  | locked _ => cases hs
  | found _ _ => cases hs
  | written _ _ => cases hs
  | persisting _ _ => cases hs

theorem wrote_of_not_applying (hs : s.applying = false) : s.wrote = false := by
  cases s with
  | written _ _ => cases hs
  | persisting _ _ => cases hs
  | _ => rfl

theorem Unsettled.move (hw : Unsettled strategy m record₀ rows₀ w)
    (hothers : ∀ j, j ≠ i → (w.stage j).applying = false)
    (lock : Option ι) {record : Option SyncVersion} {applications : List SyncVersion}
    (hs : Knows strategy m record₀ rows₀ applications s)
    (hunwritten : s.wrote = false → record = record₀ ∧ applications = []) :
    Unsettled strategy m record₀ rows₀ { w.goto i s with lock, record, applications } where
  __ := hw
  one := by
    have honly : ∀ j, ((w.goto i s).stage j).applying = true → j = i := by
      intro j hj
      by_contra hne
      rw [goto_stage_ne s hne, hothers j hne] at hj
      cases hj
    intro j k hj hk
    rw [honly j hj, honly k hk]
  unwritten := by
    intro hall
    have hi := hall i
    exact hunwritten (by simpa using hi)
  knows := by
    intro j
    by_cases hj : j = i
    · subst hj
      simpa using hs
    · simpa [hj] using knows_of_not_applying (hothers j hj) (hw.knows j)

theorem Unsettled.rest (hw : Unsettled strategy m record₀ rows₀ w)
    (hi : (w.stage i).applying = false) (hs : s.applying = false)
    (hknows : Knows strategy m record₀ rows₀ w.applications s) :
    Unsettled strategy m record₀ rows₀ (w.goto i s) where
  __ := hw
  one := by
    have hsame : ∀ j, ((w.goto i s).stage j).applying = true → (w.stage j).applying = true := by
      intro j hj
      by_cases hne : j = i
      · subst hne
        rw [goto_stage_self, hs] at hj
        cases hj
      · rwa [goto_stage_ne s hne] at hj
    intro j k hj hk
    exact hw.one j k (hsame j hj) (hsame k hk)
  unwritten := by
    intro hall
    refine hw.unwritten fun j => ?_
    by_cases hj : j = i
    · subst hj
      exact wrote_of_not_applying hi
    · simpa [hj] using hall j
  knows := by
    intro j
    by_cases hj : j = i
    · subst hj
      rw [goto_stage_self]
      exact hknows
    · rw [goto_stage_ne s hj]
      exact hw.knows j

omit [DecidableEq ι] in
theorem Unsettled.others (hw : Unsettled strategy m record₀ rows₀ w)
    (hi : (w.stage i).applying = true) (j : ι) (hj : j ≠ i) : (w.stage j).applying = false := by
  by_contra h
  exact hj (hw.one j i (by simpa using h) hi)

omit [DecidableEq ι] in
theorem Unsettled.unchanged (hw : Unsettled strategy m record₀ rows₀ w)
    (hi : (w.stage i).applying = true) (hwrote : (w.stage i).wrote = false) :
    w.record = record₀ ∧ w.applications = [] := by
  refine hw.unwritten fun j => ?_
  by_cases hj : j = i
  · rwa [hj]
  · exact wrote_of_not_applying (hw.others hi j hj)

theorem Unsettled.write (hw : Unsettled strategy m record₀ rows₀ w) {existing : Option SyncRow}
    {record : Option SyncVersion} {version : SyncVersion} (hi : w.stage i = .found existing record)
    (h : w.write m i existing record version = some w') :
    Unsettled strategy m record₀ rows₀ w' := by
  have hknows := hw.knows i
  have happlying : (w.stage i).applying = true := by rw [hi]; rfl
  have hothers := hw.others happlying
  obtain ⟨-, hempty⟩ := hw.unchanged happlying (by rw [hi]; rfl)
  rw [hi] at hknows
  obtain ⟨hlooks, -, hclash⟩ := hknows
  unfold DeliveryWorld.write at h
  split at h
  · split at h
    · cases h
      exact hw.move hothers w.lock ⟨hlooks, hclash, hempty⟩ nofun
    · cases h
      refine hw.move hothers w.lock ⟨hlooks, hclash, ?_⟩ nofun
      rw [hempty]
      rfl
  · split at h
    · cases h
    · cases h
      refine hw.move hothers w.lock ⟨hlooks, hclash, ?_⟩ nofun
      rw [hempty]
      rfl

theorem head_upsertSyncRow (rows₀ : List SyncRow) (m : SyncReplayMutation) (rowId : ℕ)
    (data : Json) :
    ∃ row, (upsertSyncRow rows₀ rows₀.head? rowId m data).head? = some row ∧
      row.clientUpdatedAt = some m.clientUpdatedAt ∧ row.data = data := by
  cases rows₀ with
  | nil => exact ⟨_, rfl, rfl, rfl⟩
  | cons row rows => exact ⟨_, by simp [upsertSyncRow]; rfl, rfl, rfl⟩

omit [DecidableEq ι] in
theorem Unsettled.received (hw : Unsettled strategy m record₀ rows₀ w) {existing : Option SyncRow}
    {result : ReplayApplyResult} (hi : w.stage i = .persisting existing result) (j : ι)
    (hj : j ≠ i) : w.stage j = .received := by
  have hother := hw.others (i := i) (by rw [hi]; rfl) j hj
  have hknows := hw.knows j
  have hpersisting := hw.knows i
  rw [hi] at hpersisting
  obtain ⟨⟨rfl, hshould⟩, hclash, -⟩ := hpersisting
  cases hs : w.stage j with
  | received => rfl
  | skipping e =>
    rw [hs] at hknows
    obtain ⟨rfl, hskip⟩ := hknows
    rw [hshould] at hskip
    cases hskip
  | answered a =>
    rw [hs] at hknows
    rcases hknows with h | h
    · rw [hclash] at h
      cases h
    · rw [hshould] at h
      cases h
  | waiting _ => rw [hs] at hother; cases hother
  | locked _ => rw [hs] at hother; cases hother
  | found _ _ => rw [hs] at hother; cases hother
  | written _ _ => rw [hs] at hother; cases hother
  | persisting _ _ => rw [hs] at hother; cases hother

variable {result : ReplayApplyResult}

section
variable (hw : Unsettled strategy m record₀ rows₀ w) {base : SyncVersion}
  (hbase : m.baseVersion = some base)
include hw hbase

theorem Unsettled.persist {existing : Option SyncRow}
    (hi : w.stage i = .persisting existing result) (rowId : ℕ) :
    ∃ row, Settled sha256Hex m result row
      { w.goto i (.answered (replayAnswer sha256Hex existing m true (some result))) with
        rows := upsertSyncRow w.rows existing rowId m (persistedReplayData sha256Hex m result)
        persists := w.persists + 1 } := by
  have hknows := hw.knows i
  rw [hi] at hknows
  obtain ⟨⟨rfl, -⟩, -, happlications⟩ := hknows
  obtain ⟨row, hhead, htime, hdata⟩ :=
    head_upsertSyncRow rows₀ m rowId (persistedReplayData sha256Hex m result)
  refine ⟨row, ⟨?_, htime, hdata, ?_, happlications, fun j => ?_⟩⟩
  · rw [← hhead, ← hw.rows]
  · simp [hw.persists]
  · by_cases hj : j = i
    · subst hj
      refine .inr (.inr ⟨_, goto_stage_self _, fun version hversion => .inl ?_⟩)
      simp [replayAnswer, reportedVersion, hbase, hversion]
    · exact .inl ((goto_stage_ne _ hj).trans (hw.received hi j hj))

theorem Unsettled.step {a : DeliveryAction ι} (halone : Alone w a)
    (h : step sha256Hex strategy m w a = some w') :
    Unsettled strategy m record₀ rows₀ w' ∨
      ∃ result row, Settled sha256Hex m result row w' := by
  cases a with
  | lookup i =>
    dsimp only [DeliveryWorld.step] at h
    split at h
    · have hidle := hw.unwritten fun j => wrote_of_not_applying (halone j)
      split at h
      · rename_i hshould
        cases h
        rw [hw.rows] at hshould ⊢
        exact .inl (hw.move (fun j _ => halone j) w.lock ⟨rfl, hshould⟩ fun _ => hidle)
      · rename_i hskip
        cases h
        rw [hw.rows] at hskip ⊢
        exact .inl (hw.rest (halone i) rfl ⟨rfl, by simpa using hskip⟩)
    · cases h
  | lock i =>
    dsimp only [DeliveryWorld.step] at h
    split at h
    · rename_i existing hi
      have happlying : (w.stage i).applying = true := by rw [hi]; rfl
      have hknows := hw.knows i
      rw [hi] at hknows
      split at h
      · cases h
        exact .inl (hw.move (hw.others happlying) (some i) (s := .locked existing) hknows
          fun _ => hw.unchanged happlying (by rw [hi]; rfl))
      · cases h
    · cases h
  | find i =>
    dsimp only [DeliveryWorld.step] at h
    split at h
    · rename_i existing hi
      have happlying : (w.stage i).applying = true := by rw [hi]; rfl
      have hsame := hw.unchanged happlying (by rw [hi]; rfl)
      have hknows := hw.knows i
      rw [hi] at hknows
      split at h
      · rename_i hclash
        cases h
        rw [hsame.1] at hclash
        exact .inl (hw.move (hw.others happlying) none (.inl hclash) fun _ => hsame)
      · rename_i hclash
        cases h
        rw [hsame.1] at hclash
        exact .inl (hw.move (hw.others happlying) w.lock
          ⟨hknows, hsame.1, by simpa using hclash⟩ fun _ => hsame)
    · cases h
  | write i version =>
    dsimp only [DeliveryWorld.step] at h
    split at h
    · rename_i existing record hi
      exact .inl (hw.write hi h)
    · cases h
  | release i =>
    dsimp only [DeliveryWorld.step] at h
    split at h
    · rename_i existing result hi
      have hknows := hw.knows i
      rw [hi] at hknows
      cases h
      exact .inl (hw.move (hw.others (by rw [hi]; rfl)) none (s := .persisting existing result)
        hknows nofun)
    · cases h
  | persist i rowId =>
    dsimp only [DeliveryWorld.step] at h
    split at h
    · rename_i existing result hi
      cases h
      exact .inr ⟨result, hw.persist hbase hi rowId⟩
    · cases h
  | skip i =>
    dsimp only [DeliveryWorld.step] at h
    split at h
    · rename_i existing hi
      have hknows := hw.knows i
      rw [hi] at hknows
      obtain ⟨rfl, hskip⟩ := hknows
      cases h
      exact .inl (hw.rest (by rw [hi]; rfl) rfl (.inr hskip))
    · cases h

end

theorem Settled.move {row : SyncRow} (hw : Settled sha256Hex m result row w)
    (hs : s = .skipping (some row) ∨ ∃ answer, s = .answered answer ∧ Reports result answer) :
    Settled sha256Hex m result row (w.goto i s) where
  __ := hw
  stage := by
    intro j
    by_cases hj : j = i
    · subst hj
      rw [goto_stage_self]
      exact .inr hs
    · rw [goto_stage_ne s hj]
      exact hw.stage j

omit [DecidableEq ι] in
theorem Settled.not_applying {row : SyncRow}
    (hw : Settled sha256Hex m result row w) : (w.stage i).applying = false := by
  rcases hw.stage i with h | h | ⟨_, h, -⟩
  · rw [h]; rfl
  · rw [h]; rfl
  · rw [h]; rfl

theorem Settled.step {result : ReplayApplyResult} {row : SyncRow}
    (hw : Settled sha256Hex m result row w) {base : SyncVersion}
    (hbase : m.baseVersion = some base) {a : DeliveryAction ι}
    (h : step sha256Hex strategy m w a = some w') : Settled sha256Hex m result row w' := by
  have hnot : ∀ {i s}, w.stage i = s → s.applying = false := fun hs => hs ▸ hw.not_applying
  cases a with
  | lookup i =>
    dsimp only [DeliveryWorld.step] at h
    rw [hw.rows] at h
    split at h
    · rw [if_neg (by rw [shouldApply_persisted hw.clientUpdatedAt]; exact Bool.false_ne_true)] at h
      cases h
      exact hw.move (.inl rfl)
    · cases h
  | skip i =>
    dsimp only [DeliveryWorld.step] at h
    split at h
    · rename_i existing hi
      obtain rfl : existing = some row := by
        rcases hw.stage i with hs | hs | ⟨_, hs, -⟩
        · rw [hi] at hs
          cases hs
        · rw [hi] at hs
          exact DeliveryStage.skipping.inj hs
        · rw [hi] at hs
          cases hs
      cases h
      refine hw.move (.inr ⟨_, rfl, fun version hversion => .inr ?_⟩)
      exact replayAnswer_persisted _ hbase hversion hw.data
    · cases h
  | lock i =>
    dsimp only [DeliveryWorld.step] at h
    split at h
    · rename_i hi
      cases hnot hi
    · cases h
  | find i =>
    dsimp only [DeliveryWorld.step] at h
    split at h
    · rename_i hi
      cases hnot hi
    · cases h
  | write i version =>
    dsimp only [DeliveryWorld.step] at h
    split at h
    · rename_i hi
      cases hnot hi
    · cases h
  | release i =>
    dsimp only [DeliveryWorld.step] at h
    split at h
    · rename_i hi
      cases hnot hi
    · cases h
  | persist i rowId =>
    dsimp only [DeliveryWorld.step] at h
    split at h
    · rename_i hi
      cases hnot hi
    · cases h

end

section
variable {sha256Hex : String → String} {strategy : ConflictStrategy} {m : SyncReplayMutation}
  {record₀ : Option SyncVersion} {rows₀ : List SyncRow} {w : DeliveryWorld ι}

theorem Unsettled.once (hw : Unsettled strategy m record₀ rows₀ w) :
    w.applications.length ≤ 1 ∧
      ∀ i answer, w.stage i = .answered answer → w.applications = [] := by
  by_cases hall : ∀ j, (w.stage j).wrote = false
  · have hempty := (hw.unwritten hall).2
    exact ⟨by simp [hempty], fun _ _ _ => hempty⟩
  · obtain ⟨j, hj⟩ := not_forall.mp hall
    have hknows := hw.knows j
    -- the delivery that has written saw neither a conflict nor a newer row
    have hfacts : ∃ (existing : Option SyncRow) (result : ReplayApplyResult),
        LooksUp m rows₀ existing ∧
        routedReplayConflict strategy record₀ m = false ∧
        w.applications = result.record.toList := by
      cases hs : w.stage j with
      | written existing result =>
        rw [hs] at hknows
        exact ⟨existing, result, hknows⟩
      | persisting existing result =>
        rw [hs] at hknows
        exact ⟨existing, result, hknows⟩
      | _ => rw [hs] at hj; cases hj rfl
    obtain ⟨existing, result, ⟨rfl, hshould⟩, hclash, happlications⟩ := hfacts
    refine ⟨?_, fun i answer hi => ?_⟩
    · rw [happlications]
      exact Option.length_toList_le
    · have hanswer := hw.knows i
      rw [hi] at hanswer
      rcases hanswer with h | h
      · rw [hclash] at h
        cases h
      · rw [hshould] at h
        cases h

/-- **Deliveries that do not overlap apply once.** When the sync carries a base version and a
    time that can be read, and every look-up happens while no other delivery is applying
    it, the record is written at most once and the row persisted at most once;
    after a write, an answered delivery finds the row persisted and is answered
    successful or duplicate, with the version of that write. -/
theorem deliveries_apply_once [DecidableEq ι] {parseDate : String → Option ℤ} {now : ι → ℤ}
    {sync : ReplaySync} {actions : List (DeliveryAction ι)} {base : SyncVersion} {time : ℤ}
    (hbase : sync.baseVersion = some base) (htime : sync.clientUpdatedAt.bind parseDate = some time)
    (halone : Along (replayStep sha256Hex strategy parseDate now sync) Alone (init record₀ rows₀)
      actions)
    (hrun : runActions (replayStep sha256Hex strategy parseDate now sync) (init record₀ rows₀)
      actions = some w) :
    w.applications.length ≤ 1 ∧ w.persists ≤ 1 ∧
      ∀ i answer, w.stage i = .answered answer → ∀ version ∈ w.applications,
        w.persists = 1 ∧
          (answer = .successful (some version.toJson) ∨
            answer = .duplicate (some version.toJson)) := by
  -- every delivery normalizes the sync to the same mutation
  let m := normalizeReplaySync parseDate time sync
  have hsame : ∀ now, normalizeReplaySync parseDate now sync = m := by
    intro now
    simp only [m, normalizeReplaySync, htime, Option.getD_some]
  have hstep : (replayStep sha256Hex strategy parseDate now sync :
      DeliveryWorld ι → DeliveryAction ι → _) = step sha256Hex strategy m := by
    funext w a
    rw [replayStep, hsame]
  rw [hstep] at halone hrun
  have hinvariant : Unsettled strategy m record₀ rows₀ w ∨
      ∃ result row, Settled sha256Hex m result row w := by
    refine runActions_invariant (I := fun w => Unsettled strategy m record₀ rows₀ w ∨
      ∃ result row, Settled sha256Hex m result row w) ?_ actions (.inl unsettled_init) halone hrun
    rintro s a s' (hs | ⟨result, row, hs⟩) ha h
    · exact hs.step hbase ha h
    · exact .inr ⟨result, row, hs.step hbase h⟩
  rcases hinvariant with hw | ⟨result, row, hw⟩
  · obtain ⟨hlength, hanswers⟩ := hw.once
    refine ⟨hlength, by simp [hw.persists], fun i answer hi version hversion => ?_⟩
    rw [hanswers i answer hi] at hversion
    cases hversion
  · refine ⟨?_, hw.persists.le, fun i answer hi version hversion => ⟨hw.persists, ?_⟩⟩
    · rw [hw.applications]
      exact Option.length_toList_le
    · rw [hw.applications, Option.mem_toList] at hversion
      rcases hw.stage i with hs | hs | ⟨answer', hs, hreports⟩
      · rw [hi] at hs
        cases hs
      · rw [hi] at hs
        cases hs
      · rw [hi] at hs
        cases hs
        exact hreports version hversion

end

end DeliveryWorld

/-! ## A retry -/

def renameSync (baseVersion : SyncVersion) (clientUpdatedAt : Option String) : ReplaySync :=
  ⟨some baseVersion, none, clientUpdatedAt, [("name", .str "a")], "m1", "1", "Task", "update"⟩

/-- The texts of the two times that are used here. -/
def parseTime : String → Option ℤ
  | "2026-01-01T00:00:00.000Z" => some 1767225600000
  | _ => none

/-- The second delivery arrives a second after the first. -/
def arrivals : Bool → ℤ
  | false => 1767225601000
  | true => 1767225602000

/-- Two deliveries of an update of a task with this base version and this time. -/
def renameStep (baseVersion : SyncVersion) (clientUpdatedAt : Option String) :
    DeliveryWorld Bool → DeliveryAction Bool → Option (DeliveryWorld Bool) :=
  DeliveryWorld.replayStep id .optimisticVersion parseTime arrivals
    (renameSync baseVersion clientUpdatedAt)

/-- The retry comes after the answer. -/
def retryInTurn : List (DeliveryAction Bool) :=
  [.lookup false, .lock false, .find false, .write false (.num (.int 2)), .release false,
    .persist false 1, .lookup true, .skip true]

/-- The retry looks the row up while the first delivery is writing. -/
def retryAtOnce : List (DeliveryAction Bool) :=
  [.lookup false, .lookup true, .lock false, .find false, .write false (.num (.int 2)),
    .release false, .lock true, .find true]

/-- Then it writes again and persists a row of its own. -/
def retryWrites : List (DeliveryAction Bool) :=
  retryAtOnce ++
    [.write true (.num (.int 3)), .release true, .persist false 1, .persist true 2]

/-- The retry comes after the answer, and is newer than the row. -/
def retryNewer : List (DeliveryAction Bool) :=
  [.lookup false, .lock false, .find false, .write false (.num (.int 2)), .release false,
    .persist false 1, .lookup true, .lock true, .find true]

/-- A task at its first version, without sync rows. -/
def taskAtFirst : DeliveryWorld Bool := .init (some (.num (.int 1))) []

theorem retryInTurn_alone :
    Along (renameStep (.num (.int 1)) (some "2026-01-01T00:00:00.000Z")) DeliveryWorld.Alone
      taskAtFirst retryInTurn := by
  refine ⟨?_, trivial, trivial, trivial, trivial, trivial, ?_, trivial, trivial⟩
  · rintro (_ | _) <;> rfl
  · rintro (_ | _) <;> rfl

theorem deliveries_apply_once_in_turn :
    ∃ w, runActions (renameStep (.num (.int 1)) (some "2026-01-01T00:00:00.000Z")) taskAtFirst
        retryInTurn = some w ∧
      w.stage true = .answered (.duplicate (some (.num (.int 2)))) ∧
      w.applications = [.num (.int 2)] ∧
      (w.applications.length ≤ 1 ∧ w.persists ≤ 1 ∧
        ∀ i answer, w.stage i = .answered answer → ∀ version ∈ w.applications,
          w.persists = 1 ∧
            (answer = .successful (some version.toJson) ∨
              answer = .duplicate (some version.toJson))) :=
  ⟨_, rfl, rfl, rfl,
    @DeliveryWorld.deliveries_apply_once Bool id .optimisticVersion (some (.num (.int 1))) [] _ _
      parseTime arrivals (renameSync (.num (.int 1)) (some "2026-01-01T00:00:00.000Z"))
      retryInTurn _ 1767225600000 rfl rfl retryInTurn_alone rfl⟩

/-- **A mutation conflicts with itself.** A retry that overlaps the first
    delivery is answered with a conflict with the version that delivery wrote;
    without a version to compare it writes again, under a second row. Without a
    time of its own it conflicts after the answer, too. -/
theorem conflict_with_itself :
    (∃ w, runActions (renameStep (.num (.int 1)) (some "2026-01-01T00:00:00.000Z")) taskAtFirst
        retryAtOnce = some w ∧
      w.applications = [.num (.int 2)] ∧
      w.stage true = .answered (.conflict (some (.num (.int 2))))) ∧
    (∃ w, runActions (renameStep .null (some "2026-01-01T00:00:00.000Z")) taskAtFirst
        retryWrites = some w ∧
      w.applications = [.num (.int 2), .num (.int 3)] ∧ w.persists = 2 ∧ w.rows.length = 2) ∧
    ∃ w, runActions (renameStep (.num (.int 1)) none) taskAtFirst retryNewer = some w ∧
      w.applications = [.num (.int 2)] ∧ w.persists = 1 ∧
      w.stage true = .answered (.conflict (some (.num (.int 2)))) :=
  ⟨⟨_, rfl, rfl, rfl⟩, ⟨_, rfl, rfl, rfl, rfl⟩, _, rfl, rfl, rfl, rfl⟩

end Velocious
