/-
  The persistence of a web SQLite database.

  A browser has three backends that may hold the bytes of a database. A call selects the best one
  that the browser supports, and where that one holds nothing, migrates the bytes of the first other
  backend that has some: it saves them, deletes the database from all three backends, and saves them
  again.

  * An `Outcome` is how an operation on a backend ends, and a `Call` has one for each operation:
    the browser may fail or stop at any of them.
  * `migratePersistedDatabase` is translated from the source; `startedFrom` says which bytes a call
    owes to its caller.
  * A `World` remembers the bytes that the calls started from, and `Faithful` is that none is lost.
-/
import Velocious.Foundation.Machine

namespace Velocious.WebPersistence

open Foundation List

/-! ## The backends -/

/-- `name` of a persistence -/
inductive Backend where
  | localstorage
  | indexeddb
  | opfs
  deriving DecidableEq, Repr

abbrev Bytes := List UInt8

/-- What each backend holds of the database. -/
abbrev Contents := Backend → Option Bytes

/-- What an operation did before it ended. -/
inductive Effect where
  | untouched
  /-- `getFileHandle` with `create`: an OPFS save made its file, and wrote nothing -/
  | created
  | done
  deriving DecidableEq, Repr

/-- How an operation ends; after `crashed` the page is gone. -/
inductive Outcome where
  | ok
  | failed (effect : Effect)
  | crashed (effect : Effect)
  deriving DecidableEq, Repr

/-- How a part of a call ends. -/
inductive Flow (α : Type) where
  | done (result : α)
  | threw
  | crashed
  deriving DecidableEq, Repr

namespace Outcome

def effect : Outcome → Effect
  | ok => .done
  | failed effect | crashed effect => effect

def flow : Outcome → Flow Unit
  | ok => .done ()
  | failed _ => .threw
  | crashed _ => .crashed

def crashes : Outcome → Bool
  | crashed _ => true
  | _ => false

theorem flow_eq_done {outcome : Outcome} : outcome.flow = .done () ↔ outcome = ok := by
  cases outcome <;> simp [flow]

theorem crashes_eq_false {outcome : Outcome} (h : ∀ effect, outcome ≠ crashed effect) :
    outcome.crashes = false := by
  cases outcome with
  | ok => rfl
  | failed => rfl
  | crashed effect => exact absurd rfl (h effect)

end Outcome

def Flow.map {α β : Type} (f : α → β) : Flow α → Flow β
  | done result => done (f result)
  | threw => threw
  | crashed => crashed

def saved (backend : Backend) (effect : Effect) (content : Bytes) (held : Option Bytes) :
    Option Bytes :=
  match effect with
  | .untouched => held
  | .created => if backend = .opfs then held.or (some []) else held
  | .done => some content

namespace Contents

def save (c : Contents) (backend : Backend) (outcome : Outcome) (content : Bytes) : Contents :=
  Function.update c backend (saved backend outcome.effect content (c backend))

def delete (c : Contents) (backend : Backend) (outcome : Outcome) : Contents :=
  if outcome.effect = .done then Function.update c backend none else c

end Contents

/-! ## A call -/

/-- How each operation of a call ends, where the call comes to it; a support check is `ok` if it
    read its own bytes back. -/
structure Call where
  supportsOpfs : Outcome
  supportsIndexedDb : Outcome
  load : Backend → Outcome
  firstSave : Outcome
  delete : Backend → Outcome
  secondSave : Outcome

def sourcePersistences : List Backend := [.localstorage, .indexeddb, .opfs]

/-- `persistences` of `deleteSqliteWebPersistences` -/
def persistences : List Backend := [.localstorage, .opfs, .indexeddb]

namespace Call

def selectSupportedPersistence (call : Call) : Flow Backend :=
  match call.supportsOpfs with
  | .ok => .done .opfs
  | .crashed _ => .crashed
  | .failed _ =>
    match call.supportsIndexedDb with
    | .ok => .done .indexeddb
    | .crashed _ => .crashed
    | .failed _ => .done .localstorage

/-- The loop over `sourcePersistences`; `loadPersistenceIfAvailable` ignores an error. -/
def scan (call : Call) (c : Contents) (destination : Backend) : List Backend → Flow (Option Bytes)
  | [] => .done none
  | source :: sources =>
    if source = destination then call.scan c destination sources
    else
      match call.load source with
      | .crashed _ => .crashed
      | .failed _ => call.scan c destination sources
      | .ok =>
        match c source with
        | none => call.scan c destination sources
        | some databaseBytes => .done (some databaseBytes)

/-- The loop of `deleteSqliteWebPersistences`; `deletePersistenceIfAvailable` ignores an error. -/
def deleteEach (call : Call) : List Backend → Contents → Flow Unit × Contents
  | [], c => (.done (), c)
  | persistence :: others, c =>
    match call.delete persistence with
    | .crashed _ => (.crashed, c.delete persistence (call.delete persistence))
    | _ => call.deleteEach others (c.delete persistence (call.delete persistence))

def deleteSqliteWebPersistences (call : Call) (c : Contents) : Flow Unit × Contents :=
  call.deleteEach persistences c

/-- What `migratePersistedDatabase` does with the bytes it found. -/
def move (call : Call) (c : Contents) (destination : Backend) (databaseBytes : Bytes) :
    Flow Unit × Contents :=
  match call.firstSave.flow, c.save destination call.firstSave databaseBytes with
  | .done (), c =>
    match call.deleteSqliteWebPersistences c with
    | (.done (), c) => (call.secondSave.flow, c.save destination call.secondSave databaseBytes)
    | stopped => stopped
  | stopped, c => (stopped, c)

def migratePersistedDatabase (call : Call) (c : Contents) (destination : Backend) :
    Flow Unit × Contents :=
  match (call.load destination).flow with
  | .done () =>
    match c destination with
    | some _ => (.done (), c)
    | none =>
      match call.scan c destination sourcePersistences with
      | .done (some databaseBytes) => call.move c destination databaseBytes
      | .done none => (.done (), c)
      | .threw => (.threw, c)
      | .crashed => (.crashed, c)
  | stopped => (stopped, c)

def createSqliteWebPersistence (call : Call) (c : Contents) : Flow Backend × Contents :=
  match call.selectSupportedPersistence with
  | .done selected =>
    ((call.migratePersistedDatabase c selected).1.map fun _ => selected,
      (call.migratePersistedDatabase c selected).2)
  | stopped => (stopped, c)

/-- The bytes a call starts from: those of the destination, or else of the first other backend that
    can be loaded. -/
def startedFrom (call : Call) (c : Contents) : Option Bytes :=
  match call.selectSupportedPersistence with
  | .done destination =>
    (c destination).or <| (sourcePersistences.filter (· ≠ destination)).findSome? fun source =>
      if call.load source = .ok then c source else none
  | _ => none

/-- The destination and the bytes of a call that comes to its first save. -/
def migration (call : Call) (c : Contents) : Option (Backend × Bytes) :=
  match call.selectSupportedPersistence with
  | .done destination =>
    if call.load destination = .ok ∧ c destination = none then
      match call.scan c destination sourcePersistences with
      | .done (some databaseBytes) => some (destination, databaseBytes)
      | _ => none
    else none
  | _ => none

end Call

/-- A browser profile, and the bytes that the calls so far started from. -/
structure World where
  contents : Contents
  started : List Bytes := []

namespace World

def after (w : World) (call : Call) : World where
  contents := (call.createSqliteWebPersistence w.contents).2
  started := w.started ++ (call.startedFrom w.contents).toList

def step (w : World) (call : Call) : Option World := some (w.after call)

/-- Every database that a call started from is stored. -/
def Faithful (w : World) : Prop := ∀ bytes ∈ w.started, ∃ backend, w.contents backend = some bytes

end World

/-! ## What a call does to the backends -/

namespace Call
variable {call : Call} {c : Contents} {destination : Backend} {databaseBytes bytes : Bytes}

theorem scan_found : ∀ {sources : List Backend},
    call.scan c destination sources = .done (some bytes) →
      (sources.filter (· ≠ destination)).findSome? (fun source =>
        if call.load source = .ok then c source else none) = some bytes
  | [], h => by cases h
  | source :: sources, h => by
    unfold scan at h
    split at h
    case isTrue hs => simpa [hs] using scan_found h
    case isFalse hs =>
      split at h
      case h_1 => cases h
      case h_2 effect hl => simpa [hs, hl] using scan_found h
      case h_3 hl =>
        split at h
        case h_1 hc => simpa [hs, hc] using scan_found h
        case h_2 found hc => cases h; simp [hs, hl, hc]

theorem scan_nothing : ∀ {sources : List Backend},
    call.scan c destination sources = .done none →
      (sources.filter (· ≠ destination)).findSome? (fun source =>
        if call.load source = .ok then c source else none) = none
  | [], _ => rfl
  | source :: sources, h => by
    unfold scan at h
    split at h
    case isTrue hs => simpa [hs] using scan_nothing h
    case isFalse hs =>
      split at h
      case h_1 => cases h
      case h_2 effect hl => simpa [hl] using scan_nothing h
      case h_3 hl =>
        split at h
        case h_1 hc => simpa [hc] using scan_nothing h
        case h_2 => cases h

theorem migration_eq_some (h : call.migration c = some (destination, bytes)) :
    c destination = none ∧ call.startedFrom c = some bytes ∧
      (call.createSqliteWebPersistence c).2 = (call.move c destination bytes).2 := by
  unfold migration at h
  split at h
  case h_2 => cases h
  case h_1 selected hs =>
    split at h
    case isFalse => cases h
    case isTrue hd =>
      obtain ⟨hl, hn⟩ := hd
      split at h
      case h_2 => cases h
      case h_1 found hscan =>
        cases h
        refine ⟨hn, ?_, ?_⟩
        · simp only [startedFrom, hs, hn]
          exact scan_found hscan
        · simp [createSqliteWebPersistence, migratePersistedDatabase, hs, hl, hn, hscan,
            Outcome.flow]

theorem unchanged_of_migration (h : call.migration c = none) :
    (call.createSqliteWebPersistence c).2 = c := by
  unfold createSqliteWebPersistence
  split
  case h_2 => rfl
  case h_1 selected hs =>
    unfold migratePersistedDatabase
    split
    case h_2 => rfl
    case h_1 hl =>
      have hok : call.load selected = .ok := by
        cases hload : call.load selected <;> simp_all [Outcome.flow]
      split
      case h_1 => rfl
      case h_2 hn =>
        split
        case h_1 found hscan => simp [migration, hs, hok, hn, hscan] at h
        all_goals rfl

theorem stored_of_startedFrom (h : call.startedFrom c = some bytes) :
    ∃ backend, c backend = some bytes := by
  unfold startedFrom at h
  split at h
  case h_2 => cases h
  case h_1 selected hs =>
    cases hc : c selected with
    | some held => exact ⟨selected, by simpa [hc] using h⟩
    | none =>
      rw [hc] at h
      obtain ⟨source, -, hsource⟩ := exists_of_findSome?_eq_some h
      split at hsource
      · exact ⟨source, hsource⟩
      · cases hsource

/-- Whether the deletion of a backend takes place. -/
def cleared (call : Call) : List Backend → Backend → Bool
  | [], _ => false
  | persistence :: others, backend =>
    (decide (persistence = backend) && decide ((call.delete persistence).effect = .done)) ||
      (!(call.delete persistence).crashes && call.cleared others backend)

theorem deleteEach_contents (ps : List Backend) (c : Contents) (backend : Backend) :
    (call.deleteEach ps c).2 backend = if call.cleared ps backend then none else c backend := by
  induction ps generalizing c with
  | nil => rfl
  | cons p ps ih =>
    have hdelete : c.delete p (call.delete p) backend =
        if p = backend ∧ (call.delete p).effect = .done then none else c backend := by
      unfold Contents.delete
      by_cases hp : p = backend
      · split <;> simp_all
      · split <;> simp [hp, Function.update_of_ne (Ne.symm hp)]
    unfold deleteEach cleared
    split
    case h_1 effect hd =>
      rw [hd] at hdelete
      simp [hd, Outcome.crashes, hdelete]
    case h_2 hd =>
      have hgoes := Outcome.crashes_eq_false hd
      rw [ih, hdelete]
      by_cases hc : call.cleared ps backend <;> simp [hgoes, hc]

theorem deleteEach_done {ps : List Backend} {c : Contents} :
    (call.deleteEach ps c).1 = .done () ↔ ∀ p ∈ ps, (call.delete p).crashes = false := by
  induction ps generalizing c with
  | nil => simp [deleteEach]
  | cons p ps ih =>
    unfold deleteEach
    split
    case h_1 effect hd => simp [hd, Outcome.crashes]
    case h_2 hd =>
      have hgoes := Outcome.crashes_eq_false hd
      rw [ih]
      simp [hgoes]

theorem mem_persistences (backend : Backend) : backend ∈ persistences := by
  cases backend <;> decide

end Call

/-! ## Which bytes survive a migration -/

namespace Call
variable {call : Call} {c : Contents} {destination : Backend} {databaseBytes bytes : Bytes}

/-- After the first save, bytes survive in a backend that is not cleared, or in a cleared
    destination that the second save writes. -/
def Survives (call : Call) (c : Contents) (destination : Backend) (databaseBytes bytes : Bytes) :
    Prop :=
  (∃ backend, call.cleared persistences backend = false ∧
    Function.update c destination (some databaseBytes) backend = some bytes) ∨
  ((∀ backend, (call.delete backend).crashes = false) ∧
    call.cleared persistences destination = true ∧
    saved destination call.secondSave.effect databaseBytes none = some bytes)

theorem saved_self (backend : Backend) (effect : Effect) (content : Bytes) :
    saved backend effect content (some content) = some content := by
  cases effect with
  | untouched => rfl
  | created => simp [saved]
  | done => rfl

theorem save_apply (outcome : Outcome) (backend : Backend) :
    c.save destination outcome databaseBytes backend =
      if backend = destination then saved destination outcome.effect databaseBytes (c destination)
      else c backend := by
  exact Function.update_apply ..

theorem move_of_done (h : call.firstSave = .ok)
    (hall : ∀ backend, (call.delete backend).crashes = false) :
    call.move c destination databaseBytes =
      (call.secondSave.flow,
        (call.deleteSqliteWebPersistences
          (Function.update c destination (some databaseBytes))).2.save destination call.secondSave
            databaseBytes) := by
  have hsave : c.save destination .ok databaseBytes =
      Function.update c destination (some databaseBytes) := rfl
  have hdone : (call.deleteSqliteWebPersistences
      (Function.update c destination (some databaseBytes))).1 = .done () :=
    deleteEach_done.mpr fun backend _ => hall backend
  unfold move
  rw [h, hsave]
  simp only [Outcome.flow]
  split
  next c' hd => rw [hd]
  next stopped hd => exact (hd _ (Prod.ext hdone rfl)).elim

theorem move_of_stopped (h : call.firstSave = .ok)
    (hstop : ¬∀ backend, (call.delete backend).crashes = false) :
    call.move c destination databaseBytes =
      call.deleteSqliteWebPersistences (Function.update c destination (some databaseBytes)) := by
  unfold move
  rw [h]
  simp only [Outcome.flow]
  split
  next c' hd =>
    have hall := deleteEach_done.mp (congrArg Prod.fst hd)
    exact absurd (fun backend => hall backend (mem_persistences backend)) hstop
  next => rfl

theorem stored_move_iff (h : call.firstSave = .ok) :
    (∃ backend, (call.move c destination databaseBytes).2 backend = some bytes) ↔
      call.Survives c destination databaseBytes bytes := by
  by_cases hall : ∀ backend, (call.delete backend).crashes = false
  · rw [move_of_done h hall]
    constructor
    · rintro ⟨backend, hb⟩
      dsimp only at hb
      rw [save_apply, deleteSqliteWebPersistences, deleteEach_contents, deleteEach_contents] at hb
      split at hb
      next hd =>
        subst hd
        cases hkept : call.cleared persistences backend with
        | true =>
          rw [hkept] at hb
          exact .inr ⟨hall, hkept, hb⟩
        | false =>
          rw [hkept, if_neg Bool.false_ne_true, Function.update_self, saved_self] at hb
          exact .inl ⟨backend, hkept, by rw [Function.update_self]; exact hb⟩
      next =>
        split at hb
        · cases hb
        · next hkept => exact .inl ⟨backend, eq_false_of_ne_true hkept, hb⟩
    · rintro (⟨backend, hkept, hb⟩ | ⟨-, hcleared, hs⟩)
      · refine ⟨backend, ?_⟩
        dsimp only
        rw [save_apply, deleteSqliteWebPersistences, deleteEach_contents, deleteEach_contents,
          hkept]
        split
        next hd =>
          subst hd
          rw [hkept, if_neg Bool.false_ne_true, Function.update_self, saved_self]
          rwa [Function.update_self] at hb
        next => exact hb
      · refine ⟨destination, ?_⟩
        dsimp only
        rw [save_apply, if_pos rfl, deleteSqliteWebPersistences, deleteEach_contents, hcleared]
        exact hs
  · rw [move_of_stopped h hall]
    constructor
    · rintro ⟨backend, hb⟩
      rw [deleteSqliteWebPersistences, deleteEach_contents] at hb
      split at hb
      · cases hb
      · next hkept => exact .inl ⟨backend, eq_false_of_ne_true hkept, hb⟩
    · rintro (⟨backend, hkept, hb⟩ | ⟨hdone, -⟩)
      · refine ⟨backend, ?_⟩
        rw [deleteSqliteWebPersistences, deleteEach_contents, hkept]
        exact hb
      · exact absurd hdone hall

theorem move_of_firstSave (h : call.firstSave ≠ .ok) :
    call.move c destination databaseBytes =
      (call.firstSave.flow, c.save destination call.firstSave databaseBytes) := by
  unfold move
  cases hfirst : call.firstSave with
  | ok => exact absurd hfirst h
  | failed => rfl
  | crashed => rfl

theorem stored_move_of_firstSave (h : call.firstSave ≠ .ok) (hd : c destination = none)
    (hb : ∃ backend, c backend = some bytes) :
    ∃ backend, (call.move c destination databaseBytes).2 backend = some bytes := by
  obtain ⟨backend, hb⟩ := hb
  have hne : backend ≠ destination := by
    rintro rfl
    cases hd.symm.trans hb
  refine ⟨backend, ?_⟩
  rw [move_of_firstSave h]
  dsimp only
  rw [save_apply, if_neg hne]
  exact hb

theorem move_returned (h : (call.move c destination databaseBytes).1 = .done ()) :
    (call.move c destination databaseBytes).2 destination = some databaseBytes := by
  by_cases hfirst : call.firstSave = .ok
  · by_cases hall : ∀ backend, (call.delete backend).crashes = false
    · rw [move_of_done hfirst hall] at h ⊢
      have hsecond := Outcome.flow_eq_done.mp h
      dsimp only
      rw [save_apply, if_pos rfl, hsecond]
      rfl
    · rw [move_of_stopped hfirst hall] at h
      have hdone := deleteEach_done.mp h
      exact absurd (fun backend => hdone backend (mem_persistences backend)) hall
  · rw [move_of_firstSave hfirst] at h
    exact absurd (Outcome.flow_eq_done.mp h) hfirst

theorem returned (h : (call.createSqliteWebPersistence c).1 = .done destination) :
    (call.createSqliteWebPersistence c).2 destination = call.startedFrom c := by
  unfold createSqliteWebPersistence at h ⊢
  unfold startedFrom
  split at h
  next selected hs =>
    cases hm : (call.migratePersistedDatabase c selected).1 with
    | threw => rw [hm] at h; cases h
    | crashed => rw [hm] at h; cases h
    | done u =>
      rw [hm] at h
      cases h
      unfold migratePersistedDatabase at hm ⊢
      cases hl : (call.load selected).flow with
      | threw => rw [hl] at hm; cases hm
      | crashed => rw [hl] at hm; cases hm
      | done u =>
        rw [hl] at hm
        cases hc : c selected with
        | some held => simp [hc]
        | none =>
          simp only [hc] at hm ⊢
          split at hm
          next found hscan =>
            rw [scan_found hscan]
            exact move_returned hm
          next hscan =>
            rw [scan_nothing hscan]
            exact hc
          next => cases hm
          next => cases hm
  next stopped hs => exact absurd h (hs destination)

end Call

/-! ## Every run -/

namespace World

/-- When a call costs nothing: if it migrates and its first save succeeds, the bytes it moves and
    those that earlier calls started from survive. -/
def Spares (w : World) (call : Call) : Prop :=
  ∀ destination databaseBytes, call.migration w.contents = some (destination, databaseBytes) →
    call.firstSave = .ok → ∀ bytes ∈ databaseBytes :: w.started,
      call.Survives w.contents destination databaseBytes bytes

theorem step_eq (w : World) (call : Call) : w.step call = some (w.after call) := rfl

theorem Faithful.stored {w : World} (hw : w.Faithful) {call : Call} {bytes : Bytes}
    (hb : bytes ∈ (w.after call).started) : ∃ backend, w.contents backend = some bytes := by
  rcases mem_append.mp hb with hb | hb
  · exact hw bytes hb
  · exact Call.stored_of_startedFrom (Option.mem_toList.mp hb)

theorem Faithful.after_iff {w : World} (hw : w.Faithful) (call : Call) :
    (w.after call).Faithful ↔ w.Spares call := by
  cases hm : call.migration w.contents with
  | none =>
    constructor
    · intro _ destination databaseBytes h
      cases hm.symm.trans h
    · intro _ bytes hb
      have hsame : (w.after call).contents = w.contents := Call.unchanged_of_migration hm
      rw [hsame]
      exact hw.stored hb
  | some found =>
    obtain ⟨destination, databaseBytes⟩ := found
    obtain ⟨hd, hstarted, hmove⟩ := Call.migration_eq_some hm
    have hcontents : (w.after call).contents =
        (call.move w.contents destination databaseBytes).2 := hmove
    have hmem : ∀ bytes, bytes ∈ (w.after call).started ↔ bytes ∈ databaseBytes :: w.started := by
      intro bytes
      simp [World.after, hstarted, or_comm]
    by_cases hfirst : call.firstSave = .ok
    · constructor
      · intro h destination' databaseBytes' h' _ bytes hb
        cases hm.symm.trans h'
        obtain hkept := h bytes ((hmem bytes).mpr hb)
        rw [hcontents] at hkept
        exact (Call.stored_move_iff hfirst).mp hkept
      · intro h bytes hb
        rw [hcontents]
        exact (Call.stored_move_iff hfirst).mpr
          (h destination databaseBytes hm hfirst bytes ((hmem bytes).mp hb))
    · constructor
      · intro _ _ _ _ h
        exact absurd h hfirst
      · intro _ bytes hb
        rw [hcontents]
        exact Call.stored_move_of_firstSave hfirst hd (hw.stored hb)

theorem Faithful.along_iff {calls : List Call} :
    ∀ {w : World}, w.Faithful →
      ((∀ before later w', calls = before ++ later → runActions step w before = some w' →
        w'.Faithful) ↔ Along step Spares w calls) := by
  induction calls with
  | nil =>
    intro w hw
    refine ⟨fun _ => trivial, fun _ before later w' hsplit h => ?_⟩
    obtain ⟨rfl, rfl⟩ := append_eq_nil_iff.mp hsplit.symm
    cases h
    exact hw
  | cons call calls ih =>
    intro w hw
    constructor
    · intro h
      have hafter := h [call] calls (w.after call) rfl rfl
      refine ⟨(hw.after_iff call).mp hafter, (ih hafter).mp ?_⟩
      rintro before later w' rfl hrun
      exact h (call :: before) later w' rfl (runActions_cons.mpr ⟨_, w.step_eq call, hrun⟩)
    · rintro ⟨hspares, hrest⟩ before later w' hsplit hrun
      cases before with
      | nil =>
        cases hrun
        exact hw
      | cons first before =>
        obtain ⟨rfl, rfl⟩ := List.cons.inj hsplit
        obtain ⟨_, h₁, hrun⟩ := runActions_cons.mp hrun
        cases h₁
        exact (ih ((hw.after_iff call).mpr hspares)).mpr hrest before later w' rfl hrun

/-- **A web database is never lost** exactly if every call that migrates spares what it found: from
    any contents of the backends, every database a call started from stays stored throughout a run
    if and only if each deletion leaves a copy, or the second save makes one. Whatever the run, a
    call that returns has in the selected backend the bytes it started from. -/
theorem web_persistence (contents : Contents) (calls : List Call) :
    ((∀ before later w, calls = before ++ later →
        runActions step { contents } before = some w → w.Faithful) ↔
      Along step Spares { contents } calls) ∧
    ∀ before call later w selected, calls = before ++ call :: later →
      runActions step { contents } before = some w →
      (call.createSqliteWebPersistence w.contents).1 = .done selected →
        (w.after call).contents selected = call.startedFrom w.contents := by
  refine ⟨Faithful.along_iff fun bytes hb => absurd hb not_mem_nil, ?_⟩
  intro before call later w selected _ _ hreturned
  exact Call.returned hreturned

def secondSaveFails : Call where
  supportsOpfs := .ok
  supportsIndexedDb := .ok
  load _ := .ok
  firstSave := .ok
  delete _ := .ok
  secondSave := .failed .untouched

def legacy : Contents
  | .localstorage => some [83, 81, 76]
  | _ => none

/-- The same call with a second save that succeeds has the database in OPFS. -/
theorem web_persistence_moved :
    ((World.mk legacy []).after { secondSaveFails with secondSave := .ok }).contents .opfs =
      some [83, 81, 76] :=
  (web_persistence legacy [{ secondSaveFails with secondSave := .ok }]).2 [] _ [] _ .opfs rfl rfl
    (by decide)

/-- The call has deleted the only copies when its second save fails. -/
theorem web_persistence_lost :
    ¬∀ (contents : Contents) (calls : List Call) w,
      runActions step { contents } calls = some w → w.Faithful := by
  intro h
  obtain ⟨backend, hb⟩ := h legacy [secondSaveFails] _ rfl [83, 81, 76] (by decide)
  cases backend <;> revert hb <;> decide

end World

end Velocious.WebPersistence
