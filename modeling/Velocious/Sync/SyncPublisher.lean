/-
  Publishing the committed changes of a resource to the sync feed (src/sync/sync-publisher.js,
  src/sync/sync-change-fanout.js, src/sync/server-sequence-allocator.js).

  When a change has been committed, its publish finds the resource's row, allocates a sequence, and
  then creates the row or saves what it found with the new attributes; each of these is awaited.

  * The rows are those of one resource that have no actor, whose type and id the database compares
    exactly. Their attributes are the columns that a publish sets; what is saved is the columns that
    were set to another value than was found.
  * Other resources allocate from the same sequence, and a client may have read their rows.
  * The broadcasts that follow a save change no row.
-/
import Velocious.Foundation.Machine
import Velocious.Foundation.Paging
import Mathlib.Tactic

namespace Velocious.SyncPublisher

open Foundation List

/-! ## The program -/

/-- A row of the sync model, with its columns `κ`. -/
structure SyncRow (κ ω : Type) where
  id : ℕ
  attributes : κ → ω
  serverSequence : ℕ

/-- Where a publish is. -/
inductive PublishStage (κ ω : Type) where
  /-- the change is committed; the `afterCommit` callback has not begun -/
  | committed
  | found (existingSync : Option (SyncRow κ ω))
  | sequenced (existingSync : Option (SyncRow κ ω)) (serverSequence : ℕ)
  | saved

/-- A committed change, and its publish. -/
structure Publish (κ ω : Type) where
  attributes : κ → ω
  stage : PublishStage κ ω

/-- The sync rows and their publishes. -/
structure FeedWorld (κ ω : Type) where
  rows : List (SyncRow κ ω)
  lastSequence : ℕ
  publishes : List (Publish κ ω)
  /-- the ids of the rows that were written, and the sequences they were given -/
  written : List (ℕ × ℕ)
  /-- the sequence up to which the client has read, and what it has of the resource -/
  cursor : ℕ
  copy : Option (κ → ω)

/-- What can happen. -/
inductive FeedAction (κ ω : Type) where
  | commit (attributes : κ → ω)
  | find (i : ℕ)
  /-- `ServerSequenceAllocator.next`, in `advanceServerSequence` or before a create -/
  | allocate (i sequence : ℕ)
  | save (i : ℕ)
  | allocateOther (sequence : ℕ)
  /-- the client reads the rows above its cursor, and those of other resources up to `other` -/
  | pull (other : ℕ)

set_option linter.unusedSectionVars false

namespace FeedWorld

variable {κ ω : Type} [DecidableEq ω]

def init : FeedWorld κ ω := ⟨[], 0, [], [], 0, none⟩

def setStage (w : FeedWorld κ ω) (i : ℕ) (stage : PublishStage κ ω) : FeedWorld κ ω :=
  { w with publishes := w.publishes.modify i fun publish => { publish with stage } }

/-- `existingSync.save()`: the columns that were set to another value than was loaded. -/
def saveRow (existingSync : SyncRow κ ω) (attributes : κ → ω) (serverSequence : ℕ)
    (row : SyncRow κ ω) : SyncRow κ ω :=
  if row.id = existingSync.id then
    { row with
      attributes := fun column =>
        if attributes column = existingSync.attributes column then row.attributes column
        else attributes column
      serverSequence :=
        if serverSequence = existingSync.serverSequence then row.serverSequence
        else serverSequence }
  else row

/-- `upsertSyncRow`, once it has a sequence. -/
def upsertSyncRow (w : FeedWorld κ ω) (attributes : κ → ω) (existingSync : Option (SyncRow κ ω))
    (serverSequence : ℕ) : FeedWorld κ ω :=
  match existingSync with
  | some existingSync =>
    { w with
      rows := w.rows.map (saveRow existingSync attributes serverSequence)
      written := w.written ++ [(existingSync.id, serverSequence)] }
  | none =>
    { w with
      rows := w.rows ++ [⟨w.rows.length, attributes, serverSequence⟩]
      written := w.written ++ [(w.rows.length, serverSequence)] }

/-- What a client reads of the resource. -/
def changesAfter (w : FeedWorld κ ω) (cursor : ℕ) : List (SyncRow κ ω) :=
  sortByKey (·.serverSequence) (w.rows.filter (cursor < ·.serverSequence))

def read (w : FeedWorld κ ω) (other : ℕ) : FeedWorld κ ω :=
  let last := (w.changesAfter w.cursor).getLast?
  { w with
    cursor := max ((last.map (·.serverSequence)).getD w.cursor) other
    copy := (last.map fun row => some row.attributes).getD w.copy }

def step (w : FeedWorld κ ω) : FeedAction κ ω → Option (FeedWorld κ ω)
  | .commit attributes => some { w with publishes := w.publishes ++ [⟨attributes, .committed⟩] }
  | .find i =>
    match w.publishes[i]? with
    | some ⟨_, .committed⟩ => some (w.setStage i (.found w.rows.head?))
    | _ => none
  | .allocate i sequence =>
    match w.publishes[i]? with
    | some ⟨_, .found existingSync⟩ =>
      if w.lastSequence < sequence then
        some ({ w with lastSequence := sequence }.setStage i (.sequenced existingSync sequence))
      else none
    | _ => none
  | .save i =>
    match w.publishes[i]? with
    | some ⟨attributes, .sequenced existingSync sequence⟩ =>
      some ((w.upsertSyncRow attributes existingSync sequence).setStage i .saved)
    | _ => none
  | .allocateOther sequence =>
    if w.lastSequence < sequence then some { w with lastSequence := sequence } else none
  | .pull other => if other ≤ w.lastSequence then some (w.read other) else none

/-- Every change that was committed has been published. -/
def Settled (w : FeedWorld κ ω) : Prop := ∀ publish ∈ w.publishes, publish.stage = .saved

/-- The feed has one row at most, whose sequence is above all that it had before; when every
    change is published, the row is that of the last one, and a client that reads it has it. -/
structure InCommitOrder (w : FeedWorld κ ω) : Prop where
  oneRow : w.rows.length ≤ 1
  increasing : ∀ row ∈ w.rows, ∃ before, w.written.filter (·.1 = row.id) =
    before ++ [(row.id, row.serverSequence)] ∧ ∀ e ∈ before, e.2 < row.serverSequence
  published : w.Settled → ∀ last, w.publishes.getLast? = some last →
    w.rows.map (·.attributes) = [last.attributes]
  converges : w.Settled → ∀ last, w.publishes.getLast? = some last →
    ∀ other, (w.read other).copy = some last.attributes

/-- A publish begins when those of all earlier commits have ended, and no client has read past
    the sequence that it saves. -/
def Follows (w : FeedWorld κ ω) : FeedAction κ ω → Prop
  | .find i => ∀ j, j < i → ∀ publish, w.publishes[j]? = some publish → publish.stage = .saved
  | .save i => ∀ attributes existingSync sequence,
      w.publishes[i]? = some ⟨attributes, .sequenced existingSync sequence⟩ → w.cursor < sequence
  | _ => True

/-! ## The invariant -/

variable {w w' : FeedWorld κ ω} {done rest : List (Publish κ ω)} {row : Option (SyncRow κ ω)}
variable {publish : Publish κ ω} {i : ℕ}

/-- What the publish that is under way has read and allocated. -/
def Current (w : FeedWorld κ ω) (row : Option (SyncRow κ ω)) : PublishStage κ ω → Prop
  | .committed => True
  | .found existingSync => existingSync = row
  | .sequenced existingSync sequence =>
    existingSync = row ∧ sequence ≤ w.lastSequence ∧ ∀ r ∈ row, r.serverSequence < sequence
  | .saved => False

/-- The publishes that have ended, those that have not, and the row. -/
structure Kept (w : FeedWorld κ ω) (done rest : List (Publish κ ω))
    (row : Option (SyncRow κ ω)) : Prop where
  eq : w.publishes = done ++ rest
  ended : ∀ publish ∈ done, publish.stage = .saved
  head : ∀ publish, rest.head? = some publish → Current w row publish.stage
  tail : ∀ publish ∈ rest.tail, publish.stage = .committed
  rows : w.rows = row.toList
  last : row.map (·.attributes) = done.getLast?.map (·.attributes)
  bounded : ∀ r ∈ row, r.serverSequence ≤ w.lastSequence
  fresh : row = none → w.written = []
  written : ∀ r ∈ row, ∃ before, w.written = before ++ [(r.id, r.serverSequence)] ∧
    ∀ e ∈ before, e.1 = r.id ∧ e.2 < r.serverSequence
  client : ∀ r ∈ row, r.serverSequence ≤ w.cursor → w.copy = some r.attributes

theorem kept_init : Kept (init : FeedWorld κ ω) [] [] none :=
  ⟨rfl, nofun, nofun, nofun, rfl, rfl, nofun, fun _ => rfl, nofun, nofun⟩

theorem changesAfter_of_lt {r : SyncRow κ ω} (hrows : w.rows = [r]) {cursor : ℕ}
    (hlt : cursor < r.serverSequence) : w.changesAfter cursor = [r] := by
  rw [changesAfter, hrows, filter_cons_of_pos (by simpa using hlt)]
  rfl

theorem changesAfter_of_le {r : SyncRow κ ω} (hrows : w.rows = [r]) {cursor : ℕ}
    (hle : r.serverSequence ≤ cursor) : w.changesAfter cursor = [] := by
  rw [changesAfter, hrows, filter_cons_of_neg (by simpa using hle)]
  rfl

namespace Kept

section
variable (h : Kept w done rest row) (hi : w.publishes[i]? = some publish)
include h hi

theorem index_of_begun (hsaved : publish.stage ≠ .saved) (hbegun : publish.stage ≠ .committed) :
    i = done.length ∧ ∃ later, rest = publish :: later := by
  rw [h.eq] at hi
  rcases lt_or_ge i done.length with hlt | hge
  · rw [getElem?_append_left hlt] at hi
    exact absurd (h.ended publish (mem_of_getElem? hi)) hsaved
  rw [getElem?_append_right hge] at hi
  cases rest with
  | nil => cases hi
  | cons first later =>
    cases hk : i - done.length with
    | zero =>
      rw [hk] at hi
      cases hi
      exact ⟨by omega, later, rfl⟩
    | succ k =>
      rw [hk] at hi
      exact absurd (h.tail publish (mem_of_getElem? hi)) hbegun

theorem index_of_committed (hcommitted : publish.stage = .committed)
    (hbefore : ∀ j, j < i → ∀ publish, w.publishes[j]? = some publish → publish.stage = .saved) :
    i = done.length ∧ ∃ later, rest = publish :: later := by
  rw [h.eq] at hi
  rcases lt_or_ge i done.length with hlt | hge
  · rw [getElem?_append_left hlt] at hi
    have hsaved := h.ended publish (mem_of_getElem? hi)
    rw [hcommitted] at hsaved
    cases hsaved
  rw [getElem?_append_right hge] at hi
  cases rest with
  | nil => cases hi
  | cons first later =>
    have hfirst : w.publishes[done.length]? = some first := by rw [h.eq]; simp
    cases hk : i - done.length with
    | zero =>
      rw [hk] at hi
      cases hi
      exact ⟨by omega, later, rfl⟩
    | succ k =>
      have hcurrent := h.head first rfl
      rw [hbefore done.length (by omega) first hfirst] at hcurrent
      exact hcurrent.elim

end

theorem publishes_setStage (h : Kept w done (publish :: rest) row) (stage : PublishStage κ ω) :
    (w.setStage done.length stage).publishes = done ++ { publish with stage } :: rest := by
  have hmodify : ∀ done : List (Publish κ ω),
      (done ++ publish :: rest).modify done.length (fun p => { p with stage }) =
        done ++ { publish with stage } :: rest := by
    intro done
    induction done with
    | nil => rfl
    | cons first done ih => exact congrArg (first :: ·) ih
  rw [setStage, h.eq, hmodify]

theorem setStage (h : Kept w done (publish :: rest) row) {stage : PublishStage κ ω}
    (hcurrent : Current w row stage) :
    Kept (w.setStage done.length stage) done ({ publish with stage } :: rest) row where
  __ := h
  eq := h.publishes_setStage stage
  head := by
    intro p hp
    cases hp
    cases stage <;> exact hcurrent

variable {sequence : ℕ}

theorem allocate (h : Kept w done rest row) (hlt : w.lastSequence < sequence) :
    Kept { w with lastSequence := sequence } done rest row where
  __ := h
  head := by
    intro p hp
    have hcurrent := h.head p hp
    cases hstage : p.stage with
    | committed => trivial
    | found existingSync =>
      rw [hstage] at hcurrent
      exact hcurrent
    | sequenced existingSync allocated =>
      rw [hstage] at hcurrent
      exact ⟨hcurrent.1, hcurrent.2.1.trans hlt.le, hcurrent.2.2⟩
    | saved =>
      rw [hstage] at hcurrent
      exact hcurrent
  bounded := fun r hr => (h.bounded r hr).trans hlt.le

theorem upsertSyncRow (h : Kept w done rest row) {attributes : κ → ω}
    (habove : ∀ r ∈ row, r.serverSequence < sequence) :
    ∃ saved : SyncRow κ ω, (w.upsertSyncRow attributes row sequence).rows = [saved] ∧
      saved.attributes = attributes ∧ saved.serverSequence = sequence ∧
      ∃ before, (w.upsertSyncRow attributes row sequence).written = before ++ [(saved.id, sequence)] ∧
        ∀ e ∈ before, e.1 = saved.id ∧ e.2 < sequence := by
  cases row with
  | none =>
    refine ⟨⟨w.rows.length, attributes, sequence⟩, ?_, rfl, rfl, w.written, rfl, ?_⟩
    · show w.rows ++ _ = _
      rw [h.rows]
      rfl
    · rw [h.fresh rfl]
      nofun
  | some r =>
    have hlt := habove r rfl
    obtain ⟨before, hwritten, hbefore⟩ := h.written r rfl
    refine ⟨⟨r.id, attributes, sequence⟩, ?_, rfl, rfl, w.written, rfl, ?_⟩
    · show w.rows.map _ = _
      rw [h.rows, Option.toList_some, map_singleton, saveRow, if_pos rfl, if_neg hlt.ne']
      refine congrArg (fun a => [(⟨r.id, a, sequence⟩ : SyncRow κ ω)]) (funext fun column => ?_)
      split
      next heq => exact heq.symm
      · rfl
    · rw [hwritten]
      intro e he
      rcases mem_append.mp he with hold | hlast
      · exact ⟨(hbefore e hold).1, (hbefore e hold).2.trans hlt⟩
      · rw [mem_singleton.mp hlast]
        exact ⟨rfl, hlt⟩

theorem save (h : Kept w done (publish :: rest) row)
    (hcurrent : Current w row (.sequenced row sequence)) (hcursor : w.cursor < sequence) :
    ∃ saved, Kept ((w.upsertSyncRow publish.attributes row sequence).setStage done.length .saved)
      (done ++ [{ publish with stage := .saved }]) rest (some saved) := by
  obtain ⟨-, hle, habove⟩ := hcurrent
  have hupsert : ∃ saved : SyncRow κ ω,
      (w.upsertSyncRow publish.attributes row sequence).rows = [saved] ∧
      saved.attributes = publish.attributes ∧ saved.serverSequence = sequence ∧
      ∃ before, (w.upsertSyncRow publish.attributes row sequence).written =
        before ++ [(saved.id, sequence)] ∧ ∀ e ∈ before, e.1 = saved.id ∧ e.2 < sequence :=
    h.upsertSyncRow habove
  obtain ⟨saved, hrows, hattributes, hsequence, before, hwritten, hbefore⟩ := hupsert
  have hframe : ∃ rows written, w.upsertSyncRow publish.attributes row sequence =
      { w with rows, written } := by
    cases row <;> exact ⟨_, _, rfl⟩
  obtain ⟨rows, written, hframe⟩ := hframe
  rw [hframe] at hrows hwritten
  rw [hframe]
  refine ⟨saved, ?_, ?_, ?_, ?_, hrows, ?_, ?_, nofun, ?_, ?_⟩
  · rw [append_assoc]
    exact h.publishes_setStage .saved
  · intro p hp
    rcases mem_append.mp hp with hold | hlast
    · exact h.ended p hold
    · rw [mem_singleton.mp hlast]
  · intro p hp
    cases rest with
    | nil => cases hp
    | cons next later =>
      obtain rfl := Option.some.inj hp
      rw [h.tail next mem_cons_self]
      trivial
  · exact fun p hp => h.tail p (mem_of_mem_tail hp)
  · rw [getLast?_concat]
    exact congrArg some hattributes
  · rintro r hr
    cases hr
    rw [hsequence]
    exact hle
  · rintro r hr
    cases hr
    rw [hsequence]
    exact ⟨before, hwritten, hbefore⟩
  · rintro r hr hread
    cases hr
    rw [hsequence] at hread
    exact absurd hread (not_le_of_gt hcursor)

theorem copy_read (h : Kept w done rest row) (other : ℕ) :
    ∀ r ∈ row, (w.read other).copy = some r.attributes := by
  rintro r hr
  obtain rfl : row = some r := hr
  by_cases hlt : w.cursor < r.serverSequence
  · rw [FeedWorld.read, changesAfter_of_lt h.rows hlt]
    rfl
  · rw [FeedWorld.read, changesAfter_of_le h.rows (not_lt.mp hlt)]
    exact h.client r rfl (not_lt.mp hlt)

theorem read (h : Kept w done rest row) (other : ℕ) : Kept (w.read other) done rest row where
  __ := h
  client := fun r hr _ => h.copy_read other r hr

end Kept

/-! ## Runs -/

/-- What every run whose publishes follow each other keeps. -/
def Ordered (w : FeedWorld κ ω) : Prop := ∃ done rest row, Kept w done rest row

/-- **A step** of such a run. -/
theorem Ordered.step (h : Ordered w) {a : FeedAction κ ω} (hfollows : w.Follows a)
    (hstep : w.step a = some w') : Ordered w' := by
  obtain ⟨done, rest, row, h⟩ := h
  cases a with
  | commit attributes =>
    cases hstep
    refine ⟨done, rest ++ [⟨attributes, .committed⟩], row, ?_, h.ended, ?_, ?_, h.rows, h.last,
      h.bounded, h.fresh, h.written, h.client⟩
    · show w.publishes ++ _ = _
      rw [h.eq, append_assoc]
    · intro p hp
      cases rest with
      | nil =>
        cases hp
        trivial
      | cons first later => exact h.head p hp
    · intro p hp
      cases rest with
      | nil => cases hp
      | cons first later =>
        rcases mem_append.mp hp with hold | hlast
        · exact h.tail p hold
        · rw [mem_singleton.mp hlast]
  | find i =>
    simp only [FeedWorld.step] at hstep
    split at hstep
    next attributes hi =>
      cases hstep
      obtain ⟨rfl, later, rfl⟩ := h.index_of_committed hi rfl hfollows
      refine ⟨done, _, row, h.setStage ?_⟩
      show w.rows.head? = row
      rw [h.rows]
      cases row <;> rfl
    · cases hstep
  | allocate i sequence =>
    simp only [FeedWorld.step] at hstep
    split at hstep
    next attributes existingSync hi =>
      split at hstep
      next hlt =>
        cases hstep
        obtain ⟨rfl, later, rfl⟩ := h.index_of_begun hi nofun nofun
        obtain rfl : existingSync = row := h.head _ rfl
        refine ⟨done, _, existingSync, (h.allocate hlt).setStage ⟨rfl, le_rfl, fun r hr => ?_⟩⟩
        exact (h.bounded r hr).trans_lt hlt
      · cases hstep
    · cases hstep
  | save i =>
    simp only [FeedWorld.step] at hstep
    split at hstep
    next attributes existingSync sequence hi =>
      cases hstep
      obtain ⟨rfl, later, rfl⟩ := h.index_of_begun hi nofun nofun
      have hcurrent := h.head _ rfl
      obtain rfl : existingSync = row := hcurrent.1
      obtain ⟨saved, hsaved⟩ := h.save hcurrent (hfollows attributes existingSync sequence hi)
      exact ⟨_, later, some saved, hsaved⟩
    · cases hstep
  | allocateOther sequence =>
    simp only [FeedWorld.step] at hstep
    split at hstep
    next hlt =>
      cases hstep
      exact ⟨done, rest, row, h.allocate hlt⟩
    · cases hstep
  | pull other =>
    simp only [FeedWorld.step] at hstep
    split at hstep
    · cases hstep
      exact ⟨done, rest, row, h.read other⟩
    · cases hstep

theorem Ordered.inCommitOrder (h : Ordered w) : w.InCommitOrder := by
  obtain ⟨done, rest, row, h⟩ := h
  have hall : w.Settled → w.publishes = done := by
    intro hsettled
    cases rest with
    | nil => rw [h.eq, append_nil]
    | cons first later =>
      have hcurrent := h.head first rfl
      rw [hsettled first (by rw [h.eq]; simp)] at hcurrent
      exact hcurrent.elim
  have hlatest : w.Settled → ∀ last, w.publishes.getLast? = some last →
      ∃ r, row = some r ∧ r.attributes = last.attributes := by
    intro hsettled last hlast
    have hattributes := h.last
    rw [← hall hsettled, hlast] at hattributes
    exact Option.map_eq_some_iff.mp hattributes
  refine ⟨?_, ?_, ?_, ?_⟩
  · rw [h.rows]
    cases row <;> simp
  · intro r hr
    rw [h.rows] at hr
    obtain ⟨before, hwritten, hbefore⟩ := h.written r (Option.mem_toList.mp hr)
    refine ⟨before, ?_, fun e he => (hbefore e he).2⟩
    rw [hwritten]
    refine filter_eq_self.mpr fun e he => decide_eq_true ?_
    rcases mem_append.mp he with hold | hlast
    · exact (hbefore e hold).1
    · rw [mem_singleton.mp hlast]
  · intro hsettled last hlast
    obtain ⟨r, rfl, hattributes⟩ := hlatest hsettled last hlast
    rw [h.rows, Option.toList_some, map_singleton, hattributes]
  · intro hsettled last hlast other
    obtain ⟨r, rfl, hattributes⟩ := hlatest hsettled last hlast
    rw [h.copy_read other r rfl, hattributes]

/-- **Sync rows follow the commits** in a run whose publishes follow each other. -/
theorem published_in_order {actions : List (FeedAction κ ω)} {w : FeedWorld κ ω}
    (hfollows : Along FeedWorld.step Follows init actions)
    (h : runActions FeedWorld.step init actions = some w) : w.InCommitOrder :=
  (runActions_invariant (fun _ _ _ h hf hs => Ordered.step h hf hs) actions
    ⟨[], [], none, kept_init⟩ hfollows h).inCommitOrder

/-- Two changes that are committed before the first one is published, and a client that reads the
    feed between their publishes. -/
def twoChanges : List (FeedAction Unit String) :=
  [.commit fun _ => "first", .commit fun _ => "second", .find 0, .allocate 0 1, .save 0, .pull 0,
    .allocateOther 2, .find 1, .allocate 1 3, .save 1]

theorem published_in_order_twice :
    ∃ w, runActions FeedWorld.step init twoChanges = some w ∧
      w.rows.map (fun row => (row.attributes (), row.serverSequence)) = [("second", 3)] ∧
      w.InCommitOrder := by
  have hfollows : Along FeedWorld.step Follows init twoChanges := by
    refine ⟨trivial, trivial, nofun, trivial, ?_, trivial, trivial, ?_, trivial, ?_, trivial⟩
    · rintro attributes existingSync sequence hi
      obtain ⟨-, rfl⟩ := PublishStage.sequenced.inj (congrArg Publish.stage (Option.some.inj hi))
      decide
    · rintro j hj publish hpublish
      obtain rfl : j = 0 := Nat.lt_one_iff.mp hj
      cases hpublish
      rfl
    · rintro attributes existingSync sequence hi
      obtain ⟨-, rfl⟩ := PublishStage.sequenced.inj (congrArg Publish.stage (Option.some.inj hi))
      decide
  obtain ⟨w, hw⟩ : ∃ w, runActions FeedWorld.step init twoChanges = some w := ⟨_, rfl⟩
  have hordered := published_in_order hfollows hw
  cases hw
  exact ⟨_, rfl, rfl, hordered⟩

/-- Two publishes that find no row. -/
theorem overlapping_publishes :
    ∃ w : FeedWorld Unit String, runActions FeedWorld.step init
        [.commit fun _ => "first", .commit fun _ => "second", .find 0, .find 1, .allocate 0 1,
          .allocate 1 2, .save 0, .save 1] = some w ∧ ¬ w.InCommitOrder := by
  refine ⟨_, rfl, fun h => ?_⟩
  exact absurd h.oneRow (by decide)

end FeedWorld

end Velocious.SyncPublisher
