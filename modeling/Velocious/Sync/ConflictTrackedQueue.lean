/-
  Queueing conflict-tracked intents (`queueConflictTrackedSync` in
  src/sync/sync-api-client.js).

  A call reads the records of the log, chooses its predecessor and its
  timestamp, and then appends; other calls run between the two.
-/
import Velocious.Sync.LocalMutationLog
import Velocious.Foundation.Machine

namespace Velocious

open Foundation

/-- The identities that conflict tracking signs its mutations with. -/
structure ConflictTracking where
  actorDeviceId : String
  actorUserId : String
  offlineGrantId : String
  policyHash : String

/-- What a call of `queueConflictTrackedSync` is about. -/
structure QueueArgs where
  baseVersion : SyncVersion
  data : List (String × Json)
  operation : MutationOperation
  resourceId : String
  resourceType : String
  syncType : String

/-- What a call appends. -/
structure QueuedIntent where
  dependencies : List LocalMutationDependency
  mutation : SyncMutation

/-- The predecessor a call chooses in the records it has read. -/
def QueueArgs.predecessor (args : QueueArgs) (log : MutationLog) : Option LocalMutationLogRecord :=
  (log.recordsFor args.resourceType args.resourceId).getLast?

/-- `new Date(Math.max(now.getTime(), predecessorTime + 1)).toISOString()`. -/
def queuedAt (predecessor : Option LocalMutationLogRecord) (now : Option ℤ) : Except String ℤ :=
  toISOString <| now.map fun time => match predecessor with
    | some record => max time (record.mutation.occurredAt + 1)
    | none => time

/-- What `queueConflictTrackedSync` appends after the predecessor it chose. -/
def queuedIntent (tracking : ConflictTracking) (args : QueueArgs)
    (predecessor : Option LocalMutationLogRecord) (clientMutationId : String) (now : Option ℤ) :
    Except String QueuedIntent := do
  let occurredAt ← queuedAt predecessor now
  return {
    dependencies := match predecessor with
      | some record => [⟨record.mutation.clientMutationId, args.resourceType⟩]
      | none => []
    mutation := {
      actorDeviceId := tracking.actorDeviceId
      actorUserId := tracking.actorUserId
      attributes := args.data
      baseVersion := args.baseVersion
      clientMutationId
      model := args.resourceType
      occurredAt
      offlineGrantId := tracking.offlineGrantId
      operation := args.operation
      payload := ⟨args.resourceId, args.syncType⟩
      policyHash := tracking.policyHash } }

/-! ## Interleaved calls -/

/-- Where a call of `queueConflictTrackedSync` is. -/
inductive QueueStage where
  | reading
  | appending (predecessor : Option LocalMutationLogRecord) (intent : QueuedIntent)
  | done
  | failed (message : String)

/-- A log, and the calls that queue to it. -/
structure QueueWorld (ι : Type) where
  log : MutationLog
  stage : ι → QueueStage

/-- What happens next: a call gets the records, and its id and time, or its
    append runs, with the storage's sequence, an id and the log's clock. -/
inductive QueueAction (ι : Type) where
  | read (i : ι) (clientMutationId : String) (now : Option ℤ)
  | append (i : ι) (sequence : ℕ) (id : String) (now : Option ℤ)

namespace QueueWorld

variable {ι : Type}

def init (log : MutationLog) : QueueWorld ι := ⟨log, fun _ => .reading⟩

section
variable [DecidableEq ι]

def goto (w : QueueWorld ι) (i : ι) (s : QueueStage) : QueueWorld ι :=
  { w with stage := Function.update w.stage i s }

/-- One step of one call. -/
def step (tracking : ConflictTracking) (args : ι → QueueArgs) (w : QueueWorld ι) :
    QueueAction ι → Option (QueueWorld ι)
  | .read i clientMutationId now =>
    match w.stage i with
    | .reading =>
      let predecessor := (args i).predecessor w.log
      match queuedIntent tracking (args i) predecessor clientMutationId now with
      | .ok intent => some (w.goto i (.appending predecessor intent))
      | .error message => some (w.goto i (.failed message))
    | .appending _ _ | .done | .failed _ => none
  | .append i sequence id now =>
    match w.stage i with
    | .appending _ intent =>
      match MutationLog.appendedRecord intent.dependencies intent.mutation sequence id now with
      | .ok record =>
        if h : w.log.Above record.sequence then
          some { w.goto i .done with log := w.log.appendRecord record h }
        else none
      | .error message => some (w.goto i (.failed message))
    | .reading | .done | .failed _ => none

end

/-- The last record of the resource is still the predecessor the call chose. -/
def Fresh (args : ι → QueueArgs) (w : QueueWorld ι) : QueueAction ι → Prop
  | .read _ _ _ => True
  | .append i _ _ _ => ∀ predecessor intent, w.stage i = .appending predecessor intent →
      (args i).predecessor w.log = predecessor

end QueueWorld

/-! ## Chains -/

/-- `s` depends on exactly `r`, and is later. -/
structure Follows (r s : LocalMutationLogRecord) : Prop where
  dependencies : s.dependencies = [⟨r.mutation.clientMutationId, s.mutation.model⟩]
  occurredAt : r.mutation.occurredAt < s.mutation.occurredAt

/-- A single dependency chain. -/
structure IsDependencyChain (records : List LocalMutationLogRecord) : Prop where
  head : ∀ r ∈ records.head?, r.dependencies = []
  chain : records.IsChain Follows

/-- The records of each resource form a single chain in sequence order. -/
def MutationLog.Chained (log : MutationLog) : Prop :=
  ∀ model resourceId, IsDependencyChain (log.recordsFor model resourceId)

/-- `r` goes on from the last record of a chain, if there is one. -/
def Continues (predecessor : Option LocalMutationLogRecord) (r : LocalMutationLogRecord) : Prop :=
  predecessor.elim (r.dependencies = []) fun p => Follows p r

theorem IsDependencyChain.concat {records : List LocalMutationLogRecord}
    {r : LocalMutationLogRecord} (h : IsDependencyChain records)
    (hr : Continues records.getLast? r) : IsDependencyChain (records ++ [r]) := by
  constructor
  · intro s hs
    cases records with
    | nil =>
      cases hs
      exact hr
    | cons a records => exact h.head s hs
  · refine List.isChain_append.mpr ⟨h.chain, List.isChain_singleton r, ?_⟩
    rintro p hp s hs
    cases hs
    rwa [hp] at hr

theorem MutationLog.Chained.appendRecord {log : MutationLog} {r : LocalMutationLogRecord}
    (hlog : log.Chained) (h : log.Above r.sequence)
    (hr : Continues (log.recordsFor r.mutation.model r.mutation.payload.resourceId).getLast? r) :
    (log.appendRecord r h).Chained := by
  intro model resourceId
  rw [recordsFor_appendRecord]
  split
  · rename_i hfor
    simp only [LocalMutationLogRecord.isFor, Bool.and_eq_true, decide_eq_true_eq] at hfor
    obtain ⟨rfl, rfl⟩ := hfor
    exact (hlog _ _).concat hr
  · rw [List.append_nil]
    exact hlog model resourceId

/-- The intent of a call is about its resource and continues its predecessor. -/
def Queued (args : QueueArgs) : QueueStage → Prop
  | .appending predecessor intent =>
    ∀ r : LocalMutationLogRecord, r.dependencies = intent.dependencies →
      r.mutation = intent.mutation →
      r.mutation.model = args.resourceType ∧
        r.mutation.payload.resourceId = args.resourceId ∧ Continues predecessor r
  | .reading | .done | .failed _ => True

theorem occurredAt_lt_queuedAt {predecessor : LocalMutationLogRecord} {now : Option ℤ} {t : ℤ}
    (h : queuedAt (some predecessor) now = .ok t) : predecessor.mutation.occurredAt < t := by
  obtain ⟨time, -, rfl⟩ := Option.map_eq_some_iff.mp (toISOString_ok h)
  exact lt_of_lt_of_le (lt_add_one _) (le_max_right _ _)

theorem queued_of_queuedIntent {tracking : ConflictTracking} {args : QueueArgs}
    {predecessor : Option LocalMutationLogRecord} {clientMutationId : String} {now : Option ℤ}
    {intent : QueuedIntent}
    (h : queuedIntent tracking args predecessor clientMutationId now = .ok intent) :
    Queued args (.appending predecessor intent) := by
  unfold queuedIntent at h
  cases ht : queuedAt predecessor now with
  | error message =>
    rw [ht] at h
    cases h
  | ok t =>
    rw [ht] at h
    cases h
    rintro r hdeps hmutation
    rw [hmutation]
    refine ⟨rfl, rfl, ?_⟩
    cases predecessor with
    | none => exact hdeps
    | some p =>
      constructor
      · rw [hdeps, hmutation]
      · rw [hmutation]
        exact occurredAt_lt_queuedAt ht

namespace QueueWorld

variable {ι : Type} [DecidableEq ι] {tracking : ConflictTracking} {args : ι → QueueArgs}

/-- The chains of the log, and what every call knows. -/
structure Ok (args : ι → QueueArgs) (w : QueueWorld ι) : Prop where
  chained : w.log.Chained
  queued : ∀ i, Queued (args i) (w.stage i)

omit [DecidableEq ι] in
theorem ok_init {log : MutationLog} (hlog : log.Chained) : Ok args (.init log) :=
  ⟨hlog, fun _ => trivial⟩

theorem queued_goto {w : QueueWorld ι} {i : ι} {s : QueueStage}
    (hw : ∀ j, Queued (args j) (w.stage j)) (hs : Queued (args i) s) (j : ι) :
    Queued (args j) ((w.goto i s).stage j) := by
  by_cases hj : j = i
  · subst hj
    simpa [goto] using hs
  · simpa [goto, hj] using hw j

theorem step_cases {w w' : QueueWorld ι} {a : QueueAction ι}
    (h : step tracking args w a = some w') :
    (∃ i s, w' = w.goto i s ∧ Queued (args i) s ∧ ∀ predecessor intent,
      s = .appending predecessor intent → predecessor = (args i).predecessor w.log) ∨
    ∃ i sequence id now predecessor intent record,
      a = .append i sequence id now ∧ w.stage i = .appending predecessor intent ∧
      MutationLog.appendedRecord intent.dependencies intent.mutation sequence id now = .ok record ∧
      ∃ habove, w' = { w.goto i .done with log := w.log.appendRecord record habove } := by
  cases a with
  | read i clientMutationId now =>
    dsimp only [QueueWorld.step] at h
    split at h
    · split at h
      · rename_i intent hintent
        cases h
        refine .inl ⟨i, _, rfl, queued_of_queuedIntent hintent, ?_⟩
        rintro _ _ ⟨⟩
        rfl
      · cases h
        exact .inl ⟨i, _, rfl, trivial, fun _ _ hs => nomatch hs⟩
    · cases h
    · cases h
    · cases h
  | append i sequence id now =>
    dsimp only [QueueWorld.step] at h
    split at h
    · rename_i predecessor intent hi
      split at h
      · rename_i record hrecord
        split at h
        · rename_i habove
          cases h
          exact .inr ⟨i, sequence, id, now, predecessor, intent, record, rfl, hi, hrecord,
            habove, rfl⟩
        · cases h
      · cases h
        exact .inl ⟨i, _, rfl, trivial, fun _ _ hs => nomatch hs⟩
    · cases h
    · cases h
    · cases h

theorem Ok.step {w w' : QueueWorld ι} {a : QueueAction ι} (hw : Ok args w)
    (hfresh : Fresh args w a) (h : step tracking args w a = some w') : Ok args w' := by
  obtain ⟨i, s, rfl, hs, -⟩ |
    ⟨i, sequence, id, now, predecessor, intent, record, rfl, hi, hrecord, habove, rfl⟩ :=
    step_cases h
  · exact ⟨hw.chained, queued_goto hw.queued hs⟩
  · obtain ⟨hdeps, hmutation, -⟩ := MutationLog.appendedRecord_ok hrecord
    have hq := hw.queued i
    rw [hi] at hq
    obtain ⟨hmodel, hresource, hcontinues⟩ := hq record hdeps hmutation
    refine ⟨hw.chained.appendRecord habove ?_, queued_goto hw.queued trivial⟩
    have hlast := hfresh predecessor intent hi
    rw [hmodel, hresource, ← QueueArgs.predecessor, hlast]
    exact hcontinues

/-- **Fresh appends keep one chain per resource.** From a log whose records form
    one chain per resource, in every interleaving of calls in which each append
    still follows the last record of its resource in the log, they do so at the
    end: in sequence order each record after the first depends on exactly the
    previous one, and is later. -/
theorem fresh_queueing_chains {log : MutationLog} {actions : List (QueueAction ι)}
    {w : QueueWorld ι} (hlog : log.Chained)
    (hfresh : Along (step tracking args) (Fresh args) (init log) actions)
    (hrun : runActions (step tracking args) (init log) actions = some w) : w.log.Chained :=
  (runActions_invariant (I := Ok args) (fun _ _ _ hs hok h => hs.step hok h) actions
    (ok_init hlog) hfresh hrun).chained

end QueueWorld

/-! ## Two saves of one record -/

def deviceTracking : ConflictTracking := ⟨"device", "user", "grant", "policy"⟩

def renameTask : QueueArgs := ⟨.num (.int 1), [("name", .str "a")], .update, "1", "Task", "update"⟩

def savesInTurn : List (QueueAction Bool) :=
  [.read false "m1" (some 5), .append false 1 "r1" (some 5),
    .read true "m2" (some 5), .append true 2 "r2" (some 5)]

/-- Both read the log before either appends. -/
def savesAtOnce : List (QueueAction Bool) :=
  [.read false "m1" (some 5), .read true "m2" (some 5),
    .append false 1 "r1" (some 5), .append true 2 "r2" (some 5)]

theorem empty_chained : MutationLog.empty.Chained :=
  fun _ _ => ⟨fun r h => absurd h (Option.not_mem_none r), .nil⟩

theorem savesInTurn_fresh :
    Along (QueueWorld.step deviceTracking fun _ => renameTask)
      (QueueWorld.Fresh fun _ => renameTask) (.init .empty) savesInTurn := by
  refine ⟨trivial, ?_, trivial, ?_, trivial⟩
  · rintro _ _ ⟨⟩
    rfl
  · rintro _ _ ⟨⟩
    rfl

theorem fresh_queueing_chains_in_turn :
    ∃ w, runActions (QueueWorld.step deviceTracking fun _ => renameTask) (.init .empty)
        savesInTurn = some w ∧ w.log.records.length = 2 ∧ w.log.Chained :=
  ⟨_, rfl, rfl, @QueueWorld.fresh_queueing_chains Bool _ deviceTracking (fun _ => renameTask)
    .empty savesInTurn _ empty_chained savesInTurn_fresh rfl⟩

/-- **Overlapping saves fork the chain.** Both records start a chain, with the
    same timestamp. -/
theorem forked_chain :
    ∃ w, runActions (QueueWorld.step deviceTracking fun _ => renameTask) (.init .empty)
        savesAtOnce = some w ∧
      ((w.log.recordsFor "Task" "1").map fun r => (r.dependencies, r.mutation.occurredAt)) =
        [([], 5), ([], 5)] ∧
      ¬ w.log.Chained := by
  refine ⟨_, rfl, rfl, fun h => ?_⟩
  obtain ⟨-, hchain⟩ := h "Task" "1"
  cases hchain with
  | cons_cons hfollows _ => cases hfollows.dependencies

end Velocious
