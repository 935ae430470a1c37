/-
  Draining the mutation log to a replay service that may lose responses
  (`replayConflictTrackedSyncs` in src/sync/sync-api-client.js).

  The drain reads the log, posts one envelope for each group of records that may
  share one, marks the records as the service answers, and lets the next pending
  record start from the version that was answered. New intents are appended at
  any moment, the service processes one envelope at a time, and a request or its
  response may be lost at any moment, after which the drain starts over.

  The callbacks that generate record ids and client mutation ids give new ones,
  and the database of the service compares texts exactly.
  The history of the service is the groups it applied, in order.
-/
import Velocious.Sync.ConflictTrackedQueue
import Velocious.Sync.SyncEnvelopeReplay

namespace Velocious

open Foundation

/-! ## Groups and envelopes -/

/-- `Object.assign` of one field. -/
def setField (fields : List (String × Json)) (field : String × Json) : List (String × Json) :=
  if fields.any (·.1 = field.1) then fields.map fun f => if f.1 = field.1 then field else f
  else fields ++ [field]

/-- `Object.assign({}, ...objects)`. -/
def assignAll (objects : List (List (String × Json))) : List (String × Json) :=
  ownFields (objects.flatten.foldl setField [])

def scalarSyncAttributes (attributes : List (String × Json)) : Bool :=
  attributes.all fun f => match f.2 with
    | .null | .str _ | .num _ | .bool _ => true
    | .arr _ | .obj _ => false

def conflictRecordIdentity (record : LocalMutationLogRecord) : String :=
  record.mutation.model ++ ":" ++ record.mutation.payload.resourceId

/-- Two objects have a key in common. -/
def sharesKey (left right : List (String × Json)) : Bool :=
  left.any fun f => right.any fun g => g.1 = f.1

def canCoalesceConflictRecords (left right : LocalMutationLogRecord) : Bool :=
  left.mutation.operation = .update && right.mutation.operation = .update &&
    conflictRecordIdentity left = conflictRecordIdentity right &&
    left.mutation.baseVersion = right.mutation.baseVersion &&
    scalarSyncAttributes left.mutation.attributes &&
    scalarSyncAttributes right.mutation.attributes &&
    !sharesKey left.mutation.attributes right.mutation.attributes

def LocalMutationLogRecord.dependsOn (r : LocalMutationLogRecord) (clientMutationId : String) :
    Bool :=
  r.dependencies.any (·.clientMutationId = clientMutationId)

/-- The records that join a group after its tail; each is later in the log, so
    `n` need not exceed the number of pending ones. -/
def groupTail (pending : List LocalMutationLogRecord) :
    ℕ → LocalMutationLogRecord → List LocalMutationLogRecord
  | 0, _ => []
  | n + 1, tail =>
    match pending.find? (·.dependsOn tail.mutation.clientMutationId) with
    | some successor =>
      if canCoalesceConflictRecords tail successor then
        successor :: groupTail pending n successor
      else []
    | none => []

/-- The groups of `conflictReplayGroups`, after those of the `selected` identities. -/
def groupsFrom (pending : List LocalMutationLogRecord) (selected : List String) :
    List LocalMutationLogRecord → List (List LocalMutationLogRecord)
  | [] => []
  | record :: ready =>
    if conflictRecordIdentity record ∈ selected then groupsFrom pending selected ready
    else
      (record :: groupTail pending pending.length record) ::
        groupsFrom pending (conflictRecordIdentity record :: selected) ready

def statusOf (records : List LocalMutationLogRecord) (clientMutationId : String) :
    Option LocalMutationStatus :=
  (records.reverse.find? (·.mutation.clientMutationId = clientMutationId)).map (·.status)

def pendingRecords (log : MutationLog) (resourceType : String) : List LocalMutationLogRecord :=
  log.records.filter fun r => r.status = .pending && r.mutation.model = resourceType

/-- The pending records of a resource type whose dependencies are all synced. -/
def readyRecords (log : MutationLog) (resourceType : String) : List LocalMutationLogRecord :=
  (pendingRecords log resourceType).filter fun r =>
    r.dependencies.all fun d => statusOf log.records d.clientMutationId = some .synced

def conflictReplayGroups (log : MutationLog) (resourceType : String) :
    List (List LocalMutationLogRecord) :=
  groupsFrom (pendingRecords log resourceType) [] (readyRecords log resourceType)

/-- `conflictReplayPayload` of a group with this first record, as the service
    normalizes it. -/
def conflictReplayPayload (first : LocalMutationLogRecord) (group : List LocalMutationLogRecord) :
    SyncReplayMutation where
  baseVersion := some first.mutation.baseVersion
  clientMutationId := none
  clientUpdatedAt := first.mutation.occurredAt
  data := assignAll (group.map (·.mutation.attributes))
  id := first.mutation.clientMutationId
  resourceId := first.mutation.payload.resourceId
  resourceType := first.mutation.model
  syncType := first.mutation.payload.syncType

/-- The records and sync rows of the resources, and the groups that were applied. -/
structure ReplayServer where
  record : String × String → Option SyncVersion
  rows : String × String → List SyncRow
  applied : List (List LocalMutationLogRecord)

/-- How an application ends: with a version for the record and an id for a
    created row, or with an error that is safe to expose. -/
inductive ApplyOutcome where
  | written (version : SyncVersion) (rowId : ℕ)
  | failed (reason : String)

/-- What the service answers; an error is the reason of a failed mutation. -/
abbrev ServerAnswer := Except String ReplayAnswer

/-- `replay` of the envelope of a group. -/
def ReplayServer.replay (sha256Hex : String → String) (strategy : ConflictStrategy)
    (s : ReplayServer) (first : LocalMutationLogRecord) (group : List LocalMutationLogRecord)
    (outcome : ApplyOutcome) : ReplayServer × ServerAnswer :=
  let m := conflictReplayPayload first group
  let key := (m.resourceType, m.resourceId)
  let existing := (s.rows key).head?
  let record := s.record key
  if shouldApplyReplayMutation existing m then
    if routedReplayConflict strategy record m then (s, .ok (.conflict record))
    else match outcome with
      | .failed reason => (s, .error reason)
      | .written version rowId =>
        let result : ReplayApplyResult :=
          if m.syncType = "delete" then ⟨false, record.isSome, false, record⟩
          else ⟨record.isNone, false, false, some version⟩
        ({ record := Function.update s.record key
              (if m.syncType = "delete" then none else some version)
           rows := Function.update s.rows key
              (upsertSyncRow (s.rows key) existing rowId m (persistedReplayData sha256Hex m result))
           applied := s.applied ++ [group] },
          .ok (replayAnswer sha256Hex existing m true (some result)))
  else
    let skipped : Option ReplayApplyResult :=
      if isDuplicateReplayMutation sha256Hex existing m then some ⟨false, false, true, record⟩
      else none
    (s, .ok (replayAnswer sha256Hex existing m false skipped))

/-! ## The drain -/

def replayResultLocalStatus : ServerAnswer → LocalMutationStatus
  | .ok (.successful _) | .ok (.duplicate _) => .synced
  | .ok (.conflict _) => .conflict
  | .error _ => .rejected

/-- The version a successor may start from. -/
def answeredVersion : ServerAnswer → Option Json
  | .ok (.successful version) | .ok (.duplicate version) => version
  | .ok (.conflict _) | .error _ => none

/-- A base version that `cloneBaseVersion` accepts. -/
def baseVersion? : Json → Option SyncVersion
  | .null => some .null
  | .num x => some (.num x)
  | .str s => some (.str s)
  | .bool _ | .arr _ | .obj _ => none

/-- A group and the answer to it. -/
abbrev AnsweredGroup := List LocalMutationLogRecord × ServerAnswer

def groupIds (group : List LocalMutationLogRecord) : List String :=
  group.map (·.mutation.clientMutationId)

def OneValuePerField (group : List LocalMutationLogRecord) : Prop :=
  ∀ f ∈ group.flatMap (·.mutation.attributes), ∀ g ∈ group.flatMap (·.mutation.attributes),
    f.1 = g.1 → f = g

/-- Where the drain of a resource type is. -/
inductive ReplayDrain where
  | idle
  | reading (resourceType : String)
  /-- awaits the response; the service has still to process `todo` -/
  | posted (resourceType : String) (todo : List (List LocalMutationLogRecord))
      (answers : List AnsweredGroup)
  | marking (resourceType : String) (records : List LocalMutationLogRecord)
      (group : AnsweredGroup) (rest : List AnsweredGroup)
  /-- awaits `pendingRecords()` for the successor of a record -/
  | rebasing (resourceType : String) (predecessor : LocalMutationLogRecord) (version : Json)
      (rest : List AnsweredGroup)
  | updating (resourceType : String) (successor : LocalMutationLogRecord) (version : Json)
      (rest : List AnsweredGroup)

def ReplayDrain.next (resourceType : String) : List AnsweredGroup → ReplayDrain
  | [] => reading resourceType
  | group :: rest => marking resourceType group.1 group rest

/-- The log with its queueing calls, the drain and the service. -/
structure SyncWorld (ι : Type) where
  queue : QueueWorld ι
  drain : ReplayDrain
  server : ReplayServer

/-- What happens next: a step of a queueing call; the drain starts, reads the log
    and posts; the service processes an envelope; the response comes, or all is
    lost; the drain marks a record, compares the remote generation, finds the
    successor and rebases it; another client writes. -/
inductive SyncAction (ι : Type) where
  | queue (a : QueueAction ι)
  | start (resourceType : String)
  | post
  | serve (outcome : ApplyOutcome)
  | receive
  | lose
  | mark (now : Option ℤ)
  | settle (sameGeneration : Bool)
  | findSuccessor
  | rebase (now : Option ℤ)
  | otherWrite (key : String × String) (version : Option SyncVersion)

namespace SyncWorld

variable {ι : Type}

/-- An empty log and a service without sync rows. -/
def init (record : String × String → Option SyncVersion) : SyncWorld ι :=
  ⟨.init .empty, .idle, ⟨record, fun _ => [], []⟩⟩

def log (w : SyncWorld ι) : MutationLog := w.queue.log

def setLog (w : SyncWorld ι) (log : MutationLog) (drain : ReplayDrain) : SyncWorld ι :=
  { w with queue := { w.queue with log }, drain }

def newIds (q : QueueWorld ι) : QueueAction ι → Bool
  | .read _ _ _ => true
  | .append i _ id _ =>
    match q.stage i with
    | .appending _ intent => q.log.records.all fun r =>
        r.id ≠ id && r.mutation.clientMutationId ≠ intent.mutation.clientMutationId
    | .reading | .done | .failed _ => true

/-- One step. -/
def step [DecidableEq ι] (sha256Hex : String → String) (strategy : ConflictStrategy)
    (batchSize : ℕ) (tracking : ConflictTracking) (args : ι → QueueArgs) (w : SyncWorld ι) :
    SyncAction ι → Option (SyncWorld ι)
  | .queue a =>
    if newIds w.queue a then
      (QueueWorld.step tracking args w.queue a).map fun queue => { w with queue }
    else none
  | .start resourceType =>
    match w.drain with
    | .idle => some { w with drain := .reading resourceType }
    | _ => none
  | .post =>
    match w.drain with
    | .reading resourceType =>
      if (readyRecords w.log resourceType).isEmpty then some { w with drain := .idle }
      else some { w with
        drain := .posted resourceType ((conflictReplayGroups w.log resourceType).take batchSize) [] }
    | _ => none
  | .serve outcome =>
    match w.drain with
    | .posted resourceType ((first :: others) :: todo) answers =>
      let (server, answer) := w.server.replay sha256Hex strategy first (first :: others) outcome
      some { w with
        drain := .posted resourceType todo (answers ++ [(first :: others, answer)]), server }
    | _ => none
  | .receive =>
    match w.drain with
    | .posted resourceType [] answers => some { w with drain := .next resourceType answers }
    | _ => none
  | .lose => some { w with drain := .idle }
  | .mark now =>
    match w.drain with
    | .marking resourceType (record :: records) group rest =>
      match w.log.updateStatus record.id (replayResultLocalStatus group.2) now with
      | .ok log => some (w.setLog log (.marking resourceType records group rest))
      | .error _ => some { w with drain := .idle }
    | _ => none
  | .settle sameGeneration =>
    match w.drain with
    | .marking resourceType [] group rest =>
      match answeredVersion group.2, group.1.getLast? with
      | some version, some predecessor =>
        if sameGeneration then
          some { w with drain := .rebasing resourceType predecessor version rest }
        else some { w with drain := .next resourceType rest }
      | _, _ => some { w with drain := .next resourceType rest }
    | _ => none
  | .findSuccessor =>
    match w.drain with
    | .rebasing resourceType predecessor version rest =>
      match (w.log.records.filter (·.status.isPending)).find?
          (·.dependsOn predecessor.mutation.clientMutationId) with
      | some successor => some { w with drain := .updating resourceType successor version rest }
      | none => some { w with drain := .next resourceType rest }
    | _ => none
  | .rebase now =>
    match w.drain with
    | .updating resourceType successor version rest =>
      match baseVersion? version with
      | some baseVersion =>
        match w.log.updateMutation successor.id { successor.mutation with baseVersion } now with
        | .ok log => some (w.setLog log (.next resourceType rest))
        | .error _ => some { w with drain := .idle }
      | none => some { w with drain := .idle }
    | _ => none
  | .otherWrite key version =>
    some { w with server := { w.server with record := Function.update w.server.record key version } }

/-- An append still follows the last record of its resource; no field has two
    values in a group that is posted; and an envelope that shares a record with
    an applied one has the same records. -/
def Undivided (batchSize : ℕ) (args : ι → QueueArgs) (w : SyncWorld ι) : SyncAction ι → Prop
  | .queue (.append i _ _ _) => ∀ predecessor intent,
      w.queue.stage i = .appending predecessor intent →
        ((args i).predecessor w.log).map (·.mutation.clientMutationId) =
          predecessor.map (·.mutation.clientMutationId)
  | .post => ∀ resourceType, w.drain = .reading resourceType →
      ∀ group ∈ (conflictReplayGroups w.log resourceType).take batchSize, OneValuePerField group
  | .serve _ => ∀ resourceType group todo answers,
      w.drain = .posted resourceType (group :: todo) answers →
        ∀ applied ∈ w.server.applied, (∃ id ∈ groupIds group, id ∈ groupIds applied) →
          groupIds applied = groupIds group
  | _ => True

end SyncWorld

end Velocious
