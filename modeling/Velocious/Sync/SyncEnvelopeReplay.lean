/-
  Replaying one sync mutation on the server
  (src/sync/sync-envelope-replay-service.js), for a service with a sync model,
  a conflict strategy and routed resources.

  * A record is kept as the value of its version attribute: what else a
    mutation assigns is written and never read here.
  * The data column of a sync row holds the mutation's data, or an envelope
    with the acknowledgement metadata around it
    (src/sync/sync-replay-persisted-data.js).
  * `sha256Hex` is a parameter: only equal inputs need equal digests. So is
    `parseDate`, the time of a text for `new Date`.
-/
import Velocious.Sync.LocalMutationLog
import Velocious.Utils.StableJson

namespace Velocious

open Foundation

def SyncVersion.toJson : SyncVersion → Json
  | null => .null
  | num x => .num x
  | str s => .str s

/-- Whether two versions have one stable text. -/
def sameVersion (a b : SyncVersion) : Bool :=
  stableJsonStringify a.toJson = stableJsonStringify b.toJson

/-! ## Mutations and sync rows -/

/-- A normalized replay mutation; `baseVersion` may be undefined. -/
structure SyncReplayMutation where
  baseVersion : Option SyncVersion
  clientMutationId : Option String
  clientUpdatedAt : ℤ
  data : List (String × Json)
  id : String
  resourceId : String
  resourceType : String
  syncType : String

namespace SyncReplayMutation

def serializedData (m : SyncReplayMutation) : String := (Json.obj m.data).stringify

/-- `String(mutation.clientMutationId || mutation.id)`. -/
def identity (m : SyncReplayMutation) : String := (orNull m.clientMutationId).getD m.id

end SyncReplayMutation

/-- A sync as it comes in, with the fields that `normalizeReplaySync` asks for and its data read;
    `clientUpdatedAt` is a text, or missing. -/
structure ReplaySync where
  baseVersion : Option SyncVersion
  clientMutationId : Option String
  clientUpdatedAt : Option String
  data : List (String × Json)
  id : String
  resourceId : String
  resourceType : String
  syncType : String

/-- `normalizeReplaySync` at the server time `now`: a time that is missing, or that `parseDate`
    (`new Date`) cannot read, becomes the server's. -/
def normalizeReplaySync (parseDate : String → Option ℤ) (now : ℤ) (sync : ReplaySync) :
    SyncReplayMutation where
  baseVersion := sync.baseVersion
  clientMutationId := sync.clientMutationId
  clientUpdatedAt := (sync.clientUpdatedAt.bind parseDate).getD now
  data := sync.data
  id := sync.id
  resourceId := sync.resourceId
  resourceType := sync.resourceType
  syncType := sync.syncType

/-- A stored sync row of one actor and resource. -/
structure SyncRow where
  id : ℕ
  clientUpdatedAt : Option ℤ
  data : Json
  syncType : String

/-- What is persisted of a replay. -/
structure ReplayMetadata where
  acknowledgementVersion : Option Json
  clientMutationId : String
  payloadFingerprint : String

/-- `serializeReplayPersistedData`, as the value that is stored. -/
def replayPersistedData (version : SyncVersion) (clientMutationId payloadFingerprint : String)
    (payload : Json) : Json :=
  .obj [("$velociousReplay",
      .obj [("acknowledgementVersion", version.toJson), ("clientMutationId", .str clientMutationId),
        ("payloadFingerprint", .str payloadFingerprint)]),
    ("payload", payload)]

def decodeReplayPersistedData (value : Json) : Option ReplayMetadata × Json :=
  match value.field? "$velociousReplay", value.field? "payload" with
  | some (.obj fields), some payload =>
    match (Json.obj fields).field? "clientMutationId",
        (Json.obj fields).field? "payloadFingerprint" with
    | some (.str clientMutationId), some (.str payloadFingerprint) =>
      (some ⟨(Json.obj fields).field? "acknowledgementVersion", clientMutationId,
        payloadFingerprint⟩, payload)
    | _, _ => (none, value)
  | _, _ => (none, value)

/-! ## What the service decides -/

def shouldApplyReplayMutation (existing : Option SyncRow) (m : SyncReplayMutation) : Bool :=
  match existing.bind (·.clientUpdatedAt) with
  | none => true
  | some time => time < m.clientUpdatedAt

def isDuplicateReplayMutation (sha256Hex : String → String) (existing : Option SyncRow)
    (m : SyncReplayMutation) : Bool :=
  match existing with
  | none => false
  | some row =>
    match (decodeReplayPersistedData row.data).1 with
    | some metadata =>
      metadata.clientMutationId = m.identity &&
        metadata.payloadFingerprint = sha256Hex m.serializedData
    | none =>
      row.clientUpdatedAt = some m.clientUpdatedAt && row.data.stringify = m.serializedData &&
        row.syncType = m.syncType

/-- `CONFLICT_STRATEGIES`. -/
inductive ConflictStrategy where
  | optimisticVersion
  | serverWins
  | lastWriterWins
  | fieldThreeWay
  | appendOnly
  deriving DecidableEq, Repr

/-- Whether `resolveSyncConflict` compares versions; with no base record the
    others apply every mutation. -/
def ConflictStrategy.comparesVersions : ConflictStrategy → Bool
  | optimisticVersion | serverWins => true
  | lastWriterWins | fieldThreeWay | appendOnly => false

/-- Whether `routedReplayConflictResult` answers a conflict with the record. -/
def routedReplayConflict (strategy : ConflictStrategy) (record : Option SyncVersion)
    (m : SyncReplayMutation) : Bool :=
  match record, m.baseVersion with
  | some serverVersion, some baseVersion =>
    m.syncType ≠ "create" && baseVersion ≠ .null && !sameVersion serverVersion baseVersion &&
      strategy.comparesVersions
  | _, _ => false

/-- What applying or skipping a mutation returns. -/
structure ReplayApplyResult where
  created : Bool
  deleted : Bool
  duplicate : Bool
  record : Option SyncVersion

/-- The data column of `persistReplayMutation` after an application. -/
def persistedReplayData (sha256Hex : String → String) (m : SyncReplayMutation)
    (result : ReplayApplyResult) : Json :=
  match m.baseVersion, result.record with
  | some _, some version =>
    replayPersistedData version m.identity (sha256Hex m.serializedData)
      (decodeReplayPersistedData (.obj m.data)).2
  | _, _ => .obj m.data

/-- `upsertSyncRow` on the rows of a resource, with the id of a created row. -/
def upsertSyncRow (rows : List SyncRow) (existing : Option SyncRow) (id : ℕ)
    (m : SyncReplayMutation) (data : Json) : List SyncRow :=
  match existing with
  | some row =>
    rows.map fun r => if r.id = row.id then ⟨r.id, some m.clientUpdatedAt, data, m.syncType⟩ else r
  | none => rows ++ [⟨id, some m.clientUpdatedAt, data, m.syncType⟩]

/-- The answer to a mutation. -/
inductive ReplayAnswer where
  | successful (serverVersion : Option Json)
  | duplicate (serverVersion : Option Json)
  | conflict (serverVersion : Option SyncVersion)

/-- The version a response reports when there is no stored acknowledgement. -/
def reportedVersion (m : SyncReplayMutation) (result : Option ReplayApplyResult) : Option Json :=
  match m.baseVersion with
  | some _ => (result.bind (·.record)).map SyncVersion.toJson
  | none => none

/-- The answer to a mutation that was applied, or was skipped as not newer than
    the row that was looked up. -/
def replayAnswer (sha256Hex : String → String) (existing : Option SyncRow)
    (m : SyncReplayMutation) (shouldApply : Bool) (result : Option ReplayApplyResult) :
    ReplayAnswer :=
  if !shouldApply && isDuplicateReplayMutation sha256Hex existing m then
    match existing.bind fun row => (decodeReplayPersistedData row.data).1 with
    | some metadata => .duplicate metadata.acknowledgementVersion
    | none => .duplicate (reportedVersion m result)
  else .successful (reportedVersion m result)

section
variable {sha256Hex : String → String} {m : SyncReplayMutation}

theorem shouldApply_persisted {row : SyncRow} (h : row.clientUpdatedAt = some m.clientUpdatedAt) :
    shouldApplyReplayMutation (some row) m = false := by
  simp [shouldApplyReplayMutation, h]

/-- **A retry meets its acknowledgement.** With its metadata in the row that is
    looked up, a mutation is answered as a duplicate with the version of its
    application, whatever the record is by then. -/
theorem replayAnswer_persisted {row : SyncRow} {base version : SyncVersion}
    {applied : ReplayApplyResult} (skipped : Option ReplayApplyResult)
    (hbase : m.baseVersion = some base) (happlied : applied.record = some version)
    (hrow : row.data = persistedReplayData sha256Hex m applied) :
    replayAnswer sha256Hex (some row) m false skipped = .duplicate (some version.toJson) := by
  have hdecode : (decodeReplayPersistedData row.data).1 =
      some ⟨some version.toJson, m.identity, sha256Hex m.serializedData⟩ := by
    rw [hrow, persistedReplayData, hbase, happlied]
    rfl
  simp [replayAnswer, isDuplicateReplayMutation, hdecode]

end

end Velocious
