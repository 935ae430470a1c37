/-
  The records of the mutation log (src/sync/local-mutation-log.js): what `append`, `updateStatus`
  and `updateMutation` write, and what `compact` deletes.

  * Mutations, signed envelopes and sync results are JSON. A sync result is kept in its transport
    encoding, in which it is stored.
  * `createdAt` and `updatedAt` are kept as the time values that their ISO texts name.
-/
import Velocious.Sync.LocalMutationLog
import Velocious.Sync.SignedMutations
import Velocious.Utils.StableJson

namespace Velocious.LocalLog

open Foundation Foundation.JsValue List
open DeviceIdentity (Platform IsIso normal isObject bind_eq_ok mapM_eq_ok)

def isTerminal : LocalMutationStatus → Bool
  | .rejected | .synced => true
  | .pending | .appliedLocally | .peerApplied | .conflict => false

/-- A status that protects dependencies from compaction. -/
def isOpen (status : LocalMutationStatus) : Bool := status.isPending || status = .conflict

/-- Local mutation log record. -/
structure LocalMutationLogRecord where
  createdAt : ℤ
  dependencies : List LocalMutationDependency
  id : String
  mutation : DeviceIdentity.SyncMutation
  sequence : ℕ
  signedMutation : Option JsValue
  status : LocalMutationStatus
  syncResult : Option JsValue
  updatedAt : ℤ

/-! ## Normalization -/

def cloneJsonObject (label : String) (value : JsValue) : Except String JsValue :=
  match value with
  | .obj o fields => .ok (viaJson (.obj o fields))
  | .null | .bool _ | .num _ | .str _ | .arr _ =>
    .error ("Expected local mutation " ++ label ++ " object")

def cloneBaseVersion (value : JsValue) : Except String JsValue :=
  match value with
  | .null => .ok .null
  | .str s => .ok (.str s)
  | .num x => .ok (.num x)
  | .bool _ | .arr _ | .obj _ _ =>
    .error "Expected local mutation baseVersion string, number, or null"

def requiredIsoTimestamp (p : Platform) (label : String) (value : Option JsValue) :
    Except String String := do
  let text ← requiredString label value
  match p.parseDate text with
  | some time =>
    if p.isoText time = text then .ok text
    else .error ("Expected local mutation " ++ label ++ " ISO timestamp")
  | none => .error ("Expected local mutation " ++ label ++ " ISO timestamp")

/-- Normalizes a sync mutation payload. -/
def normalizeMutation (p : Platform) (mutation : JsValue) :
    Except String DeviceIdentity.SyncMutation :=
  if isObject mutation then do
    let actorDeviceId ← requiredString "actorDeviceId" (mutation.field? "actorDeviceId")
    let actorUserId ← requiredString "actorUserId" (mutation.field? "actorUserId")
    let clientMutationId ← requiredString "clientMutationId" (mutation.field? "clientMutationId")
    let model ← requiredString "model" (mutation.field? "model")
    let occurredAt ← requiredIsoTimestamp p "occurredAt" (mutation.field? "occurredAt")
    let offlineGrantId ← requiredString "offlineGrantId" (mutation.field? "offlineGrantId")
    let operation ← requiredString "operation" (mutation.field? "operation")
    let policyHash ← requiredString "policyHash" (mutation.field? "policyHash")
    let attributes ← (mutation.field? "attributes").mapM (cloneJsonObject "attributes")
    let baseVersion ← (mutation.field? "baseVersion").mapM cloneBaseVersion
    let command ← (mutation.field? "command").mapM fun v => requiredString "command" (some v)
    let payload ← (mutation.field? "payload").mapM (cloneJsonObject "payload")
    return { actorDeviceId, actorUserId, clientMutationId, model, occurredAt, offlineGrantId,
             operation, policyHash, attributes, baseVersion, command, payload }
  else .error "Expected local sync mutation object"

/-- A persisted log record, or one about to be. -/
structure RecordValue where
  createdAt : ℤ
  dependencies : List LocalMutationDependency
  id : String
  mutation : JsValue
  sequence : ℕ
  signedMutation : Option JsValue
  status : LocalMutationStatus
  syncResult : Option JsValue
  updatedAt : ℤ

def LocalMutationLogRecord.toValue (r : LocalMutationLogRecord) : RecordValue :=
  { r with mutation := r.mutation.toValue }

/-- Normalizes a persisted log record. -/
def normalizeRecord (p : Platform) (value : RecordValue) :
    Except String LocalMutationLogRecord := do
  let dependencies ← normalizeDependencies value.dependencies
  let id ← requiredString "id" (some (.str value.id))
  let mutation ← normalizeMutation p value.mutation
  if value.sequence = 0 then .error "Expected local mutation sequence positive integer"
  let signedMutation ← value.signedMutation.mapM (cloneJsonObject "signedMutation")
  let syncResult ← value.syncResult.mapM (cloneJsonObject "syncResult")
  return { value with dependencies, id, mutation, signedMutation, syncResult }

def cloneRecord (r : LocalMutationLogRecord) : LocalMutationLogRecord :=
  { r with
    mutation := r.mutation.mapValues viaJson
    signedMutation := r.signedMutation.map viaJson
    syncResult := r.syncResult.map viaJson }

def normalizeRecordList (p : Platform) (records : List LocalMutationLogRecord) :
    Except String (List LocalMutationLogRecord) := do
  let normalized ← records.mapM fun r => normalizeRecord p r.toValue
  return (normalized.insertionSort fun r s => r.sequence ≤ s.sequence).map cloneRecord

/-! ## What the operations write -/

/-- The text that `append` compares mutations by (src/utils/stable-json.js). -/
def stableJsonText (value : JsValue) : List Char := write (normal value)

/-- `append` throws at once on a signed envelope of another mutation. -/
def checkSignedMutation (mutation : JsValue) (signedMutation : Option JsValue) : Except String Unit :=
  match signedMutation with
  | some signed =>
    if (signed.field? "mutation").map stableJsonText = some (stableJsonText mutation) then .ok ()
    else .error "Signed mutation payload does not match the mutation"
  | none => .ok ()

def appendedRecord (p : Platform) (dependencies : List LocalMutationDependency) (mutation : JsValue)
    (signedMutation : Option JsValue) (timestamp : ℤ) (id : String) (sequence : ℕ) :
    Except String LocalMutationLogRecord := do
  let record ← normalizeRecord p
    { createdAt := timestamp, dependencies, id, mutation, sequence, signedMutation,
      status := .pending, syncResult := none, updatedAt := timestamp }
  return cloneRecord record

/-- The record that `updateStatus` writes, for the one it read. -/
def statusRecord (p : Platform) (id : String) (status : LocalMutationStatus)
    (syncResult : Option JsValue) (rawRecord : Option LocalMutationLogRecord) (now : Option ℤ) :
    Except String LocalMutationLogRecord := do
  match rawRecord with
  | none => .error ("No local mutation log record '" ++ id ++ "'")
  | some raw =>
    let record ← normalizeRecord p raw.toValue
    let result ← syncResult.mapM (cloneJsonObject "syncResult")
    let updatedAt ← currentTimestamp now
    return cloneRecord { record with status, updatedAt, syncResult := result.or record.syncResult }

/-- The record that `updateMutation` writes, for the one it read. -/
def mutationRecord (p : Platform) (id : String) (mutation : JsValue)
    (rawRecord : Option LocalMutationLogRecord) (now : Option ℤ) :
    Except String LocalMutationLogRecord := do
  match rawRecord with
  | none => .error ("No local mutation log record '" ++ id ++ "'")
  | some raw =>
    let record ← normalizeRecord p raw.toValue
    if record.status.isPending then
      let mutation ← normalizeMutation p mutation
      let updatedAt ← currentTimestamp now
      return cloneRecord { record with mutation, updatedAt }
    else
      .error ("Cannot update mutation for " ++ record.status.text ++ " local mutation '" ++ id ++ "'")

def protectedClientMutationIds (records : List LocalMutationLogRecord) : List String :=
  (records.filter fun r => isOpen r.status).flatMap fun r =>
    r.dependencies.map (·.clientMutationId)

def newestFirst (r s : LocalMutationLogRecord) : Prop :=
  s.updatedAt < r.updatedAt ∨ s.updatedAt = r.updatedAt ∧ s.sequence ≤ r.sequence

instance (r s : LocalMutationLogRecord) : Decidable (newestFirst r s) :=
  inferInstanceAs (Decidable (_ ∨ _))

/-- The terminal records that `compact` may delete. -/
def compactable (records : List LocalMutationLogRecord) : List LocalMutationLogRecord :=
  ((records.filter fun r => isTerminal r.status).filter fun r =>
    r.mutation.clientMutationId ∉ protectedClientMutationIds records).insertionSort newestFirst

/-- The records that `compact` deletes. An option that is no number from 0 on is `none`; so is
    an infinite one, which deletes nothing, and a fraction counts as its floor. -/
def compactIds (records : List LocalMutationLogRecord)
    (maxTerminalRecords terminalRetentionMs : Option ℕ) (now : Option ℤ) : List String :=
  let byCount := maxTerminalRecords.elim [] fun n => (compactable records).drop n
  let byAge := terminalRetentionMs.elim [] fun (ms : ℕ) => (compactable records).filter fun r =>
    now.elim false fun now => r.updatedAt < now - ms
  ((byCount ++ byAge).map (·.id)).eraseDups

/-! ## What is stored -/

def IsClone (v : JsValue) : Prop := viaJson v = v

/-- A mutation that is read back as it was written. -/
structure StoredMutation (p : Platform) (m : DeviceIdentity.SyncMutation) : Prop where
  actorDeviceId : m.actorDeviceId ≠ ""
  actorUserId : m.actorUserId ≠ ""
  clientMutationId : m.clientMutationId ≠ ""
  model : m.model ≠ ""
  occurredAt : IsIso p m.occurredAt
  offlineGrantId : m.offlineGrantId ≠ ""
  operation : m.operation ≠ ""
  policyHash : m.policyHash ≠ ""
  attributes : ∀ v, m.attributes = some v → IsClone v ∧ isObject v = true
  baseVersion : ∀ v, m.baseVersion = some v → IsClone v ∧ cloneBaseVersion v = .ok v
  command : ∀ s, m.command = some s → s ≠ ""
  payload : ∀ v, m.payload = some v → IsClone v ∧ isObject v = true

/-- A record that is read back as it was written. -/
structure Stored (p : Platform) (r : LocalMutationLogRecord) : Prop where
  dependencies : normalizeDependencies r.dependencies = .ok r.dependencies
  id : r.id ≠ ""
  mutation : StoredMutation p r.mutation
  sequence : r.sequence ≠ 0
  signedMutation : ∀ v, r.signedMutation = some v → IsClone v ∧ isObject v = true
  syncResult : ∀ v, r.syncResult = some v → IsClone v ∧ isObject v = true

theorem viaJson_viaJson (v : JsValue) : IsClone (viaJson v) :=
  viaJson_of_written (written_viaJson v)

theorem isObject_viaJson {v : JsValue} (hv : isObject v = true) : isObject (viaJson v) = true :=
  DeviceIdentity.isObject_relabel hv

theorem cloneJsonObject_ok {label : String} {v w : JsValue} :
    cloneJsonObject label v = .ok w ↔ isObject v = true ∧ w = viaJson v := by
  unfold cloneJsonObject
  split
  · simp [isObject, eq_comm]
  all_goals simp [isObject]

section
variable {p : Platform}

variable {id label : String}

theorem requiredIsoTimestamp_ok {text : String} {value : Option JsValue} :
    requiredIsoTimestamp p label value = .ok text ↔ value = some (.str text) ∧ IsIso p text := by
  unfold requiredIsoTimestamp
  rw [bind_eq_ok]
  simp only [requiredString_ok]
  constructor
  · rintro ⟨t, ⟨hvalue, -⟩, h⟩
    split at h
    · rename_i time htime
      split at h
      · rename_i hiso
        cases h
        exact ⟨hvalue, time, htime, hiso⟩
      · cases h
    · cases h
  · rintro ⟨hvalue, time, htime, hiso⟩
    refine ⟨text, ⟨hvalue, ?_⟩, ?_⟩
    · rintro rfl
      rw [p.parseDate_empty] at htime
      cases htime
    · rw [htime]
      exact if_pos hiso

theorem isClone_of_mapM {given value : Option JsValue}
    (h : given.mapM (cloneJsonObject label) = .ok value) :
    value = given.map viaJson ∧ ∀ v, value = some v → IsClone v ∧ isObject v = true := by
  rcases mapM_eq_ok.mp h with ⟨rfl, rfl⟩ | ⟨a, b, rfl, hb, rfl⟩
  · exact ⟨rfl, nofun⟩
  · obtain ⟨hobject, rfl⟩ := cloneJsonObject_ok.mp hb
    refine ⟨rfl, fun v hv => ?_⟩
    cases hv
    exact ⟨viaJson_viaJson a, isObject_viaJson hobject⟩

theorem map_clone {o : Option JsValue} (h : ∀ v, o = some v → IsClone v ∧ isObject v = true) :
    o.map viaJson = o := by
  cases o with
  | none => rfl
  | some v => exact congrArg some (h v rfl).1

theorem clone_of_mapM {given value : Option JsValue}
    (h : given.mapM (cloneJsonObject label) = .ok value) :
    value.map viaJson = given.map viaJson ∧
      ∀ v, value.map viaJson = some v → IsClone v ∧ isObject v = true := by
  obtain ⟨hvalue, hclone⟩ := isClone_of_mapM h
  rw [map_clone hclone]
  exact ⟨hvalue, hclone⟩

theorem mapM_of_clone {o : Option JsValue} (h : ∀ v, o = some v → IsClone v ∧ isObject v = true) :
    o.mapM (cloneJsonObject label) = .ok o := by
  cases o with
  | none => rfl
  | some v =>
    obtain ⟨hclone, hobject⟩ := h v rfl
    exact mapM_eq_ok.mpr (.inr ⟨v, v, rfl, cloneJsonObject_ok.mpr ⟨hobject, hclone.symm⟩, rfl⟩)

theorem cloneBaseVersion_clone {v w : JsValue} (h : cloneBaseVersion v = .ok w) :
    cloneBaseVersion (viaJson w) = .ok (viaJson w) := by
  unfold cloneBaseVersion at h
  split at h
  · cases h
    rfl
  · cases h
    rfl
  · rename_i x
    cases h
    cases x <;> rfl
  all_goals cases h

variable {m : DeviceIdentity.SyncMutation}

theorem storedMutation_of_normalize {value : JsValue}
    (h : normalizeMutation p value = .ok m) : StoredMutation p (m.mapValues viaJson) := by
  unfold normalizeMutation at h
  split at h
  case isFalse => cases h
  simp only [bind_eq_ok] at h
  obtain ⟨_, h1, _, h2, _, h3, _, h4, _, h5, _, h6, _, h7, _, h8, attributes, ha, baseVersion, hb,
    command, hc, payload, hp, h⟩ := h
  cases h
  refine ⟨(requiredString_ok.mp h1).2, (requiredString_ok.mp h2).2, (requiredString_ok.mp h3).2,
    (requiredString_ok.mp h4).2, (requiredIsoTimestamp_ok.mp h5).2, (requiredString_ok.mp h6).2,
    (requiredString_ok.mp h7).2, (requiredString_ok.mp h8).2, (clone_of_mapM ha).2, fun v hv => ?_,
    fun s hs => ?_, (clone_of_mapM hp).2⟩
  · obtain ⟨u, rfl, rfl⟩ := Option.map_eq_some_iff.mp hv
    rcases mapM_eq_ok.mp hb with ⟨-, hnone⟩ | ⟨a, b, -, hclone, hsome⟩
    · cases hnone
    · cases hsome
      exact ⟨viaJson_viaJson _, cloneBaseVersion_clone hclone⟩
  · obtain rfl : command = some s := hs
    rcases mapM_eq_ok.mp hc with ⟨-, hnone⟩ | ⟨a, b, -, hstring, hsome⟩
    · cases hnone
    · cases hsome
      exact (requiredString_ok.mp hstring).2

theorem StoredMutation.normalize (h : StoredMutation p m) :
    normalizeMutation p m.toValue = .ok m := by
  have hattributes : (m.toValue.field? "attributes").mapM (cloneJsonObject "attributes") =
      .ok m.attributes := by
    rw [m.field?]
    exact mapM_of_clone h.attributes
  have hpayload : (m.toValue.field? "payload").mapM (cloneJsonObject "payload") =
      .ok m.payload := by
    rw [m.field?]
    exact mapM_of_clone h.payload
  have hbase : (m.toValue.field? "baseVersion").mapM cloneBaseVersion = .ok m.baseVersion := by
    rw [m.field?, show (valueAt? "baseVersion" m.fields).join = m.baseVersion from rfl]
    cases hb : m.baseVersion with
    | none => rfl
    | some v => exact mapM_eq_ok.mpr (.inr ⟨v, v, rfl, (h.baseVersion v hb).2, rfl⟩)
  have hcommand : (m.toValue.field? "command").mapM
      (fun v => requiredString "command" (some v)) = .ok m.command := by
    rw [m.field?, show (valueAt? "command" m.fields).join = m.command.map .str from rfl]
    cases hc : m.command with
    | none => rfl
    | some s =>
      exact mapM_eq_ok.mpr (.inr ⟨.str s, s, rfl, requiredString_ok.mpr ⟨rfl, h.command s hc⟩, rfl⟩)
  rw [normalizeMutation, if_pos (show isObject m.toValue = true from rfl)]
  simp only [bind_eq_ok]
  exact ⟨_, requiredString_ok.mpr ⟨rfl, h.actorDeviceId⟩,
    _, requiredString_ok.mpr ⟨rfl, h.actorUserId⟩,
    _, requiredString_ok.mpr ⟨rfl, h.clientMutationId⟩, _, requiredString_ok.mpr ⟨rfl, h.model⟩,
    _, requiredIsoTimestamp_ok.mpr ⟨rfl, h.occurredAt⟩,
    _, requiredString_ok.mpr ⟨rfl, h.offlineGrantId⟩,
    _, requiredString_ok.mpr ⟨rfl, h.operation⟩, _, requiredString_ok.mpr ⟨rfl, h.policyHash⟩,
    _, hattributes, _, hbase, _, hcommand, _, hpayload, rfl⟩

variable {r : LocalMutationLogRecord}

theorem normalizeRecord_ok {value : RecordValue} : normalizeRecord p value = .ok r ↔
      normalizeDependencies value.dependencies = .ok r.dependencies ∧ value.id ≠ "" ∧
      normalizeMutation p value.mutation = .ok r.mutation ∧ value.sequence ≠ 0 ∧
      value.signedMutation.mapM (cloneJsonObject "signedMutation") = .ok r.signedMutation ∧
      value.syncResult.mapM (cloneJsonObject "syncResult") = .ok r.syncResult ∧
      r.id = value.id ∧ r.sequence = value.sequence ∧ r.status = value.status ∧
      r.createdAt = value.createdAt ∧ r.updatedAt = value.updatedAt := by
  simp only [normalizeRecord, bind_eq_ok]
  constructor
  · rintro ⟨dependencies, hd, id, hid, mutation, hm, h⟩
    split at h
    · cases h
    · rename_i hsequence
      simp only [bind_eq_ok] at h
      obtain ⟨signedMutation, hsigned, syncResult, hresult, h⟩ := h
      cases h
      obtain ⟨hvalue, hne⟩ := requiredString_ok.mp hid
      cases Option.some.inj hvalue
      exact ⟨hd, hne, hm, hsequence, hsigned, hresult, rfl, rfl, rfl, rfl, rfl⟩
  · rintro ⟨hd, hid, hm, hsequence, hsigned, hresult, h1, h2, h3, h4, h5⟩
    refine ⟨_, hd, _, requiredString_ok.mpr ⟨rfl, hid⟩, _, hm, ?_⟩
    rw [if_neg hsequence]
    simp only [bind_eq_ok]
    refine ⟨_, hsigned, _, hresult, ?_⟩
    obtain ⟨createdAt, dependencies, id, mutation, sequence, signedMutation, status, syncResult,
      updatedAt⟩ := r
    subst h1 h2 h3 h4 h5
    rfl

theorem stored_of_normalize {value : RecordValue}
    (h : normalizeRecord p value = .ok r) : Stored p (cloneRecord r) := by
  obtain ⟨hd, hid, hm, hsequence, hsigned, hresult, h1, h2, -⟩ := normalizeRecord_ok.mp h
  refine ⟨?_, ?_, storedMutation_of_normalize hm, ?_, (clone_of_mapM hsigned).2,
    (clone_of_mapM hresult).2⟩
  · exact (congrArg normalizeDependencies (normalizeDependencies_ok hd)).trans hd
  · exact fun hempty => hid (h1.symm.trans hempty)
  · exact fun hzero => hsequence (h2.symm.trans hzero)

/-- **A stored record is read back as it was written.** -/
theorem Stored.normalize (h : Stored p r) : normalizeRecord p r.toValue = .ok r :=
  normalizeRecord_ok.mpr ⟨h.dependencies, h.id, h.mutation.normalize, h.sequence,
    mapM_of_clone h.signedMutation, mapM_of_clone h.syncResult, rfl, rfl, rfl, rfl, rfl⟩

theorem StoredMutation.clone (h : StoredMutation p m) : m.mapValues viaJson = m := by
  have hbase : m.baseVersion.map viaJson = m.baseVersion := by
    cases hb : m.baseVersion with
    | none => rfl
    | some v => exact congrArg some (h.baseVersion v hb).1
  obtain ⟨⟩ := m
  simp only [DeviceIdentity.SyncMutation.mapValues, DeviceIdentity.SyncMutation.mk.injEq, true_and]
  exact ⟨map_clone h.attributes, hbase, map_clone h.payload⟩

theorem Stored.clone (h : Stored p r) : cloneRecord r = r := by
  have hmutation := h.mutation.clone
  have hsigned := map_clone h.signedMutation
  have hresult := map_clone h.syncResult
  rw [cloneRecord, hmutation, hsigned, hresult]

theorem normalizeRecordList_stored {records : List LocalMutationLogRecord}
    (hstored : ∀ r ∈ records, Stored p r)
    (hordered : records.Pairwise fun r s => r.sequence < s.sequence) :
    normalizeRecordList p records = .ok records := by
  have hread : ∀ rs : List LocalMutationLogRecord, (∀ r ∈ rs, Stored p r) →
      (rs.mapM fun r => normalizeRecord p r.toValue) = .ok rs := by
    intro rs hrs
    induction rs with
    | nil => rfl
    | cons r rs ih =>
      rw [mapM_cons, (hrs r mem_cons_self).normalize,
        ih fun s hs => hrs s (mem_cons_of_mem r hs)]
      rfl
  rw [normalizeRecordList, hread records hstored]
  have hsorted := List.Pairwise.insertionSort_eq (r := fun r s : LocalMutationLogRecord =>
    r.sequence ≤ s.sequence) (hordered.imp fun h => Nat.le_of_lt h)
  have hclone : records.map cloneRecord = records := by
    conv_rhs => rw [← map_id records]
    exact map_congr_left fun r hr => (hstored r hr).clone
  show Except.ok ((records.insertionSort _).map cloneRecord) = _
  rw [hsorted, hclone]

theorem appendedRecord_ok {dependencies : List LocalMutationDependency} {mutation : JsValue}
    {signedMutation : Option JsValue} {timestamp : ℤ} {sequence : ℕ}
    (h : appendedRecord p dependencies mutation signedMutation timestamp id sequence = .ok r) :
    Stored p r ∧ r.id = id ∧ r.sequence = sequence ∧ r.status = .pending ∧
      r.dependencies = dependencies ∧ r.syncResult = none ∧
      r.signedMutation = signedMutation.map viaJson ∧
      ∃ m, normalizeMutation p mutation = .ok m ∧ r.mutation = m.mapValues viaJson := by
  obtain ⟨record, hrecord, h⟩ := bind_eq_ok.mp h
  cases h
  have hstored := stored_of_normalize hrecord
  obtain ⟨hd, -, hm, -, hsigned, hresult, h1, h2, h3, -⟩ := normalizeRecord_ok.mp hrecord
  exact ⟨hstored, h1, h2, h3, normalizeDependencies_ok hd, (clone_of_mapM hresult).1,
    (clone_of_mapM hsigned).1, record.mutation, hm, rfl⟩

theorem statusRecord_ok {status : LocalMutationStatus} {syncResult : Option JsValue}
    {raw : Option LocalMutationLogRecord} {now : Option ℤ}
    (hraw : ∀ s, raw = some s → Stored p s)
    (h : statusRecord p id status syncResult raw now = .ok r) :
    Stored p r ∧ ∃ s, raw = some s ∧
      r = { s with status, updatedAt := r.updatedAt,
                   syncResult := (syncResult.map viaJson).or s.syncResult } := by
  cases raw with
  | none => cases h
  | some s =>
    have hs := hraw s rfl
    simp only [statusRecord, bind_eq_ok] at h
    obtain ⟨record, hrecord, result, hresult, updatedAt, -, h⟩ := h
    cases hs.normalize.symm.trans hrecord
    cases h
    have hgiven := isClone_of_mapM hresult
    have hstored : Stored p { s with status, updatedAt, syncResult := result.or s.syncResult } := by
      refine { hs with syncResult := fun v hv => ?_ }
      rcases Option.or_eq_some_iff.mp hv with hv | ⟨-, hv⟩
      · exact hgiven.2 v hv
      · exact hs.syncResult v hv
    rw [hstored.clone]
    refine ⟨hstored, s, rfl, ?_⟩
    rw [hgiven.1]

theorem mutationRecord_ok {mutation : JsValue} {raw : Option LocalMutationLogRecord}
    {now : Option ℤ} (hraw : ∀ s, raw = some s → Stored p s)
    (h : mutationRecord p id mutation raw now = .ok r) :
    Stored p r ∧ ∃ s m, raw = some s ∧ s.status.isPending = true ∧
      normalizeMutation p mutation = .ok m ∧
      r = { s with mutation := m.mapValues viaJson, updatedAt := r.updatedAt } := by
  cases raw with
  | none => cases h
  | some s =>
    have hs := hraw s rfl
    simp only [mutationRecord, bind_eq_ok] at h
    obtain ⟨record, hrecord, h⟩ := h
    cases hs.normalize.symm.trans hrecord
    split at h
    · rename_i hpending
      simp only [bind_eq_ok] at h
      obtain ⟨m, hm, updatedAt, -, h⟩ := h
      cases h
      have hstored : Stored p { s with mutation := m.mapValues viaJson, updatedAt } :=
        { hs with mutation := storedMutation_of_normalize hm }
      have hclone : cloneRecord { s with mutation := m, updatedAt } =
          { s with mutation := m.mapValues viaJson, updatedAt } := by
        have hsigned := map_clone hs.signedMutation
        have hresult := map_clone hs.syncResult
        simp [cloneRecord, hsigned, hresult]
      rw [hclone]
      exact ⟨hstored, s, m, rfl, hpending, hm, rfl⟩
    · cases h

end

theorem compactable_mem {records : List LocalMutationLogRecord} {r : LocalMutationLogRecord}
    (h : r ∈ compactable records) : r ∈ records ∧ isTerminal r.status = true ∧
      r.mutation.clientMutationId ∉ protectedClientMutationIds records := by
  obtain ⟨h, hfree⟩ := mem_filter.mp ((perm_insertionSort _ _).mem_iff.mp h)
  obtain ⟨hr, hterminal⟩ := mem_filter.mp h
  exact ⟨hr, hterminal, of_decide_eq_true hfree⟩

/-- **Compaction deletes terminal records that no open record depends on.** -/
theorem compactIds_mem {records : List LocalMutationLogRecord}
    {maxTerminalRecords terminalRetentionMs : Option ℕ} {now : Option ℤ} {id : String}
    (h : id ∈ compactIds records maxTerminalRecords terminalRetentionMs now) :
    ∃ r ∈ records, r.id = id ∧ isTerminal r.status = true ∧
      ∀ s ∈ records, isOpen s.status = true → ∀ d ∈ s.dependencies,
        d.clientMutationId ≠ r.mutation.clientMutationId := by
  rw [compactIds, mem_eraseDups] at h
  obtain ⟨r, hr, rfl⟩ := mem_map.mp h
  have hmem : r ∈ compactable records := by
    rcases mem_append.mp hr with hr | hr
    · cases maxTerminalRecords with
      | none => cases hr
      | some n => exact mem_of_mem_drop hr
    · cases terminalRetentionMs with
      | none => cases hr
      | some ms => exact (mem_filter.mp hr).1
  obtain ⟨hrecord, hterminal, hfree⟩ := compactable_mem hmem
  refine ⟨r, hrecord, rfl, hterminal, fun s hs hopen d hd heq => hfree ?_⟩
  exact mem_flatMap.mpr ⟨s, mem_filter.mpr ⟨hs, hopen⟩, mem_map.mpr ⟨d, hd, heq⟩⟩

/-! ## Mutations of conflict tracking -/

def versionValue : SyncVersion → JsValue
  | .null => .null
  | .num x => .num (numberValue x)
  | .str s => .str s

def payloadValue (payload : MutationPayload) : JsValue :=
  .obj true [("resourceId", .str payload.resourceId), ("syncType", .str payload.syncType)]

/-- The mutation that conflict tracking appends, as the object that it is. -/
def trackedValue (p : Platform) (m : SyncMutation) : JsValue :=
  .obj true [("actorDeviceId", .str m.actorDeviceId), ("actorUserId", .str m.actorUserId),
    ("attributes", .obj true (toJsFields m.attributes)), ("baseVersion", versionValue m.baseVersion),
    ("clientMutationId", .str m.clientMutationId), ("model", .str m.model),
    ("occurredAt", .str (p.isoText m.occurredAt)), ("offlineGrantId", .str m.offlineGrantId),
    ("operation", .str m.operation.text), ("payload", payloadValue m.payload),
    ("policyHash", .str m.policyHash)]

def trackedMutation (p : Platform) (m : SyncMutation) : DeviceIdentity.SyncMutation where
  actorDeviceId := m.actorDeviceId
  actorUserId := m.actorUserId
  clientMutationId := m.clientMutationId
  model := m.model
  occurredAt := p.isoText m.occurredAt
  offlineGrantId := m.offlineGrantId
  operation := m.operation.text
  policyHash := m.policyHash
  attributes := some (viaJson (.obj true (toJsFields m.attributes)))
  baseVersion := some (versionValue m.baseVersion)
  command := none
  payload := some (viaJson (payloadValue m.payload))

/-- A mutation of conflict tracking is normalized as any other. -/
theorem normalizeMutation_tracked (p : Platform) (m : SyncMutation)
    (htime : p.parseDate (p.isoText m.occurredAt) = some m.occurredAt) :
    normalizeMutation p (trackedValue p m) = trackedMutation p <$> Velocious.normalizeMutation m := by
  have hiso : requiredIsoTimestamp p "occurredAt" (some (.str (p.isoText m.occurredAt))) =
      .ok (p.isoText m.occurredAt) :=
    requiredIsoTimestamp_ok.mpr ⟨rfl, _, htime, rfl⟩
  have hoperation : requiredString "operation" (some (.str m.operation.text)) =
      .ok m.operation.text :=
    requiredString_ok.mpr ⟨rfl, by cases m.operation <;> decide⟩
  have hversion : (some (versionValue m.baseVersion)).mapM cloneBaseVersion =
      .ok (some (versionValue m.baseVersion)) := by cases m.baseVersion <;> rfl
  simp only [normalizeMutation, trackedValue, isObject, if_true, field?]
  simp only [valueAt?, find?, String.reduceEq, decide_true, decide_false, Option.map_some,
    Option.map_none]
  rw [hiso, hoperation, hversion]
  simp only [Velocious.normalizeMutation, requiredText, requiredString]
  split_ifs
  all_goals rfl

end Velocious.LocalLog
