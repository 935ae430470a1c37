/-
  The client-side mutation log (src/sync/local-mutation-log.js), for the
  intents that conflict tracking appends: every mutation has attributes, a base
  version and a payload naming its resource.

  * ISO timestamps are kept as the time values they name; `toISOString` throws
    on the others.
  * A `MutationLog` holds its records in sequence order, as `records()` returns
    them; that order is a field. The storage adapter's `nextSequence` is a
    number it promises to be above all earlier ones.
-/
import Velocious.Foundation.JsonText

namespace Velocious

open Foundation List

/-- Local mutation log status. -/
inductive LocalMutationStatus where
  | pending
  | appliedLocally
  | peerApplied
  | conflict
  | rejected
  | synced
  deriving DecidableEq, Repr

def LocalMutationStatus.isPending : LocalMutationStatus → Bool
  | pending | appliedLocally | peerApplied => true
  | conflict | rejected | synced => false

def LocalMutationStatus.text : LocalMutationStatus → String
  | pending => "pending"
  | appliedLocally => "applied-locally"
  | peerApplied => "peer-applied"
  | conflict => "conflict"
  | rejected => "rejected"
  | synced => "synced"

/-- The operation of a local write. -/
inductive MutationOperation where
  | create
  | update
  | destroy
  deriving DecidableEq, Repr

def MutationOperation.text : MutationOperation → String
  | create => "create"
  | update => "update"
  | destroy => "destroy"

/-- A version attribute, as `string | number | null`. -/
inductive SyncVersion where
  | null
  | num (x : JsNumber)
  | str (s : String)
  deriving DecidableEq, Repr

/-- Client mutation id this mutation depends on, and its model. -/
structure LocalMutationDependency where
  clientMutationId : String
  model : String
  deriving DecidableEq

/-- Where the server applies a mutation. -/
structure MutationPayload where
  resourceId : String
  syncType : String
  deriving DecidableEq

/-- Device mutation payload. -/
structure SyncMutation where
  actorDeviceId : String
  actorUserId : String
  attributes : List (String × Json)
  baseVersion : SyncVersion
  clientMutationId : String
  model : String
  occurredAt : ℤ
  offlineGrantId : String
  operation : MutationOperation
  payload : MutationPayload
  policyHash : String

/-- A record of the log. -/
structure LocalMutationLogRecord where
  createdAt : ℤ
  dependencies : List LocalMutationDependency
  id : String
  mutation : SyncMutation
  sequence : ℕ
  status : LocalMutationStatus
  updatedAt : ℤ

def LocalMutationLogRecord.isFor (r : LocalMutationLogRecord) (model resourceId : String) : Bool :=
  r.mutation.model = model && r.mutation.payload.resourceId = resourceId

/-- `toISOString` of a time value, `none` for `NaN`. -/
def toISOString : Option ℤ → Except String ℤ
  | some time => if |time| ≤ 8640000000000000 then .ok time else .error "Invalid time value"
  | none => .error "Invalid time value"

theorem toISOString_ok {time : Option ℤ} {t : ℤ} (h : toISOString time = .ok t) : time = some t := by
  unfold toISOString at h
  split at h
  · split at h
    · exact congrArg some (Except.ok.inj h)
    · cases h
  · cases h

def currentTimestamp : Option ℤ → Except String ℤ
  | some time => toISOString (some time)
  | none => .error "LocalMutationLog now() must return a valid Date"

/-! ## Normalization -/

def requiredString (label : String) : Option JsValue → Except String String
  | some (.str s) => if s = "" then .error ("Expected local mutation " ++ label) else .ok s
  | some .null | some (.bool _) | some (.num _) | some (.arr _) | some (.obj _ _) | none =>
    .error ("Expected local mutation " ++ label)

theorem requiredString_ok {label s : String} {value : Option JsValue} :
    requiredString label value = .ok s ↔ value = some (.str s) ∧ s ≠ "" := by
  unfold requiredString
  split
  · split
    · rename_i hempty
      constructor
      · intro h
        cases h
      · rintro ⟨hs, hne⟩
        cases hs
        exact absurd hempty hne
    · rename_i hne
      constructor
      · intro h
        cases h
        exact ⟨rfl, hne⟩
      · rintro ⟨hs, -⟩
        cases hs
        rfl
  all_goals simp

/-- `requiredString`, of a value that is a text. -/
def requiredText (label value : String) : Except String String :=
  requiredString label (some (.str value))

theorem requiredText_ok {label value s : String} (h : requiredText label value = .ok s) :
    s = value := by
  cases (requiredString_ok.mp h).1
  rfl

def normalizeDependencies (dependencies : List LocalMutationDependency) :
    Except String (List LocalMutationDependency) :=
  dependencies.mapM fun dependency => do
    let clientMutationId ← requiredText "dependency clientMutationId" dependency.clientMutationId
    let model ← requiredText "dependency model" dependency.model
    return ⟨clientMutationId, model⟩

def normalizeMutation (mutation : SyncMutation) : Except String SyncMutation := do
  let actorDeviceId ← requiredText "actorDeviceId" mutation.actorDeviceId
  let actorUserId ← requiredText "actorUserId" mutation.actorUserId
  let clientMutationId ← requiredText "clientMutationId" mutation.clientMutationId
  let model ← requiredText "model" mutation.model
  let offlineGrantId ← requiredText "offlineGrantId" mutation.offlineGrantId
  let policyHash ← requiredText "policyHash" mutation.policyHash
  return { mutation with actorDeviceId, actorUserId, clientMutationId, model, offlineGrantId,
                         policyHash }

def normalizeRecord (record : LocalMutationLogRecord) : Except String LocalMutationLogRecord := do
  let dependencies ← normalizeDependencies record.dependencies
  let id ← requiredText "id" record.id
  let mutation ← normalizeMutation record.mutation
  if record.sequence = 0 then .error "Expected local mutation sequence positive integer"
  return { record with dependencies, id, mutation }

private theorem bind_ok {α β : Type} {x : Except String α} {f : α → Except String β} {b : β} :
    (x >>= f) = .ok b ↔ ∃ a, x = .ok a ∧ f a = .ok b := by
  cases x with
  | error e => exact ⟨nofun, nofun⟩
  | ok a => simp [bind, Except.bind]

theorem normalizeDependencies_ok {dependencies ds : List LocalMutationDependency}
    (h : normalizeDependencies dependencies = .ok ds) : ds = dependencies := by
  induction dependencies generalizing ds with
  | nil => exact (Except.ok.inj h).symm
  | cons d dependencies ih =>
    simp only [normalizeDependencies, mapM_cons, bind_ok] at h
    obtain ⟨d', ⟨id, hid, model, hmodel, hd⟩, ds', hds, h⟩ := h
    obtain rfl := requiredText_ok hid
    obtain rfl := requiredText_ok hmodel
    cases hd
    obtain rfl := ih hds
    exact (Except.ok.inj h).symm

theorem normalizeMutation_ok {mutation m : SyncMutation} (h : normalizeMutation mutation = .ok m) :
    m = mutation := by
  simp only [normalizeMutation, bind_ok] at h
  obtain ⟨a, ha, b, hb, c, hc, d, hd, e, he, f, hf, h⟩ := h
  obtain rfl := requiredText_ok ha
  obtain rfl := requiredText_ok hb
  obtain rfl := requiredText_ok hc
  obtain rfl := requiredText_ok hd
  obtain rfl := requiredText_ok he
  obtain rfl := requiredText_ok hf
  exact (Except.ok.inj h).symm

theorem normalizeRecord_ok {record r : LocalMutationLogRecord}
    (h : normalizeRecord record = .ok r) : r = record := by
  simp only [normalizeRecord, bind_ok] at h
  obtain ⟨ds, hds, id, hid, m, hm, h⟩ := h
  obtain rfl := normalizeDependencies_ok hds
  obtain rfl := requiredText_ok hid
  obtain rfl := normalizeMutation_ok hm
  split at h
  · cases h
  · exact (Except.ok.inj h).symm

/-! ## The log -/

/-- The records of a log, in sequence order. -/
structure MutationLog where
  records : List LocalMutationLogRecord
  ordered : records.Pairwise fun r s => r.sequence < s.sequence

namespace MutationLog

def empty : MutationLog := ⟨[], .nil⟩

def recordsFor (log : MutationLog) (model resourceId : String) : List LocalMutationLogRecord :=
  log.records.filter (·.isFor model resourceId)

def Above (log : MutationLog) (sequence : ℕ) : Prop := ∀ r ∈ log.records, r.sequence < sequence

instance (log : MutationLog) (sequence : ℕ) : Decidable (log.Above sequence) :=
  inferInstanceAs (Decidable (∀ r ∈ log.records, r.sequence < sequence))

/-- A record under the storage's next sequence, at the end of the log. -/
def appendRecord (log : MutationLog) (record : LocalMutationLogRecord)
    (h : log.Above record.sequence) : MutationLog where
  records := log.records ++ [record]
  ordered := pairwise_append.mpr ⟨log.ordered, pairwise_singleton _ _,
    fun r hr _ hs => mem_singleton.mp hs ▸ h r hr⟩

/-- The record `append` writes, with the storage's next `sequence`, a new `id`
    and the log's clock. -/
def appendedRecord (dependencies : List LocalMutationDependency) (mutation : SyncMutation)
    (sequence : ℕ) (id : String) (now : Option ℤ) : Except String LocalMutationLogRecord := do
  let timestamp ← currentTimestamp now
  normalizeRecord { createdAt := timestamp, dependencies, id, mutation, sequence,
                    status := .pending, updatedAt := timestamp }

theorem appendedRecord_ok {dependencies : List LocalMutationDependency} {mutation : SyncMutation}
    {sequence : ℕ} {id : String} {now : Option ℤ} {r : LocalMutationLogRecord}
    (h : appendedRecord dependencies mutation sequence id now = .ok r) :
    r.dependencies = dependencies ∧ r.mutation = mutation ∧ r.sequence = sequence ∧
      r.status = .pending ∧ r.id = id := by
  obtain ⟨timestamp, -, hr⟩ := bind_ok.mp h
  obtain rfl := normalizeRecord_ok hr
  exact ⟨rfl, rfl, rfl, rfl, rfl⟩

/-- The records after an update that keeps their sequences. -/
def mapRecords (log : MutationLog) (f : LocalMutationLogRecord → LocalMutationLogRecord)
    (hf : ∀ r, (f r).sequence = r.sequence) : MutationLog where
  records := log.records.map f
  ordered := pairwise_map.mpr (log.ordered.imp fun h => by rwa [hf, hf])

/-- `updateStatus`; the records are stored normalized. -/
def updateStatus (log : MutationLog) (id : String) (status : LocalMutationStatus)
    (now : Option ℤ) : Except String MutationLog :=
  if log.records.any (·.id = id) then do
    let updatedAt ← currentTimestamp now
    return log.mapRecords (fun r => if r.id = id then { r with status, updatedAt } else r)
      fun r => by split <;> rfl
  else .error ("No local mutation log record '" ++ id ++ "'")

def updateMutation (log : MutationLog) (id : String) (mutation : SyncMutation)
    (now : Option ℤ) : Except String MutationLog :=
  match log.records.find? (·.id = id) with
  | none => .error ("No local mutation log record '" ++ id ++ "'")
  | some record =>
    if record.status.isPending then do
      let mutation ← normalizeMutation mutation
      let updatedAt ← currentTimestamp now
      return log.mapRecords (fun r => if r.id = id then { r with mutation, updatedAt } else r)
        fun r => by split <;> rfl
    else .error ("Cannot update mutation for " ++ record.status.text ++ " local mutation '" ++ id ++ "'")

theorem recordsFor_appendRecord {log : MutationLog} {r : LocalMutationLogRecord}
    {h : log.Above r.sequence} (model resourceId : String) :
    (log.appendRecord r h).recordsFor model resourceId =
      log.recordsFor model resourceId ++ if r.isFor model resourceId then [r] else [] := by
  simp [recordsFor, appendRecord, filter_cons]

end MutationLog

end Velocious
