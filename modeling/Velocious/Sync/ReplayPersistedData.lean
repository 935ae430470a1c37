/-
  Replay metadata in the data column of a sync row (src/sync/sync-replay-persisted-data.js), and what
  replay takes from it (src/sync/sync-envelope-replay-service.js).

  * The column is read as the text that was stored, or as what that text parses to. Without metadata
    it is the text of a JSON object, also where the publisher writes it. The service has
    no `persistSerializedData`, and numbers are finite and not -0, as JSON writes them.
  * `Imitates`: a value that has the shape of the wrapper; `distinguished_iff` says that a client's
    data is told apart from the metadata exactly if it has not.
-/
import Velocious.Foundation.JsonParse

namespace Velocious.ReplayPersistedData

open Foundation JsValue

/-! ## The data column -/

/-- `acknowledgementVersion` may be undefined. -/
structure ReplayMetadata where
  acknowledgementVersion : Option JsValue
  clientMutationId : String
  payloadFingerprint : String

/-- Persisted data, decoded. -/
structure Decoded where
  metadata : Option ReplayMetadata
  payload : JsValue

def metadataKey : String := "$velociousReplay"

def payloadKey : String := "payload"

/-- The value that `serializeReplayPersistedData` writes. -/
def wrapped (acknowledgementVersion : JsValue) (clientMutationId payloadFingerprint : String)
    (payload : JsValue) : JsValue :=
  .obj true
    [(metadataKey, .obj true
      [("acknowledgementVersion", acknowledgementVersion),
        ("clientMutationId", .str clientMutationId),
        ("payloadFingerprint", .str payloadFingerprint)]),
    (payloadKey, payload)]

def serializeReplayPersistedData (acknowledgementVersion : JsValue)
    (clientMutationId payloadFingerprint : String) (payload : JsValue) : String :=
  .ofList (write (wrapped acknowledgementVersion clientMutationId payloadFingerprint payload))

def decodeParsed (parsed : JsValue) : Decoded :=
  match parsed.field? metadataKey, parsed.field? payloadKey with
  | some (.obj o fields), some payload =>
    let metadataRecord : JsValue := .obj o fields
    match metadataRecord.field? "clientMutationId", metadataRecord.field? "payloadFingerprint" with
    | some (.str clientMutationId), some (.str payloadFingerprint) =>
      ⟨some ⟨metadataRecord.field? "acknowledgementVersion", clientMutationId, payloadFingerprint⟩,
        payload⟩
    | _, _ => ⟨none, parsed⟩
  | _, _ => ⟨none, parsed⟩

/-- `none` where `JSON.parse` throws. -/
def decodeReplayPersistedData : JsValue → Option Decoded
  | .str text => (parse text.toList).map decodeParsed
  | value => some (decodeParsed value)

/-! ## Replay -/

/-- What is read of a sync row. -/
structure SyncRow where
  clientUpdatedAt : Option ℤ
  data : JsValue
  syncType : String

/-- A normalized mutation; its data is an object. -/
structure SyncReplayMutation where
  clientMutationId : String
  clientUpdatedAt : ℤ
  fields : List (String × JsValue)
  syncType : String

def SyncReplayMutation.data (m : SyncReplayMutation) : JsValue := .obj true m.fields

def SyncReplayMutation.serializedData (m : SyncReplayMutation) : String := .ofList (write m.data)

def replayPersistedMetadata (row : SyncRow) : Option (Option ReplayMetadata) :=
  (decodeReplayPersistedData row.data).map Decoded.metadata

/-- What a duplicate is without metadata: a mutation of one time, type and text. -/
def sameAsRow (row : SyncRow) (m : SyncReplayMutation) : Bool :=
  row.clientUpdatedAt = some m.clientUpdatedAt &&
    (match row.data with
      | .str text => text
      | data => .ofList (write data)) = m.serializedData &&
    row.syncType = m.syncType

def isDuplicateReplayMutation (sha256Hex : String → String) (row : SyncRow)
    (m : SyncReplayMutation) : Option Bool := do
  match ← replayPersistedMetadata row with
  | some metadata =>
    return metadata.clientMutationId = m.clientMutationId &&
      metadata.payloadFingerprint = sha256Hex m.serializedData
  | none => return sameAsRow row m

/-- The version that a duplicate is acknowledged with; `record` is that of the applied record. -/
def acknowledgedVersion (row : SyncRow) (record : Option JsValue) : Option (Option JsValue) := do
  match ← replayPersistedMetadata row with
  | some metadata => return metadata.acknowledgementVersion
  | none => return record

/-- The `data` that `persistReplayMutation` stores: with a conflict strategy and a base version, and
with the version of the record that was applied, its metadata is put around what is public. -/
def persistedData (sha256Hex : String → String) (m : SyncReplayMutation)
    (conflictVersion : Option JsValue) : Option String :=
  match conflictVersion with
  | none => some m.serializedData
  | some version => do
    let decoded ← decodeReplayPersistedData (.str m.serializedData)
    return serializeReplayPersistedData version m.clientMutationId (sha256Hex m.serializedData)
      decoded.payload

def ReadAs (text : String) (value : JsValue) : Prop :=
  value = .str text ∨ (∀ s, value ≠ .str s) ∧ parse text.toList = some value

/-! ## What is told apart -/

/-- A value of the wrapper's shape. -/
def Imitates (p : JsValue) : Prop :=
  ∃ o fields payload clientMutationId payloadFingerprint,
    p.field? metadataKey = some (.obj o fields) ∧ p.field? payloadKey = some payload ∧
      (JsValue.obj o fields).field? "clientMutationId" = some (.str clientMutationId) ∧
      (JsValue.obj o fields).field? "payloadFingerprint" = some (.str payloadFingerprint)

/-- A client's data is what is read from the row of its mutation, and nothing is taken from it. -/
structure Distinguished (sha256Hex : String → String) (m : SyncReplayMutation) : Prop where
  plain : ∀ text value, persistedData sha256Hex m none = some text → ReadAs text value →
    decodeReplayPersistedData value = some ⟨none, m.data⟩
  wrapped : ∀ version text value, all isWritten version = true →
    persistedData sha256Hex m (some version) = some text → ReadAs text value →
      decodeReplayPersistedData value =
        some ⟨some ⟨some version, m.clientMutationId, sha256Hex m.serializedData⟩, m.data⟩
  /-- the decisions about a later mutation -/
  decisions : ∀ text (row : SyncRow), persistedData sha256Hex m none = some text →
    ReadAs text row.data → ∀ later record,
      isDuplicateReplayMutation sha256Hex row later = some (sameAsRow row later) ∧
        acknowledgedVersion row record = some record

theorem decode_readAs {v value : JsValue} (hv : all isWritten v = true) (hobj : ∀ s, v ≠ .str s)
    (hread : ReadAs (.ofList (write v)) value) :
    decodeReplayPersistedData value = some (decodeParsed v) := by
  have hparse : parse (String.ofList (write v)).toList = some v := by
    rw [String.toList_ofList, parse_of_written hv]
  rcases hread with rfl | ⟨hne, hvalue⟩
  · rw [decodeReplayPersistedData, hparse]
    rfl
  · cases hparse.symm.trans hvalue
    rw [decodeReplayPersistedData]
    exact hobj

theorem written_wrapped {version p : JsValue} (hversion : all isWritten version = true)
    (hp : all isWritten p = true) (clientMutationId payloadFingerprint : String) :
    all isWritten (wrapped version clientMutationId payloadFingerprint p) = true := by
  simp [wrapped, all, allFields, isWritten, hversion, hp]

theorem decodeParsed_of_not_imitates {p : JsValue} (h : ¬ Imitates p) :
    decodeParsed p = ⟨none, p⟩ := by
  unfold decodeParsed
  split
  · rename_i o fields payload hmetadata hpayload
    dsimp only
    split
    · rename_i id fingerprint hid hfingerprint
      exact absurd ⟨o, fields, payload, id, fingerprint, hmetadata, hpayload, hid, hfingerprint⟩ h
    · rfl
  · rfl

theorem decodeParsed_of_imitates {p : JsValue} (h : Imitates p) :
    (decodeParsed p).metadata ≠ none := by
  obtain ⟨o, fields, payload, id, fingerprint, hmetadata, hpayload, hid, hfingerprint⟩ := h
  simp [decodeParsed, hmetadata, hpayload, hid, hfingerprint]

/-- **What is serialized is read back**, and a client's data is told apart from the metadata exactly
if it has not the shape of the wrapper. -/
theorem distinguished_iff (sha256Hex : String → String) :
    (∀ version payload clientMutationId payloadFingerprint value,
      all isWritten version = true → all isWritten payload = true →
      ReadAs (serializeReplayPersistedData version clientMutationId payloadFingerprint payload) value →
        decodeReplayPersistedData value =
          some ⟨some ⟨some version, clientMutationId, payloadFingerprint⟩, payload⟩) ∧
    ∀ m : SyncReplayMutation, all isWritten m.data = true →
      (Distinguished sha256Hex m ↔ ¬ Imitates m.data) := by
  have hwrapped : ∀ version payload clientMutationId payloadFingerprint value,
      all isWritten version = true → all isWritten payload = true →
      ReadAs (serializeReplayPersistedData version clientMutationId payloadFingerprint payload) value →
        decodeReplayPersistedData value =
          some ⟨some ⟨some version, clientMutationId, payloadFingerprint⟩, payload⟩ := by
    intro version payload id fingerprint value hversion hpayload hread
    rw [decode_readAs (written_wrapped hversion hpayload id fingerprint) nofun hread]
    rfl
  refine ⟨hwrapped, fun m hm => ⟨fun h himitates => ?_, fun h => ?_⟩⟩
  · have hread : ReadAs m.serializedData (.str m.serializedData) := .inl rfl
    have hdecode := h.plain _ _ rfl hread
    rw [decode_readAs hm nofun hread] at hdecode
    exact decodeParsed_of_imitates himitates (congrArg Decoded.metadata (Option.some.inj hdecode))
  · have hplain : ∀ value, ReadAs m.serializedData value →
        decodeReplayPersistedData value = some ⟨none, m.data⟩ := fun value hread => by
      rw [decode_readAs hm nofun hread, decodeParsed_of_not_imitates h]
    refine ⟨?_, ?_, ?_⟩
    · rintro text value ⟨⟩ hread
      exact hplain value hread
    · intro version text value hversion htext hread
      rw [persistedData, hplain _ (.inl rfl)] at htext
      cases htext
      exact hwrapped _ _ _ _ value hversion hm hread
    · rintro text row ⟨⟩ hread later record
      simp [isDuplicateReplayMutation, acknowledgedVersion, replayPersistedMetadata,
        hplain row.data hread]

/-- A title is told apart. -/
theorem distinguished_title :
    Distinguished (fun _ => "digest") ⟨"first", 0, [("title", .str "b")], "update"⟩ := by
  refine ((distinguished_iff _).2 _ rfl).mpr ?_
  rintro ⟨o, fields, payload, id, fingerprint, hmetadata, -⟩
  simp [SyncReplayMutation.data, field?, valueAt?] at hmetadata

/-- Data that a client chose, of the wrapper's shape. -/
def imitation : SyncReplayMutation where
  clientMutationId := "first"
  clientUpdatedAt := 0
  fields := [("$velociousReplay", .obj true
    [("acknowledgementVersion", .str "9"), ("clientMutationId", .str "second"),
      ("payloadFingerprint", .str "digest")]), ("payload", .obj true [])]
  syncType := "update"

/-- **Client-chosen bytes decide**: another mutation is a duplicate, acknowledged with the version
that the client chose, and the data is not what is read. -/
theorem imitation_decides :
    decodeReplayPersistedData (.str imitation.serializedData) =
        some ⟨some ⟨some (.str "9"), "second", "digest"⟩, .obj true []⟩ ∧
      ∀ row : SyncRow, row.data = .str imitation.serializedData →
        isDuplicateReplayMutation (fun _ => "digest") row
            ⟨"second", 1, [("title", .str "b")], "update"⟩ = some true ∧
          acknowledgedVersion row none = some (some (.str "9")) := by
  have hdecode : decodeReplayPersistedData (.str imitation.serializedData) =
      some ⟨some ⟨some (.str "9"), "second", "digest"⟩, .obj true []⟩ := by
    have hread : ReadAs imitation.serializedData (.str imitation.serializedData) := .inl rfl
    rw [@decode_readAs imitation.data _ rfl nofun hread]
    rfl
  refine ⟨hdecode, fun row hrow => ?_⟩
  simp [isDuplicateReplayMutation, acknowledgedVersion, replayPersistedMetadata, hrow, hdecode]

end Velocious.ReplayPersistedData
