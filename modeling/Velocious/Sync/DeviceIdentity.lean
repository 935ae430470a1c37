/-
  Device certificates and signed mutations (src/sync/device-identity.js).

  * `Platform`: the host's dates and its `crypto.subtle`, which hold no code of the
    repository. A date text is read as a time value; the ISO text of a time value is read as
    that value.
  * The certificate and the mutation are the objects that the `normalize` functions build, so
    their fields are fields of structures; `toValue` is the object. Fields of a mutation that
    are `undefined` are left out of it.
  * What the functions are given is a `JsValue`, whether or not it has the fields it should.
-/
import Velocious.Foundation.Base64
import Velocious.Sync.DeterministicJson

namespace Velocious.DeviceIdentity

open Foundation Foundation.JsValue

/-- The host. -/
structure Platform where
  parseDate : String → Option ℤ
  isoText : ℤ → String
  parseDate_empty : parseDate "" = none
  parseDate_isoText : ∀ {text time}, parseDate text = some time →
    parseDate (isoText time) = some time
  PrivateKey : Type
  PublicKey : Type
  Nonce : Type
  importPrivate : JsValue → Except String PrivateKey
  importPublic : JsValue → Except String PublicKey
  sign : PrivateKey → Nonce → ByteArray → List UInt8
  verify : PublicKey → List UInt8 → ByteArray → Bool

/-- `ECDSA_P256_SHA256_ALGORITHM` -/
def algorithm : String := "ECDSA-P256-SHA256"

/-- `ECDSA_P256_SHA256_SIGNATURE_PREFIX` -/
def signaturePrefix : String := "ecdsa-p256-sha256-"

/-! ## Objects -/

def definedFields (fields : List (String × Option JsValue)) : List (String × JsValue) :=
  fields.filterMap fun f => f.2.map fun v => (f.1, v)

/-- Backend-signed device certificate payload. -/
structure DeviceCertificatePayload where
  actorDeviceId : String
  actorUserId : String
  certificateId : String
  devicePublicKey : JsValue
  expiresAt : String
  issuedAt : String

/-- Backend-signed device certificate envelope; its algorithm is `algorithm`. -/
structure DeviceCertificate where
  certificate : DeviceCertificatePayload
  signature : String

/-- Sync mutation payload signed by a device. -/
structure SyncMutation where
  actorDeviceId : String
  actorUserId : String
  clientMutationId : String
  model : String
  occurredAt : String
  offlineGrantId : String
  operation : String
  policyHash : String
  attributes : Option JsValue
  baseVersion : Option JsValue
  command : Option String
  payload : Option JsValue

/-- Device-signed mutation envelope; its algorithm is `algorithm`. -/
structure SignedSyncMutation where
  deviceCertificate : DeviceCertificate
  mutation : SyncMutation
  signature : String

def DeviceCertificatePayload.fields (c : DeviceCertificatePayload) :
    List (String × Option JsValue) :=
  [("actorDeviceId", some (.str c.actorDeviceId)),
   ("actorUserId", some (.str c.actorUserId)),
   ("certificateId", some (.str c.certificateId)),
   ("devicePublicKey", some c.devicePublicKey),
   ("expiresAt", some (.str c.expiresAt)),
   ("issuedAt", some (.str c.issuedAt))]

def DeviceCertificatePayload.toValue (c : DeviceCertificatePayload) : JsValue :=
  .obj true (definedFields c.fields)

def DeviceCertificate.fields (c : DeviceCertificate) : List (String × Option JsValue) :=
  [("algorithm", some (.str algorithm)),
   ("certificate", some c.certificate.toValue),
   ("signature", some (.str c.signature))]

def DeviceCertificate.toValue (c : DeviceCertificate) : JsValue :=
  .obj true (definedFields c.fields)

def SyncMutation.fields (m : SyncMutation) : List (String × Option JsValue) :=
  [("actorDeviceId", some (.str m.actorDeviceId)),
   ("actorUserId", some (.str m.actorUserId)),
   ("clientMutationId", some (.str m.clientMutationId)),
   ("model", some (.str m.model)),
   ("occurredAt", some (.str m.occurredAt)),
   ("offlineGrantId", some (.str m.offlineGrantId)),
   ("operation", some (.str m.operation)),
   ("policyHash", some (.str m.policyHash)),
   ("attributes", m.attributes),
   ("baseVersion", m.baseVersion),
   ("command", m.command.map .str),
   ("payload", m.payload)]

def SyncMutation.toValue (m : SyncMutation) : JsValue := .obj true (definedFields m.fields)

def SignedSyncMutation.fields (s : SignedSyncMutation) : List (String × Option JsValue) :=
  [("algorithm", some (.str algorithm)),
   ("deviceCertificate", some s.deviceCertificate.toValue),
   ("mutation", some s.mutation.toValue),
   ("signature", some (.str s.signature))]

def SignedSyncMutation.toValue (s : SignedSyncMutation) : JsValue :=
  .obj true (definedFields s.fields)

mutual

/-- `String(value)`. (It throws another error on an object with a `toString` of its own.) -/
def string : JsValue → String
  | .null => "null"
  | .bool b => if b then "true" else "false"
  | .num (.finite text) => .ofList text.chars
  | .num .negativeZero => "0"
  | .num .nan => "NaN"
  | .num (.infinity negative) => if negative then "-Infinity" else "Infinity"
  | .str s => s
  | .arr items => stringItems items
  | .obj _ _ => "[object Object]"

def stringItems : List JsValue → String
  | [] => ""
  | [v] => match v with
    | .null => ""
    | v => string v
  | v :: w :: items => (match v with
    | .null => ""
    | v => string v) ++ "," ++ stringItems (w :: items)

end

/-- Returns encoded UTF-8 bytes for a string. -/
def utf8 (text : List Char) : ByteArray := (String.ofList text).toUTF8

/-- `value.replaceAll(a, b)` of single characters. -/
def replaceAll (a b : Char) (text : List Char) : List Char :=
  text.map fun c => if c = a then b else c

def base64UrlEncode (bytes : List UInt8) : String :=
  .ofList ((replaceAll '/' '_' (replaceAll '+' '-' (btoa (bytes.map UInt8.toNat)))).filter (· ≠ '='))

def base64UrlDecode (value : String) : Except String (List UInt8) :=
  match atob (padBase64 (replaceAll '_' '/' (replaceAll '-' '+' value.toList))) with
  | some bytes => .ok (bytes.map UInt8.ofNat)
  | none => .error "The string to be decoded is not correctly encoded."

def signatureWithoutPrefix (signature : String) : String :=
  .ofList (signature.toList.drop signaturePrefix.length)

/-! ## Normalizers -/

/-- Requires a non-empty string field. -/
def requiredString (name : String) : Option JsValue → Except String String
  | some (.str s) => if s = "" then .error ("Expected sync " ++ name) else .ok s
  | some .null | some (.bool _) | some (.num _) | some (.arr _) | some (.obj _ _) | none =>
    .error ("Expected sync " ++ name)

/-- `!value || typeof value !== "object" || Array.isArray(value)` throws. -/
def requiredObject (message : String) : Option JsValue → Except String JsValue
  | some (.obj o fields) => .ok (.obj o fields)
  | some .null | some (.bool _) | some (.num _) | some (.str _) | some (.arr _) | none =>
    .error message

/-- `value.algorithm !== ECDSA_P256_SHA256_ALGORITHM` throws. -/
def requiredAlgorithm (kind : String) : Option JsValue → Except String Unit
  | some (.str s) =>
    if s = algorithm then .ok ()
    else .error ("Unsupported " ++ kind ++ " algorithm '" ++ s ++ "'")
  | some v => .error ("Unsupported " ++ kind ++ " algorithm '" ++ string v ++ "'")
  | none => .error ("Unsupported " ++ kind ++ " algorithm 'undefined'")

def normalizeSignature (label : String) : Option JsValue → Except String String
  | some (.str s) => if startsWith s signaturePrefix then .ok s else .error ("Expected " ++ label)
  | some .null | some (.bool _) | some (.num _) | some (.arr _) | some (.obj _ _) | none =>
    .error ("Expected " ++ label)

section
variable (p : Platform)

def isoDateString (label text : String) : Except String String :=
  match p.parseDate text with
  | some time => .ok (p.isoText time)
  | none => .error ("Invalid sync " ++ label)

/-- `isoDateString(new Date(requiredString(value, label)), label)` -/
def requiredDate (label : String) (value : Option JsValue) : Except String String := do
  isoDateString p label (← requiredString label value)

/-- `normalizeJwk(value, label)`; `undefined` is no deterministic JSON. -/
def normalizeJwk (label : String) : Option JsValue → Except String JsValue
  | some key => deterministicJsonObject label key
  | none => .error ("Sync " ++ label ++ " must be deterministic JSON")

/-- Normalizes a device certificate payload. -/
def normalizeDeviceCertificatePayload (value : Option JsValue) :
    Except String DeviceCertificatePayload := do
  let certificate ← requiredObject "Expected device certificate payload object" value
  let actorDeviceId ← requiredString "actorDeviceId" (certificate.field? "actorDeviceId")
  let actorUserId ← requiredString "actorUserId" (certificate.field? "actorUserId")
  let certificateId ← requiredString "certificateId" (certificate.field? "certificateId")
  let devicePublicKey ← normalizeJwk "devicePublicKey" (certificate.field? "devicePublicKey")
  let expiresAt ← requiredDate p "expiresAt" (certificate.field? "expiresAt")
  let issuedAt ← requiredDate p "issuedAt" (certificate.field? "issuedAt")
  return { actorDeviceId, actorUserId, certificateId, devicePublicKey, expiresAt, issuedAt }

def normalizeDeviceCertificate (value : Option JsValue) : Except String DeviceCertificate := do
  let certificate ← requiredObject "Expected device certificate object" value
  requiredAlgorithm "device certificate" (certificate.field? "algorithm")
  let payload ← normalizeDeviceCertificatePayload p (certificate.field? "certificate")
  let signature ← normalizeSignature "device certificate signature" (certificate.field? "signature")
  return { certificate := payload, signature }

/-- Normalizes a sync mutation payload. -/
def normalizeSyncMutation (value : Option JsValue) : Except String SyncMutation := do
  let mutation ← requiredObject "Expected sync mutation object" value
  let actorDeviceId ← requiredString "actorDeviceId" (mutation.field? "actorDeviceId")
  let actorUserId ← requiredString "actorUserId" (mutation.field? "actorUserId")
  let clientMutationId ← requiredString "clientMutationId" (mutation.field? "clientMutationId")
  let model ← requiredString "model" (mutation.field? "model")
  let occurredAt ← requiredDate p "occurredAt" (mutation.field? "occurredAt")
  let offlineGrantId ← requiredString "offlineGrantId" (mutation.field? "offlineGrantId")
  let operation ← requiredString "operation" (mutation.field? "operation")
  let policyHash ← requiredString "policyHash" (mutation.field? "policyHash")
  let attributes ← (mutation.field? "attributes").mapM (deterministicJsonObject "attributes")
  let baseVersion ← (mutation.field? "baseVersion").mapM (deterministicJson "baseVersion")
  let command ← (mutation.field? "command").mapM fun v => requiredString "command" (some v)
  let payload ← (mutation.field? "payload").mapM (deterministicJsonObject "payload")
  return { actorDeviceId, actorUserId, clientMutationId, model, occurredAt, offlineGrantId,
           operation, policyHash, attributes, baseVersion, command, payload }

/-- Normalizes a signed sync mutation envelope. -/
def normalizeSignedSyncMutation (value : JsValue) : Except String SignedSyncMutation := do
  let signedMutation ← requiredObject "Expected signed sync mutation object" (some value)
  requiredAlgorithm "sync mutation" (signedMutation.field? "algorithm")
  let deviceCertificate ← normalizeDeviceCertificate p (signedMutation.field? "deviceCertificate")
  let mutation ← normalizeSyncMutation p (signedMutation.field? "mutation")
  let signature ← normalizeSignature "sync mutation signature" (signedMutation.field? "signature")
  return { deviceCertificate, mutation, signature }

def assertMutationMatchesCertificate (certificate : DeviceCertificatePayload)
    (mutation : SyncMutation) : Except String Unit :=
  if mutation.actorDeviceId ≠ certificate.actorDeviceId ∨
      mutation.actorUserId ≠ certificate.actorUserId then
    .error "Sync mutation actor does not match device certificate"
  else .ok ()

/-- Asserts a timestamp is not expired; `now` is `none` for an invalid date. -/
def assertNotExpired (expiresAt label : String) (now : Option ℤ) : Except String Unit :=
  match now with
  | none => .error "Invalid sync verification time"
  | some now =>
    match p.parseDate expiresAt with
    | some time => if time ≤ now then .error (label ++ " expired") else .ok ()
    | none => .ok ()

/-! ## Signatures -/

/-- Builds the stable value signed by backend device certificates. -/
def deviceCertificateSignatureValue (certificate : DeviceCertificatePayload) :
    Except String JsValue := do
  let value ← deterministicJsonObject "certificate" certificate.toValue
  return .obj true [("algorithm", .str algorithm), ("certificate", value)]

def signedMutationSignatureValue (deviceCertificate : DeviceCertificate) (mutation : SyncMutation) :
    Except String JsValue := do
  let certificateValue ← deterministicJsonObject "deviceCertificate" deviceCertificate.toValue
  let mutationValue ← deterministicJsonObject "mutation" mutation.toValue
  return .obj true [("algorithm", .str algorithm), ("deviceCertificate", certificateValue),
    ("mutation", mutationValue)]

/-- Signs a deterministic JSON value with ECDSA P-256/SHA-256. -/
def signStableJson (privateKey : JsValue) (nonce : p.Nonce) (value : JsValue) :
    Except String String := do
  let key ← p.importPrivate privateKey
  let text ← stableJsonStringify value
  return signaturePrefix ++ base64UrlEncode (p.sign key nonce (utf8 text))

/-- Verifies a deterministic JSON value with ECDSA P-256/SHA-256. -/
def verifyStableJsonSignature (publicKey : JsValue) (signature : String) (value : JsValue) :
    Except String Bool := do
  let key ← p.importPublic publicKey
  let signatureBytes ← base64UrlDecode (signatureWithoutPrefix signature)
  let text ← stableJsonStringify value
  return p.verify key signatureBytes (utf8 text)

def createDeviceCertificate (backendPrivateKey : JsValue) (nonce : p.Nonce) (certificate : JsValue) :
    Except String DeviceCertificate := do
  let normalizedCertificate ← normalizeDeviceCertificatePayload p (some certificate)
  let value ← deviceCertificateSignatureValue normalizedCertificate
  let signature ← signStableJson p backendPrivateKey nonce value
  return { certificate := normalizedCertificate, signature }

def verifyDeviceCertificate (backendPublicKey : JsValue) (now : Option ℤ) (certificate : JsValue) :
    Except String DeviceCertificatePayload := do
  let normalizedCertificate ← normalizeDeviceCertificate p (some certificate)
  let value ← deviceCertificateSignatureValue normalizedCertificate.certificate
  let verified ←
    verifyStableJsonSignature p backendPublicKey normalizedCertificate.signature value
  if !verified then .error "Device certificate signature did not match"
  assertNotExpired p normalizedCertificate.certificate.expiresAt "Device certificate" now
  return normalizedCertificate.certificate

/-- Creates a device-signed mutation envelope. -/
def createSignedMutation (deviceCertificate devicePrivateKey : JsValue) (nonce : p.Nonce)
    (mutation : JsValue) : Except String SignedSyncMutation := do
  let normalizedDeviceCertificate ← normalizeDeviceCertificate p (some deviceCertificate)
  let normalizedMutation ← normalizeSyncMutation p (some mutation)
  assertMutationMatchesCertificate normalizedDeviceCertificate.certificate normalizedMutation
  let value ← signedMutationSignatureValue normalizedDeviceCertificate normalizedMutation
  let signature ← signStableJson p devicePrivateKey nonce value
  return { deviceCertificate := normalizedDeviceCertificate, mutation := normalizedMutation,
           signature }

def verifySignedMutation (backendPublicKey : JsValue) (now : Option ℤ) (signedMutation : JsValue) :
    Except String SyncMutation := do
  let normalizedSignedMutation ← normalizeSignedSyncMutation p signedMutation
  let certificatePayload ← verifyDeviceCertificate p backendPublicKey now
    normalizedSignedMutation.deviceCertificate.toValue
  assertMutationMatchesCertificate certificatePayload normalizedSignedMutation.mutation
  let value ← signedMutationSignatureValue normalizedSignedMutation.deviceCertificate
    normalizedSignedMutation.mutation
  let verified ← verifyStableJsonSignature p certificatePayload.devicePublicKey
    normalizedSignedMutation.signature value
  if !verified then .error "Sync mutation signature did not match"
  return normalizedSignedMutation.mutation

end

end Velocious.DeviceIdentity
