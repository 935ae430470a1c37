/-
  Signed mutations: what an accepted envelope says, and which envelopes are accepted.

  A text does not say whether `null` stands for itself or for a number too large, nor whether
  0 stands for itself or for -0, and the canonical form has no key `__proto__`. So a mutation
  is determined by its signed text if it holds none of these (`signed_mutations`).
-/
import Velocious.Sync.SignedObjects

namespace Velocious.DeviceIdentity

open Foundation Foundation.JsValue

/-! ## Acceptance -/

section
variable (p : Platform)

def Verifies (publicKey : JsValue) (signature : String) (text : List Char) : Prop :=
  ∃ key bytes, p.importPublic publicKey = .ok key ∧
    base64UrlDecode (signatureWithoutPrefix signature) = .ok bytes ∧
    p.verify key bytes (utf8 text) = true

/-- A certificate that verifies and has not expired. -/
structure Certified (backendPublicKey : JsValue) (now : Option ℤ) (c : DeviceCertificate) :
    Prop where
  verifies : Verifies p backendPublicKey c.signature (write (certificateValue c.certificate))
  unexpired : ∃ time deadline, now = some time ∧
    p.parseDate c.certificate.expiresAt = some deadline ∧ time < deadline

/-- What an accepted mutation is. -/
structure Accepted (backendPublicKey : JsValue) (now : Option ℤ) (s : SignedSyncMutation) :
    Prop where
  certified : Certified p backendPublicKey now s.deviceCertificate
  actorDeviceId : s.mutation.actorDeviceId = s.deviceCertificate.certificate.actorDeviceId
  actorUserId : s.mutation.actorUserId = s.deviceCertificate.certificate.actorUserId
  verifies : Verifies p s.deviceCertificate.certificate.devicePublicKey s.signature
    (write (signedValue s.deviceCertificate s.mutation))

end

section
variable {p : Platform}

theorem verifyStableJsonSignature_ok {publicKey v : JsValue} {signature : String}
    (hv : Settled v) : verifyStableJsonSignature p publicKey signature v = .ok true ↔
      Verifies p publicKey signature (write v) := by
  simp only [verifyStableJsonSignature, bind_eq_ok, stableJsonStringify_settled hv]
  constructor
  · rintro ⟨key, hkey, bytes, hbytes, _, htext, hverify⟩
    cases htext
    exact ⟨key, bytes, hkey, hbytes, Except.ok.inj hverify⟩
  · rintro ⟨key, bytes, hkey, hbytes, hverify⟩
    exact ⟨key, hkey, bytes, hbytes, _, rfl, congrArg Except.ok hverify⟩

variable {now : Option ℤ}

theorem assertNotExpired_ok {text label : String} (h : IsIso p text) :
    assertNotExpired p text label now = .ok () ↔
      ∃ time deadline, now = some time ∧ p.parseDate text = some deadline ∧ time < deadline := by
  obtain ⟨deadline, hdeadline, -⟩ := h
  unfold assertNotExpired
  rw [hdeadline]
  cases now with
  | none => simp
  | some time => simp

theorem verifyDeviceCertificate_ok {backendPublicKey : JsValue}
    {c : DeviceCertificate} {c' : DeviceCertificatePayload} (hc : c.Normalized p) :
    verifyDeviceCertificate p backendPublicKey now c.toValue = .ok c' ↔
      Certified p backendPublicKey now c ∧ c' = c.certificate := by
  simp only [verifyDeviceCertificate, bind_eq_ok, hc.again]
  constructor
  · rintro ⟨_, hsame, value, hvalue, verified, hverified, hrest⟩
    cases hsame
    obtain ⟨-, rfl⟩ := deviceCertificateSignatureValue_ok.mp hvalue
    cases verified with
    | false => cases hrest
    | true =>
      obtain ⟨_, hexpiry, hc'⟩ := bind_eq_ok.mp hrest
      exact ⟨⟨(verifyStableJsonSignature_ok (settled_certificateValue hc.certificate)).mp hverified,
        (assertNotExpired_ok hc.certificate.expiresAt).mp hexpiry⟩, (Except.ok.inj hc').symm⟩
  · rintro ⟨⟨hverifies, hunexpired⟩, rfl⟩
    exact ⟨c, rfl, _, deviceCertificateSignatureValue_ok.mpr ⟨hc.certificate.tidy.ordinary, rfl⟩,
      true, (verifyStableJsonSignature_ok (settled_certificateValue hc.certificate)).mpr hverifies,
      bind_eq_ok.mpr ⟨_, (assertNotExpired_ok hc.certificate.expiresAt).mpr hunexpired, rfl⟩⟩

theorem assertMutationMatchesCertificate_ok {c : DeviceCertificatePayload} {m : SyncMutation} :
    assertMutationMatchesCertificate c m = .ok () ↔
      m.actorDeviceId = c.actorDeviceId ∧ m.actorUserId = c.actorUserId := by
  unfold assertMutationMatchesCertificate
  split
  · rename_i h
    constructor
    · intro herror
      cases herror
    · rintro ⟨hdevice, huser⟩
      rcases h with h | h
      · exact absurd hdevice h
      · exact absurd huser h
  · rename_i h
    rw [not_or, not_not, not_not] at h
    exact ⟨fun _ => h, fun _ => rfl⟩

theorem normalizeSignedSyncMutation_ok {e : JsValue} {s : SignedSyncMutation}
    (h : normalizeSignedSyncMutation p e = .ok s) (hkeys : all hasDistinctKeys e = true)
    (hcertificate : all isOrdinary s.deviceCertificate.toValue = true)
    (hmutation : all isOrdinary s.mutation.toValue = true) : s.Normalized p := by
  simp only [normalizeSignedSyncMutation, bind_eq_ok] at h
  obtain ⟨given, hgiven, -, h1, dc, h2, m, h3, signature, h4, h⟩ := h
  cases h
  obtain rfl := Option.some.inj (requiredObject_ok.mp hgiven).1
  obtain ⟨value, hvalue, -, hnormalized⟩ := normalizeSyncMutation_ok h3
  exact ⟨normalizeDeviceCertificate_ok h2 (fun v hv => all_field hkeys hv) hcertificate,
    hnormalized (fun v hv => all_field hkeys hv) hmutation, (normalizeSignature_ok.mp h4).2⟩

/-- **What `verifySignedMutation` accepts.** -/
theorem verifySignedMutation_ok {backendPublicKey e : JsValue} {m : SyncMutation}
    (hkeys : all hasDistinctKeys e = true) :
    verifySignedMutation p backendPublicKey now e = .ok m ↔
      ∃ s, normalizeSignedSyncMutation p e = .ok s ∧ s.Normalized p ∧
        Accepted p backendPublicKey now s ∧ m = s.mutation := by
  simp only [verifySignedMutation, bind_eq_ok]
  constructor
  · rintro ⟨s, hs, c, hc, _, hactor, value, hvalue, verified, hverified, hrest⟩
    obtain ⟨⟨hordinary, hordinary'⟩, rfl⟩ := signedMutationSignatureValue_ok.mp hvalue
    have hnormalized := normalizeSignedSyncMutation_ok hs hkeys hordinary hordinary'
    obtain ⟨hcertified, rfl⟩ := (verifyDeviceCertificate_ok hnormalized.deviceCertificate).mp hc
    obtain ⟨hdevice, huser⟩ := assertMutationMatchesCertificate_ok.mp hactor
    have hsettled := settled_signedValue hnormalized.deviceCertificate hnormalized.mutation
    cases verified with
    | false => cases hrest
    | true =>
      exact ⟨s, hs, hnormalized, ⟨hcertified, hdevice, huser,
        (verifyStableJsonSignature_ok hsettled).mp hverified⟩, (Except.ok.inj hrest).symm⟩
  · rintro ⟨s, hs, hnormalized, haccepted, rfl⟩
    have hsettled := settled_signedValue hnormalized.deviceCertificate hnormalized.mutation
    exact ⟨s, hs, _, (verifyDeviceCertificate_ok hnormalized.deviceCertificate).mpr
      ⟨haccepted.certified, rfl⟩, _, assertMutationMatchesCertificate_ok.mpr
      ⟨haccepted.actorDeviceId, haccepted.actorUserId⟩, _, signedMutationSignatureValue_ok.mpr
      ⟨⟨hnormalized.deviceCertificate.tidy.ordinary, hnormalized.mutation.tidy.ordinary⟩, rfl⟩,
      true, (verifyStableJsonSignature_ok hsettled).mpr haccepted.verifies, rfl⟩

end

/-! ## What an accepted envelope says -/

/-- The bytes that a device signed, for the envelope it is sent in. -/
def signedBytes (p : Platform) (e : JsValue) : Except String ByteArray := do
  let s ← normalizeSignedSyncMutation p e
  let text ← stableJsonStringify (← signedMutationSignatureValue s.deviceCertificate s.mutation)
  return utf8 text

def hasNoNaN : JsValue → Bool
  | .num .nan => false
  | .num (.finite _) | .num .negativeZero | .num (.infinity _) => true
  | .null | .bool _ | .str _ | .arr _ | .obj _ _ => true

/-- A value that `JSON.parse` makes. -/
structure Parsed (v : JsValue) : Prop where
  ordinary : all isOrdinary v = true
  distinct : all hasDistinctKeys v = true
  noNaN : all hasNoNaN v = true

/-- The values of a mutation that may be any JSON. -/
def freeValues (mutation : JsValue) : List JsValue :=
  ["attributes", "baseVersion", "payload"].filterMap fun name => mutation.field? name

def SyncMutation.values (m : SyncMutation) : List JsValue :=
  m.attributes.toList ++ m.baseVersion.toList ++ m.payload.toList

theorem utf8_inj {s t : List Char} (h : utf8 s = utf8 t) : s = t := by
  have hbytes : (String.ofList s).toByteArray = (String.ofList t).toByteArray := h
  exact String.ofList_injective (String.toByteArray_inj.mp hbytes)

section
variable {p : Platform}

theorem signedBytes_eq {e : JsValue} {s : SignedSyncMutation}
    (hs : normalizeSignedSyncMutation p e = .ok s) (hnormalized : s.Normalized p) :
    signedBytes p e = .ok (utf8 (write (signedValue s.deviceCertificate s.mutation))) := by
  have hvalue := signedMutationSignatureValue_ok.mpr
    ⟨⟨hnormalized.deviceCertificate.tidy.ordinary, hnormalized.mutation.tidy.ordinary⟩, rfl⟩
  have htext := stableJsonStringify_settled
    (settled_signedValue hnormalized.deviceCertificate hnormalized.mutation)
  simp only [signedBytes, bind_eq_ok]
  exact ⟨s, hs, _, hvalue, _, htext, rfl⟩

variable {m : SyncMutation}

theorem SyncMutation.Normalized.settled (h : m.Normalized p) : ∀ v ∈ m.values, Settled v := by
  intro v hv
  simp only [values, List.mem_append, Option.mem_toList] at hv
  rcases hv with (hv | hv) | hv
  · exact (h.attributes v hv).1
  · exact h.baseVersion v hv
  · exact (h.payload v hv).1

theorem SyncMutation.Normalized.ext {m' : SyncMutation} (h : m.Normalized p)
    (h' : m'.Normalized p) (heq : normal m.toValue = normal m'.toValue) : m = m' := by
  have hfield : ∀ name, name ≠ "__proto__" →
      (valueAt? name m.fields).join.map normal = (valueAt? name m'.fields).join.map normal := by
    intro name hname
    rw [← m.field?, ← m'.field?, ← field?_normal h.tidy.distinct hname,
      ← field?_normal h'.tidy.distinct hname, heq]
  have hstring : ∀ {s t : String}, (some (JsValue.str s)).map normal =
      (some (JsValue.str t)).map normal → s = t := by
    intro s t hst
    exact str.inj (Option.some.inj hst)
  have hvalue : ∀ {o o' : Option JsValue}, (∀ v, o = some v → Settled v) →
      (∀ v, o' = some v → Settled v) → o.map normal = o'.map normal → o = o' := by
    intro o o' ho ho' hoo
    have hself : ∀ {q : Option JsValue}, (∀ v, q = some v → Settled v) → q.map normal = q := by
      intro q hq
      cases q with
      | none => rfl
      | some v => exact congrArg some (hq v rfl).normal_eq
    rwa [hself ho, hself ho'] at hoo
  have hcommand : m.command = m'.command := by
    have hmap : (m.command.map JsValue.str).map normal = (m'.command.map JsValue.str).map normal :=
      hfield "command" (by decide)
    cases hm : m.command with
    | none =>
      cases hm' : m'.command with
      | none => rfl
      | some t => rw [hm, hm'] at hmap; cases hmap
    | some s =>
      cases hm' : m'.command with
      | none => rw [hm, hm'] at hmap; cases hmap
      | some t =>
        rw [hm, hm'] at hmap
        exact congrArg some (hstring hmap)
  have h1 := hstring (hfield "actorDeviceId" (by decide))
  have h2 := hstring (hfield "actorUserId" (by decide))
  have h3 := hstring (hfield "clientMutationId" (by decide))
  have h4 := hstring (hfield "model" (by decide))
  have h5 := hstring (hfield "occurredAt" (by decide))
  have h6 := hstring (hfield "offlineGrantId" (by decide))
  have h7 := hstring (hfield "operation" (by decide))
  have h8 := hstring (hfield "policyHash" (by decide))
  have h9 := hvalue (fun v hv => (h.attributes v hv).1) (fun v hv => (h'.attributes v hv).1)
    (hfield "attributes" (by decide))
  have h10 := hvalue h.baseVersion h'.baseVersion (hfield "baseVersion" (by decide))
  have h11 := hvalue (fun v hv => (h.payload v hv).1) (fun v hv => (h'.payload v hv).1)
    (hfield "payload" (by decide))
  obtain ⟨⟩ := m
  subst h1 h2 h3 h4 h5 h6 h7 h8 h9 h10 h11 hcommand
  rfl

theorem viaJson_eq_of_text {c c' : DeviceCertificate} {m' : SyncMutation}
    (hm : m.Normalized p) (hm' : m'.Normalized p)
    (htext : write (signedValue c m) = write (signedValue c' m')) :
    m.mapValues viaJson = m'.mapValues viaJson := by
  have hfield := congrArg (JsValue.field? "mutation") (viaJson_eq_of_write_eq htext)
  have hmutation : viaJson (normal m.toValue) = viaJson (normal m'.toValue) :=
    Option.some.inj hfield
  rw [viaJson, viaJson, ← normal_relabel keeps_reread.scalar rfl hm.tidy.noProto,
    ← normal_relabel keeps_reread.scalar rfl hm'.tidy.noProto,
    m.relabel_toValue keeps_reread, m'.relabel_toValue keeps_reread] at hmutation
  exact (hm.mapValues keeps_reread).ext (hm'.mapValues keeps_reread) hmutation

theorem SyncMutation.mapValues_eq_self {g : JsValue → JsValue} :
    m.mapValues g = m ↔ ∀ v ∈ m.values, g v = v := by
  have hoption : ∀ o : Option JsValue, o.map g = o ↔ ∀ v ∈ o.toList, g v = v := by
    intro o
    cases o <;> simp
  simp only [values, List.forall_mem_append, ← hoption]
  obtain ⟨⟩ := m
  simp [mapValues, and_assoc]

theorem twin_accepted {backendPublicKey : JsValue} {now : Option ℤ} {s : SignedSyncMutation}
    (hs : s.Normalized p) (haccepted : Accepted p backendPublicKey now s) :
    let s' := { s with mutation := s.mutation.mapValues twin }
    s'.Normalized p ∧ Accepted p backendPublicKey now s' ∧
      write (signedValue s'.deviceCertificate s'.mutation) =
        write (signedValue s.deviceCertificate s.mutation) := by
  have htext := write_signedValue_mutation keeps_twin s.deviceCertificate hs.mutation
  refine ⟨{ hs with mutation := hs.mutation.mapValues keeps_twin },
    { haccepted with verifies := ?_ }, htext⟩
  have hverifies := haccepted.verifies
  rw [← htext] at hverifies
  exact hverifies

theorem all_definedFields {q : JsValue → Bool} {fields : List (String × Option JsValue)}
    (hq : q (.obj true (definedFields fields)) = true)
    (h : ∀ f ∈ fields, ∀ v, f.2 = some v → all q v = true) :
    all q (.obj true (definedFields fields)) = true :=
  all_obj.mpr ⟨hq, fun f hf => h _ (mem_definedFields.mp hf) f.2 rfl⟩

theorem all_dropProto {q : JsValue → Bool} (hq : ∀ v : JsValue, v.isScalar = false → q v = true)
    {v : JsValue} (h : all q v = true) : all q (dropProto v) = true := by
  induction v using induct with
  | arr items ih =>
    obtain ⟨-, hitems⟩ := all_arr.mp h
    rw [dropProto_arr]
    exact all_arr.mpr ⟨hq _ rfl, List.forall_mem_map.mpr fun v hv => ih v hv (hitems v hv)⟩
  | obj o fields ih =>
    obtain ⟨-, hfields⟩ := all_obj.mp h
    rw [dropProto_obj]
    refine all_obj.mpr ⟨hq _ rfl, fun f hf => ?_⟩
    obtain ⟨g, hg, rfl⟩ := List.mem_map.mp (List.mem_filter.mp hf).1
    exact ih g hg (hfields g hg)
  | null => exact h
  | bool b => exact h
  | num x => exact h
  | str s => exact h

section
variable (v : JsValue) (hv : v.isScalar = false)
include v hv

theorem hasNoNaN_structured : hasNoNaN v = true := by
  cases v with
  | arr items => rfl
  | obj o fields => rfl
  | null | bool _ | num _ | str _ => cases hv

theorem isPlain_structured : isPlain v = true := by
  cases v with
  | arr items => rfl
  | obj o fields => rfl
  | null | bool _ | num _ | str _ => cases hv

theorem hasFiniteNumber_structured :
    hasFiniteNumber v = true := by
  cases v with
  | arr items => rfl
  | obj o fields => rfl
  | null | bool _ | num _ | str _ => cases hv

end

theorem noNaN_normal {v : JsValue} (h : all hasNoNaN v = true) : all hasNoNaN (normal v) = true :=
  (all_normal hasNoNaN_structured v).mpr (all_dropProto hasNoNaN_structured h)

theorem noNaN_twin (v : JsValue) : all hasNoNaN (twin v) = true := by
  induction v using induct with
  | arr items ih =>
    rw [twin, relabel_arr]
    exact all_arr.mpr ⟨rfl, List.forall_mem_map.mpr ih⟩
  | obj o fields ih =>
    rw [twin, relabel_obj]
    exact all_obj.mpr ⟨rfl, List.forall_mem_map.mpr ih⟩
  | num x =>
    cases x with
    | finite text =>
      rw [twin, relabel_scalar rfl, twinScalar]
      split <;> rfl
    | negativeZero | nan | infinity _ => rfl
  | null | bool _ | str _ => rfl

theorem forall_values {given : JsValue} (h : ReadsMutation p given m)
    {q q' : JsValue → Prop} (hq : ∀ v, q (normal v) ↔ q' v) :
    (∀ v ∈ m.values, q v) ↔ ∀ v ∈ freeValues given, q' v := by
  have hoption : ∀ o : Option JsValue, (∀ v ∈ (o.map normal).toList, q v) ↔
      ∀ v, o = some v → q' v := by
    intro o
    cases o <;> simp [hq]
  rw [SyncMutation.values, h.attributes.eq, h.baseVersion.eq, h.payload.eq]
  simp only [List.forall_mem_append, hoption]
  simp [freeValues, and_assoc]
  constructor
  · rintro ⟨ha, hb, hc⟩ v (hv | hv | hv)
    · exact ha v hv
    · exact hb v hv
    · exact hc v hv
  · intro hall
    exact ⟨fun v hv => hall v (.inl hv), fun v hv => hall v (.inr (.inl hv)),
      fun v hv => hall v (.inr (.inr hv))⟩

end

/-! ## Soundness and completeness -/

/-- Verification accepts exactly the byte strings signed with the matching key. -/
structure Ecdsa (p : Platform) where
  Matching : p.PrivateKey → p.PublicKey → Prop
  Signed : p.PrivateKey → ByteArray → List UInt8 → Prop
  signed_sign : ∀ key nonce bytes, Signed key bytes (p.sign key nonce bytes)
  verify_iff : ∀ {key signature bytes}, p.verify key signature bytes = true ↔
    ∃ privateKey, Matching privateKey key ∧ Signed privateKey bytes signature

section
variable {p : Platform} (ecdsa : Ecdsa p)

def SignedWith (publicKey : JsValue) (bytes : ByteArray) : Prop :=
  ∃ key privateKey signature, p.importPublic publicKey = .ok key ∧
    ecdsa.Matching privateKey key ∧ ecdsa.Signed privateKey bytes signature

def KeyPair (privateKey publicKey : JsValue) : Prop :=
  ∃ key key', p.importPrivate privateKey = .ok key ∧ p.importPublic publicKey = .ok key' ∧
    ecdsa.Matching key key'

/-- The mutation's actor is that of an unexpired certificate that the backend signed, and the
    certificate's device signed the bytes. -/
structure Attested (backendPublicKey : JsValue) (now : Option ℤ) (bytes : ByteArray)
    (m : SyncMutation) (c : DeviceCertificatePayload) : Prop where
  backend : ∃ value text, deviceCertificateSignatureValue c = .ok value ∧
    stableJsonStringify value = .ok text ∧ SignedWith ecdsa backendPublicKey (utf8 text)
  unexpired : ∃ time deadline, now = some time ∧ p.parseDate c.expiresAt = some deadline ∧
    time < deadline
  actorDeviceId : m.actorDeviceId = c.actorDeviceId
  actorUserId : m.actorUserId = c.actorUserId
  device : SignedWith ecdsa c.devicePublicKey bytes

variable {ecdsa}

theorem Verifies.signedWith {publicKey : JsValue} {signature : String} {text : List Char}
    (h : Verifies p publicKey signature text) : SignedWith ecdsa publicKey (utf8 text) := by
  obtain ⟨key, bytes, hkey, -, hverify⟩ := h
  obtain ⟨privateKey, hmatching, hsigned⟩ := ecdsa.verify_iff.mp hverify
  exact ⟨key, privateKey, bytes, hkey, hmatching, hsigned⟩

variable {s : SignedSyncMutation}

theorem Accepted.attested {backendPublicKey : JsValue} {now : Option ℤ}
    (hs : s.Normalized p) (h : Accepted p backendPublicKey now s) :
    Attested ecdsa backendPublicKey now (utf8 (write (signedValue s.deviceCertificate s.mutation)))
      s.mutation s.deviceCertificate.certificate where
  __ := h
  backend := ⟨_, _, deviceCertificateSignatureValue_ok.mpr
    ⟨hs.deviceCertificate.certificate.tidy.ordinary, rfl⟩,
    stableJsonStringify_settled (settled_certificateValue hs.deviceCertificate.certificate),
    h.certified.verifies.signedWith⟩
  unexpired := h.certified.unexpired
  device := h.verifies.signedWith

theorem infix_signedValue (c : DeviceCertificate) (m : SyncMutation) :
    write (normal m.toValue) <:+: write (signedValue c m) := by
  refine ⟨'\x7b' :: (quoteChars "algorithm" ++ ':' :: (write (.str algorithm) ++
    ',' :: (quoteChars "deviceCertificate" ++ ':' :: (write (normal c.toValue) ++
    ',' :: (quoteChars "mutation" ++ [':']))))), ['\x7d'], ?_⟩
  simp [signedValue, write, writeFields]

theorem stableJsonStringify_toValue {m : SyncMutation} (hm : m.Normalized p) :
    stableJsonStringify m.toValue = .ok (write (normal m.toValue)) := by
  rw [stableJsonStringify, deterministicJson_eq hm.tidy.ordinary]
  rfl

/-- The free-form values of an envelope's mutation. -/
def envelopeValues (e : JsValue) : List JsValue :=
  match e.field? "mutation" with
  | some mutation => freeValues mutation
  | none => []

/-- No `null`, no 0 and no number that is not finite among the free-form values, but for the
    fields under `__proto__`. -/
def PlainValues (e : JsValue) : Prop := ∀ v ∈ envelopeValues e, all isPlain (dropProto v) = true

/-- Only finite numbers other than -0 among the free-form values, but for the fields under
    `__proto__`. -/
def FiniteValues (e : JsValue) : Prop :=
  ∀ v ∈ envelopeValues e, all hasFiniteNumber (dropProto v) = true

variable {e : JsValue}

section
variable (h : normalizeSignedSyncMutation p e = .ok s)
include h

theorem reads_of_normalize : ∃ mutation,
      e.field? "mutation" = some mutation ∧ ReadsMutation p mutation s.mutation := by
  simp only [normalizeSignedSyncMutation, bind_eq_ok] at h
  obtain ⟨given, hgiven, -, h1, dc, h2, m, h3, signature, h4, h⟩ := h
  cases h
  obtain rfl := Option.some.inj (requiredObject_ok.mp hgiven).1
  obtain ⟨mutation, hmutation, hreads, -⟩ := normalizeSyncMutation_ok h3
  exact ⟨mutation, hmutation, hreads⟩

theorem plainValues_iff :
    PlainValues e ↔ ∀ v ∈ s.mutation.values, all isPlain v = true := by
  obtain ⟨mutation, hmutation, hreads⟩ := reads_of_normalize h
  rw [forall_values hreads (all_normal isPlain_structured), PlainValues, envelopeValues, hmutation]

theorem finiteValues_iff :
    FiniteValues e ↔ ∀ v ∈ s.mutation.values, all hasFiniteNumber v = true := by
  obtain ⟨mutation, hmutation, hreads⟩ := reads_of_normalize h
  rw [forall_values hreads (all_normal hasFiniteNumber_structured), FiniteValues, envelopeValues,
    hmutation]

end

theorem viaJson_of_finite {m : SyncMutation} (hm : m.Normalized p)
    (hfinite : ∀ v ∈ m.values, all hasFiniteNumber v = true) : m.mapValues viaJson = m :=
  SyncMutation.mapValues_eq_self.mpr fun v hv =>
    viaJson_of_written (written_of_finite (hm.settled v hv).ordinary (hfinite v hv))

theorem finite_of_plain {v : JsValue} (h : all isPlain v = true) :
    all hasFiniteNumber v = true := by
  refine all_imp (fun w hw => ?_) h
  cases w with
  | num x =>
    cases x with
    | finite text => rfl
    | negativeZero | nan | infinity _ => cases hw
  | null | bool _ | str _ | arr _ | obj _ _ => rfl

theorem eq_of_viaJson_eq {m m' : SyncMutation} (hm : m.Normalized p) (hm' : m'.Normalized p)
    (hplain : ∀ v ∈ m.values, all isPlain v = true)
    (heq : m'.mapValues viaJson = m.mapValues viaJson) : m' = m := by
  have hself := viaJson_of_finite hm fun v hv => finite_of_plain (hplain v hv)
  rw [hself] at heq
  refine Eq.trans (Eq.symm (SyncMutation.mapValues_eq_self.mpr fun v hv => ?_)) heq
  refine viaJson_of_plain (hplain (viaJson v) ?_) (hm'.settled v hv).ordinary
  rw [← heq]
  simp only [SyncMutation.values, SyncMutation.mapValues, List.mem_append, Option.mem_toList,
    Option.map_eq_some_iff] at hv ⊢
  rcases hv with (hv | hv) | hv
  · exact .inl (.inl ⟨v, hv, rfl⟩)
  · exact .inl (.inr ⟨v, hv, rfl⟩)
  · exact .inr ⟨v, hv, rfl⟩

theorem noNaN_of_normalize
    (h : normalizeSignedSyncMutation p e = .ok s) (he : all hasNoNaN e = true) :
    all hasNoNaN s.deviceCertificate.toValue = true := by
  simp only [normalizeSignedSyncMutation, normalizeDeviceCertificate, bind_eq_ok] at h
  obtain ⟨given, hgiven, -, h1, dc, ⟨value, hvalue, -, h2, payload, h3, signature, h4, hdc⟩,
    m, h5, signature', h6, h⟩ := h
  cases h
  cases hdc
  obtain rfl := Option.some.inj (requiredObject_ok.mp hgiven).1
  obtain ⟨given, key, hgiven', hkey, hnormal⟩ := devicePublicKey_of_normalize h3
  have hkeyNaN : all hasNoNaN payload.devicePublicKey = true := by
    rw [hnormal]
    exact noNaN_normal (all_field (all_field (all_field he (requiredObject_ok.mp hvalue).1)
      hgiven') hkey)
  have hpayload : all hasNoNaN payload.toValue = true := by
    refine all_definedFields rfl ?_
    simp [DeviceCertificatePayload.fields, hkeyNaN, all, hasNoNaN]
  refine all_definedFields rfl ?_
  simp [DeviceCertificate.fields, hpayload, all, hasNoNaN]

theorem twin_parsed
    (h : normalizeSignedSyncMutation p e = .ok s) (hs : s.Normalized p) (he : Parsed e) :
    Parsed (SignedSyncMutation.toValue { s with mutation := s.mutation.mapValues twin }) := by
  have hmutation := (hs.mutation.mapValues keeps_twin).tidy
  have htidy : Tidy (SignedSyncMutation.toValue
      { s with mutation := s.mutation.mapValues twin }) := by
    refine tidy_definedFields (SignedSyncMutation.keys _) ?_
    have htwin : Tidy (s.mutation.mapValues twin).toValue := hmutation
    simp [SignedSyncMutation.fields, (settled_str _).toTidy, hs.deviceCertificate.tidy, htwin]
  refine ⟨htidy.ordinary, htidy.distinct, all_definedFields rfl ?_⟩
  have htwinNaN : all hasNoNaN (s.mutation.mapValues twin).toValue = true := by
    refine all_definedFields rfl ?_
    have hstr : ∀ t, all hasNoNaN (.str t) = true := fun t => rfl
    simp [SyncMutation.fields, SyncMutation.mapValues, hstr, noNaN_twin]
  simp [SignedSyncMutation.fields, noNaN_of_normalize h he.noNaN, htwinNaN, all, hasNoNaN]

end

/-! ## Envelopes that the device made -/

/-- The given mutation, with its date normalized: the same fields at every depth. -/
structure IsGiven (p : Platform) (given : JsValue) (m : SyncMutation) : Prop
    extends ReadsFields p given m where
  attributes : m.attributes.map sortAll = (given.field? "attributes").map sortAll
  baseVersion : m.baseVersion.map sortAll = (given.field? "baseVersion").map sortAll
  payload : m.payload.map sortAll = (given.field? "payload").map sortAll

/-- Only finite numbers other than -0, and no key `__proto__`, among the free-form values. -/
def CleanValues (given : JsValue) : Prop :=
  ∀ v ∈ freeValues given, all hasFiniteNumber v = true ∧ all hasNoProto v = true

section
variable {p : Platform} {ecdsa : Ecdsa p}

theorem ReadsValue.same_iff {given value : Option JsValue} (h : ReadsValue given value)
    (hkeys : ∀ v, given = some v → all hasDistinctKeys v = true) :
    (value.map viaJson).map sortAll = given.map sortAll ↔
      ∀ v, given = some v → all hasFiniteNumber v = true ∧ all hasNoProto v = true := by
  rw [h.eq]
  cases hgiven : given with
  | none => simp
  | some v =>
    have hsame := same_viaJson_normal (hkeys v hgiven) (h.ordinary v hgiven)
    simp only [Option.map_some, Option.some.injEq, forall_eq']
    exact hsame

theorem isGiven_iff {given : JsValue} {m : SyncMutation} (h : ReadsMutation p given m)
    (hkeys : all hasDistinctKeys given = true) :
    IsGiven p given (m.mapValues viaJson) ↔ CleanValues given := by
  have hdistinct : ∀ name v, given.field? name = some v → all hasDistinctKeys v = true :=
    fun name v hv => all_field hkeys hv
  have hattributes := h.attributes.same_iff (hdistinct _)
  have hbaseVersion := h.baseVersion.same_iff (hdistinct _)
  have hpayload := h.payload.same_iff (hdistinct _)
  have hfields : ReadsFields p given (m.mapValues viaJson) := { h.toReadsFields with }
  constructor
  · intro hgiven v hv
    simp only [freeValues, List.mem_filterMap, List.mem_cons, List.not_mem_nil, or_false] at hv
    obtain ⟨name, rfl | rfl | rfl, hfield⟩ := hv
    · exact hattributes.mp hgiven.attributes v hfield
    · exact hbaseVersion.mp hgiven.baseVersion v hfield
    · exact hpayload.mp hgiven.payload v hfield
  · intro hclean
    have hvalue : ∀ name ∈ ["attributes", "baseVersion", "payload"], ∀ v,
        given.field? name = some v → all hasFiniteNumber v = true ∧ all hasNoProto v = true :=
      fun name hname v hv => hclean v (List.mem_filterMap.mpr ⟨name, hname, hv⟩)
    exact { hfields with
      attributes := hattributes.mpr (hvalue _ (by simp))
      baseVersion := hbaseVersion.mpr (hvalue _ (by simp))
      payload := hpayload.mpr (hvalue _ (by simp)) }

variable {privateKey v : JsValue}

variable {nonce : p.Nonce} {signature : String}

theorem signStableJson_ok (hv : Settled v) : signStableJson p privateKey nonce v = .ok signature ↔
      ∃ key, p.importPrivate privateKey = .ok key ∧
        signature = signaturePrefix ++ base64UrlEncode (p.sign key nonce (utf8 (write v))) := by
  simp only [signStableJson, bind_eq_ok, stableJsonStringify_settled hv]
  constructor
  · rintro ⟨key, hkey, _, htext, hsignature⟩
    cases htext
    exact ⟨key, hkey, (Except.ok.inj hsignature).symm⟩
  · rintro ⟨key, hkey, rfl⟩
    exact ⟨key, hkey, _, rfl, rfl⟩

theorem signatureWithoutPrefix_append (s : String) :
    signatureWithoutPrefix (signaturePrefix ++ s) = s := by
  have hdrop : (signaturePrefix ++ s).toList.drop signaturePrefix.length = s.toList := by
    rw [String.toList_append]
    exact List.drop_left' rfl
  rw [signatureWithoutPrefix, hdrop, String.ofList_toList]

theorem verifies_of_sign {publicKey : JsValue} (hpair : KeyPair ecdsa privateKey publicKey) (hv : Settled v)
    (h : signStableJson p privateKey nonce v = .ok signature) :
    Verifies p publicKey signature (write v) := by
  obtain ⟨key, key', hprivate, hpublic, hmatching⟩ := hpair
  obtain ⟨_, hkey, rfl⟩ := (signStableJson_ok hv).mp h
  cases hprivate.symm.trans hkey
  refine ⟨key', _, hpublic, ?_, ecdsa.verify_iff.mpr ⟨key, hmatching, ecdsa.signed_sign _ nonce _⟩⟩
  rw [signatureWithoutPrefix_append, base64UrlDecode_encode]

theorem startsWith_of_sign (hv : Settled v)
    (h : signStableJson p privateKey nonce v = .ok signature) :
    startsWith signature signaturePrefix = true := by
  obtain ⟨_, -, rfl⟩ := (signStableJson_ok hv).mp h
  exact startsWith_append _ _

variable {c : DeviceCertificate}

theorem createDeviceCertificate_ok {backendPrivateKey backendPublicKey certificate : JsValue}
    (hkeys : all hasDistinctKeys certificate = true)
    (hpair : KeyPair ecdsa backendPrivateKey backendPublicKey)
    (h : createDeviceCertificate p backendPrivateKey nonce certificate = .ok c) :
    c.Normalized p ∧
      Verifies p backendPublicKey c.signature (write (certificateValue c.certificate)) := by
  simp only [createDeviceCertificate, bind_eq_ok] at h
  obtain ⟨payload, hpayload, value, hvalue, signature, hsignature, h⟩ := h
  cases h
  obtain ⟨hordinary, rfl⟩ := deviceCertificateSignatureValue_ok.mp hvalue
  have hnormalized := normalizeDeviceCertificatePayload_ok hpayload (fun v hv =>
    Option.some.inj hv ▸ hkeys) hordinary
  have hsettled := settled_certificateValue hnormalized
  exact ⟨⟨hnormalized, startsWith_of_sign hsettled hsignature⟩,
    verifies_of_sign hpair hsettled hsignature⟩

/-- A certificate as the backend made it, or as JSON carried it. -/
def SentCertificate (c : DeviceCertificate) (v : JsValue) : Prop :=
  v = c.toValue ∨ v = viaJson c.toValue

theorem viaJson_certificate (c : DeviceCertificate) :
    viaJson c.toValue = (c.mapValues viaJson).toValue := c.relabel_toValue keeps_reread

theorem normalize_sent {c' : DeviceCertificate} (hc : c.Normalized p)
    (hsent : SentCertificate c v) (h : normalizeDeviceCertificate p (some v) = .ok c') :
    c'.Normalized p ∧ c'.signature = c.signature ∧
      c'.certificate.expiresAt = c.certificate.expiresAt ∧
      write (certificateValue c'.certificate) = write (certificateValue c.certificate) := by
  rcases hsent with rfl | rfl
  · rw [hc.again] at h
    cases h
    exact ⟨hc, rfl, rfl, rfl⟩
  · rw [viaJson_certificate] at h
    have hvia : (c.mapValues viaJson).Normalized p := hc.mapValues keeps_reread
    rw [hvia.again] at h
    cases h
    exact ⟨hvia, rfl, rfl, write_certificateValue keeps_reread hc.certificate⟩

/-- An envelope as JSON carries it. -/
def SignedSyncMutation.sent (s : SignedSyncMutation) : SignedSyncMutation :=
  { s with
    deviceCertificate := s.deviceCertificate.mapValues viaJson
    mutation := s.mutation.mapValues viaJson }

theorem SignedSyncMutation.viaJson_toValue (s : SignedSyncMutation) :
    viaJson s.toValue = s.sent.toValue := by
  rw [viaJson, toValue, relabel_definedFields keeps_reread]
  simp only [fields, List.map_cons, Option.map_some,
    SyncMutation.relabel_toValue keeps_reread]
  rfl

/-- **An envelope that the device made is accepted**, and returns what JSON carries of its
    mutation. -/
theorem verify_created {backendPrivateKey backendPublicKey certificate deviceCertificate
      devicePrivateKey mutation : JsValue} {nonce' : p.Nonce}
    {s : SignedSyncMutation} {now deadline : ℤ}
    (hbackend : KeyPair ecdsa backendPrivateKey backendPublicKey)
    (hcertificate : all hasDistinctKeys certificate = true)
    (hissued : createDeviceCertificate p backendPrivateKey nonce certificate = .ok c)
    (hsent : SentCertificate c deviceCertificate)
    (hmutation : all hasDistinctKeys mutation = true)
    (hcreate : createSignedMutation p deviceCertificate devicePrivateKey nonce' mutation = .ok s)
    (hdevice : KeyPair ecdsa devicePrivateKey
      (viaJson s.deviceCertificate.certificate.devicePublicKey))
    (hexpires : p.parseDate c.certificate.expiresAt = some deadline) (hnow : now < deadline) :
    verifySignedMutation p backendPublicKey (some now) (viaJson s.toValue) =
        .ok (s.mutation.mapValues viaJson) ∧
      ReadsMutation p mutation s.mutation := by
  obtain ⟨hc, hverifies⟩ := createDeviceCertificate_ok hcertificate hbackend hissued
  simp only [createSignedMutation, bind_eq_ok] at hcreate
  obtain ⟨dc, hdc, m, hm, _, hactor, value, hvalue, signature, hsignature, hs⟩ := hcreate
  cases hs
  obtain ⟨hdcNormalized, hdcSignature, hdcExpires, hdcText⟩ := normalize_sent hc hsent hdc
  obtain ⟨⟨-, hordinary⟩, rfl⟩ := signedMutationSignatureValue_ok.mp hvalue
  obtain ⟨given, hgiven, hreads, hnormalized⟩ := normalizeSyncMutation_ok hm
  cases hgiven
  have hmNormalized := hnormalized (fun v hv => Option.some.inj hv ▸ hmutation) hordinary
  have hsettled := settled_signedValue hdcNormalized hmNormalized
  obtain ⟨hactorDevice, hactorUser⟩ := assertMutationMatchesCertificate_ok.mp hactor
  refine ⟨?_, hreads⟩
  rw [SignedSyncMutation.viaJson_toValue]
  set s : SignedSyncMutation := ⟨dc, m, signature⟩
  have hsentNormalized : s.sent.Normalized p :=
    ⟨hdcNormalized.mapValues keeps_reread, hmNormalized.mapValues keeps_reread,
      startsWith_of_sign hsettled hsignature⟩
  have hkeys : all hasDistinctKeys s.sent.toValue = true := by
    refine (tidy_definedFields (SignedSyncMutation.keys _) ?_).distinct
    simp [SignedSyncMutation.fields, (settled_str _).toTidy,
      hsentNormalized.deviceCertificate.tidy, hsentNormalized.mutation.tidy]
  refine (verifySignedMutation_ok hkeys).mpr ⟨s.sent, hsentNormalized.again, hsentNormalized, ?_, rfl⟩
  have hcertText : write (certificateValue s.sent.deviceCertificate.certificate) =
      write (certificateValue c.certificate) :=
    (write_certificateValue keeps_reread hdcNormalized.certificate).trans hdcText
  have hsignedText : write (signedValue s.sent.deviceCertificate s.sent.mutation) =
      write (signedValue dc m) :=
    (write_signedValue_certificate keeps_reread hdcNormalized _).trans
      (write_signedValue_mutation keeps_reread dc hmNormalized)
  refine ⟨⟨?_, now, deadline, rfl, ?_, hnow⟩, hactorDevice, hactorUser, ?_⟩
  · rw [hcertText]
    exact hdcSignature ▸ hverifies
  · exact (congrArg p.parseDate hdcExpires).trans hexpires
  · rw [hsignedText]
    exact verifies_of_sign hdevice hsettled hsignature

end

/-- **Signed mutations.**  What `verifySignedMutation` returns is attested by its certificate and
    contained in the signed text. No other mutation is returned for the same signed bytes, if and
    only if the envelope's mutation has no `null`, no 0, no -0 and no number too large; among
    envelopes whose numbers are finite and not -0 the bytes determine it. An envelope made by
    `createSignedMutation` is accepted after JSON, and returns the given mutation if and only if
    the numbers of that are finite and not -0 and no key is `__proto__`. -/
theorem signed_mutations (p : Platform) (ecdsa : Ecdsa p) (backendPublicKey : JsValue) :
    (∀ {e : JsValue} {now : Option ℤ} {m : SyncMutation}, Parsed e →
      verifySignedMutation p backendPublicKey now e = .ok m →
      ∃ text, signedBytes p e = .ok (utf8 text) ∧
        (∃ c, Attested ecdsa backendPublicKey now (utf8 text) m c) ∧
        (∃ canonical, stableJsonStringify m.toValue = .ok canonical ∧ canonical <:+: text) ∧
        ((∀ {e' : JsValue} {now' : Option ℤ} {m' : SyncMutation}, Parsed e' →
            verifySignedMutation p backendPublicKey now' e' = .ok m' →
            signedBytes p e' = .ok (utf8 text) → m' = m) ↔ PlainValues e) ∧
        (FiniteValues e → ∀ {e' : JsValue} {now' : Option ℤ} {m' : SyncMutation}, Parsed e' →
            verifySignedMutation p backendPublicKey now' e' = .ok m' →
            signedBytes p e' = .ok (utf8 text) → FiniteValues e' → m' = m)) ∧
    (∀ {backendPrivateKey certificate deviceCertificate devicePrivateKey mutation : JsValue}
        {nonce nonce' : p.Nonce} {c : DeviceCertificate} {s : SignedSyncMutation}
        {now deadline : ℤ}, KeyPair ecdsa backendPrivateKey backendPublicKey →
      all hasDistinctKeys certificate = true →
      createDeviceCertificate p backendPrivateKey nonce certificate = .ok c →
      SentCertificate c deviceCertificate →
      all hasDistinctKeys mutation = true →
      createSignedMutation p deviceCertificate devicePrivateKey nonce' mutation = .ok s →
      KeyPair ecdsa devicePrivateKey (viaJson s.deviceCertificate.certificate.devicePublicKey) →
      p.parseDate c.certificate.expiresAt = some deadline → now < deadline →
      ∃ m, verifySignedMutation p backendPublicKey (some now) (viaJson s.toValue) = .ok m ∧
        (IsGiven p mutation m ↔ CleanValues mutation)) := by
  constructor
  · intro e now m he hverify
    obtain ⟨s, hs, hnormalized, haccepted, rfl⟩ := (verifySignedMutation_ok he.distinct).mp hverify
    have hsame : ∀ {e' : JsValue} {now' : Option ℤ} {m' : SyncMutation}, Parsed e' →
        verifySignedMutation p backendPublicKey now' e' = .ok m' →
        signedBytes p e' = .ok (utf8 (write (signedValue s.deviceCertificate s.mutation))) →
        ∃ s', normalizeSignedSyncMutation p e' = .ok s' ∧ m' = s'.mutation ∧
          s'.mutation.Normalized p ∧
          s'.mutation.mapValues viaJson = s.mutation.mapValues viaJson := by
      intro e' now' m' he' hverify' hbytes
      obtain ⟨s', hs', hnormalized', -, rfl⟩ := (verifySignedMutation_ok he'.distinct).mp hverify'
      rw [signedBytes_eq hs' hnormalized'] at hbytes
      exact ⟨s', hs', rfl, hnormalized'.mutation, viaJson_eq_of_text hnormalized'.mutation
        hnormalized.mutation (utf8_inj (Except.ok.inj hbytes))⟩
    refine ⟨_, signedBytes_eq hs hnormalized, ⟨_, haccepted.attested hnormalized⟩,
      ⟨_, stableJsonStringify_toValue hnormalized.mutation, infix_signedValue _ _⟩, ⟨fun hunique => ?_,
        fun hplain => ?_⟩, fun hfinite => ?_⟩
    · -- the twin of the envelope is accepted with the same bytes
      obtain ⟨htwin, hacceptedTwin, htext⟩ := twin_accepted hnormalized haccepted
      have hparsed := twin_parsed hs hnormalized he
      have heq := hunique hparsed
        ((verifySignedMutation_ok hparsed.distinct).mpr ⟨_, htwin.again, htwin, hacceptedTwin, rfl⟩)
        (by rw [signedBytes_eq htwin.again htwin, htext])
      refine (plainValues_iff hs).mpr fun v hv => plain_of_twin ?_
      exact SyncMutation.mapValues_eq_self.mp heq v hv
    · intro e' now' m' he' hverify' hbytes
      obtain ⟨s', -, rfl, hnormalized', heq⟩ := hsame he' hverify' hbytes
      exact eq_of_viaJson_eq hnormalized.mutation hnormalized' ((plainValues_iff hs).mp hplain) heq
    · intro e' now' m' he' hverify' hbytes hfinite'
      obtain ⟨s', hs', rfl, hnormalized', heq⟩ := hsame he' hverify' hbytes
      rwa [viaJson_of_finite hnormalized' ((finiteValues_iff hs').mp hfinite'),
        viaJson_of_finite hnormalized.mutation ((finiteValues_iff hs).mp hfinite)] at heq
  · intro backendPrivateKey certificate deviceCertificate devicePrivateKey mutation nonce nonce' c s
      now deadline hbackend hcertificate hissued hsent hmutation hcreate hdevice hexpires hnow
    obtain ⟨hverify, hreads⟩ := verify_created hbackend hcertificate hissued hsent hmutation hcreate
      hdevice hexpires hnow
    exact ⟨_, hverify, isGiven_iff hreads hmutation⟩

/-! ## A host with two dates, whose signatures are checksums -/

/-- The private and the public JWK hold the name of the key. -/
def keyName (label : String) (jwk : JsValue) : Except String String :=
  match jwk.field? label with
  | some (.str name) => .ok name
  | some .null | some (.bool _) | some (.num _) | some (.arr _) | some (.obj _ _) | none =>
    .error "Invalid JWK"

def checksum (key : String) (bytes : ByteArray) : List UInt8 :=
  [UInt8.ofNat key.length, UInt8.ofNat bytes.size]

def checksumPlatform : Platform where
  parseDate text :=
    if text = "2030-01-01T00:00:00.000Z" then some 1893456000000
    else if text = "2026-01-01T00:00:00.000Z" then some 1767225600000
    else none
  isoText time :=
    if time = 1893456000000 then "2030-01-01T00:00:00.000Z" else "2026-01-01T00:00:00.000Z"
  parseDate_empty := by decide
  parseDate_isoText := by
    intro text time h
    split at h
    · cases h
      decide
    · split at h
      · cases h
        decide
      · cases h
  PrivateKey := String
  PublicKey := String
  Nonce := Unit
  importPrivate := keyName "d"
  importPublic := keyName "x"
  sign key _ bytes := checksum key bytes
  verify key signature bytes := signature = checksum key bytes

def checksumEcdsa : Ecdsa checksumPlatform where
  Matching key key' := key = key'
  Signed key bytes signature := signature = checksum key bytes
  signed_sign _ _ _ := rfl
  verify_iff {key signature bytes} := by
    constructor
    · intro h
      exact ⟨key, rfl, of_decide_eq_true h⟩
    · rintro ⟨_, rfl, h⟩
      exact decide_eq_true h

def demoKey (label name : String) : JsValue := .obj true [("kty", .str "EC"), (label, .str name)]

def demoPayload : DeviceCertificatePayload where
  actorDeviceId := "device"
  actorUserId := "user"
  certificateId := "certificate"
  devicePublicKey := demoKey "x" "deviceKey"
  expiresAt := "2030-01-01T00:00:00.000Z"
  issuedAt := "2026-01-01T00:00:00.000Z"

def demoCertificate : DeviceCertificate where
  certificate := demoPayload
  signature := signaturePrefix ++
    base64UrlEncode (checksum "backendKey" (utf8 (write (certificateValue demoPayload))))

def demoMutation (count : JsValue) : SyncMutation where
  actorDeviceId := "device"
  actorUserId := "user"
  clientMutationId := "m1"
  model := "Task"
  occurredAt := "2026-01-01T00:00:00.000Z"
  offlineGrantId := "grant"
  operation := "update"
  policyHash := "policy"
  attributes := some (.obj true [("count", count)])
  baseVersion := none
  command := none
  payload := none

def demoEnvelope (signed count : JsValue) : SignedSyncMutation where
  deviceCertificate := demoCertificate
  mutation := demoMutation count
  signature := signaturePrefix ++ base64UrlEncode
    (checksum "deviceKey" (utf8 (write (signedValue demoCertificate (demoMutation signed)))))

theorem isIso_2030 : IsIso checksumPlatform "2030-01-01T00:00:00.000Z" :=
  ⟨1893456000000, by decide, by decide⟩

theorem isIso_2026 : IsIso checksumPlatform "2026-01-01T00:00:00.000Z" :=
  ⟨1767225600000, by decide, by decide⟩

theorem settled_demoKey (name : String) : Settled (demoKey "x" name) := by
  have hproto : ∀ f ∈ [("kty", JsValue.str "EC"), ("x", .str name)], isProto f = false := by
    simp [isProto]
  have hfields : ∀ f ∈ [("kty", JsValue.str "EC"), ("x", .str name)], Settled f.2 := by
    simp [settled_str]
  have hmap := orderEntries_map (fun t => if t = "EC" then .str t else JsValue.str name)
    [("kty", "EC"), ("x", "")]
  exact ⟨tidy_obj (by simp) hproto fun f hf => (hfields f hf).toTidy,
    (normal_obj_settled hproto hfields).trans (congrArg (obj true) hmap)⟩

variable {count : JsValue}

theorem settled_count (h : Settled count) : Settled (.obj true [("count", count)]) := by
  have hproto : ∀ f ∈ [("count", count)], isProto f = false := by
    simp [isProto]
  have hfields : ∀ f ∈ [("count", count)], Settled f.2 := by
    simp [h]
  have hmap := orderEntries_map (fun _ : ℕ => count) [("count", 0)]
  exact ⟨tidy_obj (by simp) hproto fun f hf => (hfields f hf).toTidy,
    (normal_obj_settled hproto hfields).trans (congrArg (obj true) hmap)⟩

theorem demoPayload_normalized : demoPayload.Normalized checksumPlatform where
  actorDeviceId := by decide
  actorUserId := by decide
  certificateId := by decide
  devicePublicKey := settled_demoKey "deviceKey"
  devicePublicKey_object := rfl
  expiresAt := isIso_2030
  issuedAt := isIso_2026

theorem demoMutation_normalized (h : Settled count) :
    (demoMutation count).Normalized checksumPlatform where
  actorDeviceId := by simp [demoMutation]
  actorUserId := by simp [demoMutation]
  clientMutationId := by simp [demoMutation]
  model := by simp [demoMutation]
  occurredAt := isIso_2026
  offlineGrantId := by simp [demoMutation]
  operation := by simp [demoMutation]
  policyHash := by simp [demoMutation]
  attributes := by
    intro v hv
    cases hv
    exact ⟨settled_count h, rfl⟩
  baseVersion := nofun
  command := nofun
  payload := nofun

theorem demoCertificate_normalized : demoCertificate.Normalized checksumPlatform :=
  ⟨demoPayload_normalized, startsWith_append _ _⟩

theorem demo_backend : KeyPair checksumEcdsa (demoKey "d" "backendKey") (demoKey "x" "backendKey") :=
  ⟨"backendKey", "backendKey", rfl, rfl, rfl⟩

theorem demo_device : KeyPair checksumEcdsa (demoKey "d" "deviceKey") (demoKey "x" "deviceKey") :=
  ⟨"deviceKey", "deviceKey", rfl, rfl, rfl⟩

theorem sign_certificate : signStableJson checksumPlatform (demoKey "d" "backendKey") ()
    (certificateValue demoPayload) = .ok demoCertificate.signature :=
  (signStableJson_ok (settled_certificateValue demoPayload_normalized)).mpr ⟨"backendKey", rfl, rfl⟩

theorem sign_mutation (h : Settled count) : signStableJson checksumPlatform
    (demoKey "d" "deviceKey") () (signedValue demoCertificate (demoMutation count)) =
      .ok (demoEnvelope count count).signature :=
  (signStableJson_ok (settled_signedValue demoCertificate_normalized
    (demoMutation_normalized h))).mpr ⟨"deviceKey", rfl, rfl⟩

theorem create_certificate : createDeviceCertificate checksumPlatform (demoKey "d" "backendKey") ()
    demoPayload.toValue = .ok demoCertificate := by
  simp only [createDeviceCertificate, bind_eq_ok]
  exact ⟨_, demoPayload_normalized.again, _,
    deviceCertificateSignatureValue_ok.mpr ⟨demoPayload_normalized.tidy.ordinary, rfl⟩, _,
    sign_certificate, rfl⟩

theorem create_mutation (h : Settled count) :
    createSignedMutation checksumPlatform demoCertificate.toValue (demoKey "d" "deviceKey") ()
      (demoMutation count).toValue = .ok (demoEnvelope count count) := by
  have hmutation := demoMutation_normalized h
  simp only [createSignedMutation, bind_eq_ok]
  exact ⟨_, demoCertificate_normalized.again, _, hmutation.again, _,
    assertMutationMatchesCertificate_ok.mpr ⟨rfl, rfl⟩, _,
    signedMutationSignatureValue_ok.mpr
      ⟨⟨demoCertificate_normalized.tidy.ordinary, hmutation.tidy.ordinary⟩, rfl⟩,
    _, sign_mutation h, rfl⟩

theorem demoEnvelope_normalized (h : Settled count) (signed : JsValue) :
    (demoEnvelope signed count).Normalized checksumPlatform :=
  ⟨demoCertificate_normalized, demoMutation_normalized h, startsWith_append _ _⟩

theorem demoEnvelope_accepted (h : Settled count) :
    Accepted checksumPlatform (demoKey "x" "backendKey") (some 0) (demoEnvelope count count) where
  certified :=
    ⟨verifies_of_sign demo_backend (settled_certificateValue demoPayload_normalized)
      sign_certificate, 0, 1893456000000, rfl,
      show checksumPlatform.parseDate "2030-01-01T00:00:00.000Z" = some 1893456000000 by decide,
      by decide⟩
  actorDeviceId := rfl
  actorUserId := rfl
  verifies := verifies_of_sign demo_device (settled_signedValue demoCertificate_normalized
    (demoMutation_normalized h)) (sign_mutation h)

/-- A mutation made, sent through JSON, accepted and returned. -/
theorem signed_mutations_demo : ∃ m text,
    verifySignedMutation checksumPlatform (demoKey "x" "backendKey") (some 0)
        (viaJson (demoEnvelope (.bool true) (.bool true)).toValue) = .ok m ∧
      IsGiven checksumPlatform (demoMutation (.bool true)).toValue m ∧
      signedBytes checksumPlatform (viaJson (demoEnvelope (.bool true) (.bool true)).toValue) =
        .ok (utf8 text) ∧
      ∃ c, Attested checksumEcdsa (demoKey "x" "backendKey") (some 0) (utf8 text) m c := by
  have hcount : Settled (.bool true) := ⟨⟨rfl, rfl, rfl⟩, rfl⟩
  have hmutation := demoMutation_normalized hcount
  obtain ⟨hsound, hcomplete⟩ := signed_mutations checksumPlatform checksumEcdsa
    (demoKey "x" "backendKey")
  obtain ⟨m, hverify, hgiven⟩ := hcomplete demo_backend demoPayload_normalized.tidy.distinct
    create_certificate (.inl rfl) hmutation.tidy.distinct (create_mutation hcount) demo_device
    (show checksumPlatform.parseDate _ = some 1893456000000 by decide)
    (show (0 : ℤ) < 1893456000000 by decide)
  have hclean : CleanValues (demoMutation (.bool true)).toValue := by
    have hvalues : freeValues (demoMutation (.bool true)).toValue =
        [.obj true [("count", .bool true)]] := rfl
    rw [CleanValues, hvalues, List.forall_mem_singleton]
    exact ⟨rfl, by decide⟩
  obtain ⟨text, hbytes, hattested, -⟩ := hsound ⟨by decide +kernel, by decide +kernel, rfl⟩ hverify
  exact ⟨m, text, hverify, hgiven.mpr hclean, hbytes, hattested⟩

/-- The device signs a count that is `null`, and the sender writes one too large for it. -/
theorem returned_not_determined : ¬ ∀ (p : Platform) (_ : Ecdsa p) (backendPublicKey e e' : JsValue)
    (now : Option ℤ) (m m' : SyncMutation) (bytes : ByteArray), Parsed e → Parsed e' →
    verifySignedMutation p backendPublicKey now e = .ok m →
    verifySignedMutation p backendPublicKey now e' = .ok m' →
    signedBytes p e = .ok bytes → signedBytes p e' = .ok bytes → m' = m := by
  intro h
  have hnull : Settled .null := ⟨⟨rfl, rfl, rfl⟩, rfl⟩
  have hlarge : Settled (.num (.infinity false)) := ⟨⟨rfl, rfl, rfl⟩, rfl⟩
  have hparsed : Parsed (demoEnvelope .null .null).toValue :=
    ⟨by decide +kernel, by decide +kernel, by decide +kernel⟩
  have hparsed' : Parsed (demoEnvelope .null (.num (.infinity false))).toValue :=
    ⟨by decide +kernel, by decide +kernel, by decide +kernel⟩
  have hnormalized := demoEnvelope_normalized hnull .null
  have hnormalized' := demoEnvelope_normalized hlarge .null
  have haccepted := demoEnvelope_accepted hnull
  obtain ⟨-, haccepted', htext⟩ := twin_accepted hnormalized haccepted
  have heq := h checksumPlatform checksumEcdsa (demoKey "x" "backendKey") _ _ (some 0)
    (demoMutation .null) (demoMutation (.num (.infinity false))) _ hparsed hparsed'
    ((verifySignedMutation_ok hparsed.distinct).mpr
      ⟨_, hnormalized.again, hnormalized, haccepted, rfl⟩)
    ((verifySignedMutation_ok hparsed'.distinct).mpr
      ⟨_, hnormalized'.again, hnormalized', haccepted', rfl⟩)
    (signedBytes_eq hnormalized.again hnormalized)
    ((signedBytes_eq hnormalized'.again hnormalized').trans
      (congrArg (fun text => Except.ok (utf8 text)) htext))
  cases congrArg SyncMutation.attributes heq

end Velocious.DeviceIdentity
