/-
  The objects that sync signatures are made over: what the normalizers read, what a second
  pass over their results changes (nothing), and which canonical texts are signed.

  * `certificateValue`, `signedValue`: the values whose texts the backend and the device sign.
  * `Keeps`: a relabelling of scalars that does not show in those texts.
-/
import Velocious.Sync.DeviceIdentity

namespace Velocious.DeviceIdentity

open Foundation Foundation.JsValue List

theorem bind_eq_ok {α β : Type} {x : Except String α} {f : α → Except String β} {b : β} :
    (x >>= f) = .ok b ↔ ∃ a, x = .ok a ∧ f a = .ok b := by
  cases x with
  | error message => exact ⟨nofun, nofun⟩
  | ok a => exact ⟨fun h => ⟨a, rfl, h⟩, fun ⟨_, ha, h⟩ => Except.ok.inj ha ▸ h⟩

/-- The characters of the standard alphabet that base64url replaces. -/
def urlChar (c : Char) : Char := if c = '+' then '-' else if c = '/' then '_' else c

theorem replaceAll_url (text : List Char) :
    replaceAll '/' '_' (replaceAll '+' '-' text) = text.map urlChar := by
  unfold replaceAll
  rw [map_map]
  refine map_congr_left fun c _ => ?_
  rw [Function.comp_apply, urlChar]
  by_cases hplus : c = '+'
  · subst hplus
    rfl
  · rw [if_neg hplus, if_neg hplus]

theorem replaceAll_urlBack {text : List Char} (h : ∀ c ∈ text, c ≠ '-' ∧ c ≠ '_') :
    replaceAll '_' '/' (replaceAll '-' '+' (text.map urlChar)) = text := by
  unfold replaceAll
  rw [map_map, map_map]
  refine (map_congr_left (g := id) fun c hc => ?_).trans (map_id text)
  obtain ⟨hminus, hunder⟩ := h c hc
  by_cases hplus : c = '+'
  · subst hplus
    rfl
  · by_cases hslash : c = '/'
    · subst hslash
      rfl
    · simp [urlChar, hplus, hslash, hminus, hunder]

theorem base64Char_plain : ∀ n < 64, base64Char n ≠ '-' ∧ base64Char n ≠ '_' := by
  decide +kernel

theorem base64UrlDecode_encode (bytes : List UInt8) :
    base64UrlDecode (base64UrlEncode bytes) = .ok bytes := by
  have hbyte : ∀ b ∈ bytes.map UInt8.toNat, b < 256 :=
    forall_mem_map.mpr fun b _ => b.toNat_lt
  have hlt := sextets_lt hbyte
  have hdigits : ∀ c ∈ (sextets (bytes.map UInt8.toNat)).map base64Char,
      c ≠ '-' ∧ c ≠ '_' ∧ c ≠ '=' := by
    refine forall_mem_map.mpr fun n hn => ?_
    exact ⟨(base64Char_plain n (hlt n hn)).1, (base64Char_plain n (hlt n hn)).2,
      (base64Char_visible n (hlt n hn)).2⟩
  generalize hdef : (sextets (bytes.map UInt8.toNat)).map base64Char = digits at hdigits
  have hencode : (replaceAll '/' '_' (replaceAll '+' '-' (btoa (bytes.map UInt8.toNat)))).filter
      (· ≠ '=') = digits.map urlChar := by
    have hkeep : ∀ c ∈ digits.map urlChar, c ≠ '=' := by
      refine forall_mem_map.mpr fun c hc => ?_
      unfold urlChar
      split
      · decide
      · split
        · decide
        · exact (hdigits c hc).2.2
    have hpad : ∀ k, (List.replicate k '=').filter (fun c => decide (c ≠ '=')) = [] := by
      intro k
      simp
    rw [replaceAll_url, btoa, hdef, padBase64, map_append, filter_append,
      map_replicate, show urlChar '=' = '=' from rfl, hpad, append_nil]
    exact filter_eq_self.mpr fun c hc => decide_eq_true (hkeep c hc)
  have hback := replaceAll_urlBack fun c hc => ⟨(hdigits c hc).1, (hdigits c hc).2.1⟩
  rw [base64UrlDecode, base64UrlEncode, hencode, String.toList_ofList, hback, ← hdef,
    atob_padded hlt (sextets_length _), unpack_sextets hbyte]
  refine congrArg Except.ok ?_
  rw [map_map]
  exact (map_congr_left (g := id) fun b _ => UInt8.ofNat_toNat).trans (map_id bytes)

/-! ## Fields of objects -/

variable {fields : List (String × Option JsValue)}

theorem keys_definedFields
    (h : (fields.map Prod.fst).Nodup) : ((definedFields fields).map Prod.fst).Nodup := by
  refine h.sublist ?_
  clear h
  induction fields with
  | nil => exact .slnil
  | cons f fields ih =>
    obtain ⟨k, v⟩ := f
    cases v with
    | none => exact ih.cons k
    | some v => exact ih.cons_cons k

theorem valueAt?_definedFields (h : (fields.map Prod.fst).Nodup) (name : String) :
    valueAt? name (definedFields fields) = (valueAt? name fields).join := by
  refine Option.ext fun v => ?_
  rw [valueAt?_eq_some (keys_definedFields h), Option.join_eq_some_iff, valueAt?_eq_some h,
    definedFields, mem_filterMap]
  constructor
  · rintro ⟨⟨k, w⟩, hmem, heq⟩
    obtain ⟨u, rfl, heq⟩ := Option.map_eq_some_iff.mp heq
    cases heq
    exact hmem
  · intro hmem
    exact ⟨_, hmem, rfl⟩

/-- A value that the canonical form keeps all the fields of. -/
structure Tidy (v : JsValue) : Prop where
  ordinary : all isOrdinary v = true
  distinct : all hasDistinctKeys v = true
  noProto : all hasNoProto v = true

/-- A value that a second pass leaves as it is. -/
structure Settled (v : JsValue) : Prop extends Tidy v where
  normal_eq : normal v = v

variable {v : JsValue}

theorem Settled.normal (hkeys : all hasDistinctKeys v = true)
    (hordinary : all isOrdinary (normal v) = true) : Settled (normal v) :=
  ⟨⟨hordinary, distinct_normal hkeys, noProto_normal v⟩, normal_normal hkeys hordinary⟩

theorem Tidy.settled (h : Tidy v) : Settled (normal v) :=
  .normal h.distinct (ordinary_normal h.ordinary h.noProto)

theorem settled_str (s : String) : Settled (.str s) := ⟨⟨rfl, rfl, rfl⟩, rfl⟩

theorem tidy_obj {fields : List (String × JsValue)} (hkeys : (fields.map Prod.fst).Nodup)
    (hproto : ∀ f ∈ fields, isProto f = false) (hfields : ∀ f ∈ fields, Tidy f.2) :
    Tidy (.obj true fields) where
  ordinary := all_obj.mpr ⟨rfl, fun f hf => (hfields f hf).ordinary⟩
  distinct := all_obj.mpr ⟨decide_eq_true hkeys, fun f hf => (hfields f hf).distinct⟩
  noProto := by
    refine all_obj.mpr ⟨all_eq_true.mpr fun f hf => ?_, fun f hf => (hfields f hf).noProto⟩
    rw [hproto f hf]
    rfl

theorem normal_obj_settled {fields : List (String × JsValue)}
    (hproto : ∀ f ∈ fields, isProto f = false) (hfields : ∀ f ∈ fields, Settled f.2) :
    DeviceIdentity.normal (.obj true fields) = .obj true (orderEntries fields) := by
  have hfield : ∀ f ∈ fields, (f.1, DeviceIdentity.normal f.2) = f := fun f hf =>
    Prod.ext rfl (hfields f hf).normal_eq
  have hmap : fields.map (fun f => (f.1, DeviceIdentity.normal f.2)) = fields :=
    (map_congr_left (g := id) hfield).trans (map_id fields)
  rw [normal_obj, hmap, assignEntries_sorted hproto]

section
variable {leaf : JsValue → JsValue} {flag : Bool → Bool}

/-- A relabelling that does not show in the text. -/
structure Keeps (leaf : JsValue → JsValue) (flag : Bool → Bool) : Prop where
  scalar : ∀ v, v.isScalar = true → (leaf v).isScalar = true
  str : ∀ s, leaf (.str s) = .str s
  flag : flag true = true
  write : ∀ v, v.isScalar = true → write (leaf v) = write v

theorem all_of_scalar {q : JsValue → Bool} {v : JsValue} (hv : v.isScalar = true)
    (hq : q v = true) : all q v = true := by
  cases v with
  | arr items => cases hv
  | obj o fields => cases hv
  | null | bool _ | num _ | str _ => exact hq

theorem Settled.relabel (hkeeps : Keeps leaf flag) {v : JsValue} (hv : Settled v) :
    Settled (JsValue.relabel leaf flag v) where
  ordinary := by
    refine all_relabel (fun w hw _ => all_of_scalar (hkeeps.scalar w hw) ?_) (fun _ _ _ => rfl)
      (fun o fields g ho => ?_) hv.ordinary
    · have hscalar := hkeeps.scalar w hw
      cases hleaf : leaf w with
      | obj o fields => rw [hleaf] at hscalar; cases hscalar
      | null | bool _ | num _ | str _ | arr _ => rfl
    · obtain rfl : o = true := ho
      exact hkeeps.flag
  distinct := by
    refine all_relabel (fun w hw _ => all_of_scalar (hkeeps.scalar w hw) ?_) (fun _ _ _ => rfl)
      (fun o fields g ho => ?_) hv.distinct
    · have hscalar := hkeeps.scalar w hw
      cases hleaf : leaf w with
      | obj o fields => rw [hleaf] at hscalar; cases hscalar
      | null | bool _ | num _ | str _ | arr _ => rfl
    · refine decide_eq_true ?_
      rw [keys_map]
      exact of_decide_eq_true ho
  noProto := noProto_relabel hkeeps.scalar hv.noProto
  normal_eq := by rw [normal_relabel hkeeps.scalar hkeeps.flag hv.noProto, hv.normal_eq]

end

theorem deterministicJson_settled (hv : Settled v) (label : String) :
    deterministicJson label v = .ok v := by
  rw [deterministicJson_eq hv.ordinary, hv.normal_eq]

def isObject : JsValue → Bool
  | .obj _ _ => true
  | .null | .bool _ | .num _ | .str _ | .arr _ => false

theorem isObject_normal (v : JsValue) : isObject (normal v) = isObject v := by
  cases v with
  | obj o fields =>
    rfl
  | arr items =>
    rfl
  | null | bool _ | num _ | str _ => rfl

theorem isObject_relabel {leaf : JsValue → JsValue} {flag : Bool → Bool}
    (hv : isObject v = true) : isObject (relabel leaf flag v) = true := by
  cases v with
  | obj o fields =>
    rfl
  | null | bool _ | num _ | str _ | arr _ => cases hv

variable {label : String}

theorem deterministicJsonObject_ok {w : JsValue} : deterministicJsonObject label v = .ok w ↔
      (all isOrdinary v = true ∧ w = normal v) ∧ isObject v = true := by
  unfold deterministicJsonObject
  rw [bind_eq_ok]
  constructor
  · rintro ⟨u, hu, hw⟩
    obtain ⟨hordinary, rfl⟩ := deterministicJson_ok.mp hu
    rw [← isObject_normal]
    split at hw
    · rename_i o fields hnormal
      rw [hnormal]
      exact ⟨⟨hordinary, (Except.ok.inj hw).symm⟩, rfl⟩
    all_goals cases hw
  · rintro ⟨⟨hordinary, rfl⟩, hobject⟩
    refine ⟨_, deterministicJson_ok.mpr ⟨hordinary, rfl⟩, ?_⟩
    rw [← isObject_normal] at hobject
    split
    · rename_i hnormal
      rw [hnormal]
      rfl
    all_goals simp_all [isObject]

/-! ## Normalized objects -/

theorem mem_definedFields {f : String × JsValue} :
    f ∈ definedFields fields ↔ (f.1, some f.2) ∈ fields := by
  rw [definedFields, mem_filterMap]
  constructor
  · rintro ⟨⟨k, w⟩, hmem, heq⟩
    obtain ⟨u, rfl, heq⟩ := Option.map_eq_some_iff.mp heq
    cases heq
    exact hmem
  · intro hmem
    exact ⟨_, hmem, rfl⟩

theorem tidy_definedFields (hkeys : ("__proto__" :: fields.map Prod.fst).Nodup)
    (h : ∀ f ∈ fields, ∀ v, f.2 = some v → Tidy v) : Tidy (.obj true (definedFields fields)) := by
  obtain ⟨hproto, hnodup⟩ := nodup_cons.mp hkeys
  refine tidy_obj (keys_definedFields hnodup) (fun f hf => ?_) fun f hf => ?_
  · refine decide_eq_false fun hkey => hproto ?_
    rw [← hkey]
    exact mem_map_of_mem (f := Prod.fst) (mem_definedFields.mp hf)
  · exact h _ (mem_definedFields.mp hf) f.2 rfl

theorem mapM_eq_ok {α β : Type} {f : α → Except String β} {o : Option α} {r : Option β} :
    o.mapM f = .ok r ↔ (o = none ∧ r = none) ∨ ∃ a b, o = some a ∧ f a = .ok b ∧ r = some b := by
  cases o with
  | none =>
    constructor
    · intro h
      exact .inl ⟨rfl, (Except.ok.inj h).symm⟩
    · rintro (⟨-, rfl⟩ | ⟨a, b, ha, -⟩)
      · rfl
      · cases ha
  | some a =>
    have hmap : (some a).mapM f = (f a >>= fun b => .ok (some b)) := by
      rw [Option.mapM_some]
      cases f a <;> rfl
    rw [hmap, bind_eq_ok]
    constructor
    · rintro ⟨b, hb, hr⟩
      exact .inr ⟨a, b, rfl, hb, (Except.ok.inj hr).symm⟩
    · rintro (⟨ha, -⟩ | ⟨a', b, ha, hb, rfl⟩)
      · cases ha
      · cases ha
        exact ⟨b, hb, rfl⟩

variable {given value : Option JsValue}

theorem requiredString_ok {name s : String} :
    requiredString name value = .ok s ↔ value = some (.str s) ∧ s ≠ "" := by
  unfold requiredString
  split
  · split
    · rename_i hempty
      constructor
      · intro h
        cases h
      · rintro ⟨hs, hne⟩
        cases hs
        exact absurd hempty hne
    · rename_i hne
      constructor
      · intro h
        cases h
        exact ⟨rfl, hne⟩
      · rintro ⟨hs, -⟩
        cases hs
        rfl
  all_goals simp

theorem normalizeSignature_ok {s : String} : normalizeSignature label value = .ok s ↔
      value = some (.str s) ∧ startsWith s signaturePrefix = true := by
  unfold normalizeSignature
  split
  · split
    · rename_i hstart
      constructor
      · intro h
        cases h
        exact ⟨rfl, hstart⟩
      · rintro ⟨hs, -⟩
        cases hs
        rfl
    · rename_i hstart
      constructor
      · intro h
        cases h
      · rintro ⟨hs, hstart'⟩
        cases hs
        exact absurd hstart' hstart
  all_goals simp

theorem requiredObject_ok {message : String} :
    requiredObject message value = .ok v ↔ value = some v ∧ isObject v = true := by
  unfold requiredObject
  split
  · constructor
    · intro h
      cases h
      exact ⟨rfl, rfl⟩
    · rintro ⟨hv, -⟩
      cases hv
      rfl
  all_goals simp [isObject]
  all_goals
    rintro rfl
    simp

theorem requiredAlgorithm_ok {kind : String} :
    requiredAlgorithm kind value = .ok () ↔ value = some (.str algorithm) := by
  unfold requiredAlgorithm
  split
  · split
    · rename_i hs
      rw [hs]
      simp
    · rename_i hs
      simp [hs]
  · rename_i v hv
    constructor
    · intro h
      cases h
    · intro h
      cases h
      exact absurd rfl (hv _)
  · simp

theorem normalizeJwk_ok {w : JsValue} : normalizeJwk label value = .ok w ↔ ∃ v, value = some v ∧
      (all isOrdinary v = true ∧ w = normal v) ∧ isObject v = true := by
  cases value with
  | none => simp [normalizeJwk]
  | some v =>
    rw [normalizeJwk, deterministicJsonObject_ok]
    simp

section
variable {p : Platform}

/-- A text that `toISOString` writes. -/
def IsIso (p : Platform) (text : String) : Prop :=
  ∃ time, p.parseDate text = some time ∧ p.isoText time = text

variable {iso label : String}

theorem isoDateString_ok {text : String} : isoDateString p label text = .ok iso ↔
      ∃ time, p.parseDate text = some time ∧ iso = p.isoText time := by
  unfold isoDateString
  split
  · rename_i time htime
    rw [htime]
    simp [eq_comm]
  · rename_i htime
    simp [htime]

theorem requiredDate_ok {value : Option JsValue} : requiredDate p label value = .ok iso ↔
      ∃ text time, value = some (.str text) ∧ p.parseDate text = some time ∧
        iso = p.isoText time := by
  unfold requiredDate
  rw [bind_eq_ok]
  simp only [requiredString_ok, isoDateString_ok]
  constructor
  · rintro ⟨text, ⟨hvalue, -⟩, time, htime, hiso⟩
    exact ⟨text, time, hvalue, htime, hiso⟩
  · rintro ⟨text, time, hvalue, htime, hiso⟩
    refine ⟨text, ⟨hvalue, ?_⟩, time, htime, hiso⟩
    rintro rfl
    rw [p.parseDate_empty] at htime
    cases htime

theorem isIso_of_requiredDate {value : Option JsValue}
    (h : requiredDate p label value = .ok iso) : IsIso p iso := by
  obtain ⟨text, time, -, htime, rfl⟩ := requiredDate_ok.mp h
  exact ⟨time, p.parseDate_isoText htime, rfl⟩

theorem requiredDate_iso {text : String} (h : IsIso p text) :
    requiredDate p label (some (.str text)) = .ok text := by
  obtain ⟨time, htime, hiso⟩ := h
  exact requiredDate_ok.mpr ⟨text, time, rfl, htime, hiso.symm⟩

end

theorem DeviceCertificatePayload.keys (c : DeviceCertificatePayload) :
    ("__proto__" :: c.fields.map Prod.fst).Nodup := by
  show (["__proto__", "actorDeviceId", "actorUserId", "certificateId",
    "devicePublicKey", "expiresAt", "issuedAt"] : List String).Nodup
  decide

theorem DeviceCertificate.keys (c : DeviceCertificate) : ("__proto__" :: c.fields.map Prod.fst).Nodup := by
  show (["__proto__", "algorithm", "certificate", "signature"] : List String).Nodup
  decide

theorem SyncMutation.keys (m : SyncMutation) : ("__proto__" :: m.fields.map Prod.fst).Nodup := by
  show (["__proto__", "actorDeviceId", "actorUserId", "clientMutationId", "model",
    "occurredAt", "offlineGrantId", "operation", "policyHash", "attributes", "baseVersion",
    "command", "payload"] : List String).Nodup
  decide

theorem SyncMutation.field? (m : SyncMutation) (name : String) :
    m.toValue.field? name = (valueAt? name m.fields).join :=
  valueAt?_definedFields (nodup_cons.mp m.keys).2 name

theorem SignedSyncMutation.keys (s : SignedSyncMutation) :
    ("__proto__" :: s.fields.map Prod.fst).Nodup := by
  show (["__proto__", "algorithm", "deviceCertificate", "mutation",
    "signature"] : List String).Nodup
  decide

/-- A certificate payload as the normalizer leaves it. -/
structure DeviceCertificatePayload.Normalized (p : Platform) (c : DeviceCertificatePayload) :
    Prop where
  actorDeviceId : c.actorDeviceId ≠ ""
  actorUserId : c.actorUserId ≠ ""
  certificateId : c.certificateId ≠ ""
  devicePublicKey : Settled c.devicePublicKey
  devicePublicKey_object : isObject c.devicePublicKey = true
  expiresAt : IsIso p c.expiresAt
  issuedAt : IsIso p c.issuedAt

/-- As the normalizer leaves it. -/
structure DeviceCertificate.Normalized (p : Platform) (c : DeviceCertificate) : Prop where
  certificate : c.certificate.Normalized p
  signature : startsWith c.signature signaturePrefix = true

/-- As the normalizer leaves it. -/
structure SyncMutation.Normalized (p : Platform) (m : SyncMutation) : Prop where
  actorDeviceId : m.actorDeviceId ≠ ""
  actorUserId : m.actorUserId ≠ ""
  clientMutationId : m.clientMutationId ≠ ""
  model : m.model ≠ ""
  occurredAt : IsIso p m.occurredAt
  offlineGrantId : m.offlineGrantId ≠ ""
  operation : m.operation ≠ ""
  policyHash : m.policyHash ≠ ""
  attributes : ∀ v, m.attributes = some v → Settled v ∧ isObject v = true
  baseVersion : ∀ v, m.baseVersion = some v → Settled v
  command : ∀ s, m.command = some s → s ≠ ""
  payload : ∀ v, m.payload = some v → Settled v ∧ isObject v = true

/-- As the normalizer leaves it. -/
structure SignedSyncMutation.Normalized (p : Platform) (s : SignedSyncMutation) : Prop where
  deviceCertificate : s.deviceCertificate.Normalized p
  mutation : s.mutation.Normalized p
  signature : startsWith s.signature signaturePrefix = true

section
variable {p : Platform}

theorem DeviceCertificatePayload.Normalized.again {c : DeviceCertificatePayload}
    (h : c.Normalized p) : normalizeDeviceCertificatePayload p (some c.toValue) = .ok c := by
  simp only [normalizeDeviceCertificatePayload, bind_eq_ok]
  refine ⟨_, rfl, _, requiredString_ok.mpr ⟨rfl, h.actorDeviceId⟩,
    _, requiredString_ok.mpr ⟨rfl, h.actorUserId⟩, _, requiredString_ok.mpr ⟨rfl, h.certificateId⟩,
    _, normalizeJwk_ok.mpr ⟨_, rfl, ⟨h.devicePublicKey.ordinary, h.devicePublicKey.normal_eq.symm⟩,
      h.devicePublicKey_object⟩, _, requiredDate_iso h.expiresAt, _, requiredDate_iso h.issuedAt, rfl⟩

theorem DeviceCertificate.Normalized.again {c : DeviceCertificate} (h : c.Normalized p) :
    normalizeDeviceCertificate p (some c.toValue) = .ok c := by
  simp only [normalizeDeviceCertificate, bind_eq_ok]
  exact ⟨_, rfl, _, requiredAlgorithm_ok.mpr rfl, _, h.certificate.again,
    _, normalizeSignature_ok.mpr ⟨rfl, h.signature⟩, rfl⟩

theorem mapM_deterministicJsonObject {label : String} {o : Option JsValue}
    (h : ∀ v, o = some v → Settled v ∧ isObject v = true) :
    o.mapM (deterministicJsonObject label) = .ok o := by
  cases o with
  | none => rfl
  | some v =>
    obtain ⟨hv, hobject⟩ := h v rfl
    exact mapM_eq_ok.mpr (.inr ⟨v, v, rfl,
      deterministicJsonObject_ok.mpr ⟨⟨hv.ordinary, hv.normal_eq.symm⟩, hobject⟩, rfl⟩)

theorem SyncMutation.Normalized.again {m : SyncMutation} (h : m.Normalized p) :
    normalizeSyncMutation p (some m.toValue) = .ok m := by
  have hattributes : (m.toValue.field? "attributes").mapM (deterministicJsonObject "attributes") =
      .ok m.attributes := by
    rw [m.field?]
    exact mapM_deterministicJsonObject h.attributes
  have hpayload : (m.toValue.field? "payload").mapM (deterministicJsonObject "payload") =
      .ok m.payload := by
    rw [m.field?]
    exact mapM_deterministicJsonObject h.payload
  have hbase : (m.toValue.field? "baseVersion").mapM (deterministicJson "baseVersion") =
      .ok m.baseVersion := by
    rw [m.field?, show (valueAt? "baseVersion" m.fields).join = m.baseVersion from rfl]
    cases hb : m.baseVersion with
    | none => rfl
    | some v =>
      exact mapM_eq_ok.mpr (.inr ⟨v, v, rfl, deterministicJson_settled (h.baseVersion v hb) _, rfl⟩)
  have hcommand : (m.toValue.field? "command").mapM
      (fun v => requiredString "command" (some v)) = .ok m.command := by
    rw [m.field?, show (valueAt? "command" m.fields).join = m.command.map .str from rfl]
    cases hc : m.command with
    | none => rfl
    | some s =>
      exact mapM_eq_ok.mpr (.inr ⟨.str s, s, rfl, requiredString_ok.mpr ⟨rfl, h.command s hc⟩, rfl⟩)
  simp only [normalizeSyncMutation, bind_eq_ok]
  exact ⟨_, rfl, _, requiredString_ok.mpr ⟨rfl, h.actorDeviceId⟩,
    _, requiredString_ok.mpr ⟨rfl, h.actorUserId⟩,
    _, requiredString_ok.mpr ⟨rfl, h.clientMutationId⟩, _, requiredString_ok.mpr ⟨rfl, h.model⟩,
    _, requiredDate_iso h.occurredAt, _, requiredString_ok.mpr ⟨rfl, h.offlineGrantId⟩,
    _, requiredString_ok.mpr ⟨rfl, h.operation⟩, _, requiredString_ok.mpr ⟨rfl, h.policyHash⟩,
    _, hattributes, _, hbase, _, hcommand, _, hpayload, rfl⟩

theorem SignedSyncMutation.Normalized.again {s : SignedSyncMutation} (h : s.Normalized p) :
    normalizeSignedSyncMutation p s.toValue = .ok s := by
  simp only [normalizeSignedSyncMutation, bind_eq_ok]
  exact ⟨_, rfl, _, requiredAlgorithm_ok.mpr rfl, _, h.deviceCertificate.again, _, h.mutation.again,
    _, normalizeSignature_ok.mpr ⟨rfl, h.signature⟩, rfl⟩

end

/-! ## What the normalizers read -/

/-- A free-form field, and its canonical form. -/
structure ReadsValue (given : Option JsValue) (value : Option JsValue) : Prop where
  eq : value = given.map normal
  ordinary : ∀ v, given = some v → all isOrdinary v = true

theorem readsValue_of_mapM
    (h : given.mapM (deterministicJson label) = .ok value) : ReadsValue given value := by
  rcases mapM_eq_ok.mp h with ⟨rfl, rfl⟩ | ⟨v, w, rfl, hv, rfl⟩
  · exact ⟨rfl, nofun⟩
  · obtain ⟨hordinary, rfl⟩ := deterministicJson_ok.mp hv
    refine ⟨rfl, fun u hu => ?_⟩
    cases hu
    exact hordinary

theorem readsObject_of_mapM (h : given.mapM (deterministicJsonObject label) = .ok value) :
    ReadsValue given value ∧ ∀ v, value = some v → isObject v = true := by
  rcases mapM_eq_ok.mp h with ⟨rfl, rfl⟩ | ⟨v, w, rfl, hv, rfl⟩
  · exact ⟨⟨rfl, nofun⟩, nofun⟩
  · obtain ⟨⟨hordinary, rfl⟩, hobject⟩ := deterministicJsonObject_ok.mp hv
    refine ⟨⟨rfl, fun u hu => ?_⟩, fun u hu => ?_⟩
    · cases hu
      exact hordinary
    · cases hu
      rw [isObject_normal]
      exact hobject

theorem ReadsValue.settled (h : ReadsValue given value)
    (hkeys : ∀ v, given = some v → all hasDistinctKeys v = true)
    (hordinary : ∀ v, value = some v → all isOrdinary v = true) :
    ∀ v, value = some v → Settled v := by
  intro v hv
  obtain ⟨u, hu, rfl⟩ := Option.map_eq_some_iff.mp (h.eq.symm.trans hv)
  exact .normal (hkeys u hu) (hordinary _ hv)

section
variable (p : Platform)

/-- The fields that a mutation takes from a given object, but for the free-form ones. -/
structure ReadsFields (given : JsValue) (m : SyncMutation) : Prop where
  actorDeviceId : given.field? "actorDeviceId" = some (.str m.actorDeviceId)
  actorUserId : given.field? "actorUserId" = some (.str m.actorUserId)
  clientMutationId : given.field? "clientMutationId" = some (.str m.clientMutationId)
  model : given.field? "model" = some (.str m.model)
  occurredAt : ∃ text time, given.field? "occurredAt" = some (.str text) ∧
    p.parseDate text = some time ∧ m.occurredAt = p.isoText time
  offlineGrantId : given.field? "offlineGrantId" = some (.str m.offlineGrantId)
  operation : given.field? "operation" = some (.str m.operation)
  policyHash : given.field? "policyHash" = some (.str m.policyHash)
  command : given.field? "command" = m.command.map .str

/-- The mutation that the normalizer makes of a given object. -/
structure ReadsMutation (given : JsValue) (m : SyncMutation) : Prop extends ReadsFields p given m
    where
  attributes : ReadsValue (given.field? "attributes") m.attributes
  baseVersion : ReadsValue (given.field? "baseVersion") m.baseVersion
  payload : ReadsValue (given.field? "payload") m.payload

end

section
variable {p : Platform}

variable {value : Option JsValue}

theorem normalizeSyncMutation_ok {m : SyncMutation}
    (h : normalizeSyncMutation p value = .ok m) : ∃ given, value = some given ∧
      ReadsMutation p given m ∧ ((∀ v, value = some v → all hasDistinctKeys v = true) →
        all isOrdinary m.toValue = true → m.Normalized p) := by
  simp only [normalizeSyncMutation, bind_eq_ok] at h
  obtain ⟨given, hgiven, _, h1, _, h2, _, h3, _, h4, _, h5, _, h6, _, h7, _, h8, attributes, ha,
    baseVersion, hb, command, hc, payload, hp, h⟩ := h
  cases h
  obtain ⟨rfl, -⟩ := requiredObject_ok.mp hgiven
  obtain ⟨h1, hne1⟩ := requiredString_ok.mp h1
  obtain ⟨h2, hne2⟩ := requiredString_ok.mp h2
  obtain ⟨h3, hne3⟩ := requiredString_ok.mp h3
  obtain ⟨h4, hne4⟩ := requiredString_ok.mp h4
  obtain ⟨h6, hne6⟩ := requiredString_ok.mp h6
  obtain ⟨h7, hne7⟩ := requiredString_ok.mp h7
  obtain ⟨h8, hne8⟩ := requiredString_ok.mp h8
  obtain ⟨hattributes, hattributesObject⟩ := readsObject_of_mapM ha
  have hbaseVersion := readsValue_of_mapM hb
  obtain ⟨hpayload, hpayloadObject⟩ := readsObject_of_mapM hp
  have hcommand : given.field? "command" = command.map .str ∧ ∀ s, command = some s → s ≠ "" := by
    rcases mapM_eq_ok.mp hc with ⟨hnone, rfl⟩ | ⟨v, s, hsome, hs, rfl⟩
    · exact ⟨hnone, nofun⟩
    · obtain ⟨hv, hne⟩ := requiredString_ok.mp hs
      refine ⟨hsome.trans hv, fun t ht => ?_⟩
      cases ht
      exact hne
  refine ⟨given, rfl, ⟨⟨h1, h2, h3, h4, requiredDate_ok.mp h5, h6, h7, h8, hcommand.1⟩,
    hattributes, hbaseVersion, hpayload⟩, fun hkeys hordinary => ?_⟩
  have hdistinct : ∀ name v, given.field? name = some v → all hasDistinctKeys v = true :=
    fun name v hv => all_field (hkeys given rfl) hv
  have hall : ∀ name v, (SyncMutation.toValue _).field? name = some v → all isOrdinary v = true :=
    fun name v hv => all_field hordinary hv
  simp only [SyncMutation.field?] at hall
  have hattr := hattributes.settled (hdistinct _) (hall "attributes")
  have hpay := hpayload.settled (hdistinct _) (hall "payload")
  exact ⟨hne1, hne2, hne3, hne4, isIso_of_requiredDate h5, hne6, hne7, hne8,
    fun v hv => ⟨hattr v hv, hattributesObject v hv⟩,
    hbaseVersion.settled (hdistinct _) (hall "baseVersion"), hcommand.2,
    fun v hv => ⟨hpay v hv, hpayloadObject v hv⟩⟩

section
variable {c : DeviceCertificatePayload} (h : normalizeDeviceCertificatePayload p value = .ok c)
include h

theorem devicePublicKey_of_normalize : ∃ given key, value = some given ∧
      given.field? "devicePublicKey" = some key ∧ c.devicePublicKey = normal key := by
  simp only [normalizeDeviceCertificatePayload, bind_eq_ok] at h
  obtain ⟨given, hgiven, _, h1, _, h2, _, h3, _, h4, _, h5, _, h6, h⟩ := h
  cases h
  obtain ⟨key, hkey, ⟨-, rfl⟩, -⟩ := normalizeJwk_ok.mp h4
  exact ⟨given, key, (requiredObject_ok.mp hgiven).1, hkey, rfl⟩

theorem normalizeDeviceCertificatePayload_ok (hkeys : ∀ v, value = some v → all hasDistinctKeys v = true)
    (hordinary : all isOrdinary c.toValue = true) : c.Normalized p := by
  simp only [normalizeDeviceCertificatePayload, bind_eq_ok] at h
  obtain ⟨given, hgiven, _, h1, _, h2, _, h3, _, h4, _, h5, _, h6, h⟩ := h
  cases h
  obtain ⟨rfl, -⟩ := requiredObject_ok.mp hgiven
  obtain ⟨key, hkey, ⟨-, rfl⟩, hobject⟩ := normalizeJwk_ok.mp h4
  refine ⟨(requiredString_ok.mp h1).2, (requiredString_ok.mp h2).2, (requiredString_ok.mp h3).2,
    .normal (all_field (hkeys given rfl) hkey) ?_, ?_, isIso_of_requiredDate h5,
    isIso_of_requiredDate h6⟩
  · refine @all_field _ _ _ "devicePublicKey" hordinary ?_
    rfl
  · rw [isObject_normal]
    exact hobject

end

theorem normalizeDeviceCertificate_ok {c : DeviceCertificate}
    (h : normalizeDeviceCertificate p value = .ok c)
    (hkeys : ∀ v, value = some v → all hasDistinctKeys v = true)
    (hordinary : all isOrdinary c.toValue = true) : c.Normalized p := by
  simp only [normalizeDeviceCertificate, bind_eq_ok] at h
  obtain ⟨given, hgiven, -, h1, payload, h2, signature, h3, h⟩ := h
  cases h
  obtain ⟨rfl, -⟩ := requiredObject_ok.mp hgiven
  refine ⟨normalizeDeviceCertificatePayload_ok h2 (fun v hv => all_field (hkeys given rfl) hv) ?_,
    (normalizeSignature_ok.mp h3).2⟩
  refine @all_field _ _ _ "certificate" hordinary ?_
  rfl

end

/-! ## Texts -/

def certificateValue (c : DeviceCertificatePayload) : JsValue :=
  .obj true [("algorithm", .str algorithm), ("certificate", normal c.toValue)]

def signedValue (c : DeviceCertificate) (m : SyncMutation) : JsValue :=
  .obj true [("algorithm", .str algorithm), ("deviceCertificate", normal c.toValue),
    ("mutation", normal m.toValue)]

theorem deviceCertificateSignatureValue_ok {c : DeviceCertificatePayload} :
    deviceCertificateSignatureValue c = .ok v ↔
      all isOrdinary c.toValue = true ∧ v = certificateValue c := by
  simp only [deviceCertificateSignatureValue, bind_eq_ok, deterministicJsonObject_ok]
  constructor
  · rintro ⟨_, ⟨⟨hordinary, rfl⟩, -⟩, hv⟩
    exact ⟨hordinary, (Except.ok.inj hv).symm⟩
  · rintro ⟨hordinary, rfl⟩
    exact ⟨_, ⟨⟨hordinary, rfl⟩, rfl⟩, rfl⟩

theorem signedMutationSignatureValue_ok {c : DeviceCertificate} {m : SyncMutation} :
    signedMutationSignatureValue c m = .ok v ↔
      (all isOrdinary c.toValue = true ∧ all isOrdinary m.toValue = true) ∧
        v = signedValue c m := by
  simp only [signedMutationSignatureValue, bind_eq_ok, deterministicJsonObject_ok]
  constructor
  · rintro ⟨_, ⟨⟨hc, rfl⟩, -⟩, _, ⟨⟨hm, rfl⟩, -⟩, hv⟩
    exact ⟨⟨hc, hm⟩, (Except.ok.inj hv).symm⟩
  · rintro ⟨⟨hc, hm⟩, rfl⟩
    exact ⟨_, ⟨⟨hc, rfl⟩, rfl⟩, _, ⟨⟨hm, rfl⟩, rfl⟩, rfl⟩

section
variable {p : Platform}

theorem DeviceCertificatePayload.Normalized.tidy {c : DeviceCertificatePayload}
    (h : c.Normalized p) : Tidy c.toValue := by
  refine tidy_definedFields c.keys ?_
  simp [fields, (settled_str _).toTidy, h.devicePublicKey.toTidy]

theorem DeviceCertificate.Normalized.tidy {c : DeviceCertificate} (h : c.Normalized p) :
    Tidy c.toValue := by
  refine tidy_definedFields c.keys ?_
  simp [fields, (settled_str _).toTidy, h.certificate.tidy]

theorem SyncMutation.Normalized.tidy {m : SyncMutation} (h : m.Normalized p) :
    Tidy m.toValue := by
  refine tidy_definedFields m.keys ?_
  have hattributes : ∀ v, m.attributes = some v → Tidy v := fun v hv => (h.attributes v hv).1.toTidy
  have hbase : ∀ v, m.baseVersion = some v → Tidy v := fun v hv => (h.baseVersion v hv).toTidy
  have hpayload : ∀ v, m.payload = some v → Tidy v := fun v hv => (h.payload v hv).1.toTidy
  simpa [fields, (settled_str _).toTidy] using ⟨hattributes, hbase, hpayload⟩

theorem settled_certificateValue {c : DeviceCertificatePayload} (h : c.Normalized p) :
    Settled (certificateValue c) := by
  have hfields : ∀ f ∈ [("algorithm", JsValue.str algorithm), ("certificate", normal c.toValue)],
      Settled f.2 := by
    simp [settled_str, h.tidy.settled]
  have hproto : ∀ f ∈ [("algorithm", JsValue.str algorithm), ("certificate", normal c.toValue)],
      isProto f = false := by
    simp [isProto]
  have horder : orderEntries [("algorithm", 0), ("certificate", 1)] =
      [("algorithm", 0), ("certificate", 1)] := by
    decide +kernel
  refine ⟨tidy_obj (by simp) hproto fun f hf => (hfields f hf).toTidy, ?_⟩
  have hmap := orderEntries_map (fun n : ℕ => if n = 0 then .str algorithm else normal c.toValue)
    [("algorithm", 0), ("certificate", 1)]
  rw [horder] at hmap
  exact (normal_obj_settled hproto hfields).trans (congrArg (obj true) hmap)

theorem settled_signedValue {c : DeviceCertificate} {m : SyncMutation} (hc : c.Normalized p)
    (hm : m.Normalized p) : Settled (signedValue c m) := by
  have hfields : ∀ f ∈ [("algorithm", JsValue.str algorithm),
      ("deviceCertificate", normal c.toValue), ("mutation", normal m.toValue)], Settled f.2 := by
    simp [settled_str, hc.tidy.settled, hm.tidy.settled]
  have hproto : ∀ f ∈ [("algorithm", JsValue.str algorithm),
      ("deviceCertificate", normal c.toValue), ("mutation", normal m.toValue)],
      isProto f = false := by
    simp [isProto]
  have horder : orderEntries [("algorithm", 0), ("deviceCertificate", 1), ("mutation", 2)] =
      [("algorithm", 0), ("deviceCertificate", 1), ("mutation", 2)] := by
    decide +kernel
  refine ⟨tidy_obj (by simp) hproto fun f hf => (hfields f hf).toTidy, ?_⟩
  have hmap := orderEntries_map (fun n : ℕ => if n = 0 then .str algorithm
    else if n = 1 then normal c.toValue else normal m.toValue)
    [("algorithm", 0), ("deviceCertificate", 1), ("mutation", 2)]
  rw [horder] at hmap
  exact (normal_obj_settled hproto hfields).trans (congrArg (obj true) hmap)

end

theorem stableJsonStringify_settled (hv : Settled v) : stableJsonStringify v = .ok (write v) := by
  rw [stableJsonStringify, deterministicJson_settled hv]
  rfl

/-! ## Relabelled objects -/

theorem keeps_reread : Keeps rereadScalar fun _ => true :=
  ⟨fun _ => rereadScalar_scalar, fun _ => rfl, rfl, fun v _ => write_rereadScalar v⟩

theorem keeps_twin : Keeps twinScalar id :=
  ⟨fun _ => twinScalar_scalar, fun _ => rfl, rfl, fun v _ => write_twinScalar v⟩

def DeviceCertificatePayload.mapValues (g : JsValue → JsValue) (c : DeviceCertificatePayload) :
    DeviceCertificatePayload := { c with devicePublicKey := g c.devicePublicKey }

def DeviceCertificate.mapValues (g : JsValue → JsValue) (c : DeviceCertificate) :
    DeviceCertificate := { c with certificate := c.certificate.mapValues g }

def SyncMutation.mapValues (g : JsValue → JsValue) (m : SyncMutation) : SyncMutation :=
  { m with
    attributes := m.attributes.map g
    baseVersion := m.baseVersion.map g
    payload := m.payload.map g }

section
variable {leaf : JsValue → JsValue} {flag : Bool → Bool} {p : Platform}

section
variable (hkeeps : Keeps leaf flag)
include hkeeps

theorem relabel_definedFields (fields : List (String × Option JsValue)) :
    relabel leaf flag (.obj true (definedFields fields)) =
      .obj true (definedFields (fields.map fun f => (f.1, f.2.map (relabel leaf flag)))) := by
  rw [relabel_obj, hkeeps.flag, definedFields, definedFields, map_filterMap,
    filterMap_map]
  refine congrArg (obj true) (congrFun (congrArg List.filterMap (funext fun f => ?_)) fields)
  obtain ⟨k, v⟩ := f
  cases v <;> rfl

theorem relabel_str (s : String) :
    relabel leaf flag (.str s) = .str s := hkeeps.str s

theorem DeviceCertificatePayload.relabel_toValue (c : DeviceCertificatePayload) :
    relabel leaf flag c.toValue = (c.mapValues (relabel leaf flag)).toValue := by
  rw [toValue, relabel_definedFields hkeeps]
  simp [toValue, fields, mapValues, relabel_str hkeeps]

theorem DeviceCertificate.relabel_toValue (c : DeviceCertificate) :
    relabel leaf flag c.toValue = (c.mapValues (relabel leaf flag)).toValue := by
  rw [toValue, relabel_definedFields hkeeps]
  simp [toValue, fields, mapValues, relabel_str hkeeps,
    DeviceCertificatePayload.relabel_toValue hkeeps]

theorem SyncMutation.relabel_toValue (m : SyncMutation) :
    relabel leaf flag m.toValue = (m.mapValues (relabel leaf flag)).toValue := by
  have hcommand : (m.command.map JsValue.str).map (relabel leaf flag) = m.command.map .str := by
    cases m.command with
    | none => rfl
    | some s => exact congrArg some (relabel_str hkeeps s)
  rw [toValue, relabel_definedFields hkeeps]
  simp only [toValue, fields, mapValues, relabel_str hkeeps, map_cons, map_nil,
    Option.map_some, hcommand]

theorem DeviceCertificatePayload.Normalized.mapValues {c : DeviceCertificatePayload} (h : c.Normalized p) :
    (c.mapValues (relabel leaf flag)).Normalized p :=
  { h with
    devicePublicKey := h.devicePublicKey.relabel hkeeps
    devicePublicKey_object := isObject_relabel h.devicePublicKey_object }

theorem DeviceCertificate.Normalized.mapValues {c : DeviceCertificate} (h : c.Normalized p) :
    (c.mapValues (relabel leaf flag)).Normalized p :=
  ⟨h.certificate.mapValues hkeeps, h.signature⟩

theorem SyncMutation.Normalized.mapValues {m : SyncMutation}
    (h : m.Normalized p) : (m.mapValues (relabel leaf flag)).Normalized p := by
  have hobject : ∀ {o : Option JsValue}, (∀ v, o = some v → Settled v ∧ isObject v = true) →
      ∀ v, o.map (relabel leaf flag) = some v → Settled v ∧ isObject v = true := by
    intro o ho v hv
    obtain ⟨u, hu, rfl⟩ := Option.map_eq_some_iff.mp hv
    exact ⟨(ho u hu).1.relabel hkeeps, isObject_relabel (ho u hu).2⟩
  refine { h with attributes := hobject h.attributes, payload := hobject h.payload,
                  baseVersion := fun v hv => ?_ }
  obtain ⟨u, hu, rfl⟩ := Option.map_eq_some_iff.mp hv
  exact (h.baseVersion u hu).relabel hkeeps

theorem write_normal_relabel {v : JsValue} (hv : Tidy v) :
    write (normal (relabel leaf flag v)) = write (normal v) := by
  rw [normal_relabel hkeeps.scalar hkeeps.flag hv.noProto, write_relabel hkeeps.write]

theorem write_certificateValue {c : DeviceCertificatePayload}
    (hc : c.Normalized p) : write (certificateValue (c.mapValues (relabel leaf flag))) =
      write (certificateValue c) := by
  have htext := write_normal_relabel hkeeps hc.tidy
  rw [c.relabel_toValue hkeeps] at htext
  simp only [certificateValue, write, writeFields, htext]

theorem write_signedValue_mutation (c : DeviceCertificate)
    {m : SyncMutation} (hm : m.Normalized p) :
    write (signedValue c (m.mapValues (relabel leaf flag))) = write (signedValue c m) := by
  have htext := write_normal_relabel hkeeps hm.tidy
  rw [m.relabel_toValue hkeeps] at htext
  simp only [signedValue, write, writeFields, htext]

theorem write_signedValue_certificate {c : DeviceCertificate}
    (hc : c.Normalized p) (m : SyncMutation) :
    write (signedValue (c.mapValues (relabel leaf flag)) m) = write (signedValue c m) := by
  have htext := write_normal_relabel hkeeps hc.tidy
  rw [c.relabel_toValue hkeeps] at htext
  simp only [signedValue, write, writeFields, htext]

end

end

end Velocious.DeviceIdentity
