/-
  The transport encoding of frontend models (src/frontend-models/transport-serialization.js).

  What JSON has no form for is sent as a marker, a plain object with a `__velocious_type`. Nothing
  tells a marker from an object of the same shape, so such an object does not come back.

  * `serialize` is the serializer without a time zone, for values without model instances.
  * A model class that is registered, and its instances, are parameters of the deserializer; so is
    what `Date` reads from a text that is not in the ISO format.
-/
import Velocious.Foundation.IsoDate
import Velocious.Foundation.JsonText

namespace Velocious.Transport

open Foundation Foundation.JsValue List

/-- A value of a program; `other` is what only the deserializer makes. -/
inductive Value (ω : Type) where
  | undefined
  | null
  | bool (b : Bool)
  | num (x : NumberValue)
  | bigint (n : ℤ)
  | date (t : TimeValue)
  | str (s : String)
  | arr (items : List (Value ω))
  | obj (fields : List (String × Value ω))
  | other (w : ω)

/-- An invalid date, or a frontend model. -/
inductive Hydrated (μ : Type) where
  | invalidDate
  | model (m : μ)

/-- What the deserializer runs with. -/
structure Runtime (μ : Type) where
  parseOtherDate : String → Option TimeValue
  /-- `resolveFrontendModelClass`, and the class's `instantiateFromResponse` -/
  instantiateFromResponse : String → Option (Value (Hydrated μ) → Except String μ)
  ownProperties : μ → List (String × Value (Hydrated μ))

/-! ## Markers -/

def typeKey : String := "__velocious_type"

def preloadedRelationshipsKey : String := "__preloadedRelationships"

def isPlainObject : JsValue → Bool
  | .obj _ _ => true
  | .null | .bool _ | .num _ | .str _ | .arr _ => false

def stringAt? (key : String) (fields : List (String × JsValue)) : Option String :=
  match valueAt? key fields with
  | some (.str s) => some s
  | some .null | some (.bool _) | some (.num _) | some (.arr _) | some (.obj _ _) | none => none

def isUndefinedMarker (fields : List (String × JsValue)) : Bool :=
  fields.length = 1 && stringAt? typeKey fields = some "undefined"

def isStringValueMarker (fields : List (String × JsValue)) (markerType : String)
    (valueMatches : String → Bool) : Bool :=
  fields.length = 2 && stringAt? typeKey fields = some markerType &&
    (stringAt? "value" fields).elim false valueMatches

def isDateMarker (fields : List (String × JsValue)) : Bool :=
  isStringValueMarker fields "date" fun _ => true

/-- Whether a text begins with a minus, and what follows it. -/
def splitSign : List Char → Bool × List Char
  | '-' :: cs => (true, cs)
  | cs => (false, cs)

/-- `/^-?\d+$/` -/
def isBigIntText (s : String) : Bool :=
  (splitSign s.toList).2 ≠ [] && (splitSign s.toList).2.all Char.isDigit

def isBigIntMarker (fields : List (String × JsValue)) : Bool :=
  isStringValueMarker fields "bigint" isBigIntText

def isNonFiniteNumberMarker (fields : List (String × JsValue)) : Bool :=
  isStringValueMarker fields "number" fun s => s = "NaN" || s = "Infinity" || s = "-Infinity"

def isFrontendModelMarker (fields : List (String × JsValue)) : Bool :=
  stringAt? typeKey fields = some "frontend_model" &&
    (stringAt? "modelName" fields).elim false (· ≠ "") &&
    (valueAt? "attributes" fields).elim false isPlainObject &&
    (valueAt? "preloadedRelationships" fields).elim true isPlainObject

def isMarker (fields : List (String × JsValue)) : Bool :=
  isUndefinedMarker fields || isDateMarker fields || isBigIntMarker fields ||
    isNonFiniteNumberMarker fields || isFrontendModelMarker fields

/-- `toString` of a bigint. -/
def bigIntText (n : ℤ) : List Char :=
  if n < 0 then '-' :: Nat.toDigits 10 n.natAbs else Nat.toDigits 10 n.natAbs

/-- `BigInt` of decimal digits. -/
def readBigInt (s : String) : ℤ :=
  let n : ℕ := Nat.ofDigitChars 10 (splitSign s.toList).2 0
  if (splitSign s.toList).1 then -n else n

def typedMarker (markerType value : String) : JsValue :=
  .obj true [(typeKey, .str markerType), ("value", .str value)]

mutual

/-- `serializeFrontendModelTransportValue`. -/
def serialize : Value Empty → JsValue
  | .undefined => .obj true [(typeKey, .str "undefined")]
  | .date t => typedMarker "date" (.ofList (isoText t))
  | .bigint n => typedMarker "bigint" (.ofList (bigIntText n))
  | .num .nan => typedMarker "number" "NaN"
  | .num (.infinity false) => typedMarker "number" "Infinity"
  | .num (.infinity true) => typedMarker "number" "-Infinity"
  | .num (.finite text) => .num (.finite text)
  | .num .negativeZero => .num .negativeZero
  | .arr items => .arr (serializeItems items)
  | .obj fields => .obj true (serializeFields fields)
  | .null => .null
  | .bool b => .bool b
  | .str s => .str s

def serializeItems : List (Value Empty) → List JsValue
  | [] => []
  | v :: items => serialize v :: serializeItems items

def serializeFields : List (String × Value Empty) → List (String × JsValue)
  | [] => []
  | (key, v) :: fields => (key, serialize v) :: serializeFields fields

end

/-! ## Deserialization -/

section
variable {μ : Type}

/-- `Object.keys(value).length`. -/
def keyCount (rt : Runtime μ) : Value (Hydrated μ) → Except String ℕ
  | .undefined | .null => .error "Cannot convert undefined or null to object"
  | .obj fields => .ok fields.length
  | .arr items => .ok items.length
  | .str s => .ok (jsLength s)
  | .other (.model m) => .ok (rt.ownProperties m).length
  | .bool _ | .num _ | .bigint _ | .date _ | .other .invalidDate => .ok 0

/-- The fields of `{...value}`, for a decoded object. -/
def spread (rt : Runtime μ) : Value (Hydrated μ) → List (String × Value (Hydrated μ))
  | .obj fields => fields
  | .other (.model m) => rt.ownProperties m
  | .undefined | .null | .bool _ | .num _ | .bigint _ | .date _ | .str _ | .arr _
  | .other .invalidDate => []

/-- `{...attributes, [PRELOADED_RELATIONSHIPS_KEY]: preloadedRelationships}`. -/
def withPreloaded (rt : Runtime μ) (attributes preloadedRelationships : Value (Hydrated μ)) :
    Value (Hydrated μ) :=
  let fields := spread rt attributes
  if fields.any (·.1 = preloadedRelationshipsKey) then
    .obj (fields.map fun f =>
      if f.1 = preloadedRelationshipsKey then (f.1, preloadedRelationships) else f)
  else .obj (fields ++ [(preloadedRelationshipsKey, preloadedRelationships)])

/-- `deserializeFrontendModelMarker`, for a marker's decoded fields. -/
def deserializeFrontendModelMarker (rt : Runtime μ) (modelName : String)
    (attributes : Except String (Value (Hydrated μ)))
    (preloaded : Option (Except String (Value (Hydrated μ)))) :
    Except String (Value (Hydrated μ)) := do
  let attributes ← attributes
  let preloadedRelationships ← preloaded.getD (.ok (.obj []))
  let count ← keyCount rt preloadedRelationships
  let response :=
    if count < 1 then attributes else withPreloaded rt attributes preloadedRelationships
  match rt.instantiateFromResponse modelName with
  | none => return response
  | some instantiate => return .other (.model (← instantiate response))

def nonFiniteNumber (s : String) : NumberValue :=
  if s = "NaN" then .nan else if s = "Infinity" then .infinity false else .infinity true

def readDate (rt : Runtime μ) (text : String) : Value (Hydrated μ) :=
  match (parseIso text.toList).or (rt.parseOtherDate text) with
  | some t => .date t
  | none => .other .invalidDate

def deserializeObject (rt : Runtime μ) (fields : List (String × JsValue))
    (decoded : List (String × Except String (Value (Hydrated μ)))) :
    Except String (Value (Hydrated μ)) :=
  let value := (stringAt? "value" fields).getD ""
  if isUndefinedMarker fields then .ok .undefined
  else if isDateMarker fields then .ok (readDate rt value)
  else if isBigIntMarker fields then .ok (.bigint (readBigInt value))
  else if isNonFiniteNumberMarker fields then .ok (.num (nonFiniteNumber value))
  else if isFrontendModelMarker fields then
    deserializeFrontendModelMarker rt ((stringAt? "modelName" fields).getD "")
      ((valueAt? "attributes" decoded).getD (.ok .undefined))
      (valueAt? "preloadedRelationships" decoded)
  else do
    let fields ← decoded.mapM fun f => do return (f.1, ← f.2)
    return .obj fields

mutual

/-- `deserializeFrontendModelTransportValue`. -/
def deserialize (rt : Runtime μ) : JsValue → Except String (Value (Hydrated μ))
  | .null => .ok .null
  | .bool b => .ok (.bool b)
  | .num x => .ok (.num x)
  | .str s => .ok (.str s)
  | .arr items => do
    let items ← deserializeItems rt items
    return .arr items
  | .obj _ fields => deserializeObject rt fields (deserializeFields rt fields)

def deserializeItems (rt : Runtime μ) : List JsValue → Except String (List (Value (Hydrated μ)))
  | [] => .ok []
  | v :: items => do
    let v ← deserialize rt v
    let items ← deserializeItems rt items
    return v :: items

def deserializeFields (rt : Runtime μ) :
    List (String × JsValue) → List (String × Except String (Value (Hydrated μ)))
  | [] => []
  | (key, v) :: fields => (key, deserialize rt v) :: deserializeFields rt fields

end

/-! ## Values that come back -/

def readBackNumber : NumberValue → NumberValue
  | .negativeZero => .finite zeroText
  | .finite text => .finite text
  | .nan => .nan
  | .infinity negative => .infinity negative

mutual

def received : Value Empty → Value (Hydrated μ)
  | .undefined => .undefined
  | .null => .null
  | .bool b => .bool b
  | .num x => .num (readBackNumber x)
  | .bigint n => .bigint n
  | .date t => .date t
  | .str s => .str s
  | .arr items => .arr (receivedItems items)
  | .obj fields => .obj (receivedFields fields)

def receivedItems : List (Value Empty) → List (Value (Hydrated μ))
  | [] => []
  | v :: items => received v :: receivedItems items

def receivedFields : List (String × Value Empty) → List (String × Value (Hydrated μ))
  | [] => []
  | (key, v) :: fields => (key, received v) :: receivedFields fields

end

end

mutual

/-- No object inside the value is serialized to the fields of a marker. -/
def noMarkers : Value Empty → Bool
  | .arr items => noMarkersItems items
  | .obj fields => !isMarker (serializeFields fields) && noMarkersFields fields
  | .undefined | .null | .bool _ | .num _ | .bigint _ | .date _ | .str _ => true

def noMarkersItems : List (Value Empty) → Bool
  | [] => true
  | v :: items => noMarkers v && noMarkersItems items

def noMarkersFields : List (String × Value Empty) → Bool
  | [] => true
  | (_, v) :: fields => noMarkers v && noMarkersFields fields

end

/-! ## Recursion over items and fields -/

theorem Value.induct {ω : Type} {P : Value ω → Prop} (undefined : P .undefined) (null : P .null)
    (bool : ∀ b, P (.bool b)) (num : ∀ x, P (.num x)) (bigint : ∀ n, P (.bigint n))
    (date : ∀ t, P (.date t)) (str : ∀ s, P (.str s)) (other : ∀ w, P (.other w))
    (arr : ∀ items, (∀ v ∈ items, P v) → P (.arr items))
    (obj : ∀ fields, (∀ f ∈ fields, P f.2) → P (.obj fields)) (v : Value ω) : P v :=
  Value.rec (motive_1 := P) (motive_2 := fun items => ∀ v ∈ items, P v)
    (motive_3 := fun fields => ∀ f ∈ fields, P f.2) (motive_4 := fun f => P f.2)
    undefined null bool num bigint date str (fun items h => arr items h) (fun fields h => obj fields h)
    other nofun (fun _ _ hv hitems => forall_mem_cons.mpr ⟨hv, hitems⟩)
    nofun (fun _ _ hf hfields => forall_mem_cons.mpr ⟨hf, hfields⟩)
    (fun _ _ h => h) v

theorem serializeItems_eq (items : List (Value Empty)) : serializeItems items = items.map serialize := by
  induction items with
  | nil => rfl
  | cons v items ih => rw [serializeItems, ih, map_cons]

theorem serializeFields_eq (fields : List (String × Value Empty)) :
    serializeFields fields = fields.map fun f => (f.1, serialize f.2) := by
  induction fields with
  | nil => rfl
  | cons f fields ih => rw [serializeFields, ih, map_cons]

theorem noMarkers_arr {items : List (Value Empty)} :
    noMarkers (.arr items) = true ↔ ∀ v ∈ items, noMarkers v = true := by
  rw [noMarkers]
  induction items with
  | nil => simp [noMarkersItems]
  | cons v items ih => simp [noMarkersItems, ih]

theorem noMarkers_obj {fields : List (String × Value Empty)} :
    noMarkers (.obj fields) = true ↔
      isMarker (serializeFields fields) = false ∧ ∀ f ∈ fields, noMarkers f.2 = true := by
  have hfields : ∀ fields : List (String × Value Empty),
      noMarkersFields fields = true ↔ ∀ f ∈ fields, noMarkers f.2 = true := by
    intro fields
    induction fields with
    | nil => simp [noMarkersFields]
    | cons f fields ih => simp [noMarkersFields, ih]
  rw [noMarkers, Bool.and_eq_true, hfields, Bool.not_eq_true']

section
variable {μ : Type} {rt : Runtime μ}

theorem receivedItems_eq (items : List (Value Empty)) :
    receivedItems (μ := μ) items = items.map received := by
  induction items with
  | nil => rfl
  | cons v items ih => rw [receivedItems, ih, map_cons]

theorem receivedFields_eq (fields : List (String × Value Empty)) :
    receivedFields (μ := μ) fields = fields.map fun f => (f.1, received f.2) := by
  induction fields with
  | nil => rfl
  | cons f fields ih => rw [receivedFields, ih, map_cons]

theorem deserializeFields_eq (fields : List (String × JsValue)) :
    deserializeFields rt fields = fields.map fun f => (f.1, deserialize rt f.2) := by
  induction fields with
  | nil => rfl
  | cons f fields ih => rw [deserializeFields, ih, map_cons]

theorem deserializeItems_ok {α : Type} {items : List α} {g : α → JsValue}
    {h : α → Value (Hydrated μ)} (hg : ∀ a ∈ items, deserialize rt (g a) = .ok (h a)) :
    deserializeItems rt (items.map g) = .ok (items.map h) := by
  induction items with
  | nil => rfl
  | cons a items ih =>
    rw [map_cons, deserializeItems, hg a mem_cons_self,
      ih fun b hb => hg b (mem_cons_of_mem a hb)]
    rfl

theorem mapM_fields_ok {α : Type} {fields : List (String × α)}
    {g : α → Except String (Value (Hydrated μ))} {h : α → Value (Hydrated μ)}
    (hg : ∀ f ∈ fields, g f.2 = .ok (h f.2)) :
    ((fields.map fun f => (f.1, g f.2)).mapM fun f => do return (f.1, ← f.2)) =
      (.ok (fields.map fun f => (f.1, h f.2)) :
        Except String (List (String × Value (Hydrated μ)))) := by
  induction fields with
  | nil => rfl
  | cons f fields ih =>
    rw [map_cons, mapM_cons, ih fun f' hf' => hg f' (mem_cons_of_mem f hf')]
    simp only [hg f mem_cons_self]
    rfl

end

theorem viaJson_str {v : JsValue} {s : String} : viaJson v = .str s ↔ v = .str s := by
  cases v with
  | arr items => simp [viaJson, relabel_arr]
  | obj o fields => simp [viaJson, relabel_obj]
  | num x =>
    constructor
    · intro h
      cases x <;> cases h
    · intro h
      cases h
  | null | bool b =>
    constructor
    · intro h
      cases h
    · intro h
      cases h
  | str t => exact Iff.rfl

theorem isPlainObject_viaJson (v : JsValue) : isPlainObject (viaJson v) = isPlainObject v := by
  cases v with
  | arr items => rfl
  | obj o fields => rfl
  | num x => cases x <;> rfl
  | null | bool b | str t => rfl

theorem stringAt?_eq_some {key s : String} {fields : List (String × JsValue)} :
    stringAt? key fields = some s ↔ valueAt? key fields = some (.str s) := by
  unfold stringAt?
  split
  · rename_i t ht
    rw [ht]
    simp
  all_goals
    rename_i hnot
    rw [hnot]
    simp

theorem stringAt?_viaJson (key : String) (fields : List (String × JsValue)) :
    stringAt? key (fields.map fun f => (f.1, viaJson f.2)) = stringAt? key fields := by
  refine Option.ext fun s => ?_
  rw [stringAt?_eq_some, stringAt?_eq_some, valueAt?_map, Option.map_eq_some_iff]
  constructor
  · rintro ⟨v, hv, hs⟩
    rw [hv, viaJson_str.mp hs]
  · intro h
    exact ⟨_, h, rfl⟩

theorem isMarker_viaJson (fields : List (String × JsValue)) :
    isMarker (fields.map fun f => (f.1, viaJson f.2)) = isMarker fields := by
  have hobject : ∀ v : Option JsValue, (v.map viaJson).elim false isPlainObject =
      v.elim false isPlainObject := by
    rintro (_ | v)
    · rfl
    · exact isPlainObject_viaJson v
  have hobject' : ∀ v : Option JsValue, (v.map viaJson).elim true isPlainObject =
      v.elim true isPlainObject := by
    rintro (_ | v)
    · rfl
    · exact isPlainObject_viaJson v
  simp only [isMarker, isUndefinedMarker, isDateMarker, isBigIntMarker, isNonFiniteNumberMarker,
    isFrontendModelMarker, isStringValueMarker, stringAt?_viaJson, length_map, valueAt?_map,
    hobject, hobject']

/-! ## The round trip -/

theorem splitSign_bigIntText (n : ℤ) :
    splitSign (bigIntText n) = (decide (n < 0), Nat.toDigits 10 n.natAbs) := by
  unfold bigIntText
  split
  · rename_i hneg
    rw [decide_eq_true hneg]
    rfl
  · rename_i hneg
    rw [decide_eq_false hneg]
    -- the first digit is no minus
    unfold splitSign
    split
    · rename_i cs hcs
      have hdigit : '-'.isDigit = true :=
        Nat.isDigit_of_mem_toDigits (b := 10) (n := n.natAbs) (by decide) (by decide)
          (hcs ▸ mem_cons_self)
      exact absurd hdigit (by decide)
    · rfl

theorem isBigIntText_bigIntText (n : ℤ) : isBigIntText (.ofList (bigIntText n)) = true := by
  rw [isBigIntText, String.toList_ofList, splitSign_bigIntText, Bool.and_eq_true]
  exact ⟨decide_eq_true Nat.toDigits_ne_nil, all_eq_true.mpr fun c hc =>
    Nat.isDigit_of_mem_toDigits (by decide) (by decide) hc⟩

theorem readBigInt_bigIntText (n : ℤ) : readBigInt (.ofList (bigIntText n)) = n := by
  rw [readBigInt, String.toList_ofList, splitSign_bigIntText, Nat.ofDigitChars_ten_toDigits]
  by_cases hneg : n < 0
  · simp only [hneg, decide_true, if_true]
    omega
  · simp only [hneg, decide_false, Bool.false_eq_true, if_false]
    omega

section
variable {μ : Type} {rt : Runtime μ}

theorem deserialize_arr (items : List JsValue) {decoded : List (Value (Hydrated μ))}
    (h : deserializeItems rt items = .ok decoded) : deserialize rt (.arr items) = .ok (.arr decoded) := by
  rw [deserialize, h]
  rfl

theorem deserializeObject_plain {fields : List (String × JsValue)}
    {decoded : List (String × Except String (Value (Hydrated μ)))}
    {values : List (String × Value (Hydrated μ))} (h : isMarker fields = false)
    (hdecoded : (decoded.mapM fun f => do return (f.1, ← f.2)) = .ok values) :
    deserializeObject rt fields decoded = .ok (.obj values) := by
  simp only [isMarker, Bool.or_eq_false_iff] at h
  obtain ⟨⟨⟨⟨h1, h2⟩, h3⟩, h4⟩, h5⟩ := h
  rw [deserializeObject, h1, h2, h3, h4, h5, hdecoded]
  rfl

theorem deserialize_date (t : TimeValue) :
    deserialize rt (viaJson (typedMarker "date" (.ofList (isoText t)))) = .ok (.date t) := by
  have hread : readDate rt (.ofList (isoText t)) = .date t := by
    rw [readDate, String.toList_ofList, parseIso_isoText]
    rfl
  exact congrArg Except.ok hread

theorem deserialize_bigint (n : ℤ) :
    deserialize rt (viaJson (typedMarker "bigint" (.ofList (bigIntText n)))) = .ok (.bigint n) := by
  have hmarker : isBigIntMarker [(typeKey, .str "bigint"), ("value", .str (.ofList (bigIntText n)))] =
      true := isBigIntText_bigIntText n
  have hread : Value.bigint (ω := Hydrated μ) (readBigInt (.ofList (bigIntText n))) = .bigint n :=
    congrArg _ (readBigInt_bigIntText n)
  show deserializeObject rt [(typeKey, .str "bigint"), ("value", .str (.ofList (bigIntText n)))] _ = _
  rw [deserializeObject, hmarker]
  exact congrArg Except.ok hread

/-- **A value without an object of the shape of a marker comes back as it was sent.** -/
theorem round_trip (v : Value Empty) (h : noMarkers v = true) :
    deserialize rt (viaJson (serialize v)) = .ok (received v) := by
  induction v using Value.induct with
  | undefined => rfl
  | null => rfl
  | bool b => rfl
  | str s => rfl
  | num x =>
    cases x with
    | finite text => rfl
    | negativeZero => rfl
    | nan => rfl
    | infinity negative => cases negative <;> rfl
  | bigint n => exact deserialize_bigint n
  | date t => exact deserialize_date t
  | other w => exact w.elim
  | arr items ih =>
    have hitems := noMarkers_arr.mp h
    rw [serialize, serializeItems_eq, viaJson, relabel_arr, received, receivedItems_eq, map_map]
    exact deserialize_arr _ (deserializeItems_ok fun v hv => ih v hv (hitems v hv))
  | obj fields ih =>
    obtain ⟨hmarker, hfields⟩ := noMarkers_obj.mp h
    have hserialize : viaJson (serialize (.obj fields)) =
        .obj true ((serializeFields fields).map fun f => (f.1, viaJson f.2)) := by
      rw [serialize, viaJson, relabel_obj]
      rfl
    rw [hserialize, deserialize, received, receivedFields_eq, deserializeFields_eq,
      serializeFields_eq, map_map, map_map]
    rw [← isMarker_viaJson, serializeFields_eq, map_map] at hmarker
    exact deserializeObject_plain hmarker (mapM_fields_ok
      (g := fun v => deserialize rt (viaJson (serialize v))) fun f hf => ih f hf (hfields f hf))

end

/-- No model class is registered, and only ISO dates are read. -/
def bareRuntime : Runtime Empty := ⟨fun _ => none, fun _ => none, fun m => nomatch m⟩

/-- An object with special values in it, and with keys that only look like a marker's. -/
def sampleValue : Value Empty :=
  .obj [("value", .arr [.undefined, .date ⟨0, by decide⟩, .bigint (-12), .num .nan]),
    ("inner", .obj [("__velocious_type", .str "date"), ("value", .undefined)])]

theorem round_trip_sample : noMarkers sampleValue = true ∧
    deserialize bareRuntime (viaJson (serialize sampleValue)) = .ok (received sampleValue) :=
  ⟨by decide +kernel, round_trip sampleValue (by decide +kernel)⟩

/-- User data of the shape of an undefined marker comes back as `undefined`. -/
theorem marker_lost : ¬ ∀ (μ : Type) (rt : Runtime μ) (v : Value Empty),
    deserialize rt (viaJson (serialize v)) = .ok (received v) := by
  intro h
  have hlost := h Empty bareRuntime (.obj [("__velocious_type", .str "undefined")])
  cases hlost

end Velocious.Transport
