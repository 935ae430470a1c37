/-
  The codec of the shared transaction broker (src/testing/shared-transaction-codec.js).

  * Values hold no `Error`; the `other` ones are buffers. The fields of an object are distinct, and
    in the order in which `Object.entries` lists them.
  * Assigning to the key `__proto__` of an object literal sets its prototype and stores no field.
  * `none` is what the decoder throws on, or reads as a value of another kind.
-/
import Velocious.Foundation.Base64
import Velocious.Foundation.JsonParse
import Velocious.FrontendModels.TransportSerialization

namespace Velocious.SharedTransactionCodec

open Foundation Foundation.JsValue List Transport

abbrev BrokerValue := Value (List UInt8)

def tag : String := "$velociousSharedTransaction"

def tagged (name : String) (value : Option JsValue) : JsValue :=
  .obj true ((tag, .str name) :: (value.map fun v => ("value", v)).toList)

/-- `value.toString("base64")` -/
def bufferText (bytes : List UInt8) : String := .ofList (btoa (bytes.map UInt8.toNat))

mutual

def encodeBrokerValue : BrokerValue → JsValue
  | .undefined => tagged "undefined" none
  | .null => tagged "null" none
  | .bigint n => tagged "bigint" (some (.str (.ofList (bigIntText n))))
  | .num .nan => tagged "nan" none
  | .num (.infinity false) => tagged "infinity" none
  | .num (.infinity true) => tagged "negative-infinity" none
  | .num (.finite text) => tagged "number" (some (.num (.finite text)))
  | .num .negativeZero => tagged "number" (some (.num .negativeZero))
  | .str s => tagged "string" (some (.str s))
  | .bool b => tagged "boolean" (some (.bool b))
  | .date t => tagged "date" (some (.str (.ofList (isoText t))))
  | .other bytes => tagged "buffer" (some (.str (bufferText bytes)))
  | .arr items => tagged "array" (some (.arr (encodeItems items)))
  | .obj fields => tagged "object" (some (.obj true (encodeEntries fields)))

def encodeItems : List BrokerValue → List JsValue
  | [] => []
  | v :: items => encodeBrokerValue v :: encodeItems items

def encodeEntries : List (String × BrokerValue) → List (String × JsValue)
  | [] => []
  | (key, v) :: fields =>
    if key = "__proto__" then encodeEntries fields
    else (key, encodeBrokerValue v) :: encodeEntries fields

end

/-! ## Decoding -/

/-- What stands under the key `value`, with what it holds decoded. -/
inductive Content where
  | scalar (v : JsValue)
  | items (decoded : List (Option BrokerValue))
  | properties (decoded : List (String × Option BrokerValue))

def plainScalar : JsValue → Option BrokerValue
  | .null => some .null
  | .bool b => some (.bool b)
  | .num x => some (.num x)
  | .str s => some (.str s)
  | .arr _ | .obj _ _ => none

def decodeProperties (decoded : List (String × Option BrokerValue)) : Option BrokerValue := do
  let properties ← decoded.mapM fun f => do return (f.1, ← f.2)
  return .obj (properties.filter fun f => f.1 ≠ "__proto__")

/-- The cases of `decodeBrokerValue`. -/
def decodeTagged (name : String) (value : Option Content) : Option BrokerValue :=
  match name, value with
  | "undefined", _ => some .undefined
  | "null", _ => some .null
  | "nan", _ => some (.num .nan)
  | "infinity", _ => some (.num (.infinity false))
  | "negative-infinity", _ => some (.num (.infinity true))
  | "bigint", some (.scalar (.str s)) =>
    if isBigIntText s then some (.bigint (readBigInt s)) else none
  | "number", some (.scalar v) | "string", some (.scalar v) | "boolean", some (.scalar v) =>
    plainScalar v
  | "date", some (.scalar (.str s)) => (parseIso s.toList).map .date
  | "buffer", some (.scalar (.str s)) =>
    (atob s.toList).map fun bytes => .other (bytes.map UInt8.ofNat)
  | "array", some (.items decoded) => (decoded.mapM id).map .arr
  | "object", some (.properties decoded) => decodeProperties decoded
  | _, _ => none

mutual

def decodeBrokerValue : JsValue → Option BrokerValue
  | .obj _ fields => (stringAt? tag fields).bind fun name =>
    decodeTagged name (valueAt? "value" (fieldContents fields))
  | .null | .bool _ | .num _ | .str _ | .arr _ => none

def content : JsValue → Content
  | .arr items => .items (decodeItems items)
  | .obj _ fields => .properties (decodeFields fields)
  | .null => .scalar .null
  | .bool b => .scalar (.bool b)
  | .num x => .scalar (.num x)
  | .str s => .scalar (.str s)

def fieldContents : List (String × JsValue) → List (String × Content)
  | [] => []
  | (key, v) :: fields => (key, content v) :: fieldContents fields

def decodeItems : List JsValue → List (Option BrokerValue)
  | [] => []
  | v :: items => decodeBrokerValue v :: decodeItems items

def decodeFields : List (String × JsValue) → List (String × Option BrokerValue)
  | [] => []
  | (key, v) :: fields => (key, decodeBrokerValue v) :: decodeFields fields

end

def brokerText (v : BrokerValue) : List Char := write (encodeBrokerValue v)

/-- `decodeBrokerValue(JSON.parse(JSON.stringify(encodeBrokerValue(value))))` -/
def transported (v : BrokerValue) : Option BrokerValue :=
  (parse (brokerText v)).bind decodeBrokerValue

/-! ## What comes back -/

mutual

/-- The value without -0 and without fields under `__proto__`. -/
def kept : BrokerValue → BrokerValue
  | .num x => .num (readBackNumber x)
  | .arr items => .arr (keptItems items)
  | .obj fields => .obj (keptFields fields)
  | .undefined => .undefined
  | .null => .null
  | .bool b => .bool b
  | .bigint n => .bigint n
  | .date t => .date t
  | .str s => .str s
  | .other bytes => .other bytes

def keptItems : List BrokerValue → List BrokerValue
  | [] => []
  | v :: items => kept v :: keptItems items

def keptFields : List (String × BrokerValue) → List (String × BrokerValue)
  | [] => []
  | (key, v) :: fields =>
    if key = "__proto__" then keptFields fields else (key, kept v) :: keptFields fields

end

mutual

/-- No number inside is -0, and no object inside has a field under `__proto__`. -/
def Clean : BrokerValue → Prop
  | .num x => x ≠ .negativeZero
  | .arr items => CleanItems items
  | .obj fields => CleanFields fields
  | .undefined | .null | .bool _ | .bigint _ | .date _ | .str _ | .other _ => True

def CleanItems : List BrokerValue → Prop
  | [] => True
  | v :: items => Clean v ∧ CleanItems items

def CleanFields : List (String × BrokerValue) → Prop
  | [] => True
  | (key, v) :: fields => key ≠ "__proto__" ∧ Clean v ∧ CleanFields fields

end

theorem keptFields_length (fields : List (String × BrokerValue)) :
    (keptFields fields).length ≤ fields.length := by
  induction fields with
  | nil => exact le_rfl
  | cons f fields ih =>
    rw [keptFields]
    split <;> simp only [length_cons] <;> omega

theorem kept_eq_self (v : BrokerValue) : kept v = v ↔ Clean v := by
  induction v using Value.induct with
  | num x => cases x <;> simp [kept, readBackNumber, Clean]
  | arr items ih =>
    rw [kept, Clean, Value.arr.injEq]
    induction items with
    | nil => simp [keptItems, CleanItems]
    | cons v items ihs =>
      obtain ⟨hv, hitems⟩ := forall_mem_cons.mp ih
      rw [keptItems, CleanItems, cons.injEq, hv, ihs hitems]
  | obj fields ih =>
    rw [kept, Clean, Value.obj.injEq]
    induction fields with
    | nil => simp [keptFields, CleanFields]
    | cons f fields ihs =>
      obtain ⟨key, v⟩ := f
      obtain ⟨hv, hfields⟩ := forall_mem_cons.mp ih
      rw [keptFields, CleanFields]
      split
      · next hkey =>
        refine iff_of_false (fun heq => ?_) fun h => h.1 hkey
        have hlength := keptFields_length fields
        rw [heq, length_cons] at hlength
        omega
      · next hkey => simp [hv, ihs hfields, hkey]
  | undefined | null | bool _ | bigint _ | date _ | str _ | other _ => simp [kept, Clean]

theorem atob_btoa (bytes : List UInt8) :
    atob (btoa (bytes.map UInt8.toNat)) = some (bytes.map UInt8.toNat) := by
  have hlt : ∀ b ∈ bytes.map UInt8.toNat, b < 256 := by
    simpa using fun b _ => b.toNat_lt
  rw [btoa, atob_padded (sextets_lt hlt) (sextets_length _), unpack_sextets hlt]

theorem viaJson_tagged (name : String) (value : Option JsValue) :
    viaJson (tagged name value) = tagged name (value.map viaJson) := by
  cases value <;> simp [tagged, viaJson, relabel_obj] <;> rfl

theorem decode_tagged (name : String) (value : Option JsValue) :
    decodeBrokerValue (tagged name value) = decodeTagged name (value.map content) := by
  cases value <;> rfl

theorem decode_encode (v : BrokerValue) :
    decodeBrokerValue (viaJson (encodeBrokerValue v)) = some (kept v) := by
  induction v using Value.induct with
  | num x =>
    cases x with
    | finite text => rfl
    | negativeZero => rfl
    | nan => rfl
    | infinity negative => cases negative <;> rfl
  | undefined | null | bool _ | str _ => rfl
  | bigint n =>
    rw [encodeBrokerValue, viaJson_tagged, decode_tagged]
    show (if isBigIntText (.ofList (bigIntText n)) then _ else _) = _
    rw [if_pos (isBigIntText_bigIntText n), readBigInt_bigIntText, kept]
  | date t =>
    rw [encodeBrokerValue, viaJson_tagged, decode_tagged]
    show (parseIso (String.ofList (isoText t)).toList).map Value.date = _
    rw [String.toList_ofList, parseIso_isoText, Option.map_some, kept]
  | other bytes =>
    rw [encodeBrokerValue, viaJson_tagged, decode_tagged]
    show (atob (bufferText bytes).toList).map _ = _
    simp [bufferText, atob_btoa, kept, Function.comp_def]
  | arr items ih =>
    rw [encodeBrokerValue, viaJson_tagged, decode_tagged, Option.map_some, viaJson, relabel_arr]
    show ((decodeItems _).mapM id).map Value.arr = _
    have hitems : (decodeItems ((encodeItems items).map viaJson)).mapM id =
        some (keptItems items) := by
      induction items with
      | nil => rfl
      | cons v items ihs =>
        obtain ⟨hv, hitems⟩ := forall_mem_cons.mp ih
        simp [encodeItems, decodeItems, keptItems, hv, ihs hitems]
    exact (congrArg _ hitems).trans (by rw [Option.map_some, kept])
  | obj fields ih =>
    rw [encodeBrokerValue, viaJson_tagged, decode_tagged, Option.map_some, viaJson, relabel_obj]
    show decodeProperties (decodeFields ((encodeEntries fields).map fun f => (f.1, viaJson f.2))) = _
    have hfields : ((decodeFields ((encodeEntries fields).map fun f => (f.1, viaJson f.2))).mapM
        fun f => do return (f.1, ← f.2)) = some (keptFields fields) ∧
        ∀ f ∈ keptFields fields, f.1 ≠ "__proto__" := by
      induction fields with
      | nil => exact ⟨rfl, by simp [keptFields]⟩
      | cons f fields ihs =>
        obtain ⟨hf, hrest⟩ := forall_mem_cons.mp ih
        obtain ⟨hdecoded, hkeys⟩ := ihs hrest
        rw [encodeEntries, keptFields]
        split
        · exact ⟨hdecoded, hkeys⟩
        · next hkey =>
          refine ⟨?_, forall_mem_cons.mpr ⟨hkey, hkeys⟩⟩
          rw [map_cons, decodeFields, mapM_cons, hdecoded, hf]
          rfl
    have hfilter := filter_eq_self.mpr fun f hf => decide_eq_true (hfields.2 f hf)
    rw [decodeProperties, hfields.1, kept]
    exact congrArg (some ∘ Value.obj) hfilter

theorem transported_eq (v : BrokerValue) : transported v = some (kept v) := by
  rw [transported, brokerText, parse_write, Option.bind_some, decode_encode]

/-- **Values come back as they were sent, with texts of their own, iff** none of them holds -0 or an
    object with a field under `__proto__`. -/
theorem codec_faithful_iff (values : Set BrokerValue) :
    ((∀ v ∈ values, transported v = some v) ∧
      ∀ v ∈ values, ∀ w ∈ values, v ≠ w → brokerText v ≠ brokerText w) ↔
    ∀ v ∈ values, Clean v := by
  have hback : ∀ v, transported v = some v ↔ Clean v := fun v => by
    rw [transported_eq, Option.some.injEq, kept_eq_self]
  simp only [hback, and_iff_left_iff_imp]
  intro hclean v hv w hw hne htext
  have hsame : transported v = transported w := by rw [transported, transported, htext]
  rw [(hback v).mpr (hclean v hv), (hback w).mpr (hclean w hw)] at hsame
  exact hne (Option.some.inj hsame)

/-- A row with a column `__proto__` comes back without it, and -0 as 0, whose text it shares. -/
theorem codec_loses :
    transported (.obj [("__proto__", .null), ("id", .str "1")]) ≠
        some (.obj [("__proto__", .null), ("id", .str "1")]) ∧
      transported (.num .negativeZero) ≠ some (.num .negativeZero) ∧
      brokerText (.num .negativeZero) = brokerText (.num (.finite zeroText)) := by
  simp only [transported_eq, ne_eq, Option.some.injEq, kept_eq_self]
  exact ⟨fun h => h.1 rfl, fun h => h rfl, rfl⟩

end Velocious.SharedTransactionCodec
