/-
  The canonical text of a JSON value (src/utils/stable-json.js), as a form: which values share it,
  and what `JSON.parse` makes of it.

  The values here are those that `JSON.parse` returns: objects with distinct keys and ordinary
  prototypes, -0 and infinities included. `memo[key] = …` is no plain store for the key
  `__proto__`, so that field is lost.

  * `stableJsonValue_eq`: the value that is built is the canonical form of the sync signatures.
-/
import Velocious.Foundation.JsonParse
import Velocious.Sync.DeterministicJson

namespace Velocious.StableJson

open Foundation Foundation.JsValue DeviceIdentity List

mutual

/-- Produces a recursively key-sorted JSON value. -/
def stableJsonValue : JsValue → JsValue
  | .arr items => .arr (stableJsonItems items)
  | .obj _ fields => assignEntries (sortEntries (stableJsonFields fields))
  | .null => .null
  | .bool b => .bool b
  | .num x => .num x
  | .str s => .str s

def stableJsonItems : List JsValue → List JsValue
  | [] => []
  | v :: items => stableJsonValue v :: stableJsonItems items

def stableJsonFields : List (String × JsValue) → List (String × JsValue)
  | [] => []
  | (k, v) :: fields => (k, stableJsonValue v) :: stableJsonFields fields

end

/-- Serializes a JSON-compatible value with recursively sorted object keys. -/
def stableJsonStringify (value : JsValue) : List Char := write (stableJsonValue value)

/-! ## Equality up to the order of keys -/

/-- `-0 === 0`. -/
def unsignScalar : JsValue → JsValue
  | .num .negativeZero => .num (.finite zeroText)
  | v => v

def unsign (v : JsValue) : JsValue := relabel unsignScalar id v

/-- Equal up to the order of object keys; -0 is equal to 0. -/
def Equal (v w : JsValue) : Prop := Same (unsign v) (unsign w)

/-- What `JSON.parse` returns: the keys of an object are distinct, and its prototype is
    `Object.prototype`. -/
structure IsParsed (v : JsValue) : Prop where
  keys : all hasDistinctKeys v = true
  ordinary : all isOrdinary v = true

/-- Not an infinity, nor `NaN`. -/
def isFiniteNumber : JsValue → Bool
  | .num (.finite _) | .num .negativeZero => true
  | .num .nan | .num (.infinity _) => false
  | .null | .bool _ | .str _ | .arr _ | .obj _ _ => true

/-- No key is `__proto__`, and every number is finite. -/
structure Plain (v : JsValue) : Prop where
  noProto : all hasNoProto v = true
  finite : all isFiniteNumber v = true

/-- **The canonical form of two values**: they have one text exactly if they are equal, and
    `JSON.parse` gives each back. -/
structure Canonical (a b : JsValue) : Prop where
  eq_iff : stableJsonStringify a = stableJsonStringify b ↔ Equal a b
  left : ∃ v, parse (stableJsonStringify a) = some v ∧ Equal v a
  right : ∃ v, parse (stableJsonStringify b) = some v ∧ Equal v b

/-! ## The canonical value -/

theorem stableJsonValue_eq (v : JsValue) : stableJsonValue v = normal v := by
  induction v using induct with
  | arr items ih =>
    have hitems : stableJsonItems items = items.map normal := by
      induction items with
      | nil => rfl
      | cons v items ih' =>
        rw [stableJsonItems, ih v mem_cons_self, map_cons,
          ih' fun w hw => ih w (mem_cons_of_mem v hw)]
    rw [stableJsonValue, hitems, normal_arr]
  | obj o fields ih =>
    have hfields : stableJsonFields fields = fields.map fun f => (f.1, normal f.2) := by
      induction fields with
      | nil => rfl
      | cons f fields ih' =>
        obtain ⟨k, v⟩ := f
        rw [stableJsonFields, ih (k, v) mem_cons_self, map_cons,
          ih' fun g hg => ih g (mem_cons_of_mem (k, v) hg)]
    rw [stableJsonValue, hfields, normal_obj]
  | null | bool _ | num _ | str _ => rfl

variable {v : JsValue}

theorem unsignScalar_scalar (hv : v.isScalar = true) : (unsignScalar v).isScalar = true := by
  unfold unsignScalar
  split
  · rfl
  · exact hv

theorem write_unsign (v : JsValue) : write (unsign v) = write v := by
  refine write_relabel (fun w _ => ?_) v
  unfold unsignScalar
  split
  · rfl
  · rfl

theorem unsign_arr (items : List JsValue) : unsign (.arr items) = .arr (items.map unsign) :=
  relabel_arr items

theorem unsign_obj (o : Bool) (fields : List (String × JsValue)) :
    unsign (.obj o fields) = .obj o (fields.map fun f => (f.1, unsign f.2)) :=
  relabel_obj o fields

theorem unsign_of_written (hv : all isWritten v = true) : unsign v = v := by
  refine relabel_eq_self (fun w _ hw => ?_) (fun o fields _ => rfl) hv
  unfold unsignScalar
  split
  · cases hw
  · rfl

theorem all_unsign {p q : JsValue → Bool} (hscalar : ∀ v, v.isScalar = true → all p (unsign v) = all q v)
    (harr : ∀ items, p (.arr items) = true ∧ q (.arr items) = true)
    (hobj : ∀ o (fields : List (String × JsValue)),
      p (.obj o (fields.map fun f => (f.1, unsign f.2))) = q (.obj o fields)) (v : JsValue) :
    all p (unsign v) = true ↔ all q v = true := by
  induction v using induct with
  | arr items ih =>
    rw [unsign_arr, all_arr, all_arr, (harr _).1, (harr _).2, forall_mem_map]
    exact and_congr_right fun _ => forall₂_congr ih
  | obj o fields ih =>
    rw [unsign_obj, all_obj, all_obj, hobj, forall_mem_map]
    exact and_congr_right fun _ => forall₂_congr ih
  | null | bool _ | num _ | str _ => rw [hscalar _ rfl]

theorem isScalar_cases (hv : v.isScalar = true) :
    v = .null ∨ (∃ b, v = .bool b) ∨ (∃ x, v = .num x) ∨ ∃ s, v = .str s := by
  cases v with
  | arr items => cases hv
  | obj o fields => cases hv
  | null | bool _ | num _ | str _ => simp

theorem noProto_unsign (v : JsValue) : all hasNoProto (unsign v) = true ↔ all hasNoProto v = true := by
  refine all_unsign (fun w hw => ?_) (fun _ => ⟨rfl, rfl⟩) (fun o fields => ?_) v
  · rcases isScalar_cases hw with rfl | ⟨b, rfl⟩ | ⟨x, rfl⟩ | ⟨s, rfl⟩
    · rfl
    · rfl
    · cases x <;> rfl
    · rfl
  · simp only [hasNoProto, all_map]
    rfl

theorem finite_unsign (v : JsValue) :
    all hasFiniteNumber (unsign v) = true ↔ all isFiniteNumber v = true := by
  refine all_unsign (fun w hw => ?_) (fun _ => ⟨rfl, rfl⟩) (fun o fields => rfl) v
  rcases isScalar_cases hw with rfl | ⟨b, rfl⟩ | ⟨x, rfl⟩ | ⟨s, rfl⟩
  · rfl
  · rfl
  · cases x <;> rfl
  · rfl

theorem IsParsed.unsign (h : IsParsed v) : IsParsed (unsign v) := by
  refine ⟨(all_unsign (fun w hw => ?_) (fun _ => ⟨rfl, rfl⟩) (fun o fields => ?_) v).mpr h.keys,
    (all_unsign (fun w hw => ?_) (fun _ => ⟨rfl, rfl⟩) (fun o fields => rfl) v).mpr h.ordinary⟩
  · rcases isScalar_cases hw with rfl | ⟨b, rfl⟩ | ⟨x, rfl⟩ | ⟨s, rfl⟩
    · rfl
    · rfl
    · cases x <;> rfl
    · rfl
  · simp only [hasDistinctKeys, keys_map]
  · rcases isScalar_cases hw with rfl | ⟨b, rfl⟩ | ⟨x, rfl⟩ | ⟨s, rfl⟩
    · rfl
    · rfl
    · cases x <;> rfl
    · rfl

theorem normal_sortAll (hv : all hasDistinctKeys v = true) : normal (sortAll v) = normal v := by
  induction v using induct with
  | arr items ih =>
    rw [sortAll_arr, normal_arr, normal_arr, map_map]
    exact congrArg arr (map_congr_left fun v hmem => ih v hmem ((all_arr.mp hv).2 v hmem))
  | obj o fields ih =>
    obtain ⟨hnodup, hfields⟩ := all_obj.mp hv
    have hmap : (fields.map fun f => (f.1, sortAll f.2)).map (fun f => (f.1, normal f.2)) =
        fields.map fun f => (f.1, normal f.2) := by
      rw [map_map]
      exact map_congr_left fun f hf => Prod.ext rfl (ih f hf (hfields f hf))
    have hkeys : ((fields.map fun f => (f.1, normal f.2)).map Prod.fst).Nodup := by
      rw [keys_map]
      exact of_decide_eq_true hnodup
    rw [sortAll_obj, normal_obj, normal_obj, ← hmap]
    rw [← hmap] at hkeys
    exact congrArg assignEntries
      (sortEntries_eq_of_perm hkeys ((sortEntries_perm _).map _).symm).symm
  | null | bool _ | num _ | str _ => rfl

/-! ## What the text tells -/

theorem parse_stableJsonStringify (v : JsValue) :
    parse (stableJsonStringify v) = some (viaJson (normal v)) := by
  rw [stableJsonStringify, stableJsonValue_eq, parse_write]

theorem unsign_viaJson (v : JsValue) : unsign (viaJson v) = viaJson v :=
  unsign_of_written (written_viaJson v)

theorem normal_unsign (hv : all hasNoProto v = true) : normal (unsign v) = unsign (normal v) :=
  normal_relabel (fun _ => unsignScalar_scalar) rfl hv

theorem viaJson_normal_unsign (hv : all hasNoProto v = true) :
    viaJson (normal (unsign v)) = viaJson (normal v) := by
  rw [normal_unsign hv]
  exact viaJson_eq_of_write_eq (write_unsign _)

/-- **A value comes back** exactly if it is plain. -/
theorem equal_viaJson_normal (hv : IsParsed v) : Equal (viaJson (normal v)) v ↔ Plain v := by
  rw [Equal, unsign_viaJson]
  constructor
  · intro hsame
    have hback : ∀ {p : JsValue → Bool}, OnKeys p → all p (viaJson (normal v)) = true →
        all p (unsign v) = true := by
      intro p hp hall
      have hsorted := (all_sortAll hp _).mpr hall
      rw [hsame] at hsorted
      exact (all_sortAll hp _).mp hsorted
    exact ⟨(noProto_unsign v).mp (hback hasNoProto_onKeys
        (noProto_relabel (fun _ => rereadScalar_scalar) (noProto_normal v))),
      (finite_unsign v).mp (hback hasFiniteNumber_onKeys (finite_of_written (written_viaJson _)))⟩
  · intro hplain
    rw [← viaJson_normal_unsign hplain.noProto]
    exact (same_viaJson_normal hv.unsign.keys hv.unsign.ordinary).mpr
      ⟨(finite_unsign v).mpr hplain.finite, (noProto_unsign v).mpr hplain.noProto⟩

theorem stableJsonStringify_eq_iff {a b : JsValue} (ha : IsParsed a) (hb : IsParsed b)
    (hpa : Plain a) (hpb : Plain b) :
    stableJsonStringify a = stableJsonStringify b ↔ Equal a b := by
  simp only [stableJsonStringify, stableJsonValue_eq]
  have hbacka := (equal_viaJson_normal ha).mpr hpa
  have hbackb := (equal_viaJson_normal hb).mpr hpb
  constructor
  · intro htext
    rw [viaJson_eq_of_write_eq htext] at hbacka
    exact hbacka.symm.trans hbackb
  · intro hequal
    have hnormal : normal (unsign a) = normal (unsign b) := by
      rw [← normal_sortAll ha.unsign.keys, ← normal_sortAll hb.unsign.keys]
      exact congrArg normal hequal
    rw [normal_unsign hpa.noProto, normal_unsign hpb.noProto] at hnormal
    rw [← write_unsign (normal a), hnormal, write_unsign]

/-- **The text is a canonical form** of two values exactly if both are plain. -/
theorem canonical_iff {a b : JsValue} (ha : IsParsed a) (hb : IsParsed b) :
    Canonical a b ↔ Plain a ∧ Plain b := by
  constructor
  · rintro ⟨-, ⟨v, hv, hequal⟩, ⟨w, hw, hequal'⟩⟩
    rw [parse_stableJsonStringify] at hv hw
    cases hv
    cases hw
    exact ⟨(equal_viaJson_normal ha).mp hequal, (equal_viaJson_normal hb).mp hequal'⟩
  · rintro ⟨hpa, hpb⟩
    exact ⟨stableJsonStringify_eq_iff ha hb hpa hpb,
      ⟨_, parse_stableJsonStringify a, (equal_viaJson_normal ha).mpr hpa⟩,
      ⟨_, parse_stableJsonStringify b, (equal_viaJson_normal hb).mpr hpb⟩⟩

/-- Two orders of the same keys. -/
theorem canonical_reordered :
    Canonical (.obj true [("b", .null), ("7", .str "x")]) (.obj true [("7", .str "x"), ("b", .null)]) :=
  (canonical_iff ⟨by decide, by decide⟩ ⟨by decide, by decide⟩).mpr
    ⟨⟨by decide, by decide⟩, ⟨by decide, by decide⟩⟩

/-- A value under the key `__proto__` leaves no trace in the text. -/
theorem proto_collides :
    IsParsed (.obj true [("__proto__", .obj true [("admin", .bool true)])]) ∧
      IsParsed (.obj true []) ∧
      stableJsonStringify (.obj true [("__proto__", .obj true [("admin", .bool true)])]) =
        stableJsonStringify (.obj true []) ∧
      ¬ Equal (.obj true [("__proto__", .obj true [("admin", .bool true)])]) (.obj true []) ∧
      ¬ Canonical (.obj true [("__proto__", .obj true [("admin", .bool true)])]) (.obj true []) := by
  refine ⟨⟨by decide, by decide⟩, ⟨by decide, by decide⟩, by decide, ?_⟩
  have hne : ¬ Equal (.obj true [("__proto__", .obj true [("admin", .bool true)])]) (.obj true []) := by
    intro hequal
    have hproto := congrArg (all hasNoProto) hequal
    exact absurd hproto (by decide)
  exact ⟨hne, fun hcanonical => hne (hcanonical.eq_iff.mp (by decide))⟩

end Velocious.StableJson
