/-
  Conflicts of replayed mutations (src/sync/conflict-strategy.js) and the field-level three-way
  merge, for resources without a handler of their own.

  * An attribute that a record has not is read from `Object.prototype`: `undefined`, or a function,
    whose text is that of `undefined` too, or under `__proto__` the prototype itself, whose text is
    that of `{}`.
  * `mergedAttributes[field] = …` is no plain store for the key `__proto__`.
-/
import Velocious.Utils.StableJsonCanonical

namespace Velocious.FieldThreeWay

open Foundation Foundation.JsValue DeviceIdentity StableJson List

/-! ## Equality of JSON values -/

/-- `texts.join(",")`. -/
def joinCommas (texts : List (List Char)) : List Char := [','].intercalate texts

mutual

def stableJsonStringify : JsValue → List Char
  | .arr items => '[' :: (joinCommas (stableItems items) ++ [']'])
  | .obj _ fields =>
    '\x7b' :: (joinCommas ((sortEntries (stableFields fields)).map fun f =>
      quoteChars f.1 ++ ':' :: f.2) ++ ['\x7d'])
  | .null => write .null
  | .bool b => write (.bool b)
  | .num x => write (.num x)
  | .str s => write (.str s)

def stableItems : List JsValue → List (List Char)
  | [] => []
  | v :: items => stableJsonStringify v :: stableItems items

def stableFields : List (String × JsValue) → List (String × List Char)
  | [] => []
  | (k, v) :: fields => (k, stableJsonStringify v) :: stableFields fields

end

/-- `jsonValuesEqual`; `undefined` is `none`. -/
def jsonValuesEqual (left right : Option JsValue) : Bool :=
  left.map stableJsonStringify = right.map stableJsonStringify

theorem stableItems_eq (items : List JsValue) :
    stableItems items = items.map stableJsonStringify := by
  induction items with
  | nil => rfl
  | cons v items ih => rw [stableItems, ih, map_cons]

theorem stableFields_eq (fields : List (String × JsValue)) :
    stableFields fields = fields.map fun f => (f.1, stableJsonStringify f.2) := by
  induction fields with
  | nil => rfl
  | cons f fields ih => rw [stableFields, ih, map_cons]

theorem writeItems_eq (items : List JsValue) :
    writeItems items = joinCommas (items.map write) ++ [']'] := by
  induction items with
  | nil => rfl
  | cons v items ih =>
    cases items with
    | nil => simp [writeItems, joinCommas]
    | cons w items => simpa [writeItems, joinCommas] using ih

theorem writeFields_eq (fields : List (String × JsValue)) :
    writeFields fields =
      joinCommas (fields.map fun f => quoteChars f.1 ++ ':' :: write f.2) ++ ['\x7d'] := by
  induction fields with
  | nil => rfl
  | cons f fields ih =>
    cases fields with
    | nil => simp [writeFields, joinCommas]
    | cons g fields => simpa [writeFields, joinCommas] using ih

theorem stableJsonStringify_eq (v : JsValue) : stableJsonStringify v = write (sortAll v) := by
  induction v using induct with
  | arr items ih =>
    have hitems : items.map stableJsonStringify = items.map fun v => write (sortAll v) :=
      map_congr_left ih
    rw [stableJsonStringify, stableItems_eq, hitems, sortAll_arr, write, writeItems_eq,
      map_map]
    rfl
  | obj o fields ih =>
    have hfields : (fields.map fun f => (f.1, stableJsonStringify f.2)) =
        (fields.map fun f => (f.1, sortAll f.2)).map fun f => (f.1, write f.2) := by
      rw [map_map]
      exact map_congr_left fun f hf => Prod.ext rfl (ih f hf)
    rw [stableJsonStringify, stableFields_eq, hfields, sortEntries_map, map_map, sortAll_obj,
      write, writeFields_eq]
    rfl
  | null | bool _ | num _ | str _ => rfl

/-- A finite number, an ordinary object, or another value. -/
def isJson : JsValue → Bool
  | .num (.finite _) | .num .negativeZero => true
  | .num .nan | .num (.infinity _) => false
  | .obj o _ => o
  | .null | .bool _ | .str _ | .arr _ => true

theorem unsign_sortAll (v : JsValue) : unsign (sortAll v) = sortAll (unsign v) := by
  induction v using induct with
  | arr items ih =>
    rw [sortAll_arr, unsign_arr, unsign_arr, sortAll_arr, map_map, map_map]
    exact congrArg arr (map_congr_left ih)
  | obj o fields ih =>
    rw [sortAll_obj, unsign_obj, unsign_obj, sortAll_obj, ← sortEntries_map, map_map,
      map_map]
    exact congrArg (fun fields => obj o (sortEntries fields))
      (map_congr_left fun f hf => Prod.ext rfl (ih f hf))
  | num x => cases x <;> rfl
  | null | bool _ | str _ => rfl

theorem written_of_json {v : JsValue} (h : all isJson v = true) :
    all isWritten (sortAll (unsign v)) = true := by
  refine (all_sortAll ⟨fun _ _ => rfl, fun _ _ _ _ => rfl⟩ _).mpr
    ((all_unsign (fun w hw => ?_) (fun _ => ⟨rfl, rfl⟩) (fun o fields => rfl) v).mpr h)
  rcases isScalar_cases hw with rfl | ⟨b, rfl⟩ | ⟨x, rfl⟩ | ⟨s, rfl⟩
  · rfl
  · rfl
  · cases x <;> rfl
  · rfl

/-- **The serializer is canonical** on JSON. -/
theorem stableJsonStringify_eq_iff {v w : JsValue} (hv : all isJson v = true)
    (hw : all isJson w = true) :
    stableJsonStringify v = stableJsonStringify w ↔ Equal v w := by
  rw [stableJsonStringify_eq, stableJsonStringify_eq, ← write_unsign (sortAll v),
    ← write_unsign (sortAll w), unsign_sortAll, unsign_sortAll]
  exact ⟨write_inj (written_of_json hv) (written_of_json hw), fun hequal => congrArg write hequal⟩

/-! ## Conflicts -/

/-- The own attributes of a record or a mutation. -/
abbrev Attributes := List (String × JsValue)

/-- A record, base or server. -/
structure SyncConflictRecord where
  attributes : Attributes
  version : Option JsValue

/-- What is read of a mutation. -/
structure SyncMutation where
  attributes : Option JsValue
  baseVersion : Option JsValue
  clientMutationId : Option JsValue
  model : Option JsValue
  operation : Option JsValue
  payload : Option JsValue

/-- `CONFLICT_STRATEGIES` -/
inductive Strategy where
  | optimisticVersion
  | serverWins
  | lastWriterWins
  | fieldThreeWay
  | appendOnly
  deriving DecidableEq

/-- The structured payload of a conflict. -/
structure Conflict where
  affectedFields : List String
  baseRecord : Option Attributes
  baseVersion : JsValue
  localAttributes : Attributes
  clientMutationId : Option JsValue
  model : Option JsValue
  operation : Option JsValue
  payload : JsValue
  serverModel : Option Attributes
  serverVersion : JsValue
  suggestedResolution : String
  versionAttribute : String

/-- What `resolveSyncConflict` answers; `attributes` is an object. -/
inductive Result where
  | applied (attributes : JsValue)
  | conflict (conflict : Conflict)

/-- `attributes[field]`; a function is `undefined` here, as its text is. -/
def read (attributes : Attributes) (field : String) : Option JsValue :=
  match valueAt? field attributes with
  | some value => some value
  | none => if field = "__proto__" then some (.obj true []) else none

def mutationAttributesFor (mutation : SyncMutation) : Attributes :=
  match mutation.attributes with
  | some (.obj _ fields) => fields.map fun f => (f.1, viaJson f.2)
  | _ => []

/-- `value ?? null`. -/
def orNullValue (value : Option JsValue) : JsValue := value.getD .null

/-- `serverRecord.version ?? serverRecord.attributes[versionAttribute] ?? null`. -/
def serverVersion (serverRecord : SyncConflictRecord) (versionAttribute : String) : JsValue :=
  match serverRecord.version with
  | none | some .null => orNullValue (read serverRecord.attributes versionAttribute)
  | some version => version

def conflictResult (affectedFields : Option (List String)) (baseRecord : Option SyncConflictRecord)
    (mutation : SyncMutation) (serverRecord : Option SyncConflictRecord) (strategy : Strategy)
    (versionAttribute : String) : Result :=
  let mutationAttributes := mutationAttributesFor mutation
  .conflict
    { affectedFields := affectedFields.getD (mutationAttributes.map Prod.fst)
      baseRecord := baseRecord.map SyncConflictRecord.attributes
      baseVersion := orNullValue mutation.baseVersion
      localAttributes := mutationAttributes
      clientMutationId := mutation.clientMutationId
      model := mutation.model
      operation := mutation.operation
      payload := (mutation.payload.map valueOrNull).getD .null
      serverModel := serverRecord.map SyncConflictRecord.attributes
      serverVersion := (serverRecord.map (serverVersion · versionAttribute)).getD .null
      suggestedResolution := if strategy = .serverWins then "keep_server" else "manual"
      versionAttribute }

def merges (baseRecord serverRecord : SyncConflictRecord) (field : String × JsValue) : Bool :=
  jsonValuesEqual (read serverRecord.attributes field.1) (read baseRecord.attributes field.1) ||
    jsonValuesEqual (read serverRecord.attributes field.1) (some field.2)

def fieldThreeWayResult (baseRecord : Option SyncConflictRecord) (mutation : SyncMutation)
    (serverRecord : Option SyncConflictRecord) (strategy : Strategy) (versionAttribute : String) :
    Result :=
  let mutationAttributes := mutationAttributesFor mutation
  match baseRecord, serverRecord with
  | some base, some server =>
    let affectedFields := (mutationAttributes.filter fun f => !merges base server f).map Prod.fst
    if affectedFields.length > 0 then
      conflictResult (some affectedFields) baseRecord mutation serverRecord strategy versionAttribute
    else .applied (assignEntries (mutationAttributes.filter (merges base server)))
  | _, _ => .applied (.obj true mutationAttributes)

def hasVersionConflict (mutation : SyncMutation) (serverRecord : Option SyncConflictRecord)
    (versionAttribute : String) : Bool :=
  match serverRecord, mutation.baseVersion with
  | none, _ | _, none | _, some .null => false
  | some server, some baseVersion =>
    !jsonValuesEqual (some (serverVersion server versionAttribute)) (some baseVersion)

def resolveSyncConflict (baseRecord : Option SyncConflictRecord) (mutation : SyncMutation)
    (serverRecord : Option SyncConflictRecord) (strategy : Strategy) (versionAttribute : String) :
    Result :=
  let applied := Result.applied (.obj true (mutationAttributesFor mutation))
  if strategy = .appendOnly ∨ strategy = .lastWriterWins then applied
  else if strategy = .fieldThreeWay then
    fieldThreeWayResult baseRecord mutation serverRecord strategy versionAttribute
  else if hasVersionConflict mutation serverRecord versionAttribute then
    conflictResult none baseRecord mutation serverRecord strategy versionAttribute
  else applied

/-! ## What a merge answers -/

/-- The attributes of a record: JSON under distinct keys. -/
structure WellFormed (attributes : Attributes) : Prop where
  keys : (attributes.map Prod.fst).Nodup
  json : ∀ f ∈ attributes, all isJson f.2 = true

def HasDistinctFields (m : SyncMutation) : Prop :=
  ∀ o fields, m.attributes = some (.obj o fields) → (fields.map Prod.fst).Nodup

/-- The server has what the base has under the field, or what the mutation has. -/
def Mergeable (base server : SyncConflictRecord) (field : String × JsValue) : Prop :=
  Option.Rel Equal (valueAt? field.1 server.attributes) (valueAt? field.1 base.attributes) ∨
    Option.Rel Equal (valueAt? field.1 server.attributes) (some field.2)

def Applies (base server : SyncConflictRecord) (m : SyncMutation) (versionAttribute : String)
    (merged : Attributes) : Prop :=
  resolveSyncConflict (some base) m (some server) .fieldThreeWay versionAttribute =
      .applied (.obj true merged) ∧ merged.Perm (mutationAttributesFor m)

/-- What is asked of the strategy. -/
structure Answers (base server : SyncConflictRecord) (m : SyncMutation) (versionAttribute : String) :
    Prop where
  applied : (∀ f ∈ mutationAttributesFor m, Mergeable base server f) →
    ∃ merged, Applies base server m versionAttribute merged
  conflict : (¬ ∀ f ∈ mutationAttributesFor m, Mergeable base server f) →
    ∃ c, resolveSyncConflict (some base) m (some server) .fieldThreeWay versionAttribute =
      .conflict c ∧ ∀ k, k ∈ c.affectedFields ↔
        ∃ v, (k, v) ∈ mutationAttributesFor m ∧ ¬ Mergeable base server (k, v)

/-- Under `__proto__` nothing is stored that another field's conflict does not keep back, and the
prototype is not taken for an attribute. -/
def ProtoKept (base server : SyncConflictRecord) (m : SyncMutation) : Prop :=
  ∀ v, ("__proto__", v) ∈ mutationAttributesFor m →
    (∃ f ∈ mutationAttributesFor m, merges base server f = false) ∧
      (merges base server ("__proto__", v) = true → Mergeable base server ("__proto__", v))

section
variable {base server : SyncConflictRecord} {m : SyncMutation} {versionAttribute : String}
variable {f : String × JsValue} {fields : Attributes} {k : String}

theorem WellFormed.value (h : WellFormed fields) {v : JsValue} (hv : valueAt? k fields = some v) :
    all isJson v = true := h.json (k, v) ((valueAt?_eq_some h.keys).mp hv)

theorem wellFormed_mutationAttributesFor (h : HasDistinctFields m) :
    WellFormed (mutationAttributesFor m) := by
  unfold mutationAttributesFor
  split
  · rename_i o fields hfields
    refine ⟨by rw [keys_map]; exact h o fields hfields, forall_mem_map.mpr fun f _ => ?_⟩
    refine all_of_and (fun w hw _ => ?_) (written_viaJson f.2) (written_viaJson f.2)
    cases w with
    | num x => cases x <;> first | rfl | cases hw
    | obj o fields => exact hw
    | null | bool _ | str _ | arr _ => rfl
  · exact ⟨nodup_nil, nofun⟩

theorem jsonValuesEqual_iff {a b : Option JsValue} (ha : ∀ v, a = some v → all isJson v = true)
    (hb : ∀ v, b = some v → all isJson v = true) :
    jsonValuesEqual a b = true ↔ Option.Rel Equal a b := by
  cases a with
  | none =>
    cases b with
    | none => simp [jsonValuesEqual]
    | some w => simp [jsonValuesEqual]
  | some v =>
    cases b with
    | none => simp [jsonValuesEqual]
    | some w =>
      have hiff := stableJsonStringify_eq_iff (ha v rfl) (hb w rfl)
      simp [jsonValuesEqual, hiff]

theorem json_read (h : WellFormed fields) {v : JsValue} (hv : read fields k = some v) :
    all isJson v = true := by
  unfold read at hv
  split at hv
  · rename_i w hvalue
    cases hv
    exact h.value hvalue
  · split at hv
    · cases hv
      rfl
    · cases hv

section
variable (hbase : WellFormed base.attributes) (hserver : WellFormed server.attributes)
  (hf : all isJson f.2 = true)
include hbase hserver hf

theorem merges_iff : merges base server f = true ↔
      Option.Rel Equal (read server.attributes f.1) (read base.attributes f.1) ∨
        Option.Rel Equal (read server.attributes f.1) (some f.2) := by
  have hvalue : ∀ v, some f.2 = some v → all isJson v = true := by
    rintro _ ⟨⟩
    exact hf
  rw [merges, Bool.or_eq_true, jsonValuesEqual_iff (fun _ => json_read hserver)
    (fun _ => json_read hbase), jsonValuesEqual_iff (fun _ => json_read hserver) hvalue]

theorem merges_iff_mergeable (hne : f.1 ≠ "__proto__") : merges base server f = true ↔
    Mergeable base server f := by
  have hread : ∀ fields, read fields f.1 = valueAt? f.1 fields := by
    intro fields
    unfold read
    split
    · rename_i v hv
      exact hv.symm
    · rename_i hnone
      rw [if_neg hne, hnone]
  rw [merges_iff hbase hserver hf, hread, hread, Mergeable]

theorem merges_of_mergeable (h : Mergeable base server f) : merges base server f = true := by
  rw [merges_iff hbase hserver hf, read, read]
  rcases h with h | h
  · refine .inl ?_
    revert h
    cases valueAt? f.1 server.attributes with
    | none =>
      cases valueAt? f.1 base.attributes with
      | none =>
        intro _
        dsimp only
        split
        · exact .some rfl
        · exact .none
      | some w => nofun
    | some v =>
      cases valueAt? f.1 base.attributes with
      | none => nofun
      | some w => exact id
  · refine .inr ?_
    revert h
    cases valueAt? f.1 server.attributes with
    | none => nofun
    | some v => exact id

end

theorem stored_iff (fields : Attributes) :
    (∃ merged, assignEntries fields = .obj true merged ∧ merged.Perm fields) ↔
      ∀ v, ("__proto__", v) ∉ fields := by
  constructor
  · rintro ⟨merged, hassign, hperm⟩ v hv
    obtain ⟨-, rfl⟩ := JsValue.obj.inj hassign
    have hmem := (ownEntries_perm _).mem_iff.mp (hperm.mem_iff.mpr hv)
    simp [isProto] at hmem
  · intro hnone
    have hproto : ∀ f ∈ fields, isProto f = false := by
      rintro ⟨k, v⟩ hf
      refine decide_eq_false ?_
      rintro rfl
      exact hnone v hf
    have hfilter : (fields.filter fun f => !isProto f) = fields :=
      filter_eq_self.mpr fun f hf => by simp [hproto f hf]
    have hflag : (fields.all fun f => !(isProto f && setsPrototype f.2)) = true :=
      all_eq_true.mpr fun f hf => by simp [hproto f hf]
    refine ⟨ownEntries fields, ?_, ownEntries_perm fields⟩
    rw [assignEntries, hfilter, hflag]

theorem resolve_of_merges (h : ∀ f ∈ mutationAttributesFor m, merges base server f = true) :
    resolveSyncConflict (some base) m (some server) .fieldThreeWay versionAttribute =
      .applied (assignEntries (mutationAttributesFor m)) := by
  have hall : (mutationAttributesFor m).filter (merges base server) = mutationAttributesFor m :=
    filter_eq_self.mpr h
  have hnone : (mutationAttributesFor m).filter (fun f => !merges base server f) = [] :=
    filter_eq_nil_iff.mpr fun f hf => by simp [h f hf]
  simp [resolveSyncConflict, fieldThreeWayResult, hall, hnone]

theorem resolve_of_not_merges (hf : f ∈ mutationAttributesFor m) (h : merges base server f = false) :
    ∃ c, resolveSyncConflict (some base) m (some server) .fieldThreeWay versionAttribute =
      .conflict c ∧ c.affectedFields =
        ((mutationAttributesFor m).filter fun f => !merges base server f).map Prod.fst := by
  have hpos : 0 < (((mutationAttributesFor m).filter fun f => !merges base server f).map
      Prod.fst).length :=
    length_pos_of_mem (mem_map_of_mem (mem_filter.mpr ⟨hf, by simp [h]⟩))
  obtain ⟨c, hc, hfields⟩ : ∃ c, conflictResult
      (some (((mutationAttributesFor m).filter fun f => !merges base server f).map Prod.fst))
      (some base) m (some server) .fieldThreeWay versionAttribute = .conflict c ∧
        c.affectedFields =
          ((mutationAttributesFor m).filter fun f => !merges base server f).map Prod.fst :=
    ⟨_, rfl, rfl⟩
  refine ⟨c, Eq.trans ?_ hc, hfields⟩
  simp only [resolveSyncConflict, fieldThreeWayResult, if_pos hpos]
  rfl

theorem answers_iff (hbase : WellFormed base.attributes) (hserver : WellFormed server.attributes)
    (hm : WellFormed (mutationAttributesFor m)) :
    Answers base server m versionAttribute ↔ ProtoKept base server m := by
  have hmergeable : ∀ f ∈ mutationAttributesFor m, Mergeable base server f →
      merges base server f = true :=
    fun f hf => merges_of_mergeable hbase hserver (hm.json f hf)
  constructor
  · intro h v hv
    by_cases hall : ∀ f ∈ mutationAttributesFor m, merges base server f = true
    · -- the mutation is applied, without what it has under `__proto__`
      have hresolve := @resolve_of_merges base server m versionAttribute hall
      by_cases hspec : ∀ f ∈ mutationAttributesFor m, Mergeable base server f
      · obtain ⟨merged, happlied, hperm⟩ := h.applied hspec
        have hassign := Result.applied.inj (hresolve.symm.trans happlied)
        exact absurd hv ((stored_iff _).mp ⟨merged, hassign, hperm⟩ v)
      · obtain ⟨c, hconflict, -⟩ := h.conflict hspec
        cases hresolve.symm.trans hconflict
    · push Not at hall
      obtain ⟨f, hf, hnot⟩ := hall
      have hnot : merges base server f = false := by simpa using hnot
      refine ⟨⟨f, hf, hnot⟩, fun hproto => ?_⟩
      by_contra hneither
      obtain ⟨c, hconflict, hlisted⟩ := h.conflict fun hspec => hneither (hspec _ hv)
      obtain ⟨c', hresolve, hfields⟩ :=
        @resolve_of_not_merges base server m versionAttribute f hf hnot
      obtain rfl := Result.conflict.inj (hconflict.symm.trans hresolve)
      have hmem := (hlisted "__proto__").mpr ⟨v, hv, hneither⟩
      rw [hfields] at hmem
      obtain ⟨g, hg, hkey⟩ := mem_map.mp hmem
      obtain ⟨hg, hgnot⟩ := mem_filter.mp hg
      rw [eq_of_key hm.keys hg hv hkey, hproto] at hgnot
      cases hgnot
  · intro h
    have hiff : (∃ g ∈ mutationAttributesFor m, merges base server g = false) →
        ∀ f ∈ mutationAttributesFor m, merges base server f = true ↔ Mergeable base server f := by
      rintro - ⟨k, v⟩ hf
      by_cases hproto : k = "__proto__"
      · subst hproto
        exact ⟨(h v hf).2, hmergeable _ hf⟩
      · exact merges_iff_mergeable hbase hserver (hm.json _ hf) hproto
    refine ⟨fun hspec => ?_, fun hspec => ?_⟩
    · have hall := fun f hf => hmergeable f hf (hspec f hf)
      have hnone : ∀ v, ("__proto__", v) ∉ mutationAttributesFor m := by
        intro v hv
        obtain ⟨f, hf, hnot⟩ := (h v hv).1
        cases (hall f hf).symm.trans hnot
      obtain ⟨merged, hassign, hperm⟩ := (stored_iff _).mpr hnone
      exact ⟨merged, (resolve_of_merges hall).trans (congrArg _ hassign), hperm⟩
    · push Not at hspec
      obtain ⟨f, hf, hnot⟩ := hspec
      have hsome : ∃ g ∈ mutationAttributesFor m, merges base server g = false := by
        by_contra hall
        have hall : ∀ g ∈ mutationAttributesFor m, merges base server g = true := by simpa using hall
        by_cases hproto : f.1 = "__proto__"
        · obtain ⟨g, hg, hgnot⟩ := (h f.2 (hproto ▸ hf)).1
          cases (hall g hg).symm.trans hgnot
        · exact hnot ((merges_iff_mergeable hbase hserver (hm.json f hf) hproto).mp (hall f hf))
      obtain ⟨g, hg, hgnot⟩ := hsome
      obtain ⟨c, hconflict, hfields⟩ :=
        @resolve_of_not_merges base server m versionAttribute g hg hgnot
      refine ⟨c, hconflict, fun k => ?_⟩
      rw [hfields, mem_map]
      constructor
      · rintro ⟨x, hx, rfl⟩
        obtain ⟨hx, hxnot⟩ := mem_filter.mp hx
        refine ⟨x.2, hx, fun hspec => ?_⟩
        simp [(hiff ⟨g, hg, hgnot⟩ x hx).mpr hspec] at hxnot
      · rintro ⟨v, hv, hneither⟩
        refine ⟨(k, v), mem_filter.mpr ⟨hv, ?_⟩, rfl⟩
        simpa using mt (hiff ⟨g, hg, hgnot⟩ (k, v) hv).mp hneither

/-! ## Two mutations of one base -/

def assign (record : SyncConflictRecord) (attributes : Attributes) : SyncConflictRecord :=
  { record with
    attributes := attributes ++ record.attributes.filter fun f => f.1 ∉ attributes.map Prod.fst }

def Replayed (base server : SyncConflictRecord) (m : SyncMutation) (versionAttribute : String)
    (record : SyncConflictRecord) : Prop :=
  ∃ merged, Applies base server m versionAttribute merged ∧ record = assign server merged

/-- Both mutations are applied in either order, to one record. -/
def Commute (base : SyncConflictRecord) (m₁ m₂ : SyncMutation) (versionAttribute : String) : Prop :=
  ∃ r₁ r₁₂ r₂ r₂₁, Replayed base base m₁ versionAttribute r₁ ∧
    Replayed base r₁ m₂ versionAttribute r₁₂ ∧ Replayed base base m₂ versionAttribute r₂ ∧
      Replayed base r₂ m₁ versionAttribute r₂₁ ∧
        ∀ k, valueAt? k r₁₂.attributes = valueAt? k r₂₁.attributes

theorem valueAt?_assign (record : SyncConflictRecord) (attributes : Attributes) (k : String) :
    valueAt? k (assign record attributes).attributes =
      (valueAt? k attributes).or (valueAt? k record.attributes) := by
  have hnone : k ∉ attributes.map Prod.fst → valueAt? k (record.attributes.filter fun f =>
      f.1 ∉ attributes.map Prod.fst) = valueAt? k record.attributes := by
    intro hk
    rw [valueAt?, find?_filter]
    congr 2
    funext f
    by_cases hf : f.1 = k
    · simp [hf, hk]
    · simp [hf]
  have hsplit : valueAt? k (assign record attributes).attributes = (valueAt? k attributes).or
      (valueAt? k (record.attributes.filter fun f => f.1 ∉ attributes.map Prod.fst)) := by
    rw [assign, valueAt?, find?_append, Option.map_or]
    rfl
  rw [hsplit]
  by_cases hk : k ∈ attributes.map Prod.fst
  · obtain ⟨f, hf, rfl⟩ := mem_map.mp hk
    have hsome : (attributes.find? fun g => g.1 = f.1).isSome :=
      find?_isSome.mpr ⟨f, hf, decide_eq_true rfl⟩
    obtain ⟨g, hg⟩ := Option.isSome_iff_exists.mp hsome
    simp [valueAt?, hg]
  · rw [hnone hk]

theorem valueAt?_eq_none (h : k ∉ fields.map Prod.fst) : valueAt? k fields = none := by
  rw [valueAt?, Option.map_eq_none_iff, find?_eq_none]
  intro f hf heq
  exact h (mem_map.mpr ⟨f, hf, of_decide_eq_true heq⟩)

theorem merges_assign (h : f.1 ∉ fields.map Prod.fst) : merges base (assign base fields) f = true := by
  have hread : read (assign base fields).attributes f.1 = read base.attributes f.1 := by
    rw [read, read, valueAt?_assign, valueAt?_eq_none h, Option.none_or]
  simp [merges, hread, jsonValuesEqual]

theorem merges_self : merges base base f = true := by simp [merges, jsonValuesEqual]

theorem commute_iff {m₁ m₂ : SyncMutation}
    (hdisjoint : ∀ f ∈ mutationAttributesFor m₁, ∀ g ∈ mutationAttributesFor m₂, f.1 ≠ g.1) :
    Commute base m₁ m₂ versionAttribute ↔ ∀ v, ("__proto__", v) ∉ mutationAttributesFor m₁ ∧
      ("__proto__", v) ∉ mutationAttributesFor m₂ := by
  have hstored : ∀ {m r}, Replayed base base m versionAttribute r →
      ∀ v, ("__proto__", v) ∉ mutationAttributesFor m := by
    rintro m r ⟨merged, ⟨happlied, hperm⟩, -⟩
    have hresolve := @resolve_of_merges base base m versionAttribute fun f _ => merges_self
    exact (stored_iff _).mp ⟨merged, Result.applied.inj (hresolve.symm.trans happlied), hperm⟩
  constructor
  · rintro ⟨r₁, r₁₂, r₂, r₂₁, h₁, -, h₂, -⟩ v
    exact ⟨hstored h₁ v, hstored h₂ v⟩
  · intro hnone
    obtain ⟨fields₁, hassign₁, hperm₁⟩ := (stored_iff _).mpr fun v => (hnone v).1
    obtain ⟨fields₂, hassign₂, hperm₂⟩ := (stored_iff _).mpr fun v => (hnone v).2
    have hapart : ∀ k, k ∈ fields₁.map Prod.fst → k ∉ fields₂.map Prod.fst := by
      intro k hk hk'
      obtain ⟨f, hf, rfl⟩ := mem_map.mp hk
      obtain ⟨g, hg, hsame⟩ := mem_map.mp hk'
      exact hdisjoint f (hperm₁.mem_iff.mp hf) g (hperm₂.mem_iff.mp hg) hsame.symm
    have hmerges₂ : ∀ f ∈ mutationAttributesFor m₂, merges base (assign base fields₁) f = true :=
      fun f hf => merges_assign fun hkey =>
        hapart f.1 hkey (mem_map_of_mem (hperm₂.mem_iff.mpr hf))
    have hmerges₁ : ∀ f ∈ mutationAttributesFor m₁, merges base (assign base fields₂) f = true :=
      fun f hf => merges_assign (hapart f.1 (mem_map_of_mem (hperm₁.mem_iff.mpr hf)))
    have happlied : ∀ {server m fields}, assignEntries (mutationAttributesFor m) = .obj true fields →
        (∀ f ∈ mutationAttributesFor m, merges base server f = true) →
        resolveSyncConflict (some base) m (some server) .fieldThreeWay versionAttribute =
          .applied (.obj true fields) :=
      fun hassign hmerges => (resolve_of_merges hmerges).trans (congrArg _ hassign)
    refine ⟨_, _, _, _, ⟨fields₁, ⟨happlied hassign₁ fun f _ => merges_self, hperm₁⟩, rfl⟩,
      ⟨fields₂, ⟨happlied hassign₂ hmerges₂, hperm₂⟩, rfl⟩,
      ⟨fields₂, ⟨happlied hassign₂ fun f _ => merges_self, hperm₂⟩, rfl⟩,
      ⟨fields₁, ⟨happlied hassign₁ hmerges₁, hperm₁⟩, rfl⟩, fun k => ?_⟩
    rw [valueAt?_assign, valueAt?_assign, valueAt?_assign, valueAt?_assign]
    by_cases hk : k ∈ fields₁.map Prod.fst
    · simp [valueAt?_eq_none (hapart k hk)]
    · simp [valueAt?_eq_none hk]

end

/-- **A merge answers what it should** exactly if `__proto__` is kept out of it, and mutations of
different fields commute exactly if neither has an attribute `__proto__`. -/
theorem threeWay_iff (base : SyncConflictRecord) (versionAttribute : String)
    (hbase : WellFormed base.attributes) :
    (∀ server m, WellFormed server.attributes → HasDistinctFields m →
      (Answers base server m versionAttribute ↔ ProtoKept base server m)) ∧
    ∀ m₁ m₂, (∀ f ∈ mutationAttributesFor m₁, ∀ g ∈ mutationAttributesFor m₂, f.1 ≠ g.1) →
      (Commute base m₁ m₂ versionAttribute ↔ ∀ v, ("__proto__", v) ∉ mutationAttributesFor m₁ ∧
        ("__proto__", v) ∉ mutationAttributesFor m₂) :=
  ⟨fun _ _ hserver hm => answers_iff hbase hserver (wellFormed_mutationAttributesFor hm),
    fun _ _ => commute_iff⟩

def mutationOf (attributes : Attributes) : SyncMutation :=
  ⟨some (.obj true attributes), none, none, none, none, none⟩

/-- Two titles of one base. -/
theorem threeWay_titles :
    Commute ⟨[("title", .str "a")], none⟩ (mutationOf [("title", .str "b")])
      (mutationOf [("done", .bool true)]) "updatedAt" := by
  refine ((threeWay_iff ⟨[("title", .str "a")], none⟩ "updatedAt" ⟨by decide, by decide⟩).2 _ _
    ?_).mpr fun v => ?_
  · simp [mutationOf, mutationAttributesFor]
  · simp [mutationOf, mutationAttributesFor]

/-- **What is under `__proto__` is lost**, where the mutation is applied. -/
theorem proto_lost :
    resolveSyncConflict (some ⟨[], none⟩) (mutationOf [("__proto__", .str "x")]) (some ⟨[], none⟩)
        .fieldThreeWay "updatedAt" = .applied (.obj true []) ∧
      ¬ Answers ⟨[], none⟩ ⟨[], none⟩ (mutationOf [("__proto__", .str "x")]) "updatedAt" := by
  have hempty : WellFormed [] := ⟨nodup_nil, nofun⟩
  refine ⟨rfl, fun h => ?_⟩
  have hkept := (answers_iff hempty hempty ⟨by decide, by decide⟩).mp h
  obtain ⟨⟨f, -, hnot⟩, -⟩ := hkept (.str "x") (List.mem_singleton.mpr rfl)
  cases merges_self.symm.trans hnot

end Velocious.FieldThreeWay
