/-
  The canonical form that sync signatures are made over (src/sync/device-identity.js):
  `deterministicJson`, which rebuilds a value with sorted keys.

  `normalized[key] = value` is no plain store for the key `__proto__`: an object, an array or
  `null` becomes the prototype of `normalized`, and anything else is dropped.

  * `normal`: the value it builds, where it does not throw (`deterministicJson_ok`).
-/
import Velocious.Foundation.JsonText

namespace Velocious.DeviceIdentity

open Foundation Foundation.JsValue List

/-! ## The function -/

/-- What an assignment to `__proto__` takes for a prototype. -/
def setsPrototype : JsValue → Bool
  | .null | .arr _ | .obj _ _ => true
  | .bool _ | .num _ | .str _ => false

def isProto (f : String × JsValue) : Bool := f.1 = "__proto__"

/-- `{}` after `normalized[key] = value` for each entry, in order. -/
def assignEntries (entries : List (String × JsValue)) : JsValue :=
  .obj (entries.all fun f => !(isProto f && setsPrototype f.2))
    (ownEntries (entries.filter fun f => !isProto f))

/-- The entries, if no value threw. -/
def sequenceEntries :
    List (String × Except String JsValue) → Except String (List (String × JsValue))
  | [] => .ok []
  | (k, v) :: entries => do
    let childValue ← v
    return (k, childValue) :: (← sequenceEntries entries)

mutual

/-- Normalizes deterministic JSON with sorted object keys. Fields whose value is
    `undefined` are skipped; they are not in `fields`. -/
def deterministicJson (label : String) : JsValue → Except String JsValue
  | .null => .ok .null
  | .bool b => .ok (.bool b)
  | .num x => .ok (.num x)
  | .str s => .ok (.str s)
  | .arr items => return .arr (← deterministicItems label 0 items)
  | .obj true fields =>
    return assignEntries (← sequenceEntries (sortEntries (deterministicFields label fields)))
  | .obj false _ => .error ("Sync " ++ label ++ " must be deterministic JSON")

def deterministicItems (label : String) (index : ℕ) : List JsValue → Except String (List JsValue)
  | [] => .ok []
  | v :: items => do
    let entry ← deterministicJson (label ++ "/" ++ toString index) v
    return entry :: (← deterministicItems label (index + 1) items)

/-- What each field's value gives; the loop runs through them in sorted order. -/
def deterministicFields (label : String) :
    List (String × JsValue) → List (String × Except String JsValue)
  | [] => []
  | (k, v) :: fields =>
    (k, deterministicJson (label ++ "/" ++ k) v) :: deterministicFields label fields

end

def deterministicJsonObject (label : String) (value : JsValue) : Except String JsValue := do
  match ← deterministicJson label value with
  | .obj o fields => return .obj o fields
  | .null | .bool _ | .num _ | .str _ | .arr _ => .error ("Expected sync " ++ label ++ " object")

/-- Stable JSON stringifier with sorted object keys. -/
def stableJsonStringify (value : JsValue) : Except String (List Char) :=
  return write (← deterministicJson "root" value)

/-! ## What it builds -/

def normal (v : JsValue) : JsValue :=
  rebuild id (fun _ fields => assignEntries (sortEntries fields)) v

theorem normal_arr (items : List JsValue) : normal (.arr items) = .arr (items.map normal) :=
  rebuild_arr _ _ items

theorem normal_obj (o : Bool) (fields : List (String × JsValue)) :
    normal (.obj o fields) =
      assignEntries (sortEntries (fields.map fun f => (f.1, normal f.2))) :=
  rebuild_obj _ _ o fields

theorem sequenceEntries_ok (entries : List (String × JsValue)) :
    sequenceEntries (entries.map fun f => (f.1, .ok f.2)) = .ok entries := by
  induction entries with
  | nil => rfl
  | cons f entries ih =>
    rw [map_cons, sequenceEntries, ih]
    rfl

theorem ok_of_sequenceEntries {entries : List (String × Except String JsValue)}
    {l : List (String × JsValue)} (h : sequenceEntries entries = .ok l) :
    ∀ f ∈ entries, ∃ w, f.2 = .ok w := by
  induction entries generalizing l with
  | nil => simp
  | cons f entries ih =>
    obtain ⟨k, v⟩ := f
    cases v with
    | error message => cases h
    | ok w =>
      cases hrest : sequenceEntries entries with
      | error message =>
        rw [sequenceEntries, hrest] at h
        cases h
      | ok rest =>
        intro g hg
        rcases mem_cons.mp hg with rfl | hg
        · exact ⟨w, rfl⟩
        · exact ih hrest g hg

theorem deterministicFields_eq (label : String) (fields : List (String × JsValue)) :
    deterministicFields label fields =
      fields.map fun f => (f.1, deterministicJson (label ++ "/" ++ f.1) f.2) := by
  induction fields with
  | nil => rfl
  | cons f fields ih => rw [deterministicFields, ih, map_cons]

variable {label : String}

theorem deterministicItems_eq {items : List JsValue}
    (h : ∀ v ∈ items, ∀ label, deterministicJson label v = .ok (normal v)) (index : ℕ) :
    deterministicItems label index items = .ok (items.map normal) := by
  induction items generalizing index with
  | nil => rfl
  | cons v items ih =>
    rw [deterministicItems, h v mem_cons_self,
      ih (fun w hw => h w (mem_cons_of_mem v hw))]
    rfl

variable {v : JsValue}

theorem deterministicJson_eq (hv : all isOrdinary v = true) (label : String) :
    deterministicJson label v = .ok (normal v) := by
  induction v using induct generalizing label with
  | arr items ih =>
    obtain ⟨-, hitems⟩ := all_arr.mp hv
    rw [deterministicJson, deterministicItems_eq fun v hmem => ih v hmem (hitems v hmem),
      normal_arr]
    rfl
  | obj o fields ih =>
    obtain ⟨ho, hfields⟩ := all_obj.mp hv
    obtain rfl : o = true := ho
    have hmap : deterministicFields label fields =
        (fields.map fun f => (f.1, normal f.2)).map fun f => (f.1, .ok f.2) := by
      rw [deterministicFields_eq, map_map]
      refine map_congr_left fun f hf => ?_
      rw [ih f hf (hfields f hf)]
      rfl
    rw [deterministicJson, hmap, sortEntries_map, sequenceEntries_ok, normal_obj]
    rfl
  | null => rfl
  | bool b => rfl
  | num x => rfl
  | str s => rfl

theorem ok_of_deterministicItems {index : ℕ} {items l : List JsValue}
    (h : deterministicItems label index items = .ok l) :
    ∀ v ∈ items, ∃ label w, deterministicJson label v = .ok w := by
  induction items generalizing index l with
  | nil => simp
  | cons v items ih =>
    rw [deterministicItems] at h
    cases hv : deterministicJson (label ++ "/" ++ toString index) v with
    | error message =>
      rw [hv] at h
      cases h
    | ok w =>
      cases hrest : deterministicItems label (index + 1) items with
      | error message =>
        rw [hv, hrest] at h
        cases h
      | ok rest =>
        intro u hu
        rcases mem_cons.mp hu with rfl | hu
        · exact ⟨_, w, hv⟩
        · exact ih hrest u hu

theorem ordinary_of_deterministicJson {w : JsValue}
    (h : deterministicJson label v = .ok w) : all isOrdinary v = true := by
  induction v using induct generalizing label w with
  | arr items ih =>
    refine all_arr.mpr ⟨rfl, fun v hv => ?_⟩
    rw [deterministicJson] at h
    cases hitems : deterministicItems label 0 items with
    | error message =>
      rw [hitems] at h
      cases h
    | ok l =>
      obtain ⟨label', w', hw'⟩ := ok_of_deterministicItems hitems v hv
      exact ih v hv hw'
  | obj o fields ih =>
    cases o with
    | false => cases h
    | true =>
      refine all_obj.mpr ⟨rfl, fun f hf => ?_⟩
      rw [deterministicJson, deterministicFields_eq] at h
      cases hentries : sequenceEntries (sortEntries (fields.map fun f =>
          (f.1, deterministicJson (label ++ "/" ++ f.1) f.2))) with
      | error message =>
        rw [hentries] at h
        cases h
      | ok l =>
        obtain ⟨w', hw'⟩ := ok_of_sequenceEntries hentries
          (f.1, deterministicJson (label ++ "/" ++ f.1) f.2)
          ((sortEntries_perm _).mem_iff.mpr (mem_map_of_mem hf))
        exact ih f hf hw'
  | null => rfl
  | bool b => rfl
  | num x => rfl
  | str s => rfl

/-- **What `deterministicJson` returns.** -/
theorem deterministicJson_ok {w : JsValue} :
    deterministicJson label v = .ok w ↔ all isOrdinary v = true ∧ w = normal v := by
  constructor
  · intro h
    have hv := ordinary_of_deterministicJson h
    rw [deterministicJson_eq hv] at h
    exact ⟨hv, (Except.ok.inj h).symm⟩
  · rintro ⟨hv, rfl⟩
    exact deterministicJson_eq hv label

/-! ## Predicates that the canonical form keeps -/

/-- No key of an object is `__proto__`. -/
def hasNoProto : JsValue → Bool
  | .obj _ fields => fields.all fun f => !isProto f
  | .null | .bool _ | .num _ | .str _ | .arr _ => true

def hasDistinctKeys : JsValue → Bool
  | .obj _ fields => decide (fields.map Prod.fst).Nodup
  | .null | .bool _ | .num _ | .str _ | .arr _ => true

/-- The value without the fields under `__proto__`. -/
def dropProto (v : JsValue) : JsValue :=
  rebuild id (fun o fields => .obj o (fields.filter fun f => !isProto f)) v

theorem dropProto_arr (items : List JsValue) :
    dropProto (.arr items) = .arr (items.map dropProto) := rebuild_arr _ _ items

theorem dropProto_obj (o : Bool) (fields : List (String × JsValue)) :
    dropProto (.obj o fields) =
      .obj o ((fields.map fun f => (f.1, dropProto f.2)).filter fun f => !isProto f) :=
  rebuild_obj _ _ o fields

theorem keys_map {α β : Type*} (g : α → β) (fields : List (String × α)) :
    (fields.map fun f => (f.1, g f.2)).map Prod.fst = fields.map Prod.fst := by
  rw [map_map]
  rfl

theorem assignEntries_sorted {entries : List (String × JsValue)}
    (h : ∀ f ∈ entries, isProto f = false) :
    assignEntries (sortEntries entries) = .obj true (orderEntries entries) := by
  have hnone : ∀ f ∈ sortEntries entries, (!isProto f) = true := by
    intro f hf
    rw [h f ((sortEntries_perm entries).mem_iff.mp hf)]
    rfl
  have hflag : (sortEntries entries).all (fun f => !(isProto f && setsPrototype f.2)) = true := by
    refine all_eq_true.mpr fun f hf => ?_
    rw [h f ((sortEntries_perm entries).mem_iff.mp hf)]
    rfl
  rw [assignEntries, filter_eq_self.mpr hnone, hflag]
  rfl

variable {fields : List (String × JsValue)}

theorem isProto_of_hasNoProto {o : Bool}
    (h : hasNoProto (.obj o fields) = true) : ∀ f ∈ fields, isProto f = false := by
  intro f hf
  simpa using all_eq_true.mp h f hf

theorem normal_obj_fields (o : Bool)
    (hkeys : (fields.map Prod.fst).Nodup) : ∃ o', normal (.obj o fields) =
      .obj o' (orderEntries ((fields.map fun f => (f.1, normal f.2)).filter fun f => !isProto f)) := by
  have hkeys' : ((fields.map fun f => (f.1, normal f.2)).map Prod.fst).Nodup := by
    rw [keys_map]
    exact hkeys
  refine ⟨(sortEntries (fields.map fun f => (f.1, normal f.2))).all fun f =>
    !(isProto f && setsPrototype f.2), ?_⟩
  rw [normal_obj, assignEntries, filter_sortEntries _ hkeys']
  rfl

theorem mem_normal_fields {entries : List (String × JsValue)} {o o' : Bool}
    (hnormal : normal (.obj o fields) = .obj o' entries) (f : String × JsValue) :
    f ∈ entries ↔ isProto f = false ∧ ∃ g ∈ fields, f = (g.1, normal g.2) := by
  rw [normal_obj] at hnormal
  rw [← (obj.inj hnormal).2, (ownEntries_perm _).mem_iff, mem_filter,
    (sortEntries_perm _).mem_iff, mem_map, Bool.not_eq_true']
  constructor
  · rintro ⟨⟨g, hg, rfl⟩, hproto⟩
    exact ⟨hproto, g, hg, rfl⟩
  · rintro ⟨hproto, g, hg, rfl⟩
    exact ⟨⟨g, hg, rfl⟩, hproto⟩

theorem noProto_normal (v : JsValue) : all hasNoProto (normal v) = true := by
  induction v using induct with
  | arr items ih =>
    rw [normal_arr]
    exact all_arr.mpr ⟨rfl, forall_mem_map.mpr ih⟩
  | obj o fields ih =>
    obtain ⟨o', entries, hentries⟩ : ∃ o' entries, normal (.obj o fields) = .obj o' entries :=
      ⟨_, _, normal_obj o fields⟩
    rw [hentries]
    refine all_obj.mpr ⟨all_eq_true.mpr fun f hf => ?_, fun f hf => ?_⟩
    · rw [((mem_normal_fields hentries f).mp hf).1]
      rfl
    · obtain ⟨-, g, hg, rfl⟩ := (mem_normal_fields hentries f).mp hf
      exact ih g hg
  | null | bool _ | num _ | str _ => rfl

theorem distinct_normal (hv : all hasDistinctKeys v = true) :
    all hasDistinctKeys (normal v) = true := by
  induction v using induct with
  | arr items ih =>
    rw [normal_arr]
    obtain ⟨-, hitems⟩ := all_arr.mp hv
    exact all_arr.mpr ⟨rfl, forall_mem_map.mpr fun v hmem => ih v hmem (hitems v hmem)⟩
  | obj o fields ih =>
    obtain ⟨hkeys, hfields⟩ := all_obj.mp hv
    obtain ⟨o', hentries⟩ := normal_obj_fields o (of_decide_eq_true hkeys)
    rw [hentries]
    refine all_obj.mpr ⟨decide_eq_true (keys_orderEntries (keys_filter _ ?_)), fun f hf => ?_⟩
    · rw [keys_map]
      exact of_decide_eq_true hkeys
    · obtain ⟨-, g, hg, rfl⟩ := (mem_normal_fields hentries f).mp hf
      exact ih g hg (hfields g hg)
  | null | bool _ | num _ | str _ => rfl

theorem all_normal {p : JsValue → Bool} (hp : ∀ v : JsValue, v.isScalar = false → p v = true)
    (v : JsValue) : all p (normal v) = true ↔ all p (dropProto v) = true := by
  induction v using induct with
  | arr items ih =>
    rw [normal_arr, dropProto_arr, all_arr, all_arr, hp _ rfl, hp _ rfl, forall_mem_map,
      forall_mem_map]
    exact and_congr_right fun _ => forall₂_congr ih
  | obj o fields ih =>
    obtain ⟨o', entries, hentries⟩ : ∃ o' entries, normal (.obj o fields) = .obj o' entries :=
      ⟨_, _, normal_obj o fields⟩
    rw [hentries, dropProto_obj, all_obj, all_obj, hp _ rfl, hp _ rfl]
    refine and_congr_right fun _ => ⟨fun h f hf => ?_, fun h f hf => ?_⟩
    · obtain ⟨hmem, hproto⟩ := mem_filter.mp hf
      obtain ⟨g, hg, rfl⟩ := mem_map.mp hmem
      exact (ih g hg).mp (h (g.1, normal g.2) ((mem_normal_fields hentries _).mpr
        ⟨by simpa [isProto] using hproto, g, hg, rfl⟩))
    · obtain ⟨hproto, g, hg, rfl⟩ := (mem_normal_fields hentries f).mp hf
      exact (ih g hg).mpr (h (g.1, dropProto g.2) (mem_filter.mpr
        ⟨mem_map_of_mem hg, by simpa [isProto] using hproto⟩))
  | null | bool _ | num _ | str _ => rfl

theorem dropProto_eq_self (hv : all hasNoProto v = true) : dropProto v = v := by
  induction v using induct with
  | arr items ih =>
    obtain ⟨-, hitems⟩ := all_arr.mp hv
    rw [dropProto_arr]
    exact congrArg arr ((map_congr_left (g := id) fun v hmem =>
      ih v hmem (hitems v hmem)).trans (map_id items))
  | obj o fields ih =>
    obtain ⟨hproto, hfields⟩ := all_obj.mp hv
    have hfield : ∀ f ∈ fields, (f.1, dropProto f.2) = f := fun f hf =>
      Prod.ext rfl (ih f hf (hfields f hf))
    have hmap : fields.map (fun f => (f.1, dropProto f.2)) = fields :=
      (map_congr_left (g := id) hfield).trans (map_id fields)
    rw [dropProto_obj, hmap, filter_eq_self.mpr (all_eq_true.mp hproto)]
  | null | bool _ | num _ | str _ => rfl

/-- **A second pass changes nothing.** -/
theorem normal_normal (hkeys : all hasDistinctKeys v = true)
    (hordinary : all isOrdinary (normal v) = true) : normal (normal v) = normal v := by
  induction v using induct with
  | arr items ih =>
    rw [normal_arr] at hordinary ⊢
    have hitems := (all_arr.mp hordinary).2
    rw [normal_arr, map_map]
    exact congrArg arr (map_congr_left fun v hv => ih v hv ((all_arr.mp hkeys).2 v hv)
      (hitems _ (mem_map_of_mem hv)))
  | obj o fields ih =>
    obtain ⟨hnodup, hfields⟩ := all_obj.mp hkeys
    have hnodup' : ((fields.map fun f => (f.1, normal f.2)).map Prod.fst).Nodup := by
      rw [keys_map]
      exact of_decide_eq_true hnodup
    obtain ⟨o', hentries⟩ := normal_obj_fields o (of_decide_eq_true hnodup)
    have hentry := mem_normal_fields hentries
    rw [hentries] at hordinary ⊢
    generalize hl : orderEntries ((fields.map fun f => (f.1, normal f.2)).filter
      fun f => !isProto f) = entries at *
    obtain ⟨ho, hall⟩ := all_obj.mp hordinary
    obtain rfl : o' = true := ho
    have hfield : ∀ f ∈ entries, (f.1, normal f.2) = f := by
      intro f hf
      obtain ⟨-, g, hg, rfl⟩ := (hentry f).mp hf
      exact Prod.ext rfl (ih g hg (hfields g hg) (hall _ hf))
    have hmap : entries.map (fun f => (f.1, normal f.2)) = entries :=
      (map_congr_left (g := id) hfield).trans (map_id entries)
    have hassign := assignEntries_sorted fun f hf => ((hentry f).mp hf).1
    rw [normal_obj, hmap, hassign, ← hl, orderEntries_orderEntries (keys_filter _ hnodup')]
  | null | bool _ | num _ | str _ => rfl

theorem normal_relabel {leaf : JsValue → JsValue} {flag : Bool → Bool}
    (hleaf : ∀ v, v.isScalar = true → (leaf v).isScalar = true) (hflag : flag true = true)
    (hv : all hasNoProto v = true) :
    normal (relabel leaf flag v) = relabel leaf flag (normal v) := by
  have hscalar : ∀ w : JsValue, w.isScalar = true →
      normal (relabel leaf flag w) = relabel leaf flag (normal w) := by
    intro w hw
    have hnormal : ∀ u : JsValue, u.isScalar = true → normal u = u := by
      intro u hu
      cases u with
      | arr items => cases hu
      | obj o fields => cases hu
      | null | bool _ | num _ | str _ => rfl
    rw [hnormal w hw, relabel_scalar hw, hnormal _ (hleaf w hw)]
  induction v using induct with
  | arr items ih =>
    obtain ⟨-, hitems⟩ := all_arr.mp hv
    rw [relabel_arr, normal_arr, normal_arr, relabel_arr, map_map, map_map]
    exact congrArg arr (map_congr_left fun v hmem => ih v hmem (hitems v hmem))
  | obj o fields ih =>
    obtain ⟨hproto, hfields⟩ := all_obj.mp hv
    have hassign : ∀ g : JsValue → JsValue,
        assignEntries (sortEntries (fields.map fun f => (f.1, g f.2))) =
          .obj true (orderEntries (fields.map fun f => (f.1, g f.2))) := by
      intro g
      refine assignEntries_sorted fun f hf => ?_
      obtain ⟨h, hh, rfl⟩ := mem_map.mp hf
      exact isProto_of_hasNoProto hproto h hh
    have hmap : (fields.map fun f => (f.1, relabel leaf flag f.2)).map (fun f => (f.1, normal f.2)) =
        (fields.map fun f => (f.1, normal f.2)).map fun f => (f.1, relabel leaf flag f.2) := by
      rw [map_map, map_map]
      exact map_congr_left fun f hf => Prod.ext rfl (ih f hf (hfields f hf))
    rw [relabel_obj, normal_obj, map_map]
    refine (hassign fun v => normal (relabel leaf flag v)).trans ?_
    rw [normal_obj, hassign normal, relabel_obj, hflag, ← orderEntries_map, ← hmap, map_map]
    rfl
  | null | bool _ | num _ | str _ => exact hscalar _ rfl

theorem field?_normal (hv : all hasDistinctKeys v = true) {name : String}
    (hname : name ≠ "__proto__") : (normal v).field? name = (v.field? name).map normal := by
  cases v with
  | obj o fields =>
    have hnodup : (fields.map Prod.fst).Nodup := of_decide_eq_true (all_obj.mp hv).1
    obtain ⟨o', hentries⟩ := normal_obj_fields o hnodup
    have hkeys : ((fields.map fun f => (f.1, normal f.2)).map Prod.fst).Nodup := by
      rw [keys_map]
      exact hnodup
    rw [hentries]
    refine (valueAt?_eq_of_perm (keys_orderEntries (keys_filter _ hkeys))
      (orderEntries_perm _)).trans ?_
    refine Option.ext fun w => ?_
    rw [valueAt?_eq_some (keys_filter _ hkeys), field?, ← valueAt?_map, valueAt?_eq_some hkeys,
      mem_filter]
    exact and_iff_left (by simp [isProto, hname])
  | arr items =>
    rfl
  | null | bool _ | num _ | str _ => rfl

/-! ## Equality up to the order of fields -/

/-- The value with the fields of every object sorted. -/
def sortAll (v : JsValue) : JsValue := rebuild id (fun o fields => .obj o (sortEntries fields)) v

/-- The same fields at every depth. -/
def Same (v w : JsValue) : Prop := sortAll v = sortAll w

theorem sortAll_arr (items : List JsValue) : sortAll (.arr items) = .arr (items.map sortAll) :=
  rebuild_arr _ _ items

theorem sortAll_obj (o : Bool) (fields : List (String × JsValue)) :
    sortAll (.obj o fields) = .obj o (sortEntries (fields.map fun f => (f.1, sortAll f.2))) :=
  rebuild_obj _ _ o fields

def hasFiniteNumber : JsValue → Bool
  | .num x => x.isFinite
  | .null | .bool _ | .str _ | .arr _ | .obj _ _ => true

/-- What only looks at a value's scalars and keys. -/
structure OnKeys (p : JsValue → Bool) : Prop where
  arr : ∀ items items' : List JsValue, p (.arr items) = p (.arr items')
  obj : ∀ o fields fields', (fields.map Prod.fst).Perm (fields'.map Prod.fst) →
    p (.obj o fields) = p (.obj o fields')

theorem hasFiniteNumber_onKeys : OnKeys hasFiniteNumber := ⟨fun _ _ => rfl, fun _ _ _ _ => rfl⟩

theorem hasNoProto_onKeys : OnKeys hasNoProto := by
  refine ⟨fun _ _ => rfl, fun o fields fields' hperm => ?_⟩
  have hkeys : ∀ l : List (String × JsValue),
      hasNoProto (.obj o l) = (l.map Prod.fst).all fun k => !decide (k = "__proto__") := by
    intro l
    rw [all_map]
    rfl
  rw [hkeys, hkeys]
  exact hperm.all_eq

theorem all_sortAll {p : JsValue → Bool} (hp : OnKeys p) (v : JsValue) :
    all p (sortAll v) = true ↔ all p v = true := by
  induction v using induct with
  | arr items ih =>
    rw [sortAll_arr, all_arr, all_arr, hp.arr _ items, forall_mem_map]
    exact and_congr_right fun _ => forall₂_congr ih
  | obj o fields ih =>
    have hperm := sortEntries_perm (fields.map fun f => (f.1, sortAll f.2))
    have hkeys : ((sortEntries (fields.map fun f => (f.1, sortAll f.2))).map Prod.fst).Perm
        (fields.map Prod.fst) := by
      rw [← keys_map sortAll fields]
      exact hperm.map Prod.fst
    rw [sortAll_obj, all_obj, all_obj, hp.obj o _ _ hkeys]
    refine and_congr_right fun _ => ⟨fun h f hf => ?_, fun h f hf => ?_⟩
    · exact (ih f hf).mp (h (f.1, sortAll f.2) (hperm.mem_iff.mpr (mem_map_of_mem hf)))
    · obtain ⟨g, hg, rfl⟩ := mem_map.mp (hperm.mem_iff.mp hf)
      exact (ih g hg).mpr (h g hg)
  | null | bool _ | num _ | str _ => rfl

theorem ordinary_normal (hordinary : all isOrdinary v = true)
    (hproto : all hasNoProto v = true) : all isOrdinary (normal v) = true := by
  induction v using induct with
  | arr items ih =>
    obtain ⟨-, hitems⟩ := all_arr.mp hordinary
    rw [normal_arr]
    exact all_arr.mpr ⟨rfl, forall_mem_map.mpr fun v hv =>
      ih v hv (hitems v hv) ((all_arr.mp hproto).2 v hv)⟩
  | obj o fields ih =>
    obtain ⟨-, hfields⟩ := all_obj.mp hordinary
    obtain ⟨hnone, hprotos⟩ := all_obj.mp hproto
    have hassign := @assignEntries_sorted (fields.map fun f => (f.1, normal f.2))
      (forall_mem_map.mpr fun f hf => isProto_of_hasNoProto hnone f hf)
    rw [normal_obj, hassign]
    refine all_obj.mpr ⟨rfl, fun f hf => ?_⟩
    obtain ⟨g, hg, rfl⟩ := mem_map.mp ((orderEntries_perm _).mem_iff.mp hf)
    exact ih g hg (hfields g hg) (hprotos g hg)
  | null | bool _ | num _ | str _ => rfl

theorem same_normal (hkeys : all hasDistinctKeys v = true)
    (hordinary : all isOrdinary v = true) (hproto : all hasNoProto v = true) :
    Same (normal v) v := by
  unfold Same
  induction v using induct with
  | arr items ih =>
    rw [normal_arr, sortAll_arr, sortAll_arr, map_map]
    exact congrArg arr (map_congr_left fun v hv => ih v hv ((all_arr.mp hkeys).2 v hv)
      ((all_arr.mp hordinary).2 v hv) ((all_arr.mp hproto).2 v hv))
  | obj o fields ih =>
    obtain ⟨hnodup, hfields⟩ := all_obj.mp hkeys
    obtain ⟨ho, hordinaries⟩ := all_obj.mp hordinary
    obtain ⟨hnone, hprotos⟩ := all_obj.mp hproto
    obtain rfl : o = true := ho
    have hassign := @assignEntries_sorted (fields.map fun f => (f.1, normal f.2))
      (forall_mem_map.mpr fun f hf => isProto_of_hasNoProto hnone f hf)
    have hmap : (fields.map fun f => (f.1, normal f.2)).map (fun f => (f.1, sortAll f.2)) =
        fields.map fun f => (f.1, sortAll f.2) := by
      rw [map_map]
      exact map_congr_left fun f hf =>
        Prod.ext rfl (ih f hf (hfields f hf) (hordinaries f hf) (hprotos f hf))
    have hkeys' : ((fields.map fun f => (f.1, sortAll f.2)).map Prod.fst).Nodup := by
      rw [keys_map]
      exact of_decide_eq_true hnodup
    rw [normal_obj, hassign, sortAll_obj, sortAll_obj, ← hmap]
    rw [← hmap] at hkeys'
    exact congrArg (obj true) (sortEntries_eq_of_perm hkeys' ((orderEntries_perm _).map _).symm).symm
  | null | bool _ | num _ | str _ => rfl

theorem written_of_finite (hordinary : all isOrdinary v = true)
    (hfinite : all hasFiniteNumber v = true) : all isWritten v = true := by
  refine all_of_and (fun w ho hf => ?_) hordinary hfinite
  cases w with
  | num x => exact hf
  | obj o fields => exact ho
  | null | bool _ | str _ | arr _ => rfl

theorem finite_of_written (hv : all isWritten v = true) : all hasFiniteNumber v = true := by
  refine all_imp (fun w hw => ?_) hv
  cases w with
  | num x => exact hw
  | null | bool _ | str _ | arr _ | obj _ _ => rfl

theorem noProto_relabel {leaf : JsValue → JsValue} {flag : Bool → Bool}
    (hleaf : ∀ v, v.isScalar = true → (leaf v).isScalar = true) (hv : all hasNoProto v = true) :
    all hasNoProto (relabel leaf flag v) = true := by
  refine all_relabel (fun w hw _ => ?_) (fun _ _ _ => rfl) (fun o fields g h => ?_) hv
  · have hscalar := hleaf w hw
    cases hleafw : leaf w with
    | null | bool _ | num _ | str _ => rfl
    | arr items => rw [hleafw] at hscalar; cases hscalar
    | obj o fields => rw [hleafw] at hscalar; cases hscalar
  · refine all_eq_true.mpr fun f hf => ?_
    obtain ⟨f', hf', rfl⟩ := mem_map.mp hf
    exact all_eq_true.mp h f' hf'

/-- **What comes back through JSON** is the value itself, if its numbers are finite and not -0
    and no key is `__proto__`. -/
theorem same_viaJson_normal (hkeys : all hasDistinctKeys v = true)
    (hordinary : all isOrdinary v = true) :
    Same (viaJson (normal v)) v ↔ all hasFiniteNumber v = true ∧ all hasNoProto v = true := by
  constructor
  · intro hsame
    have hback : ∀ {p : JsValue → Bool}, OnKeys p → all p (viaJson (normal v)) = true →
        all p v = true := by
      intro p hp hall
      have hsorted := (all_sortAll hp _).mpr hall
      rw [hsame] at hsorted
      exact (all_sortAll hp v).mp hsorted
    exact ⟨hback hasFiniteNumber_onKeys (finite_of_written (written_viaJson _)),
      hback hasNoProto_onKeys (noProto_relabel (fun _ => rereadScalar_scalar) (noProto_normal v))⟩
  · rintro ⟨hfinite, hproto⟩
    have hall : all hasFiniteNumber (normal v) = true := by
      refine (all_normal (fun w hw => ?_) v).mpr ?_
      · cases w with
        | arr items => rfl
        | obj o fields => rfl
        | null | bool _ | num _ | str _ => cases hw
      · rw [dropProto_eq_self hproto]
        exact hfinite
    rw [viaJson_of_written (written_of_finite (ordinary_normal hordinary hproto) hall)]
    exact same_normal hkeys hordinary hproto

end Velocious.DeviceIdentity
