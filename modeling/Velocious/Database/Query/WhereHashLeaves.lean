/-
  What the SQL condition of a where hash says about its leaves.

  * `Fits` is a hash over the relationships of a model graph; `leaves` are its leaves, each with the
    model and the join path it is read at.
  * A leaf compiles to one comparison. `Asks` is the one that it asks for; an array that
    `isTuple` is compiled to what the tuple asks for instead.
  * `whereSQLFromHash_conj`: a hash compiles to the conjunction of its leaves, with `AND` in front of
    every comparison but the first, provided that the hash `Leads` with a leaf.
  * `where_hash`: when the condition says what the hash says.
-/
import Mathlib.Data.List.Forall2
import Velocious.Database.Query.WhereModelClassHash

namespace Velocious.WhereModelClassHash

open Foundation List

variable {μ ν : Type}

/-! ## Hashes and leaves -/

def isScalar : Json → Bool
  | .arr _ | .obj _ => false
  | _ => true

/-- A scalar, `null`, or an array of these. -/
def isLeaf : Json → Bool
  | .arr items => items.all isScalar
  | value => isScalar value

/-- A hash of attributes and relationships, with leaves under the attributes. -/
inductive Fits (g : Models μ) : μ → WhereHash → Prop
  | nil (m : μ) : Fits g m []
  | leaf {m : μ} {key : String} {value : Json} {column : String} {hash : WhereHash} :
      isLeaf value = true → resolveColumnName g m key = some column → Fits g m hash →
      Fits g m ((key, value) :: hash)
  | nested {m target : μ} {key : String} {inner hash : WhereHash} :
      g.relationship m key = some (some target) → Fits g target inner → Fits g m hash →
      Fits g m ((key, .obj inner) :: hash)

/-- A leaf, with the model and the join path of its hash. -/
structure Leaf (μ : Type) where
  model : μ
  path : List String
  key : String
  value : Json

mutual

def leavesAt (g : Models μ) (m : μ) (path : List String) (key : String) : Json → List (Leaf μ)
  | .obj hash =>
    match g.relationship m key with
    | some (some target) => leaves g target (path ++ [key]) hash
    | _ => []
  | value => [⟨m, path, key, value⟩]

def leaves (g : Models μ) (m : μ) (path : List String) : WhereHash → List (Leaf μ)
  | [] => []
  | (key, value) :: hash => leavesAt g m path key value ++ leaves g m path hash

end

/-- No empty hash stands before the first leaf, and there is one. -/
inductive Leads : WhereHash → Prop
  | leaf {key : String} {value : Json} {hash : WhereHash} : isHash value = false →
      Leads ((key, value) :: hash)
  | nested {key : String} {inner hash : WhereHash} : Leads inner →
      Leads ((key, .obj inner) :: hash)

namespace Leaf

/-- An array that is taken for an operator tuple: three members, of which the first is a string and
    the second names an operator. -/
def isTuple (leaf : Leaf μ) : Bool :=
  match leaf.value with
  | .arr items => items.length = 3 && (tuple? items).isSome
  | _ => false

def Holds (g : Models μ) (d : Comparisons ν) (row : JoinedRow ν) (leaf : Leaf μ) : Prop :=
  HoldsAt g d row leaf.model leaf.path leaf.key leaf.value

def read (g : Models μ) (row : JoinedRow ν) (leaf : Leaf μ) : Option ν :=
  (resolveColumnName g leaf.model leaf.key).bind (row leaf.path)

def hasNull (leaf : Leaf μ) : Prop := ∃ items, leaf.value = .arr items ∧ .null ∈ items

/-- An array with a `null` member, of a column that is `NULL`. -/
def Missed (g : Models μ) (row : JoinedRow ν) (leaf : Leaf μ) : Prop :=
  leaf.hasNull ∧ leaf.read g row = none

/-- An array with a `null` member, of a column that has none of its values but the one that the
    driver writes for `null`. -/
def Mistaken (g : Models μ) (d : Comparisons ν) (row : JoinedRow ν) (leaf : Leaf μ) : Prop :=
  leaf.hasNull ∧ (∃ v, leaf.read g row = some v ∧ d.equal v .null = true) ∧ ¬ leaf.Holds g d row

end Leaf

def ColumnRef.Names (ref : ColumnRef) (path : List String) (column : String) : Prop :=
  ref.table.getD [] = path ∧ ref.column = column

/-- The comparison that a value asks for, of a column at a path: an equality for a scalar,
    membership for an array, and none where no value of the column can match. -/
inductive Asks (g : Models μ) (m : μ) (path : List String) (column : String) : Json → Atom → Prop
  | null {ref : ColumnRef} : ref.Names path column → Asks g m path column .null (.isNull ref)
  | equals {ref : ColumnRef} {value typed : Json} : isScalar value = true → value ≠ .null →
      ref.Names path column → columnValue g m column value = some typed →
      Asks g m path column value (.equals ref typed)
  | unmatched {value : Json} : isScalar value = true → columnValue g m column value = none →
      Asks g m path column value .never
  | isIn {ref : ColumnRef} {items : List Json} : ref.Names path column →
      items.filterMap (columnValue g m column) ≠ [] →
      Asks g m path column (.arr items) (.isIn ref (items.filterMap (columnValue g m column)))
  | noneMatched {items : List Json} : items.filterMap (columnValue g m column) = [] →
      Asks g m path column (.arr items) .never

def Leaf.Asks (g : Models μ) (leaf : Leaf μ) (atom : Atom) : Prop :=
  ∃ column, resolveColumnName g leaf.model leaf.key = some column ∧
    WhereModelClassHash.Asks g leaf.model leaf.path column leaf.value atom

/-- A leaf compiles to the comparison it asks for unless it is taken for a tuple. -/
def Leaf.Compiles (g : Models μ) (leaf : Leaf μ) (a : Atom) : Prop :=
  leaf.isTuple = false ↔ leaf.Asks g a

variable {items : List Json}

theorem addConditions_of_lt {index : ℕ} (hs : items.all isScalar = true)
    (hlt : index < items.length) : addConditions index items = none := by
  induction items generalizing index with
  | nil => simp at hlt
  | cons item items ih =>
    simp only [all_cons, Bool.and_eq_true] at hs
    cases index with
    | zero => cases item <;> simp_all [addConditions, addCondition, isScalar]
    | succ index => simpa [addConditions] using ih hs.2 (by simpa using hlt)

theorem addConditions_of_le {index : ℕ} (hle : items.length ≤ index) :
    addConditions index items = some [] := by
  induction items generalizing index with
  | nil => cases index <;> rfl
  | cons item items ih =>
    cases index with
    | zero => simp at hle
    | succ index => simpa [addConditions] using ih (by simpa using hle)

theorem tuple?_eq_some {tuple : Tuple} (h : tuple? items = some tuple) :
    3 ≤ items.length ∧ .str tuple.attributeName ∈ items ∧ tuple.value ∈ items := by
  unfold tuple? at h
  split at h
  · rw [Option.map_eq_some_iff] at h
    obtain ⟨op, -, rfl⟩ := h
    simp
  · simp at h

theorem normalizeTuples_scalar {value : Json} (h : isScalar value = true) :
    normalizeTuples value = none := by
  cases value <;> simp_all [normalizeTuples, addCondition, isScalar]

theorem normalizeTuples_arr (hs : items.all isScalar = true) : normalizeTuples (.arr items) =
      if items.length = 3 then (tuple? items).map ([·]) else none := by
  cases htuple : tuple? items with
  | none =>
    cases items with
    | nil => simp [normalizeTuples, addCondition, addConditions, tuple?]
    | cons item items =>
      have hnone : addConditions 0 (item :: items) = none := addConditions_of_lt hs (by simp)
      simp [normalizeTuples, addCondition, htuple, hnone]
  | some tuple =>
    obtain ⟨hlen, -, -⟩ := tuple?_eq_some htuple
    rcases Nat.lt_or_ge 3 items.length with hlt | hge
    · have hnone := addConditions_of_lt hs hlt
      simp [normalizeTuples, addCondition, htuple, hnone, Nat.ne_of_gt hlt]
    · have hnil := addConditions_of_le hge
      simp [normalizeTuples, addCondition, htuple, hnil, le_antisymm hge hlen]

/-! ## One leaf -/

section Leaf

variable {g : Models μ} {m : μ} {path : List String} {tableName : Option (List String)}
  {key column : String} {value : Json} {index : ℕ} {sql : List Token} {a : Atom}

theorem valueSQL_leaf (hleaf : isLeaf value = true) :
    valueSQL g m path tableName key value index = entrySQL g m path tableName key value index := by
  cases value <;> first | rfl | simp [isLeaf, isScalar] at hleaf

theorem entrySQL_of_not_tuple (hleaf : isLeaf value = true)
    (hplain : (⟨m, path, key, value⟩ : Leaf μ).isTuple = false) :
    entrySQL g m path tableName key value index =
      match value with
      | .arr [] => .ok (lead index ++ [.atom .never])
      | value => (leafAtom g m tableName key value).map fun a => lead index ++ [.atom a] := by
  have hnone : normalizeTuples value = none := by
    cases value with
    | arr items =>
      rw [normalizeTuples_arr hleaf]
      by_cases hlen : items.length = 3 <;> simp_all [Leaf.isTuple]
    | _ => exact normalizeTuples_scalar hleaf
  simp only [entrySQL, hnone]
  cases value with
  | arr items => cases items <;> rfl
  | _ => rfl

theorem typedValue_scalar (hs : isScalar value = true) :
    typedValue g m column value = columnValue g m column value := by
  cases value <;> first | rfl | simp [isScalar] at hs

theorem normalizeBoolean_cases (g : Models μ) (m : μ) (column : String) (value : Json) :
    normalizeBoolean g m column value = value ∨
      ∃ b x, value = .bool b ∧ normalizeBoolean g m column value = .num x := by
  unfold normalizeBoolean
  split
  · cases value with
    | bool b => exact .inr ⟨b, _, rfl, rfl⟩
    | _ => exact .inl rfl
  · exact .inl rfl

theorem normalizeType_cases {typed : Json} (h : normalizeType g m column value = some typed) :
    typed = value ∨ ∃ x s, value = .num x ∧ typed = .str s := by
  unfold normalizeType at h
  split at h
  · split_ifs at h
    · cases h
      exact .inr ⟨_, _, rfl, rfl⟩
    · cases h
      exact .inl rfl
  · cases h
    exact .inl rfl

theorem columnValue_scalar {typed : Json} (hs : isScalar value = true)
    (h : columnValue g m column value = some typed) :
    isScalar typed = true ∧ (typed = .null ↔ value = .null) := by
  unfold columnValue at h
  rcases normalizeBoolean_cases g m column value with hb | ⟨b, x, rfl, hb⟩
  · rw [hb] at h
    rcases normalizeType_cases h with rfl | ⟨y, s, rfl, rfl⟩
    · exact ⟨hs, Iff.rfl⟩
    · simp [isScalar]
  · rw [hb] at h
    rcases normalizeType_cases h with rfl | ⟨y, s, -, rfl⟩ <;> simp [isScalar]

theorem exists_normalizeType (value : Json)
    (huuid : ((g.columnType m column).map String.toLower).any isUuidType = false) :
    ∃ typed, normalizeType g m column value = some typed := by
  unfold normalizeType
  split
  · rename_i columnType x htype
    have hno : isUuidType columnType = false := by simpa [htype] using huuid
    by_cases hstring : shouldCoerceToString columnType = true <;> simp [hno, hstring]
  · exact ⟨_, rfl⟩

theorem typedValue_arr (items : List Json) :
    typedValue g m column (.arr items) = none ∧ items.filterMap (columnValue g m column) = [] ∨
      typedValue g m column (.arr items) =
          some (.arr (items.filterMap (columnValue g m column))) ∧
        (items ≠ [] → items.filterMap (columnValue g m column) ≠ []) := by
  have hmap : (items.map (normalizeBoolean g m column)).filterMap (normalizeType g m column) =
      items.filterMap (columnValue g m column) := filterMap_map
  simp only [typedValue, hmap]
  by_cases huuid : ((g.columnType m column).map String.toLower).any isUuidType = true
  · by_cases hnil : items.filterMap (columnValue g m column) = [] <;> simp [huuid, hnil]
  · refine Or.inr ⟨if_neg fun h => huuid h.1, fun hne hnil => ?_⟩
    obtain ⟨item, others, rfl⟩ := exists_cons_of_ne_nil hne
    obtain ⟨u, hu⟩ := exists_normalizeType (normalizeBoolean g m column item)
      (by simpa using huuid)
    have hnone := filterMap_eq_nil_iff.1 hnil item (by simp)
    exact absurd (hnone.symm.trans hu) (by simp)

theorem leafAtom_asks_arr {items : List Json} (hne : items ≠ [])
    (hcolumn : resolveColumnName g m key = some column) (htable : tableName.getD [] = path) :
    ∃ a, leafAtom g m tableName key (.arr items) = .ok a ∧
      Asks g m path column (.arr items) a := by
  simp only [leafAtom, hcolumn]
  rcases typedValue_arr (g := g) (m := m) items with ⟨h, hnil⟩ | ⟨h, htyped⟩
  · rw [h]
    exact ⟨_, rfl, .noneMatched hnil⟩
  · rw [h]
    exact ⟨_, rfl, .isIn ⟨htable, rfl⟩ (htyped hne)⟩

theorem leafAtom_asks_scalar (hs : isScalar value = true)
    (hcolumn : resolveColumnName g m key = some column) (htable : tableName.getD [] = path) :
    ∃ a, leafAtom g m tableName key value = .ok a ∧ Asks g m path column value a := by
  simp only [leafAtom, hcolumn, typedValue_scalar hs]
  cases htyped : columnValue g m column value with
  | none => exact ⟨_, rfl, .unmatched hs htyped⟩
  | some typed =>
    obtain ⟨htypedScalar, hnull⟩ := columnValue_scalar hs htyped
    cases typed with
    | arr items => simp [isScalar] at htypedScalar
    | null =>
      obtain rfl := hnull.1 rfl
      exact ⟨_, rfl, .null ⟨htable, rfl⟩⟩
    | _ => exact ⟨_, rfl, .equals hs (fun h => by simpa using hnull.2 h) ⟨htable, rfl⟩ htyped⟩

theorem entrySQL_plain (index : ℕ) (hleaf : isLeaf value = true)
    (hplain : (⟨m, path, key, value⟩ : Leaf μ).isTuple = false)
    (hcolumn : resolveColumnName g m key = some column) (htable : tableName.getD [] = path) :
    ∃ a, Leaf.Asks g ⟨m, path, key, value⟩ a ∧
      entrySQL g m path tableName key value index = .ok (lead index ++ [.atom a]) := by
  rw [entrySQL_of_not_tuple hleaf hplain]
  by_cases hempty : value = .arr []
  · subst hempty
    exact ⟨.never, ⟨column, hcolumn, .noneMatched rfl⟩, rfl⟩
  obtain ⟨a, ha, hasks⟩ : ∃ a, leafAtom g m tableName key value = .ok a ∧
      Asks g m path column value a := by
    cases value with
    | arr items => exact leafAtom_asks_arr (fun h => hempty (h ▸ rfl)) hcolumn htable
    | _ => exact leafAtom_asks_scalar hleaf hcolumn htable
  refine ⟨a, ⟨column, hcolumn, hasks⟩, ?_⟩
  split
  · exact absurd rfl hempty
  · rw [ha]; rfl

theorem tupleAtom_scalar {table : List String} {tuple : Tuple} (hs : isScalar tuple.value = true)
    (h : tupleAtom g m table tuple = .ok a) (ref : ColumnRef) (values : List Json) :
    a ≠ .isIn ref values := by
  rintro rfl
  unfold tupleAtom at h
  split at h
  · cases h
  rename_i column hcolumn
  dsimp only at h
  rw [typedValue_scalar hs] at h
  have harr (items : List Json) :
      columnValue g m column tuple.value ≠ some (.arr items) := by
    intro htyped
    have := (columnValue_scalar hs htyped).1
    simp [isScalar] at this
  split at h
  case h_4 heq _ => exact harr _ heq
  all_goals cases h

theorem tuplesSQL_singleton {table : List String} {tuple : Tuple}
    (h : tuplesSQL g m table [tuple] 0 = .ok sql) :
    ∃ a, tupleAtom g m table tuple = .ok a ∧ sql = [.atom a] := by
  simp only [tuplesSQL] at h
  cases ha : tupleAtom g m table tuple with
  | error e => rw [ha] at h; cases h
  | ok a =>
    rw [ha] at h
    cases h
    exact ⟨a, rfl, rfl⟩

theorem columnValue_str (s : String) : columnValue g m column (.str s) = some (.str s) := by
  simp [columnValue, normalizeBoolean, normalizeType]

theorem entrySQL_tuple (hleaf : isLeaf value = true)
    (htuple : (⟨m, path, key, value⟩ : Leaf μ).isTuple = true)
    (hcolumn : resolveColumnName g m key = some column)
    (h : entrySQL g m path tableName key value index = .ok sql) :
    ∃ a, sql = lead index ++ [.atom a] ∧ ¬ Leaf.Asks g ⟨m, path, key, value⟩ a := by
  cases value with
  | arr items =>
    simp only [Leaf.isTuple, Bool.and_eq_true, decide_eq_true_eq] at htuple
    obtain ⟨tuple, htuple?⟩ := Option.isSome_iff_exists.1 htuple.2
    obtain ⟨-, hname, hvalue⟩ := tuple?_eq_some htuple?
    have hnorm : normalizeTuples (.arr items) = some [tuple] := by
      rw [normalizeTuples_arr hleaf, if_pos htuple.1, htuple?]
      rfl
    have hsingle {target : μ} {table : List String} {tuples : List Tuple}
        (heq : some [tuple] = some tuples)
        (h : (do .ok (lead index ++ (← tuplesSQL g target table tuples 0))) = .ok sql) :
        ∃ a, sql = lead index ++ [.atom a] ∧ ∀ ref values, a ≠ .isIn ref values := by
      cases heq
      cases hs : tuplesSQL g target table [tuple] 0 with
      | error e => rw [hs] at h; cases h
      | ok s =>
        rw [hs] at h
        cases h
        obtain ⟨a, ha, rfl⟩ := tuplesSQL_singleton hs
        exact ⟨a, rfl, tupleAtom_scalar (all_eq_true.1 hleaf _ hvalue) ha⟩
    obtain ⟨a, rfl, hin⟩ :
        ∃ a, sql = lead index ++ [.atom a] ∧ ∀ ref values, a ≠ .isIn ref values := by
      unfold entrySQL at h
      rw [hnorm, hcolumn] at h
      rcases hrel : g.relationship m key with _ | _ | target <;> simp only [hrel] at h
      · exact hsingle rfl h
      · cases h
      · exact hsingle rfl h
    refine ⟨a, rfl, ?_⟩
    rintro ⟨column, -, hasks⟩
    cases hasks with
    | equals hs => simp [isScalar] at hs
    | unmatched hs => simp [isScalar] at hs
    | isIn => exact hin _ _ rfl
    | noneMatched hnil =>
      exact absurd (filterMap_eq_nil_iff.1 hnil _ hname) (by simp [columnValue_str])
  | _ => simp [Leaf.isTuple] at htuple

theorem entrySQL_leaf (hleaf : isLeaf value = true)
    (hcolumn : resolveColumnName g m key = some column) (htable : tableName.getD [] = path)
    (h : entrySQL g m path tableName key value index = .ok sql) :
    ∃ a, sql = lead index ++ [.atom a] ∧ Leaf.Compiles g ⟨m, path, key, value⟩ a := by
  cases htuple : (⟨m, path, key, value⟩ : Leaf μ).isTuple with
  | false =>
    obtain ⟨a, hasks, ha⟩ := entrySQL_plain index hleaf htuple hcolumn htable
    cases ha.symm.trans h
    exact ⟨a, rfl, iff_of_true htuple hasks⟩
  | true =>
    obtain ⟨a, rfl, hasks⟩ := entrySQL_tuple hleaf htuple hcolumn h
    exact ⟨a, rfl, iff_of_false (by simp [htuple]) hasks⟩

end Leaf

end Velocious.WhereModelClassHash
