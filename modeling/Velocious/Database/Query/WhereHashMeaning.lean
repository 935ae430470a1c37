/-
  The SQL condition of a where hash and what the hash says.

  * `Asks.isTrue_iff`: the comparison of a leaf is true when the leaf holds, except for the `null`
    members of an array.
-/
import Velocious.Database.Query.WhereHashLeaves

namespace Velocious.WhereModelClassHash

open Foundation List

variable {μ ν : Type}

/-- Comparisons with `AND` in front of each, or of each but the first. -/
def conj : Bool → List Atom → List Token
  | _, [] => []
  | true, a :: atoms => .and :: .atom a :: conj true atoms
  | false, a :: atoms => .atom a :: conj true atoms

theorem conj_append (xs ys : List Atom) : conj true (xs ++ ys) = conj true xs ++ conj true ys := by
  induction xs with
  | nil => rfl
  | cons x xs ih => simp [conj, ih]

theorem conj_append_of_ne_nil {xs : List Atom} (hxs : xs ≠ []) (ys : List Atom) :
    conj false (xs ++ ys) = conj false xs ++ conj true ys := by
  cases xs with
  | nil => exact absurd rfl hxs
  | cons x xs => simp [conj, conj_append]

theorem parseAtoms_conj (a : Atom) (atoms : List Atom) :
    parseAtoms (conj false (a :: atoms) ++ [.close]) = some (a :: atoms) := by
  induction atoms generalizing a with
  | nil => rfl
  | cons b atoms ih =>
    have hrest := ih b
    simp only [conj, cons_append] at hrest ⊢
    simp [parseAtoms, hrest]

/-! ## Compiled hashes -/

theorem leavesAt_leaf {g : Models μ} {m : μ} {path : List String} {key : String} {value : Json}
    (hleaf : isLeaf value = true) : leavesAt g m path key value = [⟨m, path, key, value⟩] := by
  cases value <;> first | rfl | simp [isLeaf, isScalar] at hleaf

theorem leavesAt_nested {g : Models μ} {m target : μ} {path : List String} {key : String}
    {inner : WhereHash} (hrel : g.relationship m key = some (some target)) :
    leavesAt g m path key (.obj inner) = leaves g target (path ++ [key]) inner := by
  simp [leavesAt, hrel]

/-- A compiled hash at an index: with `AND` in front of every comparison where a condition stands
    before it; where none does, it begins with a comparison if the hash `Leads`. -/
structure Joined (hash : WhereHash) (atoms : List Atom) (index : ℕ) (sql : List Token) : Prop where
  after : 0 < index → sql = conj true atoms
  first : index = 0 → Leads hash → sql = conj false atoms ∧ atoms ≠ []
  headless : index = 0 → ¬ Leads hash → sql = [] ∨ ∃ rest, sql = .and :: rest

theorem Leads.of_leaf {key : String} {value : Json} {hash : WhereHash} (hleaf : isLeaf value = true) :
    Leads ((key, value) :: hash) := by
  refine .leaf ?_
  cases value <;> first | rfl | simp [isLeaf, isScalar] at hleaf

theorem leads_nested {key : String} {inner hash : WhereHash} :
    Leads ((key, .obj inner) :: hash) ↔ Leads inner := by
  constructor
  · rintro (h | h)
    · cases h
    · exact h
  · exact .nested

theorem Joined.leaf {key : String} {value : Json} {hash : WhereHash} {a : Atom} {atoms : List Atom}
    {index : ℕ} {sql : List Token} (hleaf : isLeaf value = true)
    (h : Joined hash atoms (index + 1) sql) :
    Joined ((key, value) :: hash) (a :: atoms) index (lead index ++ .atom a :: sql) := by
  have hsql := h.after (Nat.succ_pos index)
  refine ⟨fun hpos => ?_, ?_, fun _ hno => absurd (.of_leaf hleaf) hno⟩
  · simp [lead, hpos, conj, hsql]
  · rintro rfl -
    simp [lead, conj, hsql]

theorem Joined.nested {key : String} {inner hash : WhereHash} {atoms more : List Atom} {index : ℕ}
    {sql rest : List Token} (hinner : Joined inner atoms index sql)
    (h : Joined hash more (index + 1) rest) :
    Joined ((key, .obj inner) :: hash) (atoms ++ more) index (sql ++ rest) := by
  have hrest := h.after (Nat.succ_pos index)
  refine ⟨fun hpos => ?_, fun hzero hleads => ?_, fun hzero hno => ?_⟩
  · rw [hinner.after hpos, hrest, conj_append]
  · obtain ⟨hsql, hne⟩ := hinner.first hzero (leads_nested.1 hleads)
    exact ⟨by rw [hsql, hrest, conj_append_of_ne_nil hne], by simp [hne]⟩
  · rcases hinner.headless hzero (mt leads_nested.2 hno) with rfl | ⟨tokens, rfl⟩
    · cases more with
      | nil => exact .inl (by simp [hrest, conj])
      | cons a more => exact .inr ⟨_, by simp [hrest]; rfl⟩
    · exact .inr ⟨_, rfl⟩

section Compiled

variable {g : Models μ} {m : μ} {hash : WhereHash}

section
variable (h : Fits g m hash) {path : List String} {tableName : Option (List String)}
include h

theorem whereSQLFromHash_conj {index : ℕ} {sql : List Token}
    (htable : tableName.getD [] = path)
    (hsql : whereSQLFromHash g m path tableName hash index = .ok sql) :
    ∃ atoms, List.Forall₂ (Leaf.Compiles g) (leaves g m path hash) atoms ∧
      Joined hash atoms index sql := by
  induction h generalizing path tableName index sql with
  | nil m =>
    cases hsql
    exact ⟨[], .nil, fun _ => rfl, fun _ hleads => (by cases hleads), fun _ _ => .inl rfl⟩
  | @leaf m key value column hash hleaf hcolumn _ ih =>
    simp only [whereSQLFromHash, valueSQL_leaf hleaf] at hsql
    cases hentry : entrySQL g m path tableName key value index with
    | error e => rw [hentry] at hsql; cases hsql
    | ok entry =>
    cases hrest : whereSQLFromHash g m path tableName hash (index + 1) with
    | error e => rw [hentry, hrest] at hsql; cases hsql
    | ok rest =>
    rw [hentry, hrest] at hsql
    cases hsql
    obtain ⟨atoms, hatoms, hjoined⟩ := ih htable hrest
    obtain ⟨a, rfl, ha⟩ := entrySQL_leaf hleaf hcolumn htable hentry
    refine ⟨a :: atoms, ?_, by simpa using hjoined.leaf hleaf⟩
    rw [leaves, leavesAt_leaf hleaf]
    exact .cons ha hatoms
  | @nested m target key inner hash hrel _ _ ihInner ih =>
    simp only [whereSQLFromHash, valueSQL, hrel] at hsql
    cases hentry : whereSQLFromHash g target (path ++ [key]) (some (path ++ [key])) inner index with
    | error e => rw [hentry] at hsql; cases hsql
    | ok entry =>
    cases hrest : whereSQLFromHash g m path tableName hash (index + 1) with
    | error e => rw [hentry, hrest] at hsql; cases hsql
    | ok rest =>
    rw [hentry, hrest] at hsql
    cases hsql
    obtain ⟨atoms, hatoms, hinner⟩ :=
      @ihInner (path ++ [key]) (some (path ++ [key])) index entry rfl hentry
    obtain ⟨more, hmore, hjoined⟩ := ih htable hrest
    refine ⟨atoms ++ more, ?_, hinner.nested hjoined⟩
    rw [leaves, leavesAt_nested hrel]
    exact rel_append hatoms hmore

theorem whereSQLFromHash_ok (index : ℕ) (htable : tableName.getD [] = path)
    (hplain : ∀ leaf ∈ leaves g m path hash, leaf.isTuple = false) :
    ∃ sql, whereSQLFromHash g m path tableName hash index = .ok sql := by
  induction h generalizing path tableName index with
  | nil m => exact ⟨[], rfl⟩
  | @leaf m key value column hash hleaf hcolumn _ ih =>
    rw [leaves, leavesAt_leaf hleaf] at hplain
    obtain ⟨a, -, ha⟩ := entrySQL_plain index hleaf (hplain _ (by simp)) hcolumn htable
    obtain ⟨rest, hrest⟩ := ih (index + 1) htable fun leaf hmem => hplain leaf (by simp [hmem])
    exact ⟨_, by simp only [whereSQLFromHash, valueSQL_leaf hleaf, ha, hrest]; rfl⟩
  | @nested m target key inner hash hrel _ _ ihInner ih =>
    rw [leaves, leavesAt_nested hrel] at hplain
    obtain ⟨entry, hentry⟩ := @ihInner (path ++ [key]) (some (path ++ [key])) index rfl
      fun leaf hmem => hplain leaf (mem_append_left _ hmem)
    obtain ⟨rest, hrest⟩ := ih (index + 1) htable fun leaf hmem =>
      hplain leaf (mem_append_right _ hmem)
    exact ⟨_, by simp only [whereSQLFromHash, valueSQL, hrel, hentry, hrest]; rfl⟩

end

end Compiled

/-! ## Rows -/

section Rows

variable {g : Models μ} {d : Comparisons ν} {row : JoinedRow ν} {m : μ} {path : List String}
  {key column : String} {value : Json} {a : Atom}

theorem ColumnRef.Names.read {ref : ColumnRef} (h : ref.Names path column) :
    ref.read row = row path column := by
  rw [ColumnRef.read, h.1, h.2]

theorem matches_of_ne_null {v : Option ν} (hne : value ≠ .null) :
    Matches g d m column v value ↔
      ∃ typed u, columnValue g m column value = some typed ∧ v = some u ∧ d.equal u typed = true := by
  cases value <;> first | exact absurd rfl hne | rfl

theorem holdsAt_scalar (hs : isScalar value = true)
    (hcolumn : resolveColumnName g m key = some column) :
    HoldsAt g d row m path key value ↔ Matches g d m column (row path column) value := by
  cases value with
  | arr items => simp [isScalar] at hs
  | obj fields => simp [isScalar] at hs
  | _ => simp [HoldsAt, hcolumn]

variable {items : List Json}

theorem holdsAt_arr (hcolumn : resolveColumnName g m key = some column) :
    HoldsAt g d row m path key (.arr items) ↔
      ∃ item ∈ items, Matches g d m column (row path column) item := by
  simp [HoldsAt, hcolumn]

theorem columnValue_null : columnValue g m column .null = some .null := by
  simp [columnValue, normalizeBoolean, normalizeType]

theorem Leaf.hasNull_of_scalar (hs : isScalar value = true) :
    ¬ (⟨m, path, key, value⟩ : Leaf μ).hasNull := by
  rintro ⟨items, rfl, -⟩
  simp [isScalar] at hs

/-- In a row, the comparison of a leaf is true when the leaf holds, except for the `null` members of
    an array. -/
def Leaf.Answers (g : Models μ) (d : Comparisons ν) (row : JoinedRow ν) (leaf : Leaf μ) : Prop :=
  leaf.Holds g d row ∧ ¬ leaf.Missed g row ∨ leaf.Mistaken g d row

theorem Leaf.answers_scalar (hs : isScalar value = true) :
    (⟨m, path, key, value⟩ : Leaf μ).Answers g d row ↔ HoldsAt g d row m path key value := by
  simp [Leaf.Answers, Leaf.Holds, Leaf.Missed, Leaf.Mistaken, Leaf.hasNull_of_scalar hs]

theorem exists_typed_iff {v : ν} :
    (∃ typed ∈ items.filterMap (columnValue g m column), d.equal v typed = true) ↔
      (∃ item ∈ items, Matches g d m column (some v) item) ∨
        .null ∈ items ∧ d.equal v .null = true := by
  simp only [mem_filterMap]
  constructor
  · rintro ⟨typed, ⟨item, hmem, htyped⟩, heq⟩
    by_cases hnull : item = .null
    · subst hnull
      rw [columnValue_null] at htyped
      cases htyped
      exact .inr ⟨hmem, heq⟩
    · exact .inl ⟨item, hmem, (matches_of_ne_null hnull).2 ⟨typed, v, htyped, rfl, heq⟩⟩
  · rintro (⟨item, hmem, hmatches⟩ | ⟨hmem, heq⟩)
    · have hnull : item ≠ .null := by
        rintro rfl
        simp [Matches] at hmatches
      obtain ⟨typed, u, htyped, hu, heq⟩ := (matches_of_ne_null hnull).1 hmatches
      cases hu
      exact ⟨typed, ⟨item, hmem, htyped⟩, heq⟩
    · exact ⟨.null, ⟨.null, hmem, columnValue_null⟩, heq⟩

theorem Leaf.answers_arr (hcolumn : resolveColumnName g m key = some column) :
    (⟨m, path, key, .arr items⟩ : Leaf μ).Answers g d row ↔
      ∃ v, row path column = some v ∧
        ∃ typed ∈ items.filterMap (columnValue g m column), d.equal v typed = true := by
  have hnull : (⟨m, path, key, .arr items⟩ : Leaf μ).hasNull ↔ .null ∈ items := by
    simp [Leaf.hasNull]
  simp only [Leaf.Answers, Leaf.Missed, Leaf.Mistaken, Leaf.Holds, hnull, Leaf.read, hcolumn,
    Option.bind_some, holdsAt_arr hcolumn, exists_typed_iff]
  cases row path column with
  | none =>
    simp only [reduceCtorEq, false_and, exists_false, and_false, or_false, iff_false, and_true,
      not_and, not_not]
    rintro ⟨item, hmem, hmatches⟩
    by_cases hitem : item = .null
    · exact hitem ▸ hmem
    · obtain ⟨_, _, -, hu, -⟩ := (matches_of_ne_null hitem).1 hmatches
      cases hu
  | some v =>
    simp only [reduceCtorEq, and_false, Option.some.injEq, exists_eq_left']
    by_cases hitem : ∃ item ∈ items, Matches g d m column (some v) item
    · simp [hitem]
    · simp only [hitem, not_false_iff, and_true]

theorem Leaf.Asks.isTrue_iff {leaf : Leaf μ} (h : leaf.Asks g a) :
    a.IsTrue d row ↔ leaf.Answers g d row := by
  obtain ⟨column, hcolumn, hasks⟩ := h
  obtain ⟨m, path, key, value⟩ := leaf
  cases hasks with
  | null hnames =>
    rw [Leaf.answers_scalar rfl, holdsAt_scalar rfl hcolumn]
    simp [Atom.IsTrue, Matches, hnames.read]
  | equals hs hne hnames htyped =>
    rw [Leaf.answers_scalar hs, holdsAt_scalar hs hcolumn, matches_of_ne_null hne]
    simp [Atom.IsTrue, htyped, hnames.read]
  | unmatched hs htyped =>
    have hne : value ≠ .null := by
      rintro rfl
      rw [columnValue_null] at htyped
      cases htyped
    rw [Leaf.answers_scalar hs, holdsAt_scalar hs hcolumn, matches_of_ne_null hne]
    simp [Atom.IsTrue, htyped]
  | isIn hnames _ =>
    rw [Leaf.answers_arr hcolumn]
    simp only [Atom.IsTrue, hnames.read]
  | noneMatched hnil =>
    rw [Leaf.answers_arr hcolumn, hnil]
    simp [Atom.IsTrue]

theorem holds_leaves {hash : WhereHash} (h : Fits g m hash) :
    Holds g d row m path hash ↔ ∀ leaf ∈ leaves g m path hash, leaf.Holds g d row := by
  induction h generalizing path with
  | nil m => simp [Holds, leaves]
  | leaf hleaf _ _ ih => simp [Holds, leaves, leavesAt_leaf hleaf, ih, Leaf.Holds]
  | nested hrel _ _ ihInner ih =>
    simp [Holds, HoldsAt, leaves, leavesAt_nested hrel, hrel, ih, ihInner, or_imp, forall_and]

end Rows

/-! ## The condition of a hash -/

section Condition

variable {g : Models μ} {d : Comparisons ν} {row : JoinedRow ν} {m : μ} {hash : WhereHash}

/-- The condition is well formed, with one comparison for each leaf: the one that the leaf asks for,
    of the column that its key names; in the row it is true when every leaf holds. -/
def Meant (g : Models μ) (d : Comparisons ν) (row : JoinedRow ν) (m : μ) (qualify : Bool)
    (hash : WhereHash) : Prop :=
  ∃ sql atoms, toSql g m qualify hash = .ok sql ∧ parse sql = some atoms ∧
    List.Forall₂ (Leaf.Asks g) (leaves g m [] hash) atoms ∧
    ((∀ a ∈ atoms, a.IsTrue d row) ↔ Holds g d row m [] hash)

theorem forall_iff_of_forall₂ {α β : Type} {R : α → β → Prop} {P : α → Prop} {Q : β → Prop}
    {xs : List α} {ys : List β} (h : List.Forall₂ R xs ys) (hPQ : ∀ x y, R x y → (P x ↔ Q y)) :
    (∀ x ∈ xs, P x) ↔ ∀ y ∈ ys, Q y := by
  induction h with
  | nil => simp
  | cons hxy _ ih => simp [ih, hPQ _ _ hxy]

theorem toSql_parses (h : Fits g m hash) {qualify : Bool} {sql : List Token}
    (hsql : toSql g m qualify hash = .ok sql) :
    (parse sql = none ∧ ¬ Leads hash) ∨ (Leads hash ∧ ∃ atoms, parse sql = some atoms ∧
      List.Forall₂ (Leaf.Compiles g) (leaves g m [] hash) atoms) := by
  unfold toSql at hsql
  cases hhash : whereSQLFromHash g m [] (if qualify then some [] else none) hash 0 with
  | error e => rw [hhash] at hsql; cases hsql
  | ok tokens =>
  rw [hhash] at hsql
  cases hsql
  obtain ⟨atoms, hatoms, hjoined⟩ := whereSQLFromHash_conj h (by cases qualify <;> rfl) hhash
  by_cases hleads : Leads hash
  · obtain ⟨rfl, hne⟩ := hjoined.first rfl hleads
    obtain ⟨a, atoms, rfl⟩ := exists_cons_of_ne_nil hne
    exact .inr ⟨hleads, _, parseAtoms_conj a atoms, hatoms⟩
  · rcases hjoined.headless rfl hleads with rfl | ⟨rest, rfl⟩
    · exact .inl ⟨rfl, hleads⟩
    · exact .inl ⟨rfl, hleads⟩

theorem toSql_ok (h : Fits g m hash) (qualify : Bool)
    (hplain : ∀ leaf ∈ leaves g m [] hash, leaf.isTuple = false) :
    ∃ sql, toSql g m qualify hash = .ok sql := by
  obtain ⟨tokens, htokens⟩ :
      ∃ sql, whereSQLFromHash g m [] (if qualify then some [] else none) hash 0 = .ok sql :=
    whereSQLFromHash_ok h 0 (by cases qualify <;> rfl) hplain
  exact ⟨_, by unfold toSql; rw [htokens]; rfl⟩

/-- No `null` member of an array decides about the row: where the column is `NULL`, or has what the
    driver writes for `null` and no other member, another leaf refuses the row. -/
structure NullsSettled (g : Models μ) (d : Comparisons ν) (row : JoinedRow ν)
    (ls : List (Leaf μ)) : Prop where
  missed : ∀ leaf ∈ ls, leaf.Missed g row → ∃ other ∈ ls, ¬ other.Holds g d row
  mistaken : ∀ leaf ∈ ls, leaf.Mistaken g d row →
    ∃ other ∈ ls, other.Missed g row ∨ ¬ other.Holds g d row ∧ ¬ other.Mistaken g d row

theorem answers_iff_holds (ls : List (Leaf μ)) :
    ((∀ leaf ∈ ls, leaf.Answers g d row) ↔ ∀ leaf ∈ ls, leaf.Holds g d row) ↔
      NullsSettled g d row ls := by
  constructor
  · intro h
    refine ⟨fun leaf hmem hmissed => ?_, fun leaf hmem hmistaken => ?_⟩
    · by_contra! hall
      rcases h.2 hall leaf hmem with ⟨-, hno⟩ | hmistaken
      · exact hno hmissed
      · exact hmistaken.2.2 (hall leaf hmem)
    · by_contra! hall
      refine hmistaken.2.2 (h.1 (fun other hother => ?_) leaf hmem)
      by_cases hholds : other.Holds g d row
      · exact .inl ⟨hholds, (hall other hother).1⟩
      · exact .inr ((hall other hother).2 hholds)
  · intro h
    constructor
    · intro hall leaf hmem
      by_contra hno
      have hmistaken : leaf.Mistaken g d row :=
        (hall leaf hmem).resolve_left fun hholds => hno hholds.1
      obtain ⟨other, hother, hrefuses⟩ := h.mistaken leaf hmem hmistaken
      rcases hall other hother, hrefuses with ⟨⟨hholds, hmissed⟩ | hother, hno | hno⟩
      · exact hmissed hno
      · exact hno.1 hholds
      · obtain ⟨-, ⟨v, hv, -⟩, -⟩ := hother
        exact absurd (hno.2.symm.trans hv) (by simp)
      · exact hno.2 hother
    · intro hall leaf hmem
      refine .inl ⟨hall leaf hmem, fun hmissed => ?_⟩
      obtain ⟨other, hother, hno⟩ := h.missed leaf hmem hmissed
      exact hno (hall other hother)

/-- **The condition of a where hash.**  It is well formed and says in a row what the hash says
    exactly when the hash leads with a leaf, no array is taken for an operator tuple, and no `null`
    member of an array decides about the row. -/
theorem where_hash (h : Fits g m hash) (d : Comparisons ν) (row : JoinedRow ν) (qualify : Bool) :
    Meant g d row m qualify hash ↔
      Leads hash ∧ (∀ leaf ∈ leaves g m [] hash, leaf.isTuple = false) ∧
        NullsSettled g d row (leaves g m [] hash) := by
  have hiff {atoms : List Atom} (hasks : List.Forall₂ (Leaf.Asks g) (leaves g m [] hash) atoms) :
      ((∀ a ∈ atoms, a.IsTrue d row) ↔ Holds g d row m [] hash) ↔
        NullsSettled g d row (leaves g m [] hash) := by
    rw [holds_leaves h, ← forall_iff_of_forall₂ hasks fun leaf a ha => ha.isTrue_iff.symm,
      answers_iff_holds]
  constructor
  · rintro ⟨sql, atoms, hsql, hparse, hasks, hmeans⟩
    rcases toSql_parses h hsql with ⟨hnone, -⟩ | ⟨hleads, atoms', hparse', hcompiles⟩
    · rw [hnone] at hparse
      cases hparse
    obtain rfl : atoms = atoms' := Option.some.inj (hparse.symm.trans hparse')
    have hplain := hcompiles.mp (fun leaf a hcompiles hasks => hcompiles.2 hasks) hasks
    have hall : (∀ leaf ∈ leaves g m [] hash, leaf.isTuple = false) ↔ ∀ a ∈ atoms, True :=
      forall_iff_of_forall₂ hplain fun leaf a hplain => iff_of_true hplain trivial
    exact ⟨hleads, hall.2 (by simp), (hiff hasks).1 hmeans⟩
  · rintro ⟨hleads, hplain, hnulls⟩
    obtain ⟨sql, hsql⟩ := toSql_ok h qualify hplain
    rcases toSql_parses h hsql with ⟨-, hno⟩ | ⟨-, atoms, hparse, hcompiles⟩
    · exact absurd hleads hno
    have hasks : List.Forall₂ (Leaf.Asks g) (leaves g m [] hash) atoms :=
      ((forall₂_and_left _ _).2 ⟨hplain, hcompiles⟩).imp fun _ _ h => h.2.1 h.1
    exact ⟨sql, atoms, hsql, hparse, hasks, (hiff hasks).2 hnulls⟩

end Condition

/-- Tasks with a status and a description, each of a project. -/
def tasks : Models Unit where
  name _ := "Task"
  relationship _ name := if name = "project" then some (some ()) else none
  attributeColumn _ name := if name = "status" ∨ name = "description" then some name else none
  isColumn _ _ := false
  columnType _ _ := none
  databaseType := "mysql"
  underscore name := name

/-- Texts are compared as they are; the driver writes `null` as `NULL`. -/
def texts : Comparisons String where
  equal v value := match value with
    | .str s => v = s
    | _ => false
  compare _ v value := match value with
    | .str s => v = s
    | _ => false

theorem fits_status {value : Json} {hash : WhereHash} (hleaf : isLeaf value = true)
    (h : Fits tasks () hash) : Fits tasks () (("status", value) :: hash) :=
  .leaf hleaf (show resolveColumnName tasks () "status" = some "status" from rfl) h

/-- Statuses as a caller would list them. -/
theorem where_hash_statuses :
    Meant tasks texts (fun _ _ => some "open") () true
      [("status", .arr [.str "open", .str "closed"])] := by
  refine (where_hash (fits_status rfl (.nil ())) texts _ true).2 ⟨.leaf rfl, ?_, ?_, ?_⟩
  · intro leaf hmem
    obtain rfl := mem_singleton.1 hmem
    rfl
  · rintro leaf hmem ⟨⟨items, hitems, hnull⟩, -⟩
    obtain rfl := mem_singleton.1 hmem
    cases hitems
    simp at hnull
  · rintro leaf hmem ⟨⟨items, hitems, hnull⟩, -⟩
    obtain rfl := mem_singleton.1 hmem
    cases hitems
    simp at hnull

/-- Three statuses of which the second is `like` are compiled to a `LIKE` on a column that the first
    of them names; a `null` among the statuses does not find a task without one; and an empty hash
    of a relationship that comes first leaves its `AND` behind. -/
theorem where_hash_misread :
    (Fits tasks () [("status", .arr [.str "description", .str "like", .str "open"])] ∧
      ¬ Meant tasks texts (fun _ _ => some "like") () true
        [("status", .arr [.str "description", .str "like", .str "open"])]) ∧
    (Fits tasks () [("status", .arr [.str "open", .null])] ∧
      ¬ Meant tasks texts (fun _ _ => none) () true [("status", .arr [.str "open", .null])]) ∧
    (Fits tasks () [("project", .obj []), ("status", .str "open")] ∧
      ¬ Meant tasks texts (fun _ _ => some "open") () true
        [("project", .obj []), ("status", .str "open")]) := by
  refine ⟨⟨fits_status rfl (.nil ()), ?_⟩, ⟨fits_status rfl (.nil ()), ?_⟩,
    .nested rfl (.nil ()) (fits_status rfl (.nil ())), ?_⟩
  · rintro ⟨sql, atoms, hsql, hparse, hasks, -⟩
    cases hsql
    cases hparse
    obtain ⟨⟨column, -, hasks⟩, -⟩ := forall₂_cons.1 hasks
    cases hasks
  · rintro ⟨sql, atoms, hsql, hparse, -, hmeans⟩
    cases hsql
    cases hparse
    have := hmeans.2 (by simp [Holds, HoldsAt, Matches, resolveColumnName, tasks])
    simp [Atom.IsTrue, ColumnRef.read] at this
  · rintro ⟨sql, atoms, hsql, hparse, -, -⟩
    cases hsql
    cases hparse

end Velocious.WhereModelClassHash
