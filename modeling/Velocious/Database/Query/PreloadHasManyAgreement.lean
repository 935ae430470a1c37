/-
  Preloading a has-many relationship and loading it.

  * `query_direct` and `query_through`: what a parent's own query loads; a join per target is a search
    per through record, with the targets in another order.
-/
import Velocious.Database.Query.PreloadHasManyThrough

namespace Velocious.HasMany

open Foundation List

variable {κ α β : Type}

/-! ## Joins -/

theorem join_perm (R : α → β → Bool) (xs : List α) (ys : List β) :
    (xs.flatMap fun x => (ys.filter (R x)).map fun _ => x).Perm
      (ys.flatMap fun y => xs.filter fun x => R x y) := by
  induction xs with
  | nil => simp
  | cons x xs ih =>
    have hfirst : ((ys.filter (R x)).map fun _ => x) =
        ys.flatMap fun y => if R x y then [x] else [] := by
      clear ih
      induction ys with
      | nil => rfl
      | cons y ys ih =>
        cases hxy : R x y <;> simp [hxy, ih]
    have hcons : (ys.flatMap fun y => (x :: xs).filter fun x => R x y) =
        ys.flatMap fun y => (if R x y then [x] else []) ++ xs.filter fun x => R x y := by
      congr 1
      ext1 y
      cases hxy : R x y <;> simp [hxy]
    rw [flatMap_cons, hfirst, hcons]
    exact ((ih.append_left _).trans (flatMap_append_perm ys _ _))

theorem flatMap_filter_and (c : β → Bool) (p : β → α → Bool) (xs : List α) (ys : List β) :
    (ys.flatMap fun y => xs.filter fun x => c y && p y x) =
      (ys.filter c).flatMap fun y => xs.filter (p y) := by
  induction ys with
  | nil => rfl
  | cons y ys ih => cases hc : c y <;> simp [hc, ih]

section Queries

variable [DecidableEq κ] {c : Collation κ} {r : Relationship κ} {content : Content κ}
  {parent : Record κ} {k : κ} {t : Through}

theorem query_direct (content : Content κ) (parent : Record κ) (hplain : Plain r.scope.wheres)
    (hr : r.through = none) (htells : ∀ record ∈ content.target,
      c.Tells (readColumn record r.foreignKey) (readColumn parent r.primaryKey)) :
    ∃ rows, query c r content parent = some rows ∧ Sorted r.scope.order rows ∧
      rows.Perm (content.target.filter fun record =>
        decide (readColumn record r.foreignKey = readColumn parent r.primaryKey) &&
          (directWheres c r).all fun c => c.first record) := by
  refine ⟨_, by rw [query, hr], sorted_orderBy _ _, (orderBy_perm _ _).trans ?_⟩
  refine List.Perm.of_eq (filter_congr fun record hrecord => ?_)
  rw [whereHolds_of_plain (by
    rintro c (- | ⟨-, hmem⟩)
    · rfl
    · exact hplain c hmem), ← columnIs_eq (htells record hrecord)]
  simp [directWheres, Bool.and_assoc]

def Unambiguous (r : Relationship κ) (t : Through) : Prop :=
  ∀ column ∈ r.scope.unqualified, column ∉ t.columns

omit [DecidableEq κ] in
theorem query_ambiguous (hr : r.through = some t) (h : ¬ Unambiguous r t) :
    query c r content parent = none := by
  have : (r.scope.unqualified.any (· ∈ t.columns)) = true := by
    simpa [Unambiguous] using h
  simp only [query, hr, this, if_true]

omit [DecidableEq κ] in
theorem leftJoin_filter {p : Record κ × Option (Record κ) → Bool}
    (hnone : ∀ record, p (record, none) = false) :
    ((leftJoin c t content).filter p).map Prod.fst = content.target.flatMap fun record =>
      (content.through.filter fun through =>
        c.eq (readColumn record t.targetForeignKey) (readColumn through t.primaryKey) &&
          p (record, some through)).map fun _ => record := by
  rw [leftJoin, filter_flatMap, map_flatMap]
  congr 1
  ext1 record
  have hfilter : (content.through.filter fun through =>
        c.eq (readColumn record t.targetForeignKey) (readColumn through t.primaryKey) &&
          p (record, some through)) =
      (content.through.filter fun through =>
        c.eq (readColumn record t.targetForeignKey) (readColumn through t.primaryKey)).filter
          fun through => p (record, some through) := by
    rw [filter_filter]
    exact filter_congr fun through _ => Bool.and_comm _ _
  rw [hfilter]
  split
  · rename_i hnil
    simp [hnil, hnone]
  · simp [filter_map, Function.comp_def]

theorem query_through (content : Content κ) (parent : Record κ) (hplain : Plain r.scope.wheres)
    (hr : r.through = some t)
    (hcolumns : Unambiguous r t) (hprimary : t.primaryKey = t.modelPrimaryKey)
    (hparent : ∀ through ∈ content.through,
      c.Tells (readColumn through t.foreignKey) (readColumn parent r.primaryKey))
    (htarget : ∀ through ∈ content.through, ∀ record ∈ content.target,
      c.Tells (readColumn record t.targetForeignKey) (readColumn through t.modelPrimaryKey)) :
    ∃ rows, query c r content parent = some rows ∧ Sorted r.scope.order rows ∧
      rows.Perm ((content.through.filter fun through =>
          sqlEq (readColumn through t.foreignKey) (readColumn parent r.primaryKey)).flatMap
        fun through => targetsOf r t content (readColumn through t.modelPrimaryKey)) := by
  have hany : ¬ (r.scope.unqualified.any (· ∈ t.columns)) = true := by
    simpa [Unambiguous] using hcolumns
  refine ⟨orderBy r.scope.order _, by simp only [query, hr, if_neg hany]; rfl, sorted_orderBy _ _,
    (orderBy_perm _ _).trans ?_⟩
  have hwheres (joined : Record κ × Option (Record κ)) :
      whereHolds (⟨fun joined => c.eq (joined.2.bind (readColumn · t.foreignKey))
          (readColumn parent r.primaryKey), []⟩ :: r.scope.wheres.map (Clause.comap Prod.fst)) joined =
        (c.eq (joined.2.bind (readColumn · t.foreignKey)) (readColumn parent r.primaryKey) &&
          r.scope.wheres.all fun c => c.first joined.1) := by
    rw [whereHolds_of_plain (by
      rintro c (- | ⟨-, hmem⟩)
      · rfl
      · obtain ⟨b, hb, rfl⟩ := mem_map.1 hmem
        simp [Clause.comap, hplain b hb])]
    simp [Clause.comap, Function.comp_def]
  rw [leftJoin_filter fun record => by rw [hwheres]; rfl]
  refine (join_perm _ content.target content.through).trans (List.Perm.of_eq ?_)
  refine Eq.trans ?_ (flatMap_filter_and (fun through =>
      sqlEq (readColumn through t.foreignKey) (readColumn parent r.primaryKey))
    (fun through record => (r.scope.wheres.all fun c => c.first record) &&
      sqlEq (readColumn record t.targetForeignKey) (readColumn through t.modelPrimaryKey))
    content.target content.through)
  refine flatMap_congr fun through hthrough => filter_congr fun record hrecord => ?_
  rw [hwheres, hprimary, htarget through hthrough record hrecord, Option.bind_some,
    hparent through hthrough]
  cases sqlEq (readColumn record t.targetForeignKey) (readColumn through t.modelPrimaryKey) <;>
    simp

end Queries

/-! ## Agreement -/

section Agreement

variable [DecidableEq κ] {d : Driver κ} {r : Relationship κ} {content : Content κ}
  {parents : List (Record κ)}

/-- What the conditions and the cohorts of a relationship say is what they are read as: no condition
    of the scope has an `OR` outside parentheses, no id is the name of an operator, the primary
    key of the through relationship is the one of its model, and the database tells the keys apart. -/
structure Readable (d : Driver κ) (r : Relationship κ) (content : Content κ)
    (parents : List (Record κ)) : Prop where
  plain : Plain r.scope.wheres
  names : NoOperators d.keys (primaryKeyValues r parents)
  throughNames : ∀ t, r.through = some t → NoOperators d.keys
    (content.through.map fun through => readColumn through t.modelPrimaryKey)
  primaryKey : ∀ t, r.through = some t → t.primaryKey = t.modelPrimaryKey
  tells : r.through = none → ∀ parent ∈ parents, ∀ record ∈ content.target,
    d.collation.Tells (readColumn record r.foreignKey) (readColumn parent r.primaryKey)
  throughTells : ∀ t, r.through = some t → ThroughTells d.collation r t content parents

/-- No record without a foreign key is in the scope, where a parent has no key. -/
def NoOrphans (d : Driver κ) (r : Relationship κ) (content : Content κ)
    (parents : List (Record κ)) : Prop :=
  ∀ parent ∈ parents, readColumn parent r.primaryKey = none → ∀ record ∈ content.target,
    readColumn record r.foreignKey = none →
      ((directWheres d.collation r).all fun c => c.first record) = false

/-- The through records of each parent stand in the order that the scope has for their targets. -/
def ThroughOrdered (r : Relationship κ) (t : Through) (content : Content κ)
    (parents : List (Record κ)) : Prop :=
  ∀ o, r.scope.order = some o → ∀ parent ∈ parents, ∀ k, readColumn parent r.primaryKey = some k →
    (idsOf t content k).Pairwise fun id other =>
      ∀ a ∈ targetsOf r t content id, ∀ b ∈ targetsOf r t content other, o.le a b = true

/-- When preloading agrees with loading. -/
def Agreeable (d : Driver κ) (r : Relationship κ) (content : Content κ)
    (parents : List (Record κ)) : Prop :=
  NoInherited d r parents ∧
    match r.through with
    | none => NoOrphans d r content parents
    | some t => NoInheritedThrough d r t content parents ∧ (parents ≠ [] → Unambiguous r t) ∧
        ThroughOrdered r t content parents

theorem run_eq_none (h : ¬ NoInherited d r parents) : run d r content parents = none := by
  unfold run
  split
  · rw [runThrough, indexModels_eq_none h]
    rfl
  · rw [runDirect, indexModels_eq_none h]
    rfl

theorem agrees_iff {assigned : List (Record κ × List (Record κ))}
    {collectionOf : Record κ → List (Record κ)} (hrun : run d r content parents = some assigned)
    (hassigns : Assigns assigned parents collectionOf) :
    Agrees d r content parents ↔ ∀ parent ∈ parents, ∃ rows, query d.collation r content parent = some rows ∧
      SameList r.scope.order (collectionOf parent) rows := by
  constructor
  · rintro ⟨assigned', collectionOf', hrun', hassigns', hsame⟩ parent hmem
    cases hrun'.symm.trans hrun
    have heq := ((hassigns _ _).1 ((hassigns' parent _).2 ⟨hmem, rfl⟩)).2
    exact heq ▸ hsame parent hmem
  · exact fun hsame => ⟨assigned, collectionOf, hrun, hassigns, hsame⟩

theorem direct_agrees (hread : Readable d r content parents) (hr : r.through = none)
    (hkeys : NoInherited d r parents) :
    Agrees d r content parents ↔ NoOrphans d r content parents := by
  obtain ⟨assigned, collectionOf, hrun, hassigns, hspec⟩ :=
    runDirect_spec content hread.plain hread.names hkeys (hread.tells hr)
  rw [agrees_iff (by rw [run, hr]; exact hrun) hassigns]
  refine forall₂_congr fun parent hmem => ?_
  obtain ⟨hnone, hsome, hsorted⟩ := hspec parent hmem
  obtain ⟨rows, hquery, hrowsSorted, hperm⟩ := query_direct content parent hread.plain hr
    (hread.tells hr parent hmem)
  rw [hquery]
  simp only [Option.some.injEq, exists_eq_left']
  cases hpk : readColumn parent r.primaryKey with
  | none =>
    rw [hpk] at hperm
    rw [hnone hpk]
    have hempty : rows = [] ↔ ∀ record ∈ content.target, readColumn record r.foreignKey = none →
        ((directWheres d.collation r).all fun c => c.first record) = false := by
      rw [← length_eq_zero_iff, hperm.length_eq]
      simp
    constructor
    · rintro ⟨hnil, -⟩ -
      exact hempty.1 hnil.symm.eq_nil
    · intro h
      rw [hempty.2 (h rfl)]
      exact ⟨.refl _, fun o ho => .nil, fun o ho => .nil⟩
  | some k =>
    refine iff_of_true ⟨?_, hsorted, hrowsSorted⟩ fun h => by cases h
    rw [hpk] at hperm
    refine (hsome k hpk).trans (List.Perm.trans (List.Perm.of_eq ?_) hperm.symm)
    exact filter_congr fun record _ => Bool.and_comm _ _

theorem through_agrees {t : Through} (hread : Readable d r content parents) (hr : r.through = some t)
    (hkeys : NoInherited d r parents) (hthrough : NoInheritedThrough d r t content parents)
    (hcolumns : parents ≠ [] → Unambiguous r t) :
    Agrees d r content parents ↔ ThroughOrdered r t content parents := by
  obtain ⟨assigned, collectionOf, hrun, hassigns, hspec⟩ := runThrough_spec content
    hread.plain hkeys hthrough hread.names (hread.throughNames t hr) (hread.throughTells t hr)
  rw [agrees_iff (by rw [run, hr]; exact hrun) hassigns]
  have hquery (parent : Record κ) (hmem : parent ∈ parents) :=
    query_through content parent hread.plain hr
      (hcolumns (ne_nil_of_mem hmem)) (hread.primaryKey t hr)
      ((hread.throughTells t hr).parent parent hmem) (hread.throughTells t hr).target
  have hsorted (parent : Record κ) (hmem : parent ∈ parents) (k : κ)
      (hpk : readColumn parent r.primaryKey = some k) (o : Order (Record κ))
      (ho : r.scope.order = some o) :
      (collectionOf parent).Pairwise (fun a b => o.le a b = true) ↔
        (idsOf t content k).Pairwise fun id other => ∀ a ∈ targetsOf r t content id,
          ∀ b ∈ targetsOf r t content other, o.le a b = true := by
    obtain ⟨found, hcollection, hfound⟩ := (hspec parent hmem).2 k hpk
    rw [hcollection, pairwise_flatMap]
    constructor
    · rintro ⟨-, hpairs⟩
      refine hpairs.imp_of_mem fun {id other} hid hother h a ha b hb => ?_
      exact h a ((hfound id hid).1.mem_iff.2 ha) b ((hfound other hother).1.mem_iff.2 hb)
    · intro hpairs
      refine ⟨fun id hid => (hfound id hid).2 o ho, hpairs.imp_of_mem fun {id other} hid hother h a ha b hb => ?_⟩
      exact h a ((hfound id hid).1.mem_iff.1 ha) b ((hfound other hother).1.mem_iff.1 hb)
  constructor
  · intro h o ho parent hmem k hpk
    obtain ⟨rows, -, hsame⟩ := h parent hmem
    exact (hsorted parent hmem k hpk o ho).1 (hsame.2.1 o ho)
  · intro h parent hmem
    obtain ⟨rows, hrows, hrowsSorted, hperm⟩ := hquery parent hmem
    refine ⟨rows, hrows, ?_⟩
    cases hpk : readColumn parent r.primaryKey with
    | none =>
      rw [hpk] at hperm
      simp only [sqlEq_none, filter_false] at hperm
      rw [(hspec parent hmem).1 hpk, hperm.eq_nil]
      exact ⟨.refl _, fun o ho => .nil, fun o ho => .nil⟩
    | some k =>
      refine ⟨?_, fun o ho => (hsorted parent hmem k hpk o ho).2 (h o ho parent hmem k hpk),
        hrowsSorted⟩
      obtain ⟨found, hcollection, hfound⟩ := (hspec parent hmem).2 k hpk
      rw [hpk] at hperm
      refine List.Perm.trans ?_ hperm.symm
      rw [hcollection]
      refine (List.Perm.flatMap_left _ fun id hid => (hfound id hid).1).trans (List.Perm.of_eq ?_)
      simp [idsOf, withValue, flatMap_map]

/-- **Preloading agrees with loading** exactly when no id is the name of a property that every object
    has, no parent without a key has records, and for a relationship through another one no column
    name of the scope is ambiguous and the through records stand in the scope's order. -/
theorem preload_agrees (hread : Readable d r content parents) :
    Agrees d r content parents ↔ Agreeable d r content parents := by
  by_cases hkeys : NoInherited d r parents
  swap
  · refine iff_of_false ?_ fun h => hkeys h.1
    rintro ⟨assigned, -, hrun, -⟩
    rw [run_eq_none hkeys] at hrun
    cases hrun
  rw [Agreeable, and_iff_right hkeys]
  cases hr : r.through with
  | none => exact direct_agrees hread hr hkeys
  | some t =>
    by_cases hthrough : NoInheritedThrough d r t content parents
    swap
    · refine iff_of_false ?_ fun h => hthrough h.1
      rintro ⟨assigned, -, hrun, -⟩
      simp [run, hr, runThrough_eq_none hkeys hread.names (hread.throughTells t hr) hthrough] at hrun
    by_cases hcolumns : parents ≠ [] → Unambiguous r t
    swap
    · refine iff_of_false ?_ fun h => hcolumns h.2.1
      rintro ⟨assigned, collectionOf, hrun, -, hsame⟩
      obtain ⟨hne, hambiguous⟩ := Classical.not_imp.1 hcolumns
      obtain ⟨parent, others, rfl⟩ := exists_cons_of_ne_nil hne
      obtain ⟨rows, hquery, -⟩ := hsame parent mem_cons_self
      rw [query_ambiguous hr hambiguous] at hquery
      cases hquery
    rw [through_agrees hread hr hkeys hthrough hcolumns]
    exact ⟨fun h => ⟨hthrough, hcolumns, h⟩, fun h => h.2.2⟩

end Agreement

/-! ## Numbered records -/

theorem all_isDigit_repr (n : ℕ) : n.repr.toList.all Char.isDigit = true := by
  rw [Nat.toList_repr, all_eq_true]
  exact fun c hc => Nat.isDigit_of_mem_toDigits (by decide) (by decide) hc

/-- Numbers as ids. -/
def numbers : Keys ℕ where
  text
    | none => "null"
    | some n => n.repr
  text_injective := by
    have hnull (n : ℕ) : n.repr ≠ "null" := fun h => by
      have := all_isDigit_repr n
      rw [h] at this
      revert this
      decide
    rintro (- | m) (- | n) h
    · rfl
    · exact absurd h.symm (hnull n)
    · exact absurd h (hnull m)
    · have hdigits : Nat.toDigits 10 m = Nat.toDigits 10 n := by
        rw [← Nat.toList_repr, ← Nat.toList_repr, show m.repr = n.repr from h]
      have := congrArg (Nat.ofDigitChars 10 · 0) hdigits
      rw [Nat.ofDigitChars_ten_toDigits, Nat.ofDigitChars_ten_toDigits] at this
      exact congrArg some this

theorem numbers_not_inherited (n : ℕ) : numbers.text (some n) ∉ inheritedNames := by
  have hnames : ∀ name ∈ inheritedNames, name.toList.all Char.isDigit = false := by decide
  intro h
  exact absurd ((all_isDigit_repr n).symm.trans (hnames _ h)) (by simp)

theorem numbers_no_operator (n : ℕ) :
    WhereModelClassHash.operator? (numbers.text (some n)) = none := by
  have hnames (name : String) (h : name.toList.all Char.isDigit = true) :
      WhereModelClassHash.operator? name = none := by
    unfold WhereModelClassHash.operator?
    split <;> first | rfl | (revert h; decide)
  exact hnames _ (all_isDigit_repr n)

/-- A driver of numbered records, with one value to a cohort. -/
def numbersDriver : Driver ℕ where
  keys := numbers
  collation := .binary
  maxInClauseValues := 1
  throughFits _ := true
  targetFits _ := true
  tupleRows _ := none

def byPosition : Order (Record ℕ) where
  le a b := decide ((readColumn a "position").getD 0 ≤ (readColumn b "position").getD 0)
  le_trans a b c := by simpa using Nat.le_trans
  le_total a b := by simpa using Nat.le_total _ _

/-- `Project.hasMany("tasks", (scope) => scope.order("position"))` -/
def projectTasks : Relationship ℕ where
  foreignKey := "project_id"
  primaryKey := "id"
  scope := { order := some byPosition }

theorem noOperators_of_some {values : List (Option ℕ)} (h : ∀ value ∈ values, value.isSome) :
    NoOperators numbers values := by
  intro value hmem
  obtain ⟨n, rfl⟩ := Option.isSome_iff_exists.1 (h value hmem)
  exact numbers_no_operator n

/-- Projects with a repeat among them, in two cohorts. -/
theorem preload_agrees_tasks : Agrees numbersDriver projectTasks
    { target := [[("id", 1), ("project_id", 7), ("position", 2)],
        [("id", 2), ("project_id", 7), ("position", 1)], [("id", 3), ("project_id", 8)]] }
    [[("id", 7)], [("id", 8)], [("id", 7)]] := by
  refine (preload_agrees
    { plain := fun c hc => by cases hc
      names := noOperators_of_some (by decide)
      throughNames := fun t ht => by cases ht
      primaryKey := fun t ht => by cases ht
      tells := fun _ _ _ _ _ => Collation.tells_binary _ _
      throughTells := fun t ht => by cases ht }).2 ⟨fun parent hmem => ?_, ?_⟩
  · rcases (by simpa [or_comm] using hmem : parent = [("id", 7)] ∨ parent = [("id", 8)]) with rfl | rfl
    · exact numbers_not_inherited 7
    · exact numbers_not_inherited 8
  · intro parent hmem hnone
    rcases (by simpa [or_comm] using hmem : parent = [("id", 7)] ∨ parent = [("id", 8)]) with rfl | rfl
    · cases hnone
    · cases hnone

/-- `Project.hasMany("comments", (scope) => scope.order("position"), {through: "tasks"})` -/
def projectComments : Relationship ℕ where
  foreignKey := "project_id"
  primaryKey := "id"
  through := some ⟨"project_id", "id", "id", "task_id", ["id", "project_id"]⟩
  scope := { order := some byPosition }

/-- A task has the later comment and the next task the earlier one: preloading gives the comments of
    the first task first. -/
theorem preload_unordered : ¬ Agrees numbersDriver projectComments
    { target := [[("id", 10), ("task_id", 1), ("position", 2)],
        [("id", 11), ("task_id", 2), ("position", 1)]]
      through := [[("id", 1), ("project_id", 7)], [("id", 2), ("project_id", 7)]] }
    [[("id", 7)]] := by
  intro h
  have hread : Readable numbersDriver projectComments
      { target := [[("id", 10), ("task_id", 1), ("position", 2)],
          [("id", 11), ("task_id", 2), ("position", 1)]]
        through := [[("id", 1), ("project_id", 7)], [("id", 2), ("project_id", 7)]] }
      [[("id", 7)]] :=
    { plain := fun c hc => by cases hc
      names := noOperators_of_some (by decide)
      throughNames := fun t ht => by
        cases ht
        exact noOperators_of_some (by decide)
      primaryKey := fun t ht => by
        cases ht
        rfl
      tells := fun ht => by cases ht
      throughTells := fun _ _ =>
        ⟨fun _ _ _ _ => Collation.tells_binary _ _, fun _ _ _ _ => Collation.tells_binary _ _⟩ }
  have hordered := (through_agrees hread rfl (fun parent hmem => ?_) (fun through hmem _ => ?_)
    fun _ column hmem => by cases hmem).1 h byPosition rfl [("id", 7)] (by simp) 7 rfl
  · revert hordered
    decide
  · obtain rfl := mem_singleton.1 hmem
    exact numbers_not_inherited 7
  · rcases (by simpa using hmem : through = [("id", 1), ("project_id", 7)] ∨
      through = [("id", 2), ("project_id", 7)]) with rfl | rfl
    · exact numbers_not_inherited 1
    · exact numbers_not_inherited 2

end Velocious.HasMany
