/-
  The queries of has-many relationships.

  * A condition is written into the SQL as it is, without parentheses: `Clause` are the terms between
    its `OR`s, and `whereHolds` reads conditions that are joined by `AND`.
  * `Relationship` is direct, polymorphic or through another one, with a scope of conditions and an
    order; `query` is what it loads for a parent.
  * A list of values is asked for in cohorts; `cohortRows` is what one of them finds.
  * The databases compare values by a `Collation`: MySQL tables are `utf8mb4_unicode_ci`, for which
    `abc` is `ABC`.
-/
import Velocious.Database.Query.WhereModelClassHash
import Velocious.Foundation.Cohorts
import Velocious.Foundation.Table

namespace Velocious.HasMany

open Foundation

/-- A record, by its columns; a column without a value is `NULL`. -/
abbrev Record (κ : Type) := List (String × κ)

variable {κ α β : Type}

def readColumn (record : Record κ) (column : String) : Option κ := record.lookup column

/-! ## Conditions -/

/-- A condition, as the terms between its top-level `OR`s; one in parentheses has no others. -/
structure Clause (α : Type) where
  first : α → Bool
  others : List (α → Bool) := []

namespace Clause

def holds (c : Clause α) (a : α) : Bool := c.first a || c.others.any fun term => term a

/-- The terms of `… OR first AND c`, where `c` follows the last of some terms. -/
def after (c : Clause α) : (α → Bool) → List (α → Bool) → Clause α
  | first, [] => ⟨fun a => first a && c.first a, c.others⟩
  | first, term :: terms =>
    let rest := after c term terms
    ⟨first, rest.first :: rest.others⟩

/-- `b AND c`; `AND` binds the last term of `b` to the first of `c`. -/
def and (b c : Clause α) : Clause α := c.after b.first b.others

def comap (f : β → α) (c : Clause α) : Clause β :=
  ⟨c.first ∘ f, c.others.map (· ∘ f)⟩

end Clause

/-- `WHERE`: the conditions of a query, joined by `AND`. -/
def whereHolds (wheres : List (Clause α)) (a : α) : Bool :=
  (wheres.foldr Clause.and ⟨fun _ => true, []⟩).holds a

/-- Every condition is in parentheses, or has no `OR`. -/
def Plain (wheres : List (Clause α)) : Prop := ∀ c ∈ wheres, c.others = []

theorem whereHolds_of_plain {wheres : List (Clause α)} (h : Plain wheres) (a : α) :
    whereHolds wheres a = wheres.all fun c => c.first a := by
  have hand : ∃ first, wheres.foldr Clause.and ⟨fun _ => true, []⟩ = ⟨first, []⟩ ∧
      first a = wheres.all fun c => c.first a := by
    induction wheres with
    | nil => exact ⟨_, rfl, rfl⟩
    | cons c wheres ih =>
      obtain ⟨first, hfirst, ha⟩ := ih fun c hmem => h c (List.mem_cons_of_mem _ hmem)
      refine ⟨fun a => c.first a && first a, ?_, by simp [ha]⟩
      simp [hfirst, Clause.and, Clause.after, h c List.mem_cons_self]
  obtain ⟨first, hfirst, ha⟩ := hand
  simp [whereHolds, hfirst, Clause.holds, ha]

/-! ## Equality in the database -/

/-- `=` of the database, which may take values for the same that differ. -/
structure Collation (κ : Type) where
  same : κ → κ → Bool
  refl : ∀ a, same a a = true

namespace Collation

/-- `NULL` is no value's equal. -/
def eq (c : Collation κ) : Option κ → Option κ → Bool
  | some a, some b => c.same a b
  | _, _ => false

/-- The database takes two values for the same only where they are. -/
def Tells [DecidableEq κ] (c : Collation κ) (a b : Option κ) : Prop := c.eq a b = sqlEq a b

/-- The collation for which no two values are the same. -/
def binary [DecidableEq κ] : Collation κ where
  same a b := a = b
  refl _ := decide_eq_true rfl

@[simp] theorem eq_none_right (c : Collation κ) (a : Option κ) : c.eq a none = false := by
  cases a <;> rfl

@[simp] theorem eq_none_left (c : Collation κ) (b : Option κ) : c.eq none b = false := rfl

@[simp] theorem eq_self (c : Collation κ) (a : κ) : c.eq (some a) (some a) = true := c.refl a

theorem tells_binary [DecidableEq κ] (a b : Option κ) : (binary : Collation κ).Tells a b := by
  cases a <;> cases b <;> simp [Tells, eq, binary]

end Collation

/-! ## Scopes and relationships -/

/-- An `ORDER BY`. -/
structure Order (α : Type) where
  le : α → α → Bool
  le_trans : ∀ a b c, le a b = true → le b c = true → le a c = true
  le_total : ∀ a b, le a b = true ∨ le b a = true

/-- The rows of a table, in the order in which the database has them, and then as they are asked
    for. -/
def orderBy (order : Option (Order α)) (rows : List α) : List α :=
  match order with
  | none => rows
  | some order => rows.insertionSort fun a b => order.le a b = true

/-- What a scope adds to a query. -/
structure Scope (κ : Type) where
  wheres : List (Clause (Record κ)) := []
  order : Option (Order (Record κ)) := none
  unqualified : List String := []

/-- The relationship that another one goes through, and its model. -/
structure Through where
  foreignKey : String
  primaryKey : String
  modelPrimaryKey : String
  targetForeignKey : String
  columns : List String

/-- The keys of a has-many relationship. -/
structure Association (κ : Type) where
  foreignKey : String
  primaryKey : String
  /-- `getPolymorphicTypeColumn` and the name of the model, where it is polymorphic -/
  polymorphic : Option (String × κ) := none
  through : Option Through := none

/-- A relationship with its scope. -/
structure Relationship (κ : Type) extends Association κ where
  scope : Scope κ := {}

/-- What is stored in the tables of a relationship. -/
structure Content (κ : Type) where
  target : List (Record κ)
  through : List (Record κ) := []

section Queries

variable (c : Collation κ)

/-- `where({[column]: value})`; `null` is `IS NULL` -/
def columnIs (column : String) (value : Option κ) : Record κ → Bool :=
  fun record => match value with
    | none => (readColumn record column).isNone
    | some _ => c.eq (readColumn record column) value

/-- `{[typeColumn]: modelName}`, where a relationship is polymorphic -/
def typeIs (r : Association κ) : Record κ → Bool :=
  fun record => match r.polymorphic with
    | none => true
    | some (typeColumn, modelName) => c.eq (readColumn record typeColumn) (some modelName)

/-- `LEFT JOIN`, on the primary key of the through model. -/
def leftJoin (t : Through) (content : Content κ) : List (Record κ × Option (Record κ)) :=
  content.target.flatMap fun record =>
    match content.through.filter fun through =>
        c.eq (readColumn record t.targetForeignKey) (readColumn through t.primaryKey) with
    | [] => [(record, none)]
    | throughs => throughs.map fun through => (record, some through)

/-- `query()` of `HasManyInstanceRelationship`, and its `load()`; `none` where a column name is
    ambiguous. -/
def query (r : Relationship κ) (content : Content κ) (parent : Record κ) :
    Option (List (Record κ)) :=
  let parentId := readColumn parent r.primaryKey
  match r.through with
  | some t =>
    if r.scope.unqualified.any (· ∈ t.columns) then none else
    let ofParent : Clause (Record κ × Option (Record κ)) :=
      ⟨fun joined => c.eq (joined.2.bind (readColumn · t.foreignKey)) parentId, []⟩
    let wheres := ofParent :: r.scope.wheres.map (Clause.comap Prod.fst)
    some <| orderBy r.scope.order (((leftJoin c t content).filter (whereHolds wheres)).map Prod.fst)
  | none =>
    let ofParent : Clause (Record κ) :=
      ⟨fun record => columnIs c r.foreignKey parentId record && typeIs c r.toAssociation record, []⟩
    some <| orderBy r.scope.order (content.target.filter (whereHolds (ofParent :: r.scope.wheres)))

theorem columnIs_eq [DecidableEq κ] {c : Collation κ} {column : String} {value : Option κ}
    {record : Record κ} (h : c.Tells (readColumn record column) value) :
    columnIs c column value record = decide (readColumn record column = value) := by
  unfold columnIs
  cases value with
  | none => cases readColumn record column <;> rfl
  | some k => exact Eq.trans h sqlEq_some

end Queries

/-- How the values of a column are written as property names, `null` among them; those that differ
    are written differently. -/
structure Keys (κ : Type) where
  text : Option κ → String
  text_injective : Function.Injective text

/-- How a driver and its database take and give values. -/
structure Driver (κ : Type) where
  keys : Keys κ
  collation : Collation κ
  maxInClauseValues : ℕ
  throughFits : List (Option κ) → Bool
  targetFits : List (Option κ) → Bool
  tupleRows : List (Option κ) → Option (List (Record κ))

/-- A cohort that a where hash takes for an operator tuple. -/
def isTuple (keys : Keys κ) : List (Option κ) → Bool
  | [some _, some operator, _] =>
    (WhereModelClassHash.operator? (keys.text (some operator))).isSome
  | _ => false

/-- The rows of a table that a cohort asks for by a column, `where({[column]: cohort})`, after other
    conditions. -/
def cohortRows (d : Driver κ) (column : String) (wheres : List (Clause (Record κ)))
    (order : Option (Order (Record κ))) (rows : List (Record κ)) (cohort : List (Option κ)) :
    Option (List (Record κ)) :=
  if isTuple d.keys cohort then d.tupleRows cohort else
  let isIn : Clause (Record κ) := ⟨fun record => cohort.any (d.collation.eq (readColumn record column)), []⟩
  some <| orderBy order (rows.filter (whereHolds (wheres ++ [isIn])))

/-- The rows of all cohorts of some values, one after the other. -/
def loadCohorts (d : Driver κ) (fits : List (Option κ) → Bool) (column : String)
    (wheres : List (Clause (Record κ))) (order : Option (Order (Record κ)))
    (rows : List (Record κ)) (values : List (Option κ)) : Option (List (Record κ)) :=
  ((chunkValues d.maxInClauseValues fits values).mapM
    (cohortRows d column wheres order rows)).map List.flatten

end Velocious.HasMany
