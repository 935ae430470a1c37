/-
  `withCount`: the rows of has-many relationships, counted for all parents by grouped queries.

  * `loadRows` is what the relationship's own query loads for a parent, with the extra condition of
    an entry.
  * `runWithCount` renders a query for each entry, executes those of one text once, in cohorts of
    parent ids, and attaches a count to each parent; `none` is where it throws.

  A scope may join tables, order, limit and ask for distinct rows. The database compares values by
  its `collation`, in its conditions and where it groups; rows of a table differ in their ids for
  it, so that distinct rows are those that differ.
-/
import Velocious.Foundation.EntryMap
import Velocious.Database.Query.RelationshipQueries

namespace Velocious.WithCount

open Foundation HasMany

variable {κ : Type}

/-- A target, and what the scope joins with it. -/
abbrev Joined (κ : Type) := Record κ × Record κ

/-- A relationship, with what its scope does beside its conditions. -/
structure CountedRelationship (κ : Type) extends Association κ where
  /-- the tables that it reads, and the database that has them -/
  tables : String
  foreignKeyText : Bool := false
  /-- the columns of the tables that its scope joins, where it joins any -/
  joinedColumns : Option (List String) := none
  /-- the columns that the hashes of its scope, and of its entries, name -/
  named : List String := []
  order : Option (Order (Joined κ)) := none
  limit : Option ℕ := none
  distinct : Bool := false
  type_ne : ∀ typeColumn modelName, polymorphic = some (typeColumn, modelName) →
    typeColumn ≠ foreignKey := by simp

/-- What `withCount` was called with. -/
structure Entry (κ : Type) where
  attributeName : String
  relationship : CountedRelationship κ
  scopeWheres : List (Clause (Joined κ)) := []
  extra : Option (Record κ → Bool) := none

/-- What is stored in the tables of a relationship. -/
structure CountContent (κ : Type) extends Content κ where
  joined : Record κ → List (Record κ) := fun _ => [[]]

/-- What is found with a target, whether the scope joins tables or not. -/
def CountContent.found (content : CountContent κ) (joins : Bool) (record : Record κ) :
    List (Record κ) :=
  if joins then content.joined record else [[]]

def extraClause (e : Entry κ) : Clause (Joined κ) := ⟨fun row => e.extra.all (· row.1), []⟩

/-- The columns that the own query names without their table. -/
def unqualified (r : CountedRelationship κ) : List String :=
  match r.through with
  | some _ => r.named
  | none => r.foreignKey :: (r.polymorphic.map Prod.fst).toList ++ r.named

/-- The columns of the tables that are joined with the target. -/
def otherColumns (r : CountedRelationship κ) : List String :=
  r.joinedColumns.getD [] ++ (r.through.map Through.columns).getD []

def isAmbiguous (r : CountedRelationship κ) : Bool := (unqualified r).any (· ∈ otherColumns r)

section Queries

def joinedRows (joins : Bool) (content : CountContent κ) : List (Joined κ) :=
  content.target.flatMap fun record => (content.found joins record).map fun other => (record, other)

variable (c : Collation κ)

/-- The rows of the own query, before they are ordered. -/
def ownRows (e : Entry κ) (content : CountContent κ) (parent : Record κ) : List (Joined κ) :=
  let r := e.relationship
  let parentId := readColumn parent r.primaryKey
  match r.through with
  | some t =>
    let ofParent : Clause (Joined κ × Option (Record κ)) :=
      ⟨fun row => c.eq (row.2.bind (readColumn · t.foreignKey)) parentId, []⟩
    let wheres := ofParent :: (e.scopeWheres ++ [extraClause e]).map (Clause.comap Prod.fst)
    (((leftJoin c t content.toContent).flatMap fun row =>
      (content.found r.joinedColumns.isSome row.1).map fun other =>
        ((row.1, other), row.2)).filter (whereHolds wheres)).map Prod.fst
  | none =>
    let ofParent : Clause (Joined κ) :=
      ⟨fun row => columnIs c r.foreignKey parentId row.1 && typeIs c r.toAssociation row.1, []⟩
    (joinedRows r.joinedColumns.isSome content).filter
      (whereHolds (ofParent :: e.scopeWheres ++ [extraClause e]))

/-- `query().where(extra).load()`; `none` where a column name is ambiguous -/
def loadRows [DecidableEq κ] (e : Entry κ) (content : CountContent κ) (parent : Record κ) :
    Option (List (Record κ)) :=
  let r := e.relationship
  if isAmbiguous r then none else
  let rows := (orderBy r.order (ownRows c e content parent)).map Prod.fst
  let rows := if r.distinct then distinct rows else rows
  some (r.limit.elim rows rows.take)

end Queries

/-! ## Count queries -/

/-- The grouped query of `queryForEntry`. -/
structure CountQuery (κ : Type) where
  tables : String
  foreignKey : String
  foreignKeyText : Bool
  joins : Bool
  wheres : List (Clause (Joined κ))
  ordered : Bool
  limit : Option ℕ

/-- A value as the driver returns it: a text, or a number. -/
abbrev Returned (κ : Type) := Bool × κ

/-- A database and its driver. -/
structure Database (κ : Type) where
  keys : Keys κ
  maxInClauseValues : ℕ
  fits : List (Option κ) → Bool
  ordersGroups : Bool
  primaryKeyText : Bool
  tupleCounts : List (Option κ) → Option (List (Returned κ × ℕ))
  collation : Collation κ

def queryForEntry (c : Collation κ) (e : Entry κ) : CountQuery κ :=
  let r := e.relationship
  { tables := r.tables
    foreignKey := r.foreignKey
    foreignKeyText := r.foreignKeyText
    joins := r.joinedColumns.isSome
    wheres := (if r.polymorphic.isSome then [⟨fun row => typeIs c r.toAssociation row.1, []⟩]
      else []) ++
      (if e.extra.isSome then [extraClause e] else []) ++ e.scopeWheres
    ordered := r.order.isSome
    limit := r.limit }

def cohortJoinedRows (c : Collation κ) (content : CountContent κ) (q : CountQuery κ)
    (cohort : List (Option κ)) : List (Joined κ) :=
  let isIn : Clause (Joined κ) :=
    ⟨fun row => cohort.any (c.eq (readColumn row.1 q.foreignKey)), []⟩
  (joinedRows q.joins content).filter (whereHolds (q.wheres ++ [isIn]))

/-- `GROUP BY`: the first value of each group. -/
def groupKeys (c : Collation κ) : List κ → List κ
  | [] => []
  | k :: ks => k :: (groupKeys c ks).filter fun k' => !c.same k k'

/-- `executeCountQuery`: a row for each group. -/
def executeCountQuery (d : Database κ) (contents : String → CountContent κ) (q : CountQuery κ)
    (cohort : List (Option κ)) : Option (List (Returned κ × ℕ)) :=
  if q.ordered && !d.ordersGroups then none
  else if isTuple d.keys cohort then d.tupleCounts cohort else
  let rows := cohortJoinedRows d.collation (contents q.tables) q cohort
  let keys := groupKeys d.collation (rows.filterMap fun row => readColumn row.1 q.foreignKey)
  let groups := keys.map fun k => ((q.foreignKeyText, k),
    rows.countP fun row => d.collation.eq (readColumn row.1 q.foreignKey) (some k))
  some (q.limit.elim groups groups.take)

/-- A database, with the texts of its queries. -/
structure Server (κ : Type) extends Database κ where
  toSql : CountQuery κ → String

abbrev Counts (κ : Type) := EntryMap (Returned κ) ℕ

variable [DecidableEq κ]

def setCounts (counts : Counts κ) (rows : List (Returned κ × ℕ)) : Counts κ :=
  rows.foldl (fun counts row => counts.set row.1 row.2) counts

def executeChunkedCountQuery (d : Database κ) (contents : String → CountContent κ)
    (q : CountQuery κ) (parentIds : List (Option κ)) : Option (Counts κ) :=
  (chunkValues d.maxInClauseValues d.fits parentIds).foldlM (fun counts cohort =>
    (executeCountQuery d contents q cohort).map (setCounts counts)) .empty

/-- The count of a parent in `attachCounts`: by its primary key, or by the text of it. -/
def resolvedCount (d : Database κ) (counts : Counts κ) (id : Option κ) : ℕ :=
  match id with
  | none => 0
  | some k => (counts.get? (d.primaryKeyText, k)).getD ((counts.get? (true, k)).getD 0)

/-- A count that is attached to a parent under a name. -/
abbrev Attached (κ : Type) := Record κ × String × ℕ

def attachCounts (d : Database κ) (primaryKey : String) (counts : Counts κ) (e : Entry κ)
    (models : List (Record κ)) : List (Attached κ) :=
  models.map fun model =>
    (model, e.attributeName, resolvedCount d counts (readColumn model primaryKey))

/-- `queryGroups`: the entries of each text, with the query of the first. -/
def queryGroups (s : Server κ) (entries : List (Entry κ)) :
    EntryMap String (CountQuery κ × List (Entry κ)) :=
  entries.foldl (fun groups e =>
    let q := queryForEntry s.collation e
    match groups.get? (s.toSql q) with
    | some group => groups.set (s.toSql q) (group.1, group.2 ++ [e])
    | none => groups.set (s.toSql q) (q, [e])) .empty

def runWithCount (s : Server κ) (primaryKey : String) (contents : String → CountContent κ)
    (entries : List (Entry κ)) (models : List (Record κ)) : Option (List (Attached κ)) :=
  if models = [] ∨ entries.isEmpty then some [] else do
  let parentIds := models.map fun model => readColumn model primaryKey
  let attached ← (queryGroups s entries).values.mapM fun group => do
    let counts ← executeChunkedCountQuery s.toDatabase contents group.1 parentIds
    some (group.2.flatMap fun e => attachCounts s.toDatabase primaryKey counts e models)
  some attached.flatten

/-- The count of a model under a name: the one that is attached last, `_setAssociationCount`. -/
def associationCount (attached : List (Attached κ)) (model : Record κ) (name : String) :
    Option ℕ :=
  (attached.reverse.find? fun a => a.1 = model ∧ a.2.1 = name).map (·.2.2)

end Velocious.WithCount
