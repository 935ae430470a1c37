/-
  The `WHERE` clause of a query, and what it says of a row.

  * `Where` are the nodes of the conditions, each with its SQL; `whereSql` joins them by `AND`.
  * `Call` is what adds conditions: strings, hashes and ransack groups; scopes and authorization
    filters add them by these calls.
  * `whereHolds`: a row is one of those that the conditions of some calls select.
-/
import Velocious.Foundation.BooleanText

namespace Velocious.Conditions

open Foundation

/-! ## Nodes -/

/-- `1=1` or `1=0`, or a comparison of a row. -/
inductive Atom (α : Type) where
  | const (b : Bool)
  | test (a : α)
  deriving DecidableEq

abbrev Sql (α : Type) := List (Token (Atom α))

/-- How conditions are joined. -/
inductive Combinator where
  | and
  | or
  deriving DecidableEq

/-- A node of the conditions. -/
inductive Where (α : Type) where
  | plain (sql : Sql α)
  /-- `WhereHash` and `WhereModelClassHash`, by the comparisons that the hash compiles to -/
  | hash (first : Atom α) (others : List (Atom α))
  | not (w : Where α)
  | combinator (combinator : Combinator) (wheres : List (Where α))

variable {α : Type}

def Combinator.token : Combinator → Token (Atom α)
  | .and => .and
  | .or => .or

def joinTexts (separator : Token (Atom α)) : Sql α → List (Sql α) → Sql α
  | first, [] => first
  | first, next :: others => first ++ separator :: joinTexts separator next others

def inParentheses (sql : Sql α) : Sql α := .open :: sql ++ [.close]

mutual

def Where.toSql : Where α → Sql α
  | .plain sql => sql
  | .hash first others =>
    inParentheses (joinTexts .and [.atom first] (others.map fun atom => [.atom atom]))
  | .not w => .not :: inParentheses w.toSql
  | .combinator combinator wheres =>
    match toSqls wheres with
    | [] => inParentheses [.atom (.const true)]
    | first :: others => inParentheses (joinTexts combinator.token first others)

def toSqls : List (Where α) → List (Sql α)
  | [] => []
  | w :: wheres => w.toSql :: toSqls wheres

end

/-- What `WhereParser` writes after `WHERE`; `none` where there is no `WHERE`. -/
def whereSql (wheres : List (Where α)) : Option (Sql α) :=
  match toSqls wheres with
  | [] => none
  | first :: others => some (joinTexts .and first others)

/-! ## Calls -/

/-- A condition of a ransack group: the comparisons of its attributes. -/
structure RansackCondition (α : Type) where
  combinator : Combinator
  attributes : List (Atom α × List (Atom α))
  negated : Bool

/-- A group of conditions, and those in it. -/
inductive RansackGroup (α : Type) where
  | group (combinator : Combinator) (conditions : List (RansackCondition α))
    (groupings : List (RansackGroup α))

def combine (combinator : Combinator) : List (Where α) → Option (Where α)
  | [] => none
  | [w] => some w
  | wheres => some (.combinator combinator wheres)

def buildRansackConditionWhere (condition : RansackCondition α) : Option (Where α) :=
  combine condition.combinator <| condition.attributes.map fun comparisons =>
    let w := Where.hash comparisons.1 comparisons.2
    if condition.negated then .not w else w

mutual

def buildRansackGroupWhere : RansackGroup α → Option (Where α)
  | .group combinator conditions groupings =>
    combine combinator
      (conditions.filterMap buildRansackConditionWhere ++ buildGroupings groupings)

def buildGroupings : List (RansackGroup α) → List (Where α)
  | [] => []
  | grouping :: groupings =>
    (buildRansackGroupWhere grouping).toList ++ buildGroupings groupings

end

/-- A call that adds conditions. -/
inductive Call (α : Type) where
  | string (negated : Bool) (sql : Sql α)
  /-- `where` or `whereNot`, with a hash: the comparisons of what `splitWhereHash` resolves, and of
      the rest -/
  | hash (negated : Bool) (resolved fallback : List (Atom α))
  | ransack (group : RansackGroup α)

def hashNode (negated : Bool) : List (Atom α) → List (Where α)
  | [] => []
  | first :: others => [if negated then .not (.hash first others) else .hash first others]

def Call.nodes : Call α → List (Where α)
  | .string negated sql => [if negated then .not (.plain sql) else .plain sql]
  | .hash negated resolved fallback => hashNode negated resolved ++ hashNode negated fallback
  | .ransack group => (buildRansackGroupWhere group).toList

section Rows

variable {ρ : Type} (value : ρ → α → Truth)

def atomValue (row : ρ) : Atom α → Truth
  | .const b => some b
  | .test a => value row a

/-- The rows that the conditions of some calls select. -/
def whereHolds (calls : List (Call α)) (row : ρ) : Prop :=
  match whereSql (calls.flatMap Call.nodes) with
  | none => True
  | some sql => truth (atomValue value row) sql = some true

end Rows

end Velocious.Conditions
