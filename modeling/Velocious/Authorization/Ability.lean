/-
  The rules of an ability, and the filter that they put on a query.

  * `Query`: the joins and the conditions of a query of one model, whose primary key is one column;
    `ids` are the primary keys that it selects, `NULL` where a join has no row of the model's own
    table.
  * `Rule`: actions, a model, an effect and perhaps conditions; an empty string is no condition.
  * `applyToQuery`: conditions become `pk IN (…)` over a query of their own; allow rules are joined
    by `OR`, deny rules stand behind `NOT`.
-/
import Velocious.Database.Query.Conditions

namespace Velocious.Ability

open Foundation Conditions

/-! ## Queries -/

/-- A query of one model. -/
structure Query (A J : Type) where
  joins : List J
  calls : List (Call A)
  distinct : Bool

/-- What the tables hold, as a query of the model sees it. -/
structure Content (A J ρ κ : Type) where
  rows : List J → List ρ
  id : ρ → Option κ
  value : ρ → A → Truth

variable {A J ρ κ M : Type}

instance decidableWhereHolds (value : ρ → A → Truth) (calls : List (Call A)) (row : ρ) :
    Decidable (whereHolds value calls row) :=
  decidable_of_iff ((whereSql (calls.flatMap Call.nodes)).all fun sql =>
    truth (atomValue value row) sql = some true) (by
      rw [whereHolds]
      cases whereSql (calls.flatMap Call.nodes) <;> simp)

namespace Query

/-- `modelClass._newQuery()` -/
def new : Query A J := ⟨[], [], false⟩

def addWhere (query : Query A J) (call : Call A) : Query A J :=
  { query with calls := query.calls ++ [call] }

def join (query : Query A J) (joins : List J) : Query A J :=
  { query with joins := query.joins ++ joins }

/-- The primary keys that are selected. -/
def ids [DecidableEq κ] (content : Content A J ρ κ) (query : Query A J) : List (Option κ) :=
  let selected := (content.rows query.joins).filter fun row =>
    whereHolds content.value query.calls row
  if query.distinct then (selected.map content.id).dedup else selected.map content.id

end Query

/-! ## Rules -/

/-- What a rule does. -/
inductive Effect where
  | allow
  | deny
  deriving DecidableEq

/-- What a callback does with its query. -/
inductive Addition (A J : Type) where
  /-- `where`, `whereNot` or `ransack`, with the joins that a hash brings -/
  | condition (joins : List J) (call : Call A)
  | joins (joins : List J)
  | distinct (value : Bool)

/-- The conditions of a rule. -/
inductive RuleConditions (A J : Type) where
  | string (sql : Sql A)
  | hash (joins : List J) (resolved fallback : List (Atom A))
  | callback (f : String → List (Addition A J))

/-- `AbilityRuleType` -/
structure Rule (A J M : Type) where
  actions : List String
  modelClass : M
  conditions : Option (RuleConditions A J)
  effect : Effect

def Addition.apply (query : Query A J) : Addition A J → Query A J
  | .condition added call => (query.join added).addWhere call
  | .joins added => query.join added
  | .distinct value => { query with distinct := value }

def applyRuleCondition (action : String) (query : Query A J) : RuleConditions A J → Query A J
  | .string sql => query.addWhere (.string false sql)
  | .hash joins resolved fallback => (query.join joins).addWhere (.hash false resolved fallback)
  | .callback f => (f action).foldl Addition.apply query

def rulesFor [DecidableEq M] (rules : List (Rule A J M)) (action : String) (modelClass : M) :
    List (Rule A J M) :=
  rules.filter fun rule =>
    rule.modelClass = modelClass ∧ (action ∈ rule.actions ∨ "manage" ∈ rule.actions)

/-! ## The filter -/

/-- A comparison of a query that may be filtered. -/
inductive Test (A J : Type) where
  | comparison (a : A)
  | inQuery (query : Query A J)

/-- `1=0` -/
def nothing : Sql (Test A J) := [.atom (.const false)]

def ruleQuery (action : String) (conditions : RuleConditions A J) : Query A J :=
  applyRuleCondition action .new conditions

def conditionSqlParts (action : String) (rules : List (Rule A J M)) : List (Sql (Test A J)) :=
  rules.filterMap fun rule => rule.conditions.map fun conditions =>
    [.atom (.test (.inQuery (ruleQuery action conditions)))]

/-- `if (finalQuery._distinct) query.distinct(true)`, for each rule. -/
def spreadDistinct (action : String) (rules : List (Rule A J M)) (query : Query (Test A J) J) :
    Query (Test A J) J :=
  { query with distinct := query.distinct ||
      rules.any fun rule => rule.conditions.any fun conditions =>
        (ruleQuery action conditions).distinct }

def applyDenyRules (action : String) (denyRules : List (Rule A J M))
    (query : Query (Test A J) J) : Query (Test A J) J :=
  if denyRules.isEmpty then query
  else if denyRules.any fun rule => rule.conditions.isNone then query.addWhere (.string false nothing)
  else
    match conditionSqlParts action denyRules with
    | [] => query
    | first :: others =>
      (spreadDistinct action denyRules query).addWhere
        (.string false (.not :: inParentheses (joinTexts .or first others)))

def applyToQuery [DecidableEq M] (rules : List (Rule A J M)) (action : String) (modelClass : M)
    (query : Query (Test A J) J) : Query (Test A J) J :=
  let applicableRules := rulesFor rules action modelClass
  let allowRules := applicableRules.filter fun rule => rule.effect = .allow
  let denyRules := applicableRules.filter fun rule => rule.effect = .deny
  if allowRules.isEmpty then query.addWhere (.string false nothing)
  else if allowRules.any fun rule => rule.conditions.isNone then
    applyDenyRules action denyRules query
  else
    match conditionSqlParts action allowRules with
    | [] => query.addWhere (.string false nothing)
    | first :: others =>
      applyDenyRules action denyRules <|
        (spreadDistinct action allowRules query).addWhere
          (.string false (inParentheses (joinTexts .or first others)))

section Records

variable [DecidableEq κ] (content : Content A J ρ κ)

/-- `id IN (ids)` -/
def inList : Option κ → List (Option κ) → Truth
  | none, ids => if ids.isEmpty then some false else none
  | some x, ids =>
    if some x ∈ ids then some true
    else if none ∈ ids then none
    else some false

def testValue (row : ρ) : Test A J → Truth
  | .comparison a => content.value row a
  | .inQuery query => inList (content.id row) (query.ids content)

/-- The same tables, for a query that may be filtered. -/
def Content.outer : Content (Test A J) J ρ κ :=
  ⟨content.rows, content.id, testValue content⟩

def Selects (query : Query (Test A J) J) (x : κ) : Prop := some x ∈ query.ids content.outer

/-- A record is one that a rule is about: its conditions' own query selects it. -/
def Satisfies (action : String) (rule : Rule A J M) (x : κ) : Prop :=
  ∀ conditions, rule.conditions = some conditions →
    some x ∈ (ruleQuery action conditions).ids content

/-- A record that some allow rule and no deny rule is about. -/
def Permitted (rules : List (Rule A J M)) (action : String) (x : κ) : Prop :=
  (∃ rule ∈ rules, rule.effect = .allow ∧ Satisfies content action rule x) ∧
    ∀ rule ∈ rules, rule.effect = .deny → ¬ Satisfies content action rule x

end Records

end Velocious.Ability
