/-
  Which records the filter of an ability lets by.

  * `LetsBy`: a row is selected by what stands before the last `OR` of its query's conditions, and
    nothing that is added later keeps it out.
  * `applyToQuery_restricts`: the filter restricts by the rules' subqueries.
-/
import Velocious.Authorization.Ability
import Velocious.Database.Query.ConditionsConjoin

namespace Velocious.Ability

open Foundation Conditions List

variable {A J ρ κ M : Type}

section Operands

variable {α : Type} {value : ρ → α → Truth} {calls : List (Call α)} {row : ρ}

/-- What stands before the last `OR` outside parentheses is true. -/
def LetsBy (value : ρ → α → Truth) (calls : List (Call α)) (row : ρ) : Prop :=
  ∃ sql, whereSql (calls.flatMap Call.nodes) = some sql ∧
    truthBeforeOr (atomValue value row) sql = some true

theorem whereSql_append_plain (wheres : List (Where α)) (sql : Sql α) :
    whereSql (wheres ++ [.plain sql]) =
      some ((whereSql wheres).elim sql fun earlier => earlier ++ .and :: sql) := by
  have htoSqls : toSqls (wheres ++ [.plain sql]) = toSqls wheres ++ [sql] := by
    induction wheres with
    | nil => rfl
    | cons w wheres ih => rw [cons_append, toSqls, ih, toSqls, cons_append]
  have hjoined (first : Sql α) (others : List (Sql α)) :
      joinTexts .and first (others ++ [sql]) = joinTexts .and first others ++ .and :: sql := by
    induction others generalizing first with
    | nil => rfl
    | cons next others ih => simp [joinTexts, ih]
  rw [whereSql, htoSqls, whereSql]
  cases toSqls wheres with
  | nil => rfl
  | cons first others => exact congrArg some (hjoined first others)

theorem whereSql_append_string (calls : List (Call α)) (sql : Sql α) :
    whereSql ((calls ++ [Call.string false sql]).flatMap Call.nodes) =
      some ((whereSql (calls.flatMap Call.nodes)).elim sql fun earlier =>
        earlier ++ .and :: sql) := by
  rw [← whereSql_append_plain]
  simp [Call.nodes]

section
variable (hcalls : ∀ call ∈ calls, call.WellFormed)
include hcalls

theorem letsBy_append (u : Unary (Atom α)) :
    LetsBy value (calls ++ [.string false u.text]) row ↔ LetsBy value calls row := by
  rw [LetsBy, LetsBy, whereSql_append_string]
  cases hsql : whereSql (calls.flatMap Call.nodes) with
  | none => simp [truthBeforeOr_operand]
  | some sql => simp [truthBeforeOr_and_operand (wellFormed_whereSql hcalls hsql)]

theorem whereHolds_append (u : Unary (Atom α)) :
    whereHolds value (calls ++ [.string false u.text]) row ↔ LetsBy value calls row ∨
      (whereHolds value calls row ∧ u.eval (atomValue value row) = some true) := by
  rw [whereHolds, LetsBy, whereHolds, whereSql_append_string]
  cases hsql : whereSql (calls.flatMap Call.nodes) with
  | none =>
    show truth (atomValue value row) (Expr.one (Conj.one u)).text = some true ↔ _
    rw [truth_text]
    simp [Expr.eval, Conj.eval]
  | some sql =>
    show truth (atomValue value row) (sql ++ .and :: u.text) = some true ↔ _
    rw [truth_and_operand (wellFormed_whereSql hcalls hsql)]
    simp

theorem whereHolds_of_letsBy (h : LetsBy value calls row) : whereHolds value calls row := by
  obtain ⟨sql, hsql, hbefore⟩ := h
  rw [whereHolds, hsql]
  exact truth_of_truthBeforeOr (wellFormed_whereSql hcalls hsql) hbefore

end

end Operands

section Restrictions

variable {α : Type}

def Query.WellFormed (query : Query α J) : Prop := ∀ call ∈ query.calls, call.WellFormed

/-- `query'` selects those rows of `query` of which `P` holds, and those that are let by. -/
structure Restricts (value : ρ → α → Truth) (query query' : Query α J) (P : ρ → Prop) : Prop where
  joins : query'.joins = query.joins
  wellFormed : query'.WellFormed
  letsBy : ∀ row, LetsBy value query'.calls row ↔ LetsBy value query.calls row
  holds : ∀ row, whereHolds value query'.calls row ↔
    LetsBy value query.calls row ∨ (whereHolds value query.calls row ∧ P row)

variable {value : ρ → α → Truth} {query query' query'' : Query α J} {P P' : ρ → Prop}

theorem Restricts.refl (h : query.WellFormed) : Restricts value query query fun _ => True := by
  refine ⟨rfl, h, fun row => Iff.rfl, fun row => ?_⟩
  simp only [and_true, iff_or_self]
  exact whereHolds_of_letsBy h

theorem Restricts.trans (h : Restricts value query query' P)
    (h' : Restricts value query' query'' P') :
    Restricts value query query'' fun row => P row ∧ P' row := by
  refine ⟨h'.joins.trans h.joins, h'.wellFormed, fun row => (h'.letsBy row).trans (h.letsBy row),
    fun row => ?_⟩
  rw [h'.holds, h.letsBy, h.holds]
  tauto

theorem Restricts.congr (h : Restricts value query query' P) (hP : ∀ row, P row ↔ P' row) :
    Restricts value query query' P' :=
  ⟨h.joins, h.wellFormed, h.letsBy, fun row => by rw [h.holds, hP]⟩

variable (value) in
theorem restricts_addWhere (h : query.WellFormed) (u : Unary (Atom α)) :
    Restricts value query (query.addWhere (.string false u.text))
      fun row => u.eval (atomValue value row) = some true := by
  refine ⟨rfl, fun call hcall => ?_, fun row => letsBy_append h u, fun row => whereHolds_append h u⟩
  rcases mem_append.1 hcall with hcall | hcall
  · exact h call hcall
  · rw [mem_singleton.1 hcall]
    exact ⟨.one (.one u), rfl⟩

end Restrictions

/-! ## Subqueries -/

section Subqueries

variable [DecidableEq κ]

theorem mem_ids {α : Type} {content : Content α J ρ κ} {query : Query α J} {x : Option κ} :
    x ∈ query.ids content ↔ ∃ row ∈ content.rows query.joins,
      whereHolds content.value query.calls row ∧ content.id row = x := by
  rw [Query.ids]
  split <;> simp [and_assoc]

theorem inList_eq_true {x : κ} {ids : List (Option κ)} :
    inList (some x) ids = some true ↔ some x ∈ ids := by
  rw [inList]
  split_ifs with hx <;> simp [hx]

theorem inList_eq_false {x : κ} {ids : List (Option κ)} :
    inList (some x) ids = some false ↔ some x ∉ ids ∧ none ∉ ids := by
  rw [inList]
  by_cases hx : some x ∈ ids
  · simp [hx]
  · by_cases hnull : none ∈ ids <;> simp [hx]

theorem exists_alternatives (first : Query A J) (others : List (Query A J)) :
    ∃ e : Expr (Atom (Test A J)),
      e.text = joinTexts .or [.atom (.test (.inQuery first))]
        (others.map fun query => [.atom (.test (.inQuery query))]) ∧
      ∀ v, (e.eval v = some true ↔
          ∃ query ∈ first :: others, v (.test (.inQuery query)) = some true) ∧
        (e.eval v = some false ↔
          ∀ query ∈ first :: others, v (.test (.inQuery query)) = some false) := by
  obtain ⟨e, he, heval⟩ := exists_joinTexts_or (.one (.one (.atom (.test (.inQuery first)))))
    (others.map fun query => .one (.atom (.test (Test.inQuery query))))
  refine ⟨e, ?_, fun v => ?_⟩
  · rw [he, map_map]
    rfl
  · rw [(heval v).1, (heval v).2]
    simp [Expr.eval, Conj.eval, Unary.eval]

def ruleQueries (action : String) (rules : List (Rule A J M)) : List (Query A J) :=
  rules.filterMap fun rule => rule.conditions.map (ruleQuery action)

theorem mem_ruleQueries {action : String} {rules : List (Rule A J M)} {query : Query A J} :
    query ∈ ruleQueries action rules ↔
      ∃ rule ∈ rules, ∃ conditions, rule.conditions = some conditions ∧
        ruleQuery action conditions = query := by
  simp [ruleQueries]

theorem conditionSqlParts_eq (action : String) (rules : List (Rule A J M)) :
    conditionSqlParts action rules =
      (ruleQueries action rules).map fun query => [.atom (.test (.inQuery query))] := by
  rw [ruleQueries, map_filterMap]
  simp only [Option.map_map]
  rfl

end Subqueries

section Filter

variable [DecidableEq κ] {content : Content A J ρ κ} {action : String}

/-- No deny rule's subquery has the row, and each says so. -/
def Cleared (content : Content A J ρ κ) (action : String) (denyRules : List (Rule A J M))
    (row : ρ) : Prop :=
  ∀ rule ∈ denyRules, ∃ conditions, rule.conditions = some conditions ∧
    inList (content.id row) ((ruleQuery action conditions).ids content) = some false

/-- An allow rule's subquery has the row. -/
def Admitted (content : Content A J ρ κ) (action : String) (allowRules : List (Rule A J M))
    (row : ρ) : Prop :=
  ∃ rule ∈ allowRules, ∀ conditions, rule.conditions = some conditions →
    inList (content.id row) ((ruleQuery action conditions).ids content) = some true

variable {query : Query (Test A J) J}

theorem restricts_nothing (h : query.WellFormed) :
    Restricts (testValue content) query (query.addWhere (.string false nothing)) fun _ => False :=
  (restricts_addWhere _ h (.atom (.const false))).congr fun row => by simp [Unary.eval, atomValue]

theorem applyDenyRules_restricts (h : query.WellFormed) (denyRules : List (Rule A J M)) :
    Restricts (testValue content) query (applyDenyRules action denyRules query)
      (Cleared content action denyRules) := by
  rw [applyDenyRules]
  split_ifs with hempty hall
  · refine (Restricts.refl h).congr fun row => ?_
    rw [isEmpty_iff.1 hempty]
    simp [Cleared]
  · obtain ⟨rule, hrule, hnone⟩ := any_eq_true.1 hall
    refine (restricts_nothing h).congr fun row => ?_
    simp only [false_iff]
    intro hcleared
    obtain ⟨conditions, hconditions, -⟩ := hcleared rule hrule
    rw [hconditions] at hnone
    cases hnone
  · have hsome : ∀ rule ∈ denyRules, ∃ conditions, rule.conditions = some conditions := by
      intro rule hrule
      cases hconditions : rule.conditions with
      | some conditions => exact ⟨conditions, rfl⟩
      | none => exact absurd (any_eq_true.2 ⟨rule, hrule, by rw [hconditions]; rfl⟩) hall
    have hcleared (row : ρ) : Cleared content action denyRules row ↔
        ∀ query ∈ ruleQueries action denyRules,
          inList (content.id row) (query.ids content) = some false := by
      simp only [mem_ruleQueries]
      constructor
      · rintro hcleared _ ⟨rule, hrule, conditions, hconditions, rfl⟩
        obtain ⟨conditions', hconditions', hfalse⟩ := hcleared rule hrule
        cases hconditions.symm.trans hconditions'
        exact hfalse
      · intro hqueries rule hrule
        obtain ⟨conditions, hconditions⟩ := hsome rule hrule
        exact ⟨conditions, hconditions, hqueries _ ⟨rule, hrule, conditions, hconditions, rfl⟩⟩
    rw [conditionSqlParts_eq]
    cases hqueries : ruleQueries action denyRules with
    | nil =>
      refine (Restricts.refl h).congr fun row => ?_
      rw [hcleared, hqueries]
      simp
    | cons first others =>
      obtain ⟨e, he, heval⟩ := exists_alternatives first others
      have hspread : (spreadDistinct action denyRules query).WellFormed := h
      have hrestricts := restricts_addWhere (testValue content) hspread (.not (.parens e))
      rw [Unary.text, Unary.text, he] at hrestricts
      refine ⟨hrestricts.joins, hrestricts.wellFormed, hrestricts.letsBy, fun row => ?_⟩
      refine (hrestricts.holds row).trans ?_
      rw [hcleared, hqueries, Unary.eval, Unary.eval, Truth.not_eq_true, (heval _).2]
      rfl

variable (content action) in
theorem applyToQuery_restricts [DecidableEq M] (h : query.WellFormed) (rules : List (Rule A J M))
    (modelClass : M) :
    Restricts (testValue content) query (applyToQuery rules action modelClass query) fun row =>
      Admitted content action
          ((rulesFor rules action modelClass).filter fun rule => rule.effect = .allow) row ∧
        Cleared content action
          ((rulesFor rules action modelClass).filter fun rule => rule.effect = .deny) row := by
  rw [applyToQuery]
  generalize (rulesFor rules action modelClass).filter (fun rule => rule.effect = .deny) = denyRules
  generalize (rulesFor rules action modelClass).filter (fun rule => rule.effect = .allow) = allowRules
  split_ifs with hempty hall
  · refine (restricts_nothing h).congr fun row => ?_
    rw [isEmpty_iff.1 hempty]
    simp [Admitted]
  · obtain ⟨rule, hrule, hnone⟩ := any_eq_true.1 hall
    refine (applyDenyRules_restricts h denyRules).congr fun row => ?_
    have hadmitted : Admitted content action allowRules row := by
      refine ⟨rule, hrule, fun conditions hconditions => ?_⟩
      rw [hconditions] at hnone
      cases hnone
    simp only [hadmitted, true_and]
  · have hadmitted (row : ρ) : Admitted content action allowRules row ↔
        ∃ query ∈ ruleQueries action allowRules,
          inList (content.id row) (query.ids content) = some true := by
      simp only [mem_ruleQueries]
      constructor
      · rintro ⟨rule, hrule, hconditions⟩
        cases hnone : rule.conditions with
        | none => exact absurd (any_eq_true.2 ⟨rule, hrule, by rw [hnone]; rfl⟩) hall
        | some conditions =>
          exact ⟨_, ⟨rule, hrule, conditions, hnone, rfl⟩, hconditions conditions hnone⟩
      · rintro ⟨_, ⟨rule, hrule, conditions, hconditions, rfl⟩, htrue⟩
        refine ⟨rule, hrule, fun conditions' hconditions' => ?_⟩
        cases hconditions.symm.trans hconditions'
        exact htrue
    rw [conditionSqlParts_eq]
    cases hqueries : ruleQueries action allowRules with
    | nil =>
      refine (restricts_nothing h).congr fun row => ?_
      rw [hadmitted, hqueries]
      simp
    | cons first others =>
      obtain ⟨e, he, heval⟩ := exists_alternatives first others
      have hspread : (spreadDistinct action allowRules query).WellFormed := h
      have hrestricts := restricts_addWhere (testValue content) hspread (.parens e)
      rw [Unary.text, he] at hrestricts
      have hallow : Restricts (testValue content) query
          ((spreadDistinct action allowRules query).addWhere (.string false (inParentheses
            (joinTexts .or [.atom (.test (.inQuery first))]
              (others.map fun query => [.atom (.test (.inQuery query))])))))
          (Admitted content action allowRules) := by
        refine ⟨hrestricts.joins, hrestricts.wellFormed, hrestricts.letsBy, fun row => ?_⟩
        refine (hrestricts.holds row).trans ?_
        rw [hadmitted, hqueries, Unary.eval, (heval _).1]
        rfl
      exact hallow.trans (applyDenyRules_restricts hallow.wellFormed denyRules)

end Filter

/-! ## Records -/

section Records

variable [DecidableEq κ] [DecidableEq M] (content : Content A J ρ κ) (rules : List (Rule A J M))
  (action : String) (modelClass : M) (query : Query (Test A J) J)

/-- A row of the record is let by whatever is added to the query's conditions. -/
def LetsRecordBy (x : κ) : Prop :=
  ∃ row ∈ content.rows query.joins, LetsBy (testValue content) query.calls row ∧
    content.id row = some x

/-- The subquery of a deny rule's conditions has `NULL` among its primary keys. -/
def DeniesNull : Prop :=
  ∃ rule ∈ rulesFor rules action modelClass, rule.effect = .deny ∧
    ∃ conditions, rule.conditions = some conditions ∧
      none ∈ (ruleQuery action conditions).ids content

variable {content rules action modelClass query} {x : κ}

theorem admitted_and_cleared_iff {row : ρ} (hrow : content.id row = some x) :
    (Admitted content action
        ((rulesFor rules action modelClass).filter fun rule => rule.effect = .allow) row ∧
      Cleared content action
        ((rulesFor rules action modelClass).filter fun rule => rule.effect = .deny) row) ↔
      Permitted content (rulesFor rules action modelClass) action x ∧
        ¬ DeniesNull content rules action modelClass := by
  have hadmitted : Admitted content action
      ((rulesFor rules action modelClass).filter fun rule => rule.effect = .allow) row ↔
      ∃ rule ∈ rulesFor rules action modelClass, rule.effect = .allow ∧
        Satisfies content action rule x := by
    simp only [Admitted, Satisfies, hrow, inList_eq_true, mem_filter, decide_eq_true_eq,
      and_assoc]
  have hcleared : Cleared content action
      ((rulesFor rules action modelClass).filter fun rule => rule.effect = .deny) row ↔
      (∀ rule ∈ rulesFor rules action modelClass, rule.effect = .deny →
        ¬ Satisfies content action rule x) ∧ ¬ DeniesNull content rules action modelClass := by
    simp only [Cleared, hrow, inList_eq_false, mem_filter, decide_eq_true_eq]
    constructor
    · intro hcleared
      refine ⟨fun rule hrule hdeny hsatisfies => ?_, ?_⟩
      · obtain ⟨conditions, hconditions, hnot, -⟩ := hcleared rule ⟨hrule, hdeny⟩
        exact hnot (hsatisfies conditions hconditions)
      · rintro ⟨rule, hrule, hdeny, conditions, hconditions, hnull⟩
        obtain ⟨conditions', hconditions', -, hnot⟩ := hcleared rule ⟨hrule, hdeny⟩
        cases hconditions.symm.trans hconditions'
        exact hnot hnull
    · rintro ⟨hnot, hnull⟩ rule ⟨hrule, hdeny⟩
      cases hconditions : rule.conditions with
      | none =>
        refine absurd (fun conditions h => ?_) (hnot rule hrule hdeny)
        rw [hconditions] at h
        cases h
      | some conditions =>
        refine ⟨conditions, rfl, fun hmem => hnot rule hrule hdeny fun conditions' h => ?_,
          fun hmem => hnull ⟨rule, hrule, hdeny, conditions, hconditions, hmem⟩⟩
        cases hconditions.symm.trans h
        exact hmem
  rw [hadmitted, hcleared, Permitted, and_assoc]

theorem selects_applyToQuery (h : query.WellFormed) :
    Selects content (applyToQuery rules action modelClass query) x ↔
      LetsRecordBy content query x ∨ (Selects content query x ∧
        Permitted content (rulesFor rules action modelClass) action x ∧
        ¬ DeniesNull content rules action modelClass) := by
  have hrestricts := applyToQuery_restricts content action h rules modelClass
  rw [Selects, Selects, mem_ids, mem_ids]
  constructor
  · rintro ⟨row, hmem, hholds, hrow⟩
    rw [hrestricts.joins] at hmem
    rcases (hrestricts.holds row).1 hholds with hlets | ⟨hholds, hfilter⟩
    · exact .inl ⟨row, hmem, hlets, hrow⟩
    · exact .inr ⟨⟨row, hmem, hholds, hrow⟩, (admitted_and_cleared_iff (show content.id row = some x from hrow)).1 hfilter⟩
  · rintro (⟨row, hmem, hlets, hrow⟩ | ⟨⟨row, hmem, hholds, hrow⟩, hpermitted⟩)
    · exact ⟨row, hrestricts.joins ▸ hmem, (hrestricts.holds row).2 (.inl hlets), hrow⟩
    · exact ⟨row, hrestricts.joins ▸ hmem,
        (hrestricts.holds row).2
        (.inr ⟨hholds, (admitted_and_cleared_iff (show content.id row = some x from hrow)).2 hpermitted⟩), hrow⟩

theorem letsRecordBy_applyToQuery (h : query.WellFormed) :
    LetsRecordBy content (applyToQuery rules action modelClass query) x ↔
      LetsRecordBy content query x := by
  have hrestricts := applyToQuery_restricts content action h rules modelClass
  simp only [LetsRecordBy, hrestricts.joins, hrestricts.letsBy]

theorem selects_of_letsRecordBy (h : query.WellFormed) (hlets : LetsRecordBy content query x) :
    Selects content query x := by
  obtain ⟨row, hmem, hlets, hrow⟩ := hlets
  exact mem_ids.2 ⟨row, hmem, whereHolds_of_letsBy h hlets, hrow⟩

end Records

/-- The filter selects the permitted records of a query, and selects them again of what it
    selects. -/
def Filters [DecidableEq κ] [DecidableEq M] (content : Content A J ρ κ) (rules : List (Rule A J M))
    (action : String) (modelClass : M) (query : Query (Test A J) J) : Prop :=
  ∀ x, (Selects content (applyToQuery rules action modelClass query) x ↔
      Selects content query x ∧ Permitted content (rulesFor rules action modelClass) action x) ∧
    (Selects content (applyToQuery rules action modelClass
        (applyToQuery rules action modelClass query)) x ↔
      Selects content (applyToQuery rules action modelClass query) x)

/-- **The filter selects the permitted records**, and the same ones when it is put on twice, exactly
    where the query's conditions let no other record by, and no deny rule's subquery has a `NULL`
    that keeps a permitted record out. -/
theorem filter_selects_permitted [DecidableEq κ] [DecidableEq M] (content : Content A J ρ κ)
    (rules : List (Rule A J M)) (action : String) (modelClass : M) (query : Query (Test A J) J)
    (h : query.WellFormed) :
    Filters content rules action modelClass query ↔
      (∀ x, LetsRecordBy content query x →
        Permitted content (rulesFor rules action modelClass) action x) ∧
      (DeniesNull content rules action modelClass → ∀ x, Selects content query x →
        Permitted content (rulesFor rules action modelClass) action x →
        LetsRecordBy content query x) := by
  have htwice := (applyToQuery_restricts content action h rules
    modelClass).wellFormed
  constructor
  · intro hfilters
    refine ⟨fun x hlets => ?_, fun hnull x hselects hpermitted => ?_⟩
    · exact ((hfilters x).1.1 ((selects_applyToQuery h).2 (.inl hlets))).2
    · rcases (selects_applyToQuery h).1 ((hfilters x).1.2 ⟨hselects, hpermitted⟩) with
        hlets | ⟨-, -, hnot⟩
      · exact hlets
      · exact absurd hnull hnot
  · rintro ⟨hlets, hnull⟩ x
    have honce : LetsRecordBy content query x → Selects content query x :=
      selects_of_letsRecordBy h
    rw [selects_applyToQuery htwice, letsRecordBy_applyToQuery h, selects_applyToQuery h]
    tauto

/-- Two tasks, of which the first one is open, and both are private. -/
def tasks : Content Bool Unit ℕ ℕ where
  rows _ := [1, 2]
  id := some
  value row isState := some (if isState then row = 1 else true)

/-- Four tasks: the second one is archived, the third private and the fourth closed. -/
def board : Content String Unit ℕ ℕ where
  rows _ := [1, 2, 3, 4]
  id := some
  value row condition := some <|
    if condition = "archived = 0" then row ≠ 2
    else if condition = "private = 1" then row = 3
    else row ≠ 4

/-- `can(["read"], Task, "state = 'open'")`, `cannot(["manage"], Task, {private: true})` and
    `can(["update"], Task)` -/
def boardRules : List (Rule String Unit Unit) :=
  [⟨["read"], (), some (.string [.atom (.test "state = 'open'")]), .allow⟩,
    ⟨["manage"], (), some (.hash [] [.test "private = 1"] []), .deny⟩,
    ⟨["update"], (), none, .allow⟩]

/-- `Task.where({archived: false})` -/
def unarchived : Query (Test String Unit) Unit :=
  ⟨[], [.hash false [.test (.comparison "archived = 0")] []], false⟩

/-- The tasks that are open, not private and not archived. -/
theorem filter_selects_open_tasks : Filters board boardRules "read" () unarchived ∧
    (applyToQuery boardRules "read" () unarchived).ids board.outer = [some 1] := by
  refine ⟨(filter_selects_permitted board boardRules "read" () unarchived fun call hcall => ?_).2
    ⟨fun x hlets => ?_, fun hnull => ?_⟩, by decide⟩
  · obtain rfl := mem_singleton.1 hcall
    trivial
  · obtain ⟨row, -, ⟨sql, hsql, hbefore⟩, -⟩ := hlets
    cases hsql
    cases hbefore
  · obtain ⟨rule, hrule, hdeny, conditions, hconditions, hnone⟩ := hnull
    have hread : rulesFor boardRules "read" () = boardRules.take 2 := rfl
    have hprivate : rule = ⟨["manage"], (), some (.hash [] [.test "private = 1"] []), .deny⟩ := by
      rw [hread] at hrule
      rcases mem_cons.1 hrule with rfl | hrule
      · cases hdeny
      · exact mem_singleton.1 hrule
    subst hprivate
    cases hconditions
    exact absurd hnone (by decide)

/-- `Task.where("state = 'open' OR private = 1")`, and no rule: the open task is selected. -/
theorem filter_lets_open_task_by : ¬ Filters tasks [] "read" () ⟨[], [.string false
    [.atom (.test (.comparison true)), .or, .atom (.test (.comparison false))]], false⟩ := by
  intro h
  have hselects : Selects tasks (applyToQuery [] "read" () ⟨[], [.string false
      [.atom (.test (.comparison true)), .or, .atom (.test (.comparison false))]], false⟩) 1 := by
    rw [Selects]
    decide
  obtain ⟨rule, hrule, -⟩ := ((h 1).1.1 hselects).2.1
  cases hrule

end Velocious.Ability
