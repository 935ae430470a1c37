/-
  What the `WHERE` clause says of a row, by what each call says of it.

  * `exists_unary`: a node that is not a string is a negation or stands in parentheses.
-/
import Velocious.Database.Query.Conditions

namespace Velocious.Conditions

open Foundation List

variable {α : Type}

/-! ## Nodes -/

/-- The tree of some texts that are joined by `AND`. -/
def conjoin : Expr (Atom α) → List (Expr (Atom α)) → Expr (Atom α)
  | e, [] => e
  | e, next :: others => e.and (conjoin next others)

theorem text_conjoin (e : Expr (Atom α)) (others : List (Expr (Atom α))) :
    (conjoin e others).text = joinTexts .and e.text (others.map Expr.text) := by
  induction others generalizing e with
  | nil => rfl
  | cons next others ih => rw [conjoin, Expr.text_and, ih, map_cons, joinTexts]

theorem exists_joinTexts_or (e : Expr (Atom α)) (others : List (Conj (Atom α))) :
    ∃ e' : Expr (Atom α), e'.text = joinTexts .or e.text (others.map Conj.text) ∧
      ∀ v, (e'.eval v = some true ↔ e.eval v = some true ∨ ∃ c ∈ others, c.eval v = some true) ∧
        (e'.eval v = some false ↔
          e.eval v = some false ∧ ∀ c ∈ others, c.eval v = some false) := by
  induction others generalizing e with
  | nil => exact ⟨e, rfl, fun v => ⟨by simp, by simp⟩⟩
  | cons next others ih =>
    have hassoc (x y : Sql α) (zs : List (Sql α)) :
        joinTexts .or (x ++ .or :: y) zs = x ++ .or :: joinTexts .or y zs := by
      cases zs with
      | nil => rfl
      | cons z zs => simp [joinTexts]
    obtain ⟨e', he', heval⟩ := ih (.or e next)
    refine ⟨e', by rw [he', Expr.text, hassoc, map_cons, joinTexts], fun v => ?_⟩
    rw [(heval v).1, (heval v).2, Expr.eval, Truth.or_eq_true, Truth.or_eq_false]
    simp only [exists_mem_cons_iff, forall_mem_cons, or_assoc, and_assoc, and_true]

theorem exists_parens (e : Expr (Atom α)) :
    ∃ u : Unary (Atom α), u.text = inParentheses e.text := ⟨.parens e, rfl⟩

theorem mem_toSqls {wheres : List (Where α)} {sql : Sql α} :
    sql ∈ toSqls wheres ↔ ∃ w ∈ wheres, w.toSql = sql := by
  induction wheres with
  | nil => simp [toSqls]
  | cons w wheres ih => simp [toSqls, ih, eq_comm]

theorem exists_units {sqls : List (Sql α)}
    (h : ∀ sql ∈ sqls, ∃ u : Unary (Atom α), u.text = sql) :
    ∃ units : List (Unary (Atom α)), units.map Unary.text = sqls := by
  induction sqls with
  | nil => exact ⟨[], rfl⟩
  | cons sql sqls ih =>
    obtain ⟨u, hu⟩ := h sql mem_cons_self
    obtain ⟨units, hunits⟩ := ih fun sql' hmem => h sql' (mem_cons_of_mem _ hmem)
    exact ⟨u :: units, by rw [map_cons, hu, hunits]⟩

theorem exists_combined (combinator : Combinator) {first : Sql α} {others : List (Sql α)}
    (h : ∀ sql ∈ first :: others, ∃ u : Unary (Atom α), u.text = sql) :
    ∃ u : Unary (Atom α), u.text = inParentheses (joinTexts combinator.token first others) := by
  obtain ⟨u, hu⟩ := h first mem_cons_self
  obtain ⟨units, hunits⟩ := exists_units fun sql hmem => h sql (mem_cons_of_mem _ hmem)
  cases combinator with
  | and =>
    obtain ⟨v, hv⟩ := exists_parens (conjoin (.one (.one u)) (units.map fun u => .one (.one u)))
    refine ⟨v, ?_⟩
    rw [hv, text_conjoin, map_map, ← hu, ← hunits]
    rfl
  | or =>
    obtain ⟨e, he, -⟩ := exists_joinTexts_or (.one (.one u)) (units.map Conj.one)
    obtain ⟨v, hv⟩ := exists_parens e
    refine ⟨v, ?_⟩
    rw [hv, he, map_map, ← hu, ← hunits]
    rfl

theorem exists_hash (first : Atom α) (others : List (Atom α)) :
    ∃ u : Unary (Atom α), u.text = (Where.hash first others).toSql := by
  refine exists_combined .and fun sql hmem => ?_
  rcases mem_cons.1 hmem with rfl | hmem
  · exact ⟨.atom first, rfl⟩
  · obtain ⟨a, -, rfl⟩ := mem_map.1 hmem
    exact ⟨.atom a, rfl⟩

/-- A node within ransack groups: a hash, or what is built of them. -/
inductive Closed : Where α → Prop
  | hash {first others} : Closed (.hash first others)
  | not {sql} : WellFormed sql → Closed (.not (.plain sql))
  | notHash {first others} : Closed (.not (.hash first others))
  | combinator {combinator wheres} : (∀ w ∈ wheres, Closed w) → Closed (.combinator combinator wheres)

variable {w : Where α}

theorem exists_unary (h : Closed w) : ∃ u : Unary (Atom α), u.text = w.toSql := by
  induction h with
  | hash => exact exists_hash _ _
  | @not sql hsql =>
    obtain ⟨e, rfl⟩ := hsql
    exact ⟨.not (.parens e), rfl⟩
  | @notHash first others =>
    obtain ⟨u, hu⟩ := exists_hash first others
    exact ⟨.not (.parens (.one (.one u))), by rw [Where.toSql, ← hu]; rfl⟩
  | @combinator combinator wheres _ ih =>
    rw [Where.toSql]
    have hsqls : ∀ sql ∈ toSqls wheres, ∃ u : Unary (Atom α), u.text = sql := by
      intro sql hmem
      obtain ⟨w, hw, rfl⟩ := mem_toSqls.1 hmem
      exact ih w hw
    cases hs : toSqls wheres with
    | nil => exact ⟨.parens (.one (.one (.atom (.const true)))), rfl⟩
    | cons first others => exact exists_combined combinator (hs ▸ hsqls)

/-! ## Calls -/

def Call.WellFormed : Call α → Prop
  | .string _ sql => Foundation.WellFormed sql
  | .hash _ _ _ => True
  | .ransack _ => True

theorem closed_combine {combinator : Combinator} {wheres : List (Where α)}
    (h : ∀ w ∈ wheres, Closed w) (hw : combine combinator wheres = some w) :
    Closed w := by
  match wheres with
  | [] => cases hw
  | [w'] =>
    cases hw
    exact h _ mem_cons_self
  | _ :: _ :: _ =>
    cases hw
    exact .combinator h

theorem closed_condition {condition : RansackCondition α}
    (hw : buildRansackConditionWhere condition = some w) : Closed w := by
  refine closed_combine (fun w' hmem => ?_) hw
  obtain ⟨comparisons, -, rfl⟩ := mem_map.1 hmem
  cases condition.negated with
  | true => exact .notHash
  | false => exact .hash

mutual

theorem closed_group (group : RansackGroup α) {w : Where α}
    (hw : buildRansackGroupWhere group = some w) : Closed w := by
  cases group with
  | group combinator conditions groupings =>
    refine closed_combine (fun w' hmem => ?_) hw
    rcases mem_append.1 hmem with hmem | hmem
    · obtain ⟨condition, -, hcondition⟩ := mem_filterMap.1 hmem
      exact closed_condition hcondition
    · exact closed_groupings groupings hmem

theorem closed_groupings (groupings : List (RansackGroup α)) {w : Where α}
    (hw : w ∈ buildGroupings groupings) : Closed w := by
  cases groupings with
  | nil => cases hw
  | cons grouping groupings =>
    rcases mem_append.1 hw with hw | hw
    · exact closed_group grouping (Option.mem_toList.1 hw)
    · exact closed_groupings groupings hw

end

theorem node_cases {call : Call α} (hcall : call.WellFormed) (hw : w ∈ call.nodes) :
    Closed w ∨ ∃ sql, call = .string false sql ∧ w = .plain sql := by
  have hhash {negated : Bool} {atoms : List (Atom α)} (h : w ∈ hashNode negated atoms) :
      Closed w := by
    cases atoms with
    | nil => cases h
    | cons first others =>
      rw [mem_singleton.1 h]
      cases negated with
      | true => exact .notHash
      | false => exact .hash
  cases call with
  | string negated sql =>
    rw [mem_singleton.1 hw]
    cases negated with
    | true => exact .inl (.not hcall)
    | false => exact .inr ⟨sql, rfl, rfl⟩
  | hash negated resolved fallback =>
    rcases mem_append.1 hw with hw | hw
    · exact .inl (hhash hw)
    · exact .inl (hhash hw)
  | ransack group => exact .inl (closed_group group (Option.mem_toList.1 hw))

theorem wellFormed_whereSql {calls : List (Call α)} (h : ∀ call ∈ calls, call.WellFormed)
    {sql : Sql α} (hsql : whereSql (calls.flatMap Call.nodes) = some sql) :
    Foundation.WellFormed sql := by
  have hnode : ∀ sql' ∈ toSqls (calls.flatMap Call.nodes), Foundation.WellFormed sql' := by
    intro sql' hmem
    obtain ⟨w, hw, rfl⟩ := mem_toSqls.1 hmem
    obtain ⟨call, hcall, hw⟩ := mem_flatMap.1 hw
    rcases node_cases (h call hcall) hw with hclosed | ⟨sql'', rfl, rfl⟩
    · obtain ⟨u, hu⟩ := exists_unary hclosed
      exact ⟨.one (.one u), hu⟩
    · exact h _ hcall
  have hjoined (first : Sql α) (others : List (Sql α))
      (hall : ∀ sql' ∈ first :: others, Foundation.WellFormed sql') :
      Foundation.WellFormed (joinTexts .and first others) := by
    induction others generalizing first with
    | nil => exact hall first mem_cons_self
    | cons next others ih =>
      obtain ⟨e, rfl⟩ := hall first mem_cons_self
      obtain ⟨e', he'⟩ := ih next fun sql' hmem => hall sql' (mem_cons_of_mem _ hmem)
      exact ⟨e.and e', by rw [Expr.text_and, he', joinTexts]⟩
  rw [whereSql] at hsql
  cases hs : toSqls (calls.flatMap Call.nodes) with
  | nil =>
    rw [hs] at hsql
    cases hsql
  | cons first others =>
    rw [hs] at hsql
    cases hsql
    exact hjoined first others (hs ▸ hnode)

section Rows

variable {ρ : Type} {value : ρ → α → Truth} {row : ρ}

theorem eval_conjoin {v : Atom α → Truth} {e : Expr (Atom α)} {others : List (Expr (Atom α))}
    (h : ∀ e' ∈ e :: others, e'.isOr = false ∨ e'.eval v ≠ some true) :
    ((conjoin e others).isOr = false ∨ (conjoin e others).eval v ≠ some true) ∧
      ((conjoin e others).eval v = some true ↔ ∀ e' ∈ e :: others, e'.eval v = some true) := by
  induction others generalizing e with
  | nil => exact ⟨h e mem_cons_self, by simp [conjoin]⟩
  | cons next others ih =>
    obtain ⟨hopen, heval⟩ := ih (e := next) fun e' he' => h e' (mem_cons_of_mem _ he')
    have he := h e mem_cons_self
    have hand := Expr.eval_and_iff he hopen
    constructor
    · rw [conjoin, Expr.isOr_and]
      rcases he with he | he
      · rcases hopen with hopen | hopen
        · exact .inl (by rw [he, hopen]; rfl)
        · exact .inr fun htrue => hopen (hand.1 htrue).2
      · exact .inr fun htrue => he (hand.1 htrue).1
    · rw [conjoin, hand, heval]
      simp only [forall_mem_cons]

theorem whereHolds_iff {calls : List (Call α)}
    (h : ∀ w ∈ calls.flatMap Call.nodes, ∃ e : Expr (Atom α), e.text = w.toSql ∧
      (e.isOr = false ∨ e.eval (atomValue value row) ≠ some true)) :
    whereHolds value calls row ↔
      ∀ w ∈ calls.flatMap Call.nodes, truth (atomValue value row) w.toSql = some true := by
  have htrees (ws : List (Where α)) (hws : ∀ w ∈ ws, ∃ e : Expr (Atom α), e.text = w.toSql ∧
      (e.isOr = false ∨ e.eval (atomValue value row) ≠ some true)) :
      ∃ es : List (Expr (Atom α)), es.map Expr.text = toSqls ws ∧
        (∀ e ∈ es, e.isOr = false ∨ e.eval (atomValue value row) ≠ some true) := by
    induction ws with
    | nil => exact ⟨[], rfl, fun _ hmem => by cases hmem⟩
    | cons w ws ih =>
      obtain ⟨e, he, hopen⟩ := hws w mem_cons_self
      obtain ⟨es, hes, hopens⟩ := ih fun w' hw' => hws w' (mem_cons_of_mem _ hw')
      refine ⟨e :: es, by rw [map_cons, he, hes, toSqls], fun e' he' => ?_⟩
      rcases mem_cons.1 he' with rfl | he'
      · exact hopen
      · exact hopens e' he'
  obtain ⟨es, hes, hopens⟩ := htrees _ h
  have hnodes : (∀ w ∈ calls.flatMap Call.nodes, truth (atomValue value row) w.toSql = some true) ↔
      ∀ e ∈ es, e.eval (atomValue value row) = some true := by
    have hmem : (∀ w ∈ calls.flatMap Call.nodes,
        truth (atomValue value row) w.toSql = some true) ↔
        ∀ sql ∈ toSqls (calls.flatMap Call.nodes), truth (atomValue value row) sql = some true := by
      simp only [mem_toSqls]
      grind
    rw [hmem, ← hes]
    simp only [mem_map, forall_exists_index, and_imp, forall_apply_eq_imp_iff₂, truth_text]
  rw [hnodes, whereHolds, whereSql, ← hes]
  cases es with
  | nil => simp
  | cons e others =>
    show truth (atomValue value row) (joinTexts .and e.text (others.map Expr.text)) = some true ↔ _
    rw [← text_conjoin, truth_text]
    exact (eval_conjoin hopens).2

theorem whereHolds_single {call : Call α} (hcall : call.WellFormed) :
    whereHolds value [call] row ↔
      ∀ w ∈ call.nodes, truth (atomValue value row) w.toSql = some true := by
  by_cases hstring : ∃ sql, call = .string false sql
  · obtain ⟨sql, rfl⟩ := hstring
    simp [whereHolds, whereSql, Call.nodes, toSqls, joinTexts]
  · have hnodes : [call].flatMap Call.nodes = call.nodes := by simp
    rw [← hnodes]
    refine whereHolds_iff fun w hw => ?_
    rcases node_cases hcall (hnodes ▸ hw) with hclosed | ⟨sql, hsql, -⟩
    · obtain ⟨u, hu⟩ := exists_unary hclosed
      exact ⟨.one (.one u), hu, .inl rfl⟩
    · exact absurd ⟨sql, hsql⟩ hstring

end Rows

/-- Of each row, the clause of some calls says what all of them say; one more call adds no row. -/
def Conjoined {ρ : Type} (value : ρ → α → Truth) (rows : Set ρ) (calls : List (Call α)) : Prop :=
  ∀ row ∈ rows, (whereHolds value calls row ↔ ∀ call ∈ calls, whereHolds value [call] row) ∧
    ∀ earlier call, calls = earlier ++ [call] → whereHolds value calls row →
      whereHolds value earlier row

/-- **Conditions conjoin**, whatever else is asked for and in whatever order, exactly where no
    string that may be true has an `OR` outside parentheses. -/
theorem conditions_conjoin {ρ : Type} (value : ρ → α → Truth) (rows : Set ρ)
    (strings : Set (Sql α)) :
    (∀ calls : List (Call α), (∀ call ∈ calls, call.WellFormed) →
      (∀ sql, .string false sql ∈ calls → sql ∈ strings) → Conjoined value rows calls) ↔
    ∀ sql ∈ strings, WellFormed sql →
      orOutside 0 sql = false ∨ ∀ row ∈ rows, truth (atomValue value row) sql ≠ some true := by
  constructor
  · intro h sql hsql hwell
    by_contra hbad
    simp only [not_or, not_forall, not_not, Bool.not_eq_false] at hbad
    obtain ⟨hor, row, hrow, htrue⟩ := hbad
    obtain ⟨e, rfl⟩ := hwell
    have hnever : ¬ whereHolds value [.hash false [.const false] []] row := by
      intro hfalse
      cases hfalse
    have hcalls (calls : List (Call α)) (hmem : ∀ call ∈ calls,
        call = .string false e.text ∨ call = .hash false [.const false] []) :
        Conjoined value rows calls := by
      refine h calls (fun call hcall => ?_) fun sql' hcall => ?_
      · rcases hmem call hcall with rfl | rfl
        · exact ⟨e, rfl⟩
        · trivial
      · rcases hmem _ hcall with heq | heq
        · cases heq
          exact hsql
        · cases heq
    rw [orOutside_text] at hor
    rw [truth_text] at htrue
    let never : Expr (Atom α) := .one (.one (.parens (.one (.one (.atom (.const false))))))
    have hfalse : ¬ whereHolds value [.string false e.text, .hash false [.const false] []] row :=
      fun htrue => hnever (((hcalls _ (by simp)) row hrow).1.1 htrue _ (by simp))
    have hfalse' : ¬ whereHolds value [.hash false [.const false] [], .string false e.text] row :=
      fun htrue => hnever (((hcalls _ (by simp)) row hrow).1.1 htrue _ (by simp))
    rcases Expr.earlier_or_later hor htrue with hearlier | hlater
    · refine hfalse ?_
      show truth (atomValue value row) (e.text ++ .and :: never.text) = some true
      rw [← Expr.text_and, truth_text]
      exact (Expr.eval_and _ _).2 (.inl hearlier)
    · refine hfalse' ?_
      show truth (atomValue value row) (never.text ++ .and :: e.text) = some true
      rw [← Expr.text_and, truth_text]
      exact (Expr.eval_and _ _).2 (.inr (.inr hlater))
  · intro h calls hwell hstrings row hrow
    have hiff (calls : List (Call α)) (hwell : ∀ call ∈ calls, call.WellFormed)
        (hstrings : ∀ sql, .string false sql ∈ calls → sql ∈ strings) :
        whereHolds value calls row ↔ ∀ call ∈ calls, whereHolds value [call] row := by
      rw [whereHolds_iff fun w hw => ?_]
      · simp only [mem_flatMap, forall_exists_index, and_imp]
        constructor
        · intro hall call hcall
          exact (whereHolds_single (hwell call hcall)).2 fun w hw => hall w call hcall hw
        · intro hall w call hcall hw
          exact (whereHolds_single (hwell call hcall)).1 (hall call hcall) w hw
      · obtain ⟨call, hcall, hw⟩ := mem_flatMap.1 hw
        rcases node_cases (hwell call hcall) hw with hclosed | ⟨sql, rfl, rfl⟩
        · obtain ⟨u, hu⟩ := exists_unary hclosed
          exact ⟨.one (.one u), hu, .inl rfl⟩
        · obtain ⟨e, rfl⟩ := hwell _ hcall
          refine ⟨e, by rw [Where.toSql], ?_⟩
          rcases h e.text (hstrings _ hcall) ⟨e, rfl⟩ with hclosed | hnever
          · exact .inl ((orOutside_text e).symm.trans hclosed)
          · exact .inr fun htrue => hnever row hrow ((truth_text _ e).trans htrue)
    refine ⟨hiff calls hwell hstrings, fun earlier call hcalls htrue => ?_⟩
    subst hcalls
    rw [hiff earlier (fun call' hmem => hwell call' (by simp [hmem]))
      fun sql hmem => hstrings sql (by simp [hmem])]
    exact fun call' hmem => (hiff _ hwell hstrings).1 htrue call' (by simp [hmem])

/-- `query.where("state = 'open' OR state = 'new'").where({projectId: 5})`, of a project's row that
    is open: another project has it, too. -/
theorem or_selects_other_project : ¬ Conjoined (fun (row : Bool × Bool) (column : Bool) =>
      some (if column then row.1 else row.2)) Set.univ
    [.string false [.atom (.test true), .or, .atom (.const false)],
      .hash false [.test false] []] := by
  intro h
  have hrow := (h (true, false) trivial).1.1 rfl (.hash false [.test false] []) (by simp)
  cases hrow

end Velocious.Conditions
