/-
  What an aggregate across tenants returns.

  * `collect_queries`: the queries of a run cover the rows of all tenants, in some order.
-/
import Velocious.Tenants.TenantAggregator

namespace Velocious.TenantAggregator

open Foundation List

/-! ## One query after the other -/

section
variable {τ σ κ : Type} {env : Environment τ σ κ} {o : Options τ}

section
variable [DecidableEq σ]

theorem groupByServer_append (tenants : List τ) (tenant : τ) :
    env.groupByServer (tenants ++ [tenant]) =
      (env.groupByServer tenants).set (env.serverKey tenant)
        (match (env.groupByServer tenants).get? (env.serverKey tenant) with
        | some group => group ++ [tenant]
        | none => [tenant]) := by
  unfold Environment.groupByServer
  rw [foldl_append]
  rfl

theorem get?_groupByServer (tenants : List τ) (server : σ) :
    (env.groupByServer tenants).get? server =
      if (tenants.filter fun tenant => env.serverKey tenant = server) = [] then none
      else some (tenants.filter fun tenant => env.serverKey tenant = server) := by
  induction tenants using List.reverseRecOn with
  | nil => rfl
  | append_singleton tenants tenant ih =>
    rw [groupByServer_append, EntryMap.get?_set]
    by_cases hserver : server = env.serverKey tenant
    · subst hserver
      rw [ih]
      by_cases hnone : (tenants.filter fun t => env.serverKey t = env.serverKey tenant) = []
      · simp [hnone]
      · simp [hnone]
    · have hne : env.serverKey tenant ≠ server := fun h => hserver h.symm
      simp [hserver, hne, ih]

theorem values_groupByServer (tenants : List τ) :
    (env.groupByServer tenants).values = (env.groupByServer tenants).keys.map fun server =>
      tenants.filter fun tenant => env.serverKey tenant = server := by
  refine map_injective_iff.mpr (Option.some_injective _) ?_
  rw [← EntryMap.map_get?_keys, map_map]
  refine map_congr_left fun server hserver => ?_
  obtain ⟨group, hgroup⟩ := EntryMap.mem_keys.mp hserver
  rw [get?_groupByServer] at hgroup ⊢
  split at hgroup
  · cases hgroup
  · next hsome => exact if_neg hsome

theorem flatten_groupByServer (tenants : List τ) :
    (env.groupByServer tenants).values.flatten.Perm tenants := by
  rw [values_groupByServer]
  refine flatMap_filter_perm env.serverKey (EntryMap.nodup_keys _) fun tenant htenant => ?_
  have hsome : (tenants.filter fun t => env.serverKey t = env.serverKey tenant) ≠ [] :=
    ne_nil_of_mem (mem_filter.mpr ⟨htenant, decide_eq_true rfl⟩)
  exact EntryMap.mem_keys.mpr ⟨_, (get?_groupByServer _ _).trans (if_neg hsome)⟩

theorem group_eq {tenants group : List τ} (h : group ∈ (env.groupByServer tenants).values) :
    group ≠ [] ∧ ∃ server, ∀ tenant ∈ group, env.serverKey tenant = server := by
  obtain ⟨server, hserver⟩ := EntryMap.mem_values.mp h
  rw [get?_groupByServer] at hserver
  split at hserver
  · cases hserver
  · next hsome =>
    cases hserver
    refine ⟨hsome, server, fun tenant htenant => ?_⟩
    exact of_decide_eq_true (mem_filter.mp htenant).2

end

theorem qualifiedRows_eq {first : τ} {tenants : List τ} {rows : List (SourceRow κ)}
    (hserver : ∀ tenant ∈ tenants, env.serverKey tenant = env.serverKey first)
    (h : env.qualifiedRows o first tenants = .ok rows) : rows = tenants.flatMap env.ownRows := by
  induction tenants generalizing rows with
  | nil =>
    cases h
    rfl
  | cons tenant tenants ih =>
    obtain ⟨hthis, hserver⟩ := forall_mem_cons.mp hserver
    unfold Environment.qualifiedRows at h
    split at h
    · cases h
    · next database hdatabase =>
      obtain ⟨hsome, -⟩ := orNull_eq_some.mp hdatabase
      cases hrest : env.qualifiedRows o first tenants with
      | error e =>
        rw [hrest] at h
        cases h
      | ok rest =>
        rw [hrest] at h
        cases h
        rw [ih hserver hrest, flatMap_cons]
        unfold Environment.ownRows
        rw [hsome, hthis]

variable [DecidableEq κ]

/-- Queries, each over some rows on some connection, and what they return. -/
structure Answered (env : Environment τ σ κ) (o : Options τ) (rows : List (SourceRow κ))
    (found : List (Found τ κ)) (queries : List (τ × List (SourceRow κ))) : Prop where
  found_eq : found = queries.flatMap fun query => env.answer o query.1 query.2
  rows_perm : (queries.flatMap Prod.snd).Perm rows

theorem Answered.append {rows rows' : List (SourceRow κ)} {found found' : List (Found τ κ)}
    {queries queries' : List (τ × List (SourceRow κ))} (h : Answered env o rows found queries)
    (h' : Answered env o rows' found' queries') :
    Answered env o (rows ++ rows') (found ++ found') (queries ++ queries') where
  found_eq := by rw [h.found_eq, h'.found_eq, flatMap_append]
  rows_perm := by
    rw [flatMap_append]
    exact h.rows_perm.append h'.rows_perm

theorem runForServer_answered {server : σ} {group : List τ} {found : List (Found τ κ)}
    (hne : group ≠ []) (hserver : ∀ tenant ∈ group, env.serverKey tenant = server)
    (h : env.runForServer o group = .ok found) :
    ∃ queries, queries ≠ [] ∧ Answered env o (group.flatMap env.ownRows) found queries := by
  cases group with
  | nil => exact absurd rfl hne
  | cons first others =>
    unfold Environment.runForServer at h
    dsimp only at h
    split at h
    · cases hrows : env.qualifiedRows o first (first :: others) with
      | error e =>
        rw [hrows] at h
        cases h
      | ok rows =>
        rw [hrows] at h
        cases h
        have hsame : ∀ tenant ∈ first :: others, env.serverKey tenant = env.serverKey first := by
          intro tenant htenant
          rw [hserver tenant htenant, hserver first mem_cons_self]
        refine ⟨[(first, rows)], cons_ne_nil _ _, ⟨by simp, ?_⟩⟩
        rw [qualifiedRows_eq hsame hrows]
        simp
    · cases h
      refine ⟨(first :: others).map fun tenant => (tenant, env.ownRows tenant), by simp, ?_, ?_⟩
      · rw [flatMap_map]
      · rw [flatMap_map]

theorem runForServers_answered {groups : List (List τ)} {found : List (Found τ κ)}
    (hgroups : ∀ group ∈ groups,
      group ≠ [] ∧ ∃ server, ∀ tenant ∈ group, env.serverKey tenant = server)
    (h : env.runForServers o groups = .ok found) :
    ∃ queries, (queries = [] → groups = []) ∧
      Answered env o (groups.flatten.flatMap env.ownRows) found queries := by
  induction groups generalizing found with
  | nil =>
    cases h
    exact ⟨[], fun _ => rfl, rfl, .refl _⟩
  | cons group groups ih =>
    obtain ⟨⟨hne, server, hserver⟩, hgroups⟩ := forall_mem_cons.mp hgroups
    unfold Environment.runForServers at h
    cases hgroup : env.runForServer o group with
    | error e =>
      rw [hgroup] at h
      cases h
    | ok groupRows =>
      rw [hgroup] at h
      cases hrest : env.runForServers o groups with
      | error e =>
        rw [hrest] at h
        cases h
      | ok rest =>
        rw [hrest] at h
        cases h
        obtain ⟨queries, hsome, hanswered⟩ := runForServer_answered hne hserver hgroup
        obtain ⟨queries', -, hrestAnswered⟩ := ih hgroups hrest
        refine ⟨queries ++ queries', fun hnil => ?_, ?_⟩
        · exact absurd (append_eq_nil_iff.mp hnil).1 hsome
        · rw [flatten_cons, flatMap_append]
          exact hanswered.append hrestAnswered

variable [DecidableEq σ] in
theorem collect_queries {tenants : List τ} {found : List (Found τ κ)}
    (h : env.collect o tenants = .ok found) :
    ∃ queries, (queries = [] → tenants = []) ∧
      Answered env o (tenants.flatMap env.ownRows) found queries := by
  obtain ⟨queries, hnil, hanswered⟩ := runForServers_answered (fun _ => group_eq) h
  have hperm : (env.groupByServer tenants).values.flatten.Perm tenants :=
    flatten_groupByServer tenants
  refine ⟨queries, fun hq => ?_, hanswered.found_eq, ?_⟩
  · rw [hnil hq] at hperm
    exact hperm.symm.eq_nil
  · exact hanswered.rows_perm.trans (hperm.flatMap_right env.ownRows)

end

/-! ## The rows of one key -/

section
variable {τ σ κ : Type} [DecidableEq κ] {env : Environment τ σ κ} {o : Options τ}

variable {key : List κ}

theorem mem_groupKeys {rows : List (SourceRow κ)} : key ∈ o.groupKeys rows ↔
      (o.keyColumns = [] ∧ key = []) ∨ (o.keyColumns ≠ [] ∧ ∃ row ∈ rows, o.keyOf row = key) := by
  unfold Options.groupKeys
  split
  next hnone => simp [hnone]
  next hsome => simp [hsome]

theorem nodup_groupKeys (rows : List (SourceRow κ)) : (o.groupKeys rows).Nodup := by
  unfold Options.groupKeys
  split
  · exact nodup_singleton _
  · exact nodup_dedup _

theorem filter_eq_nil_of_key {rows : List (SourceRow κ)}
    (h : key ∉ o.groupKeys rows) : (rows.filter fun row => o.keyOf row = key) = [] := by
  rw [mem_groupKeys, not_or] at h
  obtain ⟨hnone, hsome⟩ := h
  refine filter_eq_nil_iff.mpr fun row hrow hkey => ?_
  have hkey := of_decide_eq_true hkey
  by_cases hcolumns : o.keyColumns = []
  · refine hnone ⟨hcolumns, ?_⟩
    rw [← hkey, Options.keyOf, hcolumns, map_nil]
  · exact hsome ⟨hcolumns, row, hrow, hkey⟩

theorem mem_answer {connection : τ} {rows : List (SourceRow κ)} {f : Found τ κ} :
    f ∈ env.answer o connection rows ↔
      ∃ key ∈ o.groupKeys rows, f = ⟨connection, o.groupRow rows key⟩ := by
  unfold Environment.answer
  rw [mem_map]
  constructor
  · rintro ⟨row, hrow, rfl⟩
    obtain ⟨key, hkey, rfl⟩ := mem_map.mp ((env.order_perm connection _).mem_iff.mp hrow)
    exact ⟨key, hkey, rfl⟩
  · rintro ⟨key, hkey, rfl⟩
    exact ⟨_, (env.order_perm connection _).mem_iff.mpr (mem_map_of_mem hkey), rfl⟩

theorem filter_answer (connection : τ) (rows : List (SourceRow κ)) (key : List κ) :
    ((env.answer o connection rows).filter fun f => f.row.key = key) =
      if key ∈ o.groupKeys rows then [⟨connection, o.groupRow rows key⟩] else [] := by
  have hperm : ((env.answer o connection rows).filter fun f => f.row.key = key).Perm
      ((o.groupKeys rows).filter (· = key) |>.map fun k => ⟨connection, o.groupRow rows k⟩) := by
    have hanswer : (env.answer o connection rows).Perm
        ((o.groupKeys rows).map fun k => ⟨connection, o.groupRow rows k⟩) := by
      refine ((env.order_perm connection _).map _).trans ?_
      rw [Options.groupBy, map_map]
      exact .refl _
    refine (hanswer.filter _).trans ?_
    rw [filter_map]
    exact .refl _
  have hkeys : (o.groupKeys rows).filter (· = key) =
      if key ∈ o.groupKeys rows then [key] else [] := by
    rw [filter_eq]
    split
    next hmem => rw [count_eq_one_of_mem (nodup_groupKeys rows) hmem, replicate_one]
    next hnew => rw [count_eq_zero_of_not_mem hnew, replicate_zero]
  rw [hkeys] at hperm
  split at hperm
  next hmem => rw [if_pos hmem]; exact perm_singleton.mp hperm
  next hnew => rw [if_neg hnew]; exact hperm.eq_nil

variable {rows : List (SourceRow κ)} {found : List (Found τ κ)}
  {queries : List (τ × List (SourceRow κ))}

section
variable (h : Answered env o rows found queries)
include h

theorem Answered.filter_found (key : List κ) :
    (found.filter fun f => f.row.key = key) =
      (queries.filter fun query => key ∈ o.groupKeys query.2).map fun query =>
        ⟨query.1, o.groupRow query.2 key⟩ := by
  rw [h.found_eq]
  clear h
  induction queries with
  | nil => rfl
  | cons query queries ih =>
    rw [flatMap_cons, filter_append, filter_answer, ih]
    by_cases hkey : key ∈ o.groupKeys query.2
    · simp [hkey]
    · simp [hkey]

theorem Answered.rows_of_key (key : List κ) :
    ((queries.filter fun query => key ∈ o.groupKeys query.2).flatMap fun query =>
      query.2.filter fun row => o.keyOf row = key).Perm
        (rows.filter fun row => o.keyOf row = key) := by
  refine .trans ?_ (h.rows_perm.filter _)
  clear h
  induction queries with
  | nil => exact .refl _
  | cons query queries ih =>
    by_cases hkey : key ∈ o.groupKeys query.2
    · simpa [hkey, perm_append_left_iff] using ih
    · simpa [hkey, filter_eq_nil_of_key hkey] using ih

theorem Answered.mem_keys (hsome : queries ≠ [] ∨ o.keyColumns ≠ []) :
    (∃ f ∈ found, f.row.key = key) ↔ key ∈ o.groupKeys rows := by
  have hfound : (∃ f ∈ found, f.row.key = key) ↔
      ∃ query ∈ queries, key ∈ o.groupKeys query.2 := by
    rw [h.found_eq]
    constructor
    · rintro ⟨f, hf, rfl⟩
      obtain ⟨query, hquery, hf⟩ := mem_flatMap.mp hf
      obtain ⟨key, hkey, rfl⟩ := mem_answer.mp hf
      exact ⟨query, hquery, hkey⟩
    · rintro ⟨query, hquery, hkey⟩
      exact ⟨_, mem_flatMap.mpr ⟨query, hquery, mem_answer.mpr ⟨key, hkey, rfl⟩⟩, rfl⟩
  rw [hfound, mem_groupKeys]
  constructor
  · rintro ⟨query, hquery, hkey⟩
    rcases mem_groupKeys.mp hkey with hnone | ⟨hcolumns, row, hrow, hkey⟩
    · exact .inl hnone
    · refine .inr ⟨hcolumns, row, ?_, hkey⟩
      exact h.rows_perm.mem_iff.mp (mem_flatMap.mpr ⟨query, hquery, hrow⟩)
  · rintro (⟨hcolumns, hkey⟩ | ⟨hcolumns, row, hrow, hkey⟩)
    · obtain ⟨query, hquery⟩ :=
        exists_mem_of_ne_nil queries (hsome.resolve_right (not_not_intro hcolumns))
      exact ⟨query, hquery, mem_groupKeys.mpr (.inl ⟨hcolumns, hkey⟩)⟩
    · obtain ⟨query, hquery, hrow⟩ := mem_flatMap.mp (h.rows_perm.mem_iff.mpr hrow)
      exact ⟨query, hquery, mem_groupKeys.mpr (.inr ⟨hcolumns, row, hrow, hkey⟩)⟩

/-- **What the queries return for a key, merged in exact integers**, is what one `GROUP BY` over
    all rows returns. -/
theorem Answered.foldl_values {f : Found τ κ}
    (hf : f ∈ found) {name : String} {spec : AggregateSpec} (hspec : specOf o.aggregates name = some spec) :
    (((found.filter fun g => g.row.key = f.row.key).map fun g => g.row.values name).foldl
      spec.op.merge none) = (o.groupRow rows f.row.key).values name := by
  have hvalues : ∀ rows : List (SourceRow κ), (o.groupRow rows f.row.key).values name =
      spec.op.aggregate ((rows.filter fun row => o.keyOf row = f.row.key).map spec.cell) := by
    intro rows
    simp [Options.groupRow, hspec]
  have hparts := h.filter_found f.row.key
  have hne : (queries.filter fun query => f.row.key ∈ o.groupKeys query.2) ≠ [] := by
    intro hnil
    rw [hnil] at hparts
    have := filter_eq_nil_iff.mp hparts f hf
    simp at this
  have hcells := ((h.rows_of_key f.row.key).map spec.cell)
  rw [hparts, map_map, hvalues, ← AggregateOperation.aggregate_perm hcells,
    map_flatMap, flatMap_def, ← AggregateOperation.aggregate_flatten (by simpa using hne),
    map_map]
  refine congrArg (List.foldl _ _) (map_congr_left fun query _ => ?_)
  exact hvalues query.2

end

end

/-! ## The merge -/

section
variable {row : JsRow} {rows : List JsRow} {aggregates : List (String × AggregateSpec)}

def mergeValue (op : AggregateOperation) (merged rawValue : RawValue) : RawValue :=
  match rawValue.number? with
  | none => merged
  | some value =>
    .number <|
      match merged with
      | .number current => combine op current value
      | _ => value

/-- No aggregate comes as a text that is not safe. -/
def SafeRow (aggregates : List (String × AggregateSpec)) (row : JsRow) : Prop :=
  ∀ name ∈ aggregates.map Prod.fst, ∀ n, row name = .text n → |n| ≤ Double.maxSafe

theorem toExactNumber_eq_ok {rawValue : RawValue} {number value : Double}
    (hnumber : rawValue.number? = some number) :
    toExactNumber rawValue number = .ok value ↔
      (∀ n, rawValue = .text n → |n| ≤ Double.maxSafe) ∧ value = number := by
  cases rawValue with
  | key value => cases hnumber
  | null => cases hnumber
  | number x => simp [toExactNumber, eq_comm]
  | text n =>
    cases hnumber
    unfold toExactNumber
    by_cases hsafe : (Double.ofInt n).isSafe
    · have habs := Double.isSafe_ofInt.mp hsafe
      simp [hsafe, habs, eq_comm]
    · have habs : ¬|n| ≤ Double.maxSafe := fun h => hsafe (Double.isSafe_ofInt.mpr h)
      simp [hsafe, habs]

theorem addValues_eq_ok (hnodup : (aggregates.map Prod.fst).Nodup)
    {accumulator accumulator' : JsRow} :
    addValues row aggregates accumulator = .ok accumulator' ↔
      SafeRow aggregates row ∧ accumulator' = fun name =>
        match specOf aggregates name with
        | none => accumulator name
        | some spec => mergeValue spec.op (accumulator name) (row name) := by
  induction aggregates generalizing accumulator with
  | nil => simp [addValues, SafeRow, specOf, eq_comm]
  | cons aggregate others ih =>
    obtain ⟨name, spec⟩ := aggregate
    obtain ⟨hnew, hnodup⟩ := nodup_cons.mp hnodup
    have hother : specOf others name = none := by
      simp only [specOf, Option.map_eq_none_iff, find?_eq_none, decide_eq_true_eq]
      intro a ha hname
      exact hnew (mem_map.mpr ⟨a, ha, hname⟩)
    have hsafe : SafeRow ((name, spec) :: others) row ↔
        (∀ n, row name = .text n → |n| ≤ Double.maxSafe) ∧ SafeRow others row := by
      simp [SafeRow]
    have hspec : ∀ name', specOf ((name, spec) :: others) name' =
        if name = name' then some spec else specOf others name' := by
      intro name'
      by_cases h : name = name' <;> simp [specOf, h]
    unfold addValues
    cases hnumber : (row name).number? with
    | none =>
      have htext : ∀ n, row name ≠ .text n := by
        intro n hraw
        rw [hraw] at hnumber
        cases hnumber
      rw [ih hnodup, hsafe]
      refine and_congr (by simp [htext]) (Eq.congr_right ?_)
      funext name'
      rw [hspec]
      by_cases h : name = name'
      · subst h
        rw [hother]
        simp [mergeValue, hnumber]
      · rw [if_neg h]
    | some number =>
      have hmerged : ∀ merged : RawValue, mergeValue spec.op merged (row name) =
          .number (match merged with
            | .number current => combine spec.op current number
            | _ => number) := by
        intro merged
        simp only [mergeValue, hnumber]
      by_cases htext : ∀ n, row name = .text n → |n| ≤ Double.maxSafe
      · have hok : toExactNumber (row name) number = .ok number :=
          (toExactNumber_eq_ok hnumber).mpr ⟨htext, rfl⟩
        dsimp only
        rw [hok]
        refine (ih hnodup).trans ?_
        rw [hsafe, and_iff_right htext]
        refine and_congr_right fun _ => Eq.congr_right ?_
        funext name'
        rw [hspec]
        by_cases h : name = name'
        · subst h
          rw [hother, if_pos rfl]
          dsimp only
          rw [hmerged]
          exact Function.update_self ..
        · rw [if_neg h, Function.update_of_ne (Ne.symm h)]
      · rw [hsafe]
        cases hconv : toExactNumber (row name) number with
        | ok value => exact absurd ((toExactNumber_eq_ok hnumber).mp hconv).1 htext
        | error e =>
          dsimp only
          rw [hconv]
          constructor
          · intro h
            cases h
          · rintro ⟨⟨h, -⟩, -⟩
            exact absurd h htext

end

section
variable {τ : Type} {o : Options τ} {row : JsRow} {rows : List JsRow}

variable (o) in
/-- What becomes of the rows of one key. -/
def summarize (rows : List JsRow) : Option JsRow :=
  rows.head?.map fun first name =>
    match specOf o.aggregates name with
    | some spec => (rows.map fun row => row name).foldl (mergeValue spec.op) .null
    | none => o.newAccumulator first name

variable (o) in
/-- The merged rows are what becomes of the rows so far. -/
def Merged (rows : List JsRow) (merged : EntryMap String JsRow) : Prop :=
  ∀ key, merged.get? key = summarize o (rows.filter fun row => o.mapKey row = key)

theorem newAccumulator_of_spec {name : String} {spec : AggregateSpec}
    (h : specOf o.aggregates name = some spec) : o.newAccumulator row name = .null := by
  rw [Options.newAccumulator, h]
  rfl

theorem Merged.step {merged : EntryMap String JsRow} (h : Merged o rows merged)
    {accumulator : JsRow} (hvalues : addValues row o.aggregates
      ((merged.get? (o.mapKey row)).getD (o.newAccumulator row)) = .ok accumulator) :
    Merged o (rows ++ [row]) (merged.set (o.mapKey row) accumulator) := by
  obtain ⟨-, rfl⟩ := (addValues_eq_ok o.names_nodup).mp hvalues
  intro key
  rw [EntryMap.get?_set, filter_append, h (o.mapKey row)]
  by_cases hkey : key = o.mapKey row
  · subst hkey
    cases hrows : rows.filter fun r => o.mapKey r = o.mapKey row with
    | nil =>
      simp only [decide_true, filter_cons_of_pos]
      refine congrArg some (funext fun name => ?_)
      cases hspec : specOf o.aggregates name with
      | none => simp [summarize, hspec]
      | some spec => simp [summarize, hspec, newAccumulator_of_spec hspec]
    | cons first others =>
      simp only [summarize, head?_cons, Option.map_some, Option.getD_some, cons_append,
        decide_true, filter_cons_of_pos, map_cons, map_append]
      refine congrArg some (funext fun name => ?_)
      cases specOf o.aggregates name with
      | none => rfl
      | some spec =>
        dsimp only
        rw [← cons_append, foldl_append]
        rfl
  · have hother : ¬o.mapKey row = key := fun h => hkey h.symm
    rw [if_neg hkey, h key]
    simp [hother]

theorem mergeInto_ok_iff {merged : EntryMap String JsRow} :
    (∃ merged', o.mergeInto rows merged = .ok merged') ↔
      ∀ row ∈ rows, SafeRow o.aggregates row := by
  induction rows generalizing merged with
  | nil => simp [Options.mergeInto]
  | cons row rows ih =>
    rw [forall_mem_cons]
    unfold Options.mergeInto
    dsimp only
    cases hvalues : addValues row o.aggregates
        ((merged.get? (o.mapKey row)).getD (o.newAccumulator row)) with
    | error e =>
      constructor
      · rintro ⟨_, h⟩
        cases h
      · rintro ⟨hsafe, -⟩
        rw [(addValues_eq_ok o.names_nodup).mpr ⟨hsafe, rfl⟩] at hvalues
        cases hvalues
    | ok values =>
      rw [and_iff_right ((addValues_eq_ok o.names_nodup).mp hvalues).1]
      exact ih

theorem merged_of_rows :
    ∀ {rows before : List JsRow} {merged merged' : EntryMap String JsRow},
      Merged o before merged → o.mergeInto rows merged = .ok merged' →
        Merged o (before ++ rows) merged'
  | [], before, merged, merged', h, hrun => by
    cases hrun
    rwa [append_nil]
  | row :: rows, before, merged, merged', h, hrun => by
    unfold Options.mergeInto at hrun
    dsimp only at hrun
    cases hvalues : addValues row o.aggregates
        ((merged.get? (o.mapKey row)).getD (o.newAccumulator row)) with
    | error e =>
      rw [hvalues] at hrun
      cases hrun
    | ok values =>
      rw [hvalues] at hrun
      have := merged_of_rows (h.step hvalues) hrun
      rwa [append_assoc] at this

theorem merged_nil : Merged o [] .empty := fun _ => rfl

theorem Merged.mem_keys {merged : EntryMap String JsRow} (h : Merged o rows merged)
    {key : String} : key ∈ merged.keys ↔ ∃ row ∈ rows, o.mapKey row = key := by
  rw [EntryMap.mem_keys, h key]
  cases hrows : rows.filter fun row => o.mapKey row = key with
  | nil =>
    have hnone := filter_eq_nil_iff.mp hrows
    simp only [summarize, head?_nil, Option.map_none, reduceCtorEq, exists_false, false_iff]
    rintro ⟨row, hrow, hkey⟩
    exact hnone row hrow (decide_eq_true hkey)
  | cons first others =>
    have hfirst : first ∈ rows.filter fun row => o.mapKey row = key := by
      rw [hrows]
      exact mem_cons_self
    obtain ⟨hmem, hkey⟩ := mem_filter.mp hfirst
    exact ⟨fun _ => ⟨first, hmem, of_decide_eq_true hkey⟩, fun _ => ⟨_, rfl⟩⟩

end

/-! ## The result -/

/-- A value of SQL as a number without an error of rounding. -/
def exactValue : Option ℤ → RawValue
  | none => .null
  | some n => .number (.finite n)

/-- Values whose integers are JavaScript numbers, and so is all that they give when they are merged
    in integers, one after the other. -/
def RunningExact (op : AggregateOperation) (values : List (Option ℤ)) : Prop :=
  (∀ n, some n ∈ values → Double.IsExact n) ∧
    ∀ before, before <+: values → ∀ n, before.foldl op.merge none = some n → Double.IsExact n

theorem mergeValue_exact {op : AggregateOperation} {merged value : Option ℤ} {rawValue : RawValue}
    (hraw : rawValue.number? = value.map Double.ofInt)
    (hvalue : ∀ n, value = some n → Double.IsExact n)
    (hmerged : ∀ n, op.merge merged value = some n → Double.IsExact n) :
    mergeValue op (exactValue merged) rawValue = exactValue (op.merge merged value) := by
  unfold mergeValue
  rw [hraw]
  cases value with
  | none =>
    rw [AggregateOperation.merge_none_right]
    rfl
  | some n =>
    rw [Option.map_some, hvalue n rfl]
    cases merged with
    | none => rfl
    | some m =>
      refine congrArg RawValue.number ?_
      cases op with
      | sum => exact hmerged (m + n) rfl
      | count => exact hmerged (m + n) rfl
      | max => rfl
      | min => rfl

/-- **Exact numbers are merged as integers are.** -/
theorem foldl_mergeValue {α : Type} {op : AggregateOperation} {value : α → Option ℤ}
    {rawValue : α → RawValue} {l : List α}
    (hraw : ∀ a ∈ l, (rawValue a).number? = (value a).map Double.ofInt)
    (h : RunningExact op (l.map value)) :
    (l.map rawValue).foldl (mergeValue op) .null =
      exactValue ((l.map value).foldl op.merge none) := by
  induction l using List.reverseRecOn with
  | nil => rfl
  | append_singleton l a ih =>
    obtain ⟨hvalues, hbefore⟩ := h
    rw [map_append] at hvalues hbefore
    have hinit : RunningExact op (l.map value) :=
      ⟨fun n hn => hvalues n (mem_append_left _ hn),
        fun before hprefix => hbefore before (List.IsPrefix.trans hprefix (prefix_append _ _))⟩
    have hall := hbefore _ List.prefix_rfl
    rw [foldl_append] at hall
    rw [map_append, map_append, foldl_append, foldl_append,
      ih (fun b hb => hraw b (mem_append_left _ hb)) hinit]
    exact mergeValue_exact (hraw a (mem_append_right _ mem_cons_self))
      (fun n hn => hvalues n (mem_append_right _ (by simp [hn]))) hall

namespace Environment
variable {τ σ κ : Type} [DecidableEq σ] [DecidableEq κ] (env : Environment τ σ κ) (o : Options τ)

/-- A returned row is a row of the one `GROUP BY`: it has the key as a driver wrote it, and each
    aggregate is the exact integer, or `NULL`. -/
def Denotes (found : List (Found τ κ)) (out : JsRow) (row : SqlRow κ) : Prop :=
  (∃ f ∈ found, f.row.key = row.key ∧
    ∀ keyColumn ∈ o.keyColumns, out keyColumn = env.written o f keyColumn) ∧
    ∀ name spec, specOf o.aggregates name = some spec → out name = exactValue (row.values name)

/-- Where no error is thrown, the rows returned are those of one `GROUP BY` over the rows of all
    tenants, in some order. -/
def Meets : Prop :=
  ∀ tenants found out, env.resolveTenants o = .ok tenants → env.collect o tenants = .ok found →
    env.run o = .ok out →
      ∃ rows : List (SqlRow κ), rows.Perm (o.groupBy (tenants.flatMap env.ownRows)) ∧
        List.Forall₂ (env.Denotes o found) out rows

/-- Drivers do not write two keys alike. -/
def KeysApart (found : List (Found τ κ)) : Prop :=
  ∀ f ∈ found, ∀ g ∈ found, o.mapKey (env.hand o f) = o.mapKey (env.hand o g) →
    f.row.key = g.row.key

/-- Drivers write a key alike wherever it occurs. -/
def KeysAlike (found : List (Found τ κ)) : Prop :=
  ∀ f ∈ found, ∀ g ∈ found, f.row.key = g.row.key →
    o.mapKey (env.hand o f) = o.mapKey (env.hand o g)

/-- No aggregate has the name of a key column. -/
def NamesApart (o : Options τ) : Prop :=
  ∀ keyColumn ∈ o.keyColumns, specOf o.aggregates keyColumn = none

/-- What the queries return for a key and an aggregate stays in the integers that are JavaScript
    numbers while it is merged. -/
def SumsExact (o : Options τ) (found : List (Found τ κ)) : Prop :=
  ∀ f ∈ found, ∀ name spec, specOf o.aggregates name = some spec →
    RunningExact spec.op
      ((found.filter fun g => g.row.key = f.row.key).map fun g => g.row.values name)

/-- When a run meets the statement: unless an integer comes as a text that is not safe, there is a
    tenant or a key column, no aggregate is named like a key column, the drivers agree on keys, and
    no integer is too large. -/
def Sound : Prop :=
  ∀ tenants found, env.resolveTenants o = .ok tenants → env.collect o tenants = .ok found →
    (∀ f ∈ found, SafeRow o.aggregates (env.hand o f)) →
      (tenants ≠ [] ∨ o.keyColumns ≠ []) ∧ (found ≠ [] → NamesApart o) ∧ env.KeysApart o found ∧
        env.KeysAlike o found ∧ SumsExact o found

end Environment

section
variable {τ σ κ : Type} [DecidableEq σ] [DecidableEq κ] {env : Environment τ σ κ} {o : Options τ}
  {tenants : List τ} {found : List (Found τ κ)} {out : List JsRow}

theorem run_eq_ok (hresolve : env.resolveTenants o = .ok tenants)
    (hcollect : env.collect o tenants = .ok found) :
    env.run o = .ok out ↔ o.mergeRows (found.map (env.hand o)) = .ok out := by
  unfold Environment.run
  rw [hresolve]
  cases tenants with
  | nil =>
    cases hcollect
    exact Iff.rfl
  | cons tenant tenants =>
    show (do
      let rows ← env.collect o (tenant :: tenants)
      o.mergeRows (rows.map (env.hand o))) = .ok out ↔ _
    rw [hcollect]
    exact Iff.rfl

theorem mergeRows_eq_ok {rows : List JsRow} :
    o.mergeRows rows = .ok out ↔
      ∃ merged, o.mergeInto rows .empty = .ok merged ∧ merged.values = out := by
  unfold Options.mergeRows
  cases o.mergeInto rows .empty with
  | error e => simp [Except.map]
  | ok merged => simp [Except.map]

omit [DecidableEq σ] [DecidableEq κ] in
theorem returned_rows (hmerge : o.mergeRows (found.map (env.hand o)) = .ok out) :
    (∀ f ∈ found, SafeRow o.aggregates (env.hand o f)) ∧
    ∃ origins : List (Found τ κ), (origins.map fun f => o.mapKey (env.hand o f)).Nodup ∧
      (∀ f ∈ found, ∃ origin ∈ origins,
        o.mapKey (env.hand o origin) = o.mapKey (env.hand o f)) ∧
      List.Forall₂ (fun origin row => origin ∈ found ∧ summarize o
        ((found.filter fun f => o.mapKey (env.hand o f) = o.mapKey (env.hand o origin)).map
          (env.hand o)) = some row) origins out := by
  obtain ⟨merged, hrun, rfl⟩ := mergeRows_eq_ok.mp hmerge
  have hmerged := merged_of_rows merged_nil hrun
  rw [nil_append] at hmerged
  have hkeys : merged.keys ∈ Set.range (List.map fun f : { f // f ∈ found } =>
      o.mapKey (env.hand o f.1)) := by
    rw [Set.range_list_map]
    intro key hkey
    obtain ⟨row, hrow, rfl⟩ := hmerged.mem_keys.mp hkey
    obtain ⟨f, hf, rfl⟩ := mem_map.mp hrow
    exact ⟨⟨f, hf⟩, rfl⟩
  obtain ⟨origins, horigins⟩ := hkeys
  have hnodup := merged.nodup_keys
  rw [← horigins] at hnodup
  refine ⟨fun f hf => ?_, origins.map Subtype.val, ?_, fun f hf => ?_, ?_⟩
  · exact mergeInto_ok_iff.mp ⟨merged, hrun⟩ _ (mem_map_of_mem hf)
  · rw [map_map]
    exact hnodup
  · have hkey : o.mapKey (env.hand o f) ∈ merged.keys :=
      hmerged.mem_keys.mpr ⟨_, mem_map_of_mem hf, rfl⟩
    rw [← horigins] at hkey
    obtain ⟨origin, horigin, hsame⟩ := mem_map.mp hkey
    exact ⟨origin.1, mem_map_of_mem horigin, hsame⟩
  · have hvalues : List.Forall₂ (· = ·) (merged.keys.map merged.get?) (merged.values.map some) :=
      forall₂_eq_eq_eq ▸ merged.map_get?_keys
    rw [← horigins, map_map, forall₂_map_left_iff, forall₂_map_right_iff] at hvalues
    rw [forall₂_map_left_iff]
    refine hvalues.imp fun origin row h => ⟨origin.2, ?_⟩
    rw [← h, Function.comp_apply, hmerged _, filter_map]
    rfl

omit [DecidableEq σ] [DecidableEq κ] in
theorem hand_of_keyColumn {f : Found τ κ} {keyColumn : String}
    (h : specOf o.aggregates keyColumn = none) :
    env.hand o f keyColumn = env.written o f keyColumn := by
  rw [Environment.hand, h]
  rfl

omit [DecidableEq σ] [DecidableEq κ] in
theorem number?_hand {f : Found τ κ} {name : String} {spec : AggregateSpec}
    (h : specOf o.aggregates name = some spec) :
    (env.hand o f name).number? = (f.row.values name).map Double.ofInt := by
  have hhand : env.hand o f name =
      match f.row.values name with
      | none => .null
      | some n => if env.asText f.connection name n then .text n else .number (.ofInt n) := by
    rw [Environment.hand, h]
    rfl
  rw [hhand]
  cases f.row.values name with
  | none => rfl
  | some n =>
    dsimp only
    split <;> rfl

theorem exactValue_ne_key {value : Option ℤ} {key : Json} : exactValue value ≠ .key key := by
  cases value with
  | none => exact RawValue.noConfusion
  | some n => exact RawValue.noConfusion

theorem summarize_eq_some {rows : List JsRow} {row : JsRow} (h : summarize o rows = some row) :
    ∃ first ∈ rows,
      (∀ name, specOf o.aggregates name = none → row name = o.newAccumulator first name) ∧
      ∀ name spec, specOf o.aggregates name = some spec →
        row name = (rows.map fun row => row name).foldl (mergeValue spec.op) .null := by
  cases rows with
  | nil => cases h
  | cons first others =>
    cases h
    refine ⟨first, mem_cons_self, fun name hname => ?_, fun name spec hspec => ?_⟩
    · simp only [hname]
    · simp only [hspec]

omit [DecidableEq σ] in
/-- What is merged for a key, if keys are written alike and apart: its key columns are those of one
    row that was found, and its aggregates are the merge of all of them. -/
theorem row_of_key (hapart : env.KeysApart o found) (halike : env.KeysAlike o found)
    {f : Found τ κ} (hf : f ∈ found) {row : JsRow} (hrow : summarize o ((found.filter fun g =>
      o.mapKey (env.hand o g) = o.mapKey (env.hand o f)).map (env.hand o)) = some row) :
    (∃ g ∈ found, g.row.key = f.row.key ∧ ∀ keyColumn ∈ o.keyColumns,
      specOf o.aggregates keyColumn = none → row keyColumn = env.written o g keyColumn) ∧
    ∀ name spec, specOf o.aggregates name = some spec →
      row name = (((found.filter fun g => g.row.key = f.row.key).map fun g =>
        env.hand o g name).foldl (mergeValue spec.op) .null) := by
  have hsame : (found.filter fun g => o.mapKey (env.hand o g) = o.mapKey (env.hand o f)) =
      found.filter fun g => g.row.key = f.row.key :=
    filter_congr fun g hg => decide_eq_decide.mpr ⟨hapart g hg f hf, halike g hg f hf⟩
  rw [hsame] at hrow
  obtain ⟨first, hfirst, hkeys, hvalues⟩ := summarize_eq_some hrow
  obtain ⟨g, hg, rfl⟩ := mem_map.mp hfirst
  obtain ⟨hg, hkey⟩ := mem_filter.mp hg
  refine ⟨⟨g, hg, of_decide_eq_true hkey, fun keyColumn hcolumn hname => ?_⟩,
    fun name spec hspec => ?_⟩
  · rw [hkeys keyColumn hname, Options.newAccumulator, hname, if_pos hcolumn,
      hand_of_keyColumn hname]
    rfl
  · rw [hvalues name spec hspec, map_map]
    rfl

omit [DecidableEq σ] in
/-- **The aggregates of a key are merged exactly**, if no integer is too large. -/
theorem exact_of_key {queries : List (τ × List (SourceRow κ))} {rows : List (SourceRow κ)}
    (hanswered : Answered env o rows found queries) (hexact : Environment.SumsExact o found) {f : Found τ κ}
    (hf : f ∈ found) {name : String} {spec : AggregateSpec}
    (hspec : specOf o.aggregates name = some spec) :
    (((found.filter fun g => g.row.key = f.row.key).map fun g =>
        env.hand o g name).foldl (mergeValue spec.op) .null) =
      exactValue ((o.groupRow rows f.row.key).values name) := by
  rw [← hanswered.foldl_values hf hspec]
  exact foldl_mergeValue (fun g _ => number?_hand hspec) (hexact f hf name spec hspec)

theorem exists_of_forall₂ {α β : Type} {R : α → β → Prop} {l : List α} {u : List β}
    (h : List.Forall₂ R l u) {a : α} (ha : a ∈ l) : ∃ b ∈ u, R a b := by
  induction h with
  | nil => cases ha
  | cons hab _ ih =>
    rcases mem_cons.mp ha with rfl | ha
    · exact ⟨_, mem_cons_self, hab⟩
    · obtain ⟨b, hb, hab⟩ := ih ha
      exact ⟨b, mem_cons_of_mem _ hb, hab⟩

theorem meets_of_sound (h : env.Sound o) : env.Meets o := by
  intro tenants found out hresolve hcollect hrun
  obtain ⟨hsafe, origins, hnodup, horigins, hrows⟩ :=
    returned_rows ((run_eq_ok hresolve hcollect).mp hrun)
  obtain ⟨hsome, hnames, hapart, halike, hexact⟩ := h tenants found hresolve hcollect hsafe
  obtain ⟨queries, hqueries, hanswered⟩ := collect_queries hcollect
  have hsome : queries ≠ [] ∨ o.keyColumns ≠ [] := hsome.imp_left fun ht hq => ht (hqueries hq)
  have hfound := ((forall₂_and_left origins out).mp hrows).1
  refine ⟨origins.map fun origin => o.groupRow (tenants.flatMap env.ownRows) origin.row.key,
    ?_, ?_⟩
  · have hperm : (origins.map fun origin => origin.row.key).Perm
        (o.groupKeys (tenants.flatMap env.ownRows)) := by
      refine (perm_ext_iff_of_nodup ?_ (nodup_groupKeys _)).mpr fun key => ?_
      · refine List.Nodup.map_on (fun f hf g hg heq => ?_) hnodup.of_map
        refine inj_on_of_nodup_map hnodup hf hg ?_
        exact halike f (hfound f hf) g (hfound g hg) heq
      · rw [← hanswered.mem_keys hsome, mem_map]
        constructor
        · rintro ⟨origin, horigin, rfl⟩
          exact ⟨origin, hfound origin horigin, rfl⟩
        · rintro ⟨f, hf, rfl⟩
          obtain ⟨origin, horigin, hsame⟩ := horigins f hf
          exact ⟨origin, horigin, hapart origin (hfound origin horigin) f hf hsame⟩
    have := hperm.map (o.groupRow (tenants.flatMap env.ownRows))
    rwa [map_map] at this
  · rw [forall₂_map_right_iff]
    refine (hrows.imp fun origin row ⟨hf, hrow⟩ => ?_).flip
    obtain ⟨⟨g, hg, hkey, hwritten⟩, hvalues⟩ := row_of_key hapart halike hf hrow
    refine ⟨⟨g, hg, hkey, fun keyColumn hcolumn => ?_⟩, fun name spec hspec => ?_⟩
    · exact hwritten keyColumn hcolumn (hnames (ne_nil_of_mem hf) keyColumn hcolumn)
    · rw [hvalues name spec hspec]
      exact exact_of_key hanswered hexact hf hspec

theorem sound_of_meets (hmeets : env.Meets o)
    (hkeys : ∀ tenants found, env.resolveTenants o = .ok tenants →
      env.collect o tenants = .ok found → env.KeysApart o found ∧ Environment.SumsExact o found) :
    env.Sound o := by
  intro tenants found hresolve hcollect hsafe
  obtain ⟨hapart, hexact⟩ := hkeys tenants found hresolve hcollect
  obtain ⟨merged, hmerged⟩ : ∃ merged,
      o.mergeInto (found.map (env.hand o)) .empty = .ok merged :=
    mergeInto_ok_iff.mpr (forall_mem_map.mpr hsafe)
  have hmerge := mergeRows_eq_ok.mpr ⟨merged, hmerged, rfl⟩
  obtain ⟨rows, hperm, hdenotes⟩ :=
    hmeets tenants found _ hresolve hcollect ((run_eq_ok hresolve hcollect).mpr hmerge)
  obtain ⟨-, origins, hnodup, horigins, hrows⟩ := returned_rows hmerge
  have hfound := ((forall₂_and_left origins _).mp hrows).1
  obtain ⟨queries, hqueries, hanswered⟩ := collect_queries hcollect
  have hlength : origins.length = (o.groupKeys (tenants.flatMap env.ownRows)).length := by
    rw [hrows.length_eq, hdenotes.length_eq, hperm.length_eq, Options.groupBy, length_map]
  have hsome : tenants ≠ [] ∨ o.keyColumns ≠ [] := by
    by_contra hnone
    obtain ⟨rfl, hcolumns⟩ := not_or.mp hnone |>.imp not_not.mp not_not.mp
    cases hcollect
    rw [Options.groupKeys, if_pos hcolumns,
      eq_nil_iff_forall_not_mem.mpr fun f hf => not_mem_nil (hfound f hf)] at hlength
    cases hlength
  have hsome' : queries ≠ [] ∨ o.keyColumns ≠ [] := hsome.imp_left fun ht hq => ht (hqueries hq)
  have hperm' : (o.groupKeys (tenants.flatMap env.ownRows)).Perm
      (origins.map fun origin => origin.row.key) := by
    refine List.Subperm.perm_of_length_le (subperm_of_subset (nodup_groupKeys _) ?_) ?_
    · intro key hkey
      obtain ⟨f, hf, rfl⟩ := (hanswered.mem_keys hsome').mpr hkey
      obtain ⟨origin, horigin, hsame⟩ := horigins f hf
      exact mem_map.mpr
        ⟨origin, horigin, hapart origin (hfound origin horigin) f hf hsame⟩
    · rw [length_map, hlength]
  have halike : env.KeysAlike o found := by
    intro f hf g hg hkey
    obtain ⟨origin, horigin, hsame⟩ := horigins f hf
    obtain ⟨origin', horigin', hsame'⟩ := horigins g hg
    have horiginKey := hapart origin (hfound origin horigin) f hf hsame
    have horiginKey' := hapart origin' (hfound origin' horigin') g hg hsame'
    have hone : origin = origin' :=
      inj_on_of_nodup_map (hperm'.nodup_iff.mp (nodup_groupKeys _)) horigin horigin'
        (horiginKey.trans (hkey.trans horiginKey'.symm))
    rw [← hsame, ← hsame', hone]
  refine ⟨hsome, fun hne keyColumn hcolumn => ?_, hapart, halike, hexact⟩
  -- an aggregate of this name would stand where the key is expected
  obtain ⟨f, hf⟩ := exists_mem_of_ne_nil found hne
  obtain ⟨origin, horigin, -⟩ := horigins f hf
  obtain ⟨row, hrow, -, hsummary⟩ := exists_of_forall₂ hrows horigin
  obtain ⟨-, -, ⟨g, -, -, hwritten⟩, -⟩ := exists_of_forall₂ hdenotes hrow
  obtain ⟨-, hvalues⟩ := row_of_key hapart halike (hfound origin horigin) hsummary
  by_contra hspec
  obtain ⟨spec, hspec⟩ := Option.ne_none_iff_exists'.mp hspec
  have hkey := hwritten keyColumn hcolumn
  rw [hvalues keyColumn spec hspec,
    exact_of_key hanswered hexact (hfound origin horigin) hspec] at hkey
  exact exactValue_ne_key hkey

end

/-- **An aggregate does not depend on where the tenants are**: what a run returns without an error
    is, up to order, one `GROUP BY` over the rows of all tenants in exact integers, if there is a
    tenant or a key column, no aggregate is named like a key column, the drivers agree on how a key
    is written, and no integer is too large. Where no two keys are written alike and no integer is
    too large, only then. -/
theorem cross_tenant_aggregate {τ σ κ : Type} [DecidableEq σ] [DecidableEq κ]
    (env : Environment τ σ κ) (o : Options τ) :
    (env.Sound o → env.Meets o) ∧
    ((∀ tenants found, env.resolveTenants o = .ok tenants → env.collect o tenants = .ok found →
      env.KeysApart o found ∧ Environment.SumsExact o found) → (env.Meets o ↔ env.Sound o)) :=
  ⟨meets_of_sound, fun hkeys => ⟨fun h => sound_of_meets h hkeys, meets_of_sound⟩⟩

/-- Two tenants on two servers, whose sums are safe integers. -/
def twoServers : Environment Bool Bool Unit where
  listTenants := some [false, true]
  serverKey := id
  database _ := none
  supportsCrossDatabaseReferences _ := false
  subquery _ _ tenant := [⟨fun _ => (), fun _ => some (if tenant then 2 else Double.maxSafe)⟩]
  order _ rows := rows
  order_perm _ _ := .refl _
  keyValue _ _ _ := .null
  asText _ _ _ := true

def total : Options Bool where
  identifier := "projectTenant"
  aggregates := [("total", .column .sum "amount")]
  names_nodup := by decide

/-- Their sum is not safe, and comes back rounded. -/
theorem cross_tenant_sum_rounded :
    (∃ out, twoServers.run total = .ok out ∧
      out.map (· "total") = [.number (.finite 9007199254740992)]) ∧ ¬twoServers.Meets total := by
  refine ⟨⟨_, rfl, rfl⟩, fun h => ?_⟩
  obtain ⟨rows, hperm, hrows⟩ := h [false, true] _ _ rfl rfl rfl
  obtain rfl := perm_singleton.mp hperm
  obtain ⟨⟨-, hvalues⟩, -⟩ := forall₂_cons.mp hrows
  have htotal : RawValue.number (.finite 9007199254740992) = .number (.finite 9007199254740993) :=
    hvalues "total" _ rfl
  exact absurd (RawValue.number.inj htotal) (by decide)

end Velocious.TenantAggregator
