/-
  The collections of the has-many preloader.

  * `foldlM_pushInto` and `foldlM_pushTo`: what an object has after its arrays were pushed to.
  * `runDirect_spec`: the collection of every parent of a direct relationship.
-/
import Velocious.Database.Query.PreloadHasMany

namespace Velocious.HasMany

open Foundation List

variable {κ α β : Type}

def Sorted (order : Option (Order α)) (rows : List α) : Prop :=
  ∀ o, order = some o → rows.Pairwise fun a b => o.le a b = true

/-- The same rows, in the same order when the order tells them apart. -/
def SameList (order : Option (Order α)) (xs ys : List α) : Prop :=
  xs.Perm ys ∧ Sorted order xs ∧ Sorted order ys

theorem orderBy_perm (order : Option (Order α)) (rows : List α) :
    (orderBy order rows).Perm rows := by
  cases order with
  | none => exact .refl _
  | some o => exact perm_insertionSort _ rows

theorem sorted_orderBy (order : Option (Order α)) (rows : List α) :
    Sorted order (orderBy order rows) := by
  rintro o rfl
  have : Std.Total fun a b => o.le a b = true := ⟨o.le_total⟩
  have : IsTrans α fun a b => o.le a b = true := ⟨o.le_trans⟩
  exact pairwise_insertionSort (fun a b => o.le a b = true) rows

theorem Sorted.filter {order : Option (Order α)} {rows : List α} (h : Sorted order rows)
    (p : α → Bool) : Sorted order (rows.filter p) :=
  fun o ho => (h o ho).filter p

/-! ## Cohorts -/

theorem mapM_eq_some {f : α → Option β} {g : α → β} {xs : List α}
    (h : ∀ x ∈ xs, f x = some (g x)) : xs.mapM f = some (xs.map g) := by
  induction xs with
  | nil => rfl
  | cons x xs ih =>
    rw [mapM_cons, h x mem_cons_self, ih fun y hy => h y (mem_cons_of_mem _ hy)]
    rfl

section Cohorts

variable [DecidableEq κ] {d : Driver κ} {wheres : List (Clause (Record κ))}
  {values : List (Option κ)}

def NoOperators (keys : Keys κ) (values : List (Option κ)) : Prop :=
  ∀ value ∈ values, WhereModelClassHash.operator? (keys.text value) = none

/-- The rows of a table that some conditions ask for, of one value of a column. -/
def rowsOf (wheres : List (Clause (Record κ))) (column : String) (k : κ) (rows : List (Record κ)) :
    List (Record κ) :=
  rows.filter fun record => (wheres.all fun c => c.first record) && readColumn record column = some k

omit [DecidableEq κ] in
theorem isTuple_eq_false {cohort : List (Option κ)} (h : NoOperators d.keys cohort) :
    isTuple d.keys cohort = false := by
  unfold isTuple
  split
  · rw [h _ (by simp)]
    rfl
  · rfl

theorem any_sqlEq_iff {cohort : List (Option κ)} {value : Option κ} :
    cohort.any (sqlEq value) = true ↔ ∃ k, value = some k ∧ some k ∈ cohort := by
  simp only [any_eq_true]
  constructor
  · rintro ⟨other, hmem, heq⟩
    cases other with
    | none => simp at heq
    | some k => exact ⟨k, by simpa using heq, hmem⟩
  · rintro ⟨k, rfl, hmem⟩
    exact ⟨some k, hmem, by simp⟩

theorem any_of_tells {c : Collation κ} {cohort : List (Option κ)} {value : Option κ}
    (h : ∀ other ∈ cohort, c.Tells value other) :
    cohort.any (c.eq value) = cohort.any (sqlEq value) := by
  rw [Bool.eq_iff_iff, any_eq_true, any_eq_true]
  exact exists_congr fun other => and_congr_right fun hmem => by rw [h other hmem]

def withValue (column : String) (value : Option κ) (records : List (Record κ)) : List (Record κ) :=
  records.filter fun record => readColumn record column = value

theorem loadCohorts_spec (column : String) (order : Option (Order (Record κ)))
    (rows : List (Record κ)) (fits : List (Option κ) → Bool) (hplain : Plain wheres)
    (hnodup : values.Nodup) (hnames : NoOperators d.keys values)
    (htells : ∀ record ∈ rows, ∀ value ∈ values,
      d.collation.Tells (readColumn record column) value) :
    ∃ found, loadCohorts d fits column wheres order rows values = some found ∧
      (∀ record ∈ found, ∃ k, some k ∈ values ∧ readColumn record column = some k) ∧
      ∀ k, some k ∈ values →
        (withValue column (some k) found).Perm (rowsOf wheres column k rows) ∧
          Sorted order (withValue column (some k) found) ∧
          (order = none → withValue column (some k) found = rowsOf wheres column k rows) := by
  let isIn (cohort : List (Option κ)) : Clause (Record κ) :=
    ⟨fun record => cohort.any (d.collation.eq (readColumn record column)), []⟩
  let answer (cohort : List (Option κ)) : List (Record κ) :=
    orderBy order (rows.filter (whereHolds (wheres ++ [isIn cohort])))
  let cohorts := chunkValues d.maxInClauseValues fits values
  have hflat : cohorts.flatten = values := flatten_chunkValues _ _ _
  have hsub {cohort : List (Option κ)} (hmem : cohort ∈ cohorts) {value : Option κ}
      (hv : value ∈ cohort) : value ∈ values := hflat ▸ mem_flatten_of_mem hmem hv
  have hwhere {cohort : List (Option κ)} (hcohort : cohort ∈ cohorts) {record : Record κ}
      (hrecord : record ∈ rows) : whereHolds (wheres ++ [isIn cohort]) record =
        ((wheres.all fun c => c.first record) &&
          cohort.any (sqlEq (readColumn record column))) := by
    have hany : cohort.any (d.collation.eq (readColumn record column)) =
        cohort.any (sqlEq (readColumn record column)) :=
      any_of_tells fun value hvalue => htells record hrecord value (hsub hcohort hvalue)
    rw [whereHolds_of_plain (by
      intro c hmem
      rcases mem_append.1 hmem with hmem | hmem
      · exact hplain c hmem
      · rw [mem_singleton.1 hmem]), ← hany]
    simp [isIn]
  have hmap : cohorts.mapM (cohortRows d column wheres order rows) = some (cohorts.map answer) := by
    refine mapM_eq_some fun cohort hmem => ?_
    exact if_neg (by simp [isTuple_eq_false (d := d) fun value hv => hnames value (hsub hmem hv)])
  have hanswer {cohort : List (Option κ)} (hcohort : cohort ∈ cohorts) {record : Record κ}
      (hr : record ∈ answer cohort) : ∃ k, readColumn record column = some k ∧ some k ∈ cohort := by
    obtain ⟨hrecord, hholds⟩ := mem_filter.1 ((orderBy_perm _ _).mem_iff.1 hr)
    rw [hwhere hcohort hrecord, Bool.and_eq_true] at hholds
    exact any_sqlEq_iff.1 hholds.2
  refine ⟨cohorts.flatMap answer, ?_, ?_, ?_⟩
  · simp only [loadCohorts]
    rw [show (chunkValues d.maxInClauseValues fits values).mapM _ = _ from hmap]
    simp [List.flatMap]
  · intro record hmem
    obtain ⟨cohort, hcohort, hr⟩ := mem_flatMap.1 hmem
    obtain ⟨k, hk, hin⟩ := hanswer hcohort hr
    exact ⟨k, hsub hcohort hin, hk⟩
  · intro k hk
    obtain ⟨cohort, hcohort, hin⟩ := mem_flatten.1 (hflat ▸ hk)
    have hof : withValue column (some k) (cohorts.flatMap answer) =
        withValue column (some k) (answer cohort) :=
      filter_flatMap_chunk (hflat ▸ hnodup) hcohort hin fun other hother hnot record hr => by
        obtain ⟨k', hk', hin'⟩ := hanswer hother hr
        simp only [decide_eq_false_iff_not]
        rintro heq
        exact hnot ((hk'.symm.trans heq) ▸ hin')
    have hrows : (rows.filter (whereHolds (wheres ++ [isIn cohort]))).filter
        (fun record => readColumn record column = some k) = rowsOf wheres column k rows := by
      rw [filter_filter]
      refine filter_congr fun record hrecord => ?_
      rw [hwhere hcohort hrecord]
      by_cases hrec : readColumn record column = some k
      · have hany : cohort.any (sqlEq (some k)) = true := any_sqlEq_iff.2 ⟨k, rfl, hin⟩
        simp [hrec, hany]
      · simp [hrec]
    refine ⟨?_, ?_, ?_⟩
    · rw [hof, ← hrows]
      exact (orderBy_perm _ _).filter _
    · rw [hof]
      exact (sorted_orderBy _ _).filter _
    · rintro rfl
      rw [hof, ← hrows]
      rfl

end Cohorts

section Arrays

variable {key : β → String} {xs : List β}

theorem foldlM_pushInto (value : β → α) (hkeys : ∀ x ∈ xs, key x ∉ inheritedNames)
    (arrays : Arrays α) :
    ∃ out, xs.foldlM (fun arrays x => pushInto arrays (key x) (value x)) arrays = some out ∧
      (∀ k, (out.get? k).getD [] =
        (arrays.get? k).getD [] ++ (xs.filter fun x => key x = k).map value) ∧
      ∀ k, (out.get? k).isSome → (arrays.get? k).isSome ∨ ∃ x ∈ xs, key x = k := by
  induction xs generalizing arrays with
  | nil => exact ⟨arrays, rfl, by simp, fun k hk => .inl hk⟩
  | cons x xs ih =>
    obtain ⟨out, hout, hget, hsome⟩ := ih (fun y hy => hkeys y (mem_cons_of_mem _ hy))
      (arrays.set (key x) ((arrays.get? (key x)).getD [] ++ [value x]))
    refine ⟨out, ?_, fun k => ?_, fun k hk => ?_⟩
    · rw [foldlM_cons, pushInto, if_neg (hkeys x mem_cons_self)]
      exact hout
    · rw [hget, EntryMap.get?_set]
      by_cases hk : key x = k
      · subst hk
        simp
      · simp [hk, Ne.symm hk]
    · have := hsome k hk
      rw [EntryMap.get?_set] at this
      by_cases hx : k = key x
      · exact .inr ⟨x, mem_cons_self, hx.symm⟩
      · rw [if_neg hx] at this
        exact this.imp id exists_mem_cons_of_exists

theorem foldlM_eq_none {σ : Type} {f : σ → β → Option σ} {x : β} (hx : x ∈ xs)
    (hthrows : ∀ s, f s x = none) (s : σ) : xs.foldlM f s = none := by
  induction xs generalizing s with
  | nil => cases hx
  | cons y xs ih =>
    rw [foldlM_cons]
    rcases mem_cons.1 hx with rfl | hx
    · rw [hthrows]
      rfl
    · cases f s y with
      | none => rfl
      | some s' => exact ih hx s'

theorem foldlM_pushTo (key : α → String) {xs : List α} (arrays : Arrays α)
    (h : ∀ x ∈ xs, (arrays.get? (key x)).isSome) :
    ∃ out, xs.foldlM (fun arrays x => pushTo arrays (key x) x) arrays = some out ∧
      ∀ k, out.get? k = (arrays.get? k).map (· ++ xs.filter fun x => key x = k) := by
  induction xs generalizing arrays with
  | nil => exact ⟨arrays, rfl, by simp⟩
  | cons x xs ih =>
    obtain ⟨values, hvalues⟩ := Option.isSome_iff_exists.1 (h x mem_cons_self)
    obtain ⟨out, hout, hget⟩ := ih (arrays.set (key x) (values ++ [x])) fun y hy => by
      rw [EntryMap.get?_set]
      split
      · rfl
      · exact h y (mem_cons_of_mem _ hy)
    refine ⟨out, ?_, fun k => ?_⟩
    · rw [foldlM_cons, pushTo, hvalues]
      exact hout
    · rw [hget, EntryMap.get?_set]
      by_cases hk : key x = k
      · subst hk
        simp [hvalues]
      · simp [hk, Ne.symm hk]

theorem mem_setLoaded {models collections : Arrays (Record κ)} {model : Record κ}
    {collection : List (Record κ)} :
    (model, collection) ∈ setLoaded models collections ↔
      ∃ k, collections.get? k = some collection ∧ model ∈ (models.get? k).getD [] := by
  simp only [setLoaded, mem_flatMap, mem_map, Prod.mk.injEq, Prod.exists]
  constructor
  · rintro ⟨k, values, hmem, model', hmodel, rfl, rfl⟩
    exact ⟨k, EntryMap.get?_of_mem hmem, hmodel⟩
  · rintro ⟨k, hget, hmodel⟩
    exact ⟨k, collection, EntryMap.mem_of_get? hget, model, hmodel, rfl, rfl⟩

end Arrays

section Parents

variable [DecidableEq κ] {d : Driver κ} {r : Relationship κ} {content : Content κ}
  {parents : List (Record κ)}

/-- No id of the parents is the name of a property that every object has. -/
def NoInherited (d : Driver κ) (r : Relationship κ) (parents : List (Record κ)) : Prop :=
  ∀ parent ∈ parents, textOf d parent r.primaryKey ∉ inheritedNames

omit [DecidableEq κ] in
theorem get?_foldl_collections (parents : List (Record κ)) (start : Arrays (Record κ)) (k : String) :
    (parents.foldl (fun collections parent =>
      collections.set (textOf d parent r.primaryKey) []) start).get? k =
        if ∃ parent ∈ parents, textOf d parent r.primaryKey = k then some []
        else start.get? k := by
  induction parents generalizing start with
  | nil => simp
  | cons parent parents ih =>
    rw [foldl_cons, ih, EntryMap.get?_set]
    by_cases hk : k = textOf d parent r.primaryKey
    · simp [hk]
    · simp [hk, Ne.symm hk]

omit [DecidableEq κ] in
theorem indexModels_spec (h : NoInherited d r parents) :
    ∃ models collections, indexModels d r parents = some (models, collections) ∧
      (∀ k, (models.get? k).getD [] =
        parents.filter fun parent => textOf d parent r.primaryKey = k) ∧
      ∀ k, collections.get? k =
        if ∃ parent ∈ parents, textOf d parent r.primaryKey = k then some [] else none := by
  obtain ⟨models, hmodels, hget, -⟩ := foldlM_pushInto (fun parent => parent) h .empty
  refine ⟨models, _, by rw [indexModels, hmodels]; rfl, fun k => by simpa using hget k, fun k => ?_⟩
  simpa using get?_foldl_collections parents .empty k

omit [DecidableEq κ] in
theorem indexModels_eq_none (h : ¬ NoInherited d r parents) : indexModels d r parents = none := by
  simp only [NoInherited, not_forall, not_not] at h
  obtain ⟨parent, hmem, hkey⟩ := h
  rw [indexModels, foldlM_eq_none hmem fun models => if_pos hkey]
  rfl

end Parents

/-! ## Collections -/

section Collections

variable [DecidableEq κ] {d : Driver κ} {r : Relationship κ} {content : Content κ}
  {parents : List (Record κ)}

def Assigns (assigned : List (Record κ × List (Record κ))) (parents : List (Record κ))
    (collectionOf : Record κ → List (Record κ)) : Prop :=
  ∀ parent collection, (parent, collection) ∈ assigned ↔
    parent ∈ parents ∧ collection = collectionOf parent

/-- After preloading, each parent has the list that its own query loads. -/
def Agrees (d : Driver κ) (r : Relationship κ) (content : Content κ) (parents : List (Record κ)) :
    Prop :=
  ∃ assigned collectionOf, run d r content parents = some assigned ∧
    Assigns assigned parents collectionOf ∧
    ∀ parent ∈ parents, ∃ rows, query d.collation r content parent = some rows ∧
      SameList r.scope.order (collectionOf parent) rows

omit [DecidableEq κ] in
theorem textOf_eq_iff {a b : Record κ} {column other : String} :
    textOf d a column = textOf d b other ↔ readColumn a column = readColumn b other :=
  d.keys.text_injective.eq_iff

theorem mem_primaryKeyValues {value : Option κ} :
    value ∈ primaryKeyValues r parents ↔
      ∃ parent ∈ parents, readColumn parent r.primaryKey = value := by
  simp [primaryKeyValues]

def directWheres (c : Collation κ) (r : Relationship κ) : List (Clause (Record κ)) :=
  ⟨typeIs c r.toAssociation, []⟩ :: r.scope.wheres

omit [DecidableEq κ] in
theorem assigns_setLoaded {models collections : Arrays (Record κ)}
    {collectionOf : Record κ → List (Record κ)}
    (hmodels : ∀ k, (models.get? k).getD [] =
      parents.filter fun parent => textOf d parent r.primaryKey = k)
    (hcollections : ∀ parent ∈ parents,
      collections.get? (textOf d parent r.primaryKey) = some (collectionOf parent)) :
    Assigns (setLoaded models collections) parents collectionOf := by
  intro parent collection
  rw [mem_setLoaded]
  constructor
  · rintro ⟨k, hget, hmem⟩
    rw [hmodels, mem_filter, decide_eq_true_eq] at hmem
    obtain ⟨hmem, rfl⟩ := hmem
    exact ⟨hmem, Option.some.inj (hget.symm.trans (hcollections parent hmem))⟩
  · rintro ⟨hmem, rfl⟩
    exact ⟨_, hcollections parent hmem, by simp [hmodels, hmem]⟩

theorem runDirect_spec (content : Content κ) (hplain : Plain r.scope.wheres)
    (hnames : NoOperators d.keys (primaryKeyValues r parents)) (hkeys : NoInherited d r parents)
    (htells : ∀ parent ∈ parents, ∀ record ∈ content.target,
      d.collation.Tells (readColumn record r.foreignKey) (readColumn parent r.primaryKey)) :
    ∃ assigned collectionOf, runDirect d r content parents = some assigned ∧
      Assigns assigned parents collectionOf ∧ ∀ parent ∈ parents,
        (readColumn parent r.primaryKey = none → collectionOf parent = []) ∧
        (∀ k, readColumn parent r.primaryKey = some k →
          (collectionOf parent).Perm (rowsOf (directWheres d.collation r) r.foreignKey k content.target)) ∧
        Sorted r.scope.order (collectionOf parent) := by
  obtain ⟨models, collections, hindex, hmodels, hcollections⟩ := indexModels_spec hkeys
  have hplain' : Plain (directWheres d.collation r) := by
    rintro c (- | ⟨-, hmem⟩)
    · rfl
    · exact hplain c hmem
  obtain ⟨found, hload, hfound, hof⟩ := loadCohorts_spec r.foreignKey r.scope.order content.target
    d.targetFits hplain' (show (primaryKeyValues r parents).Nodup from nodup_distinct _) hnames
    fun record hrecord value hvalue => by
      obtain ⟨parent, hparent, rfl⟩ := mem_primaryKeyValues.1 hvalue
      exact htells parent hparent record hrecord
  have hempty (parent : Record κ) (hmem : parent ∈ parents) :
      collections.get? (textOf d parent r.primaryKey) = some [] := by
    rw [hcollections, if_pos ⟨parent, hmem, rfl⟩]
  obtain ⟨out, hout, hget⟩ := foldlM_pushTo (fun record => textOf d record r.foreignKey) collections
    fun record (hmem : record ∈ found) => by
      obtain ⟨k, hk, hrecord⟩ := hfound record hmem
      obtain ⟨parent, hparent, hpk⟩ := mem_primaryKeyValues.1 hk
      rw [textOf_eq_iff.2 (hrecord.trans hpk.symm), hempty parent hparent]
      rfl
  refine ⟨setLoaded models out, fun parent =>
    withValue r.foreignKey (readColumn parent r.primaryKey) found, ?_,
    assigns_setLoaded hmodels fun parent hmem => ?_, fun parent hmem => ?_⟩
  · rw [directWheres] at hload
    simp [runDirect, hindex, hload, hout]
  · rw [hget, hempty parent hmem]
    simp [textOf_eq_iff, withValue]
  · dsimp only
    cases hpk : readColumn parent r.primaryKey with
    | none =>
      have hnil : withValue r.foreignKey none found = [] := by
        rw [withValue, filter_eq_nil_iff]
        intro record hrecord
        obtain ⟨k, -, hk⟩ := hfound record hrecord
        simp [hk]
      refine ⟨fun _ => hnil, fun k hk => (by cases hk), fun o ho => ?_⟩
      rw [hnil]
      exact .nil
    | some k =>
      obtain ⟨hperm, hsorted, -⟩ := hof k (mem_primaryKeyValues.2 ⟨parent, hmem, hpk⟩)
      exact ⟨fun h => (by cases h), fun k' hk' => (by cases hk'; exact hperm), hsorted⟩

end Collections

end Velocious.HasMany
