/-
  The has-many preloader through another relationship.

  * `throughIds_spec`: the ids of the through records of every parent.
  * `mapTargets_spec` and `foldlM_mapTargets`: the targets of the ids, one through record after the
    other.
-/
import Velocious.Database.Query.PreloadHasManyCollections

namespace Velocious.HasMany

open Foundation List

variable {κ α β : Type}

section Through

variable [DecidableEq κ] {d : Driver κ} {r : Relationship κ} {content : Content κ}
  {parents : List (Record κ)} {t : Through}

def OfParents (r : Relationship κ) (t : Through) (parents : List (Record κ)) (through : Record κ) :
    Prop :=
  ∃ parent ∈ parents, ∃ k, readColumn parent r.primaryKey = some k ∧
    readColumn through t.foreignKey = some k

/-- No through record of the parents has the name of a property that every object has. -/
def NoInheritedThrough (d : Driver κ) (r : Relationship κ) (t : Through) (content : Content κ)
    (parents : List (Record κ)) : Prop :=
  ∀ through ∈ content.through, OfParents r t parents through →
    textOf d through t.modelPrimaryKey ∉ inheritedNames

def idsOf (t : Through) (content : Content κ) (k : κ) : List (Option κ) :=
  (withValue t.foreignKey (some k) content.through).map fun through =>
    readColumn through t.modelPrimaryKey

theorem rowsOf_nil {column : String} {k : κ} {rows : List (Record κ)} :
    rowsOf [] column k rows = withValue column (some k) rows := by
  simp [rowsOf, withValue]

/-- The database compares the keys of a relationship through another one exactly. -/
structure ThroughTells (c : Collation κ) (r : Relationship κ) (t : Through) (content : Content κ)
    (parents : List (Record κ)) : Prop where
  parent : ∀ parent ∈ parents, ∀ through ∈ content.through,
    c.Tells (readColumn through t.foreignKey) (readColumn parent r.primaryKey)
  target : ∀ through ∈ content.through, ∀ record ∈ content.target,
    c.Tells (readColumn record t.targetForeignKey) (readColumn through t.modelPrimaryKey)

theorem throughIds_spec (content : Content κ) (hkeys : NoInherited d r parents)
    (hnames : NoOperators d.keys (primaryKeyValues r parents))
    (htells : ThroughTells d.collation r t content parents) :
    ∃ ids all, throughIds d r content parents t = some (ids, all) ∧ all.Nodup ∧
      (∀ id ∈ all, ∃ through ∈ content.through, OfParents r t parents through ∧
        readColumn through t.modelPrimaryKey = id) ∧
      (∀ entry ∈ ids.table.rows, ∃ parent ∈ parents, entry.1 = textOf d parent r.primaryKey) ∧
      ∀ parent ∈ parents,
        (readColumn parent r.primaryKey = none →
          (ids.get? (textOf d parent r.primaryKey)).getD [] = []) ∧
        ∀ k, readColumn parent r.primaryKey = some k →
          (ids.get? (textOf d parent r.primaryKey)).getD [] = idsOf t content k ∧
          ∀ id ∈ idsOf t content k, id ∈ all := by
  have hplain : Plain ([] : List (Clause (Record κ))) := fun c hc => by cases hc
  obtain ⟨found, hload, hfound, hof⟩ := loadCohorts_spec t.foreignKey none content.through
    d.throughFits hplain (show (primaryKeyValues r parents).Nodup from nodup_distinct _) hnames
    fun through hthrough value hvalue => by
      obtain ⟨parent, hparent, rfl⟩ := mem_primaryKeyValues.1 hvalue
      exact htells.parent parent hparent through hthrough
  have hvalue (k : κ) (hk : some k ∈ primaryKeyValues r parents) :
      withValue t.foreignKey (some k) found = withValue t.foreignKey (some k) content.through := by
    rw [(hof k hk).2.2 rfl, rowsOf_nil]
  have hparent (through : Record κ) (hmem : through ∈ found) :
      through ∈ content.through ∧ OfParents r t parents through ∧
        ∃ parent ∈ parents, textOf d through t.foreignKey = textOf d parent r.primaryKey := by
    obtain ⟨k, hk, hthrough⟩ := hfound through hmem
    obtain ⟨parent, hparent, hpk⟩ := mem_primaryKeyValues.1 hk
    have hin : through ∈ withValue t.foreignKey (some k) found := by simp [withValue, hmem, hthrough]
    rw [hvalue k hk] at hin
    exact ⟨(mem_filter.1 hin).1, ⟨parent, hparent, k, hpk, hthrough⟩, parent, hparent,
      textOf_eq_iff.2 (hthrough.trans hpk.symm)⟩
  obtain ⟨ids, hids, hget, hsome⟩ := foldlM_pushInto
    (fun through => readColumn through t.modelPrimaryKey)
    (fun through (hmem : through ∈ found) => by
      obtain ⟨-, -, parent, hparent, htext⟩ := hparent through hmem
      exact fun hin => hkeys parent hparent (htext ▸ hin)) .empty
  refine ⟨ids, distinct (found.map fun through => readColumn through t.modelPrimaryKey),
    by simp [throughIds, hload, hids],
    nodup_distinct _, fun id hid => ?_, fun entry hentry => ?_, fun parent hmem => ?_⟩
  · rw [mem_distinct, mem_map] at hid
    obtain ⟨through, hmem, rfl⟩ := hid
    obtain ⟨hin, hof, -⟩ := hparent through hmem
    exact ⟨through, hin, hof, rfl⟩
  · rcases hsome entry.1 (by rw [EntryMap.get?_of_mem hentry]; rfl) with h | ⟨through, hmem, htext⟩
    · simp at h
    · obtain ⟨-, -, parent, hparent, htext'⟩ := hparent through hmem
      exact ⟨parent, hparent, htext.symm.trans htext'⟩
  · have hids : (ids.get? (textOf d parent r.primaryKey)).getD [] =
        (withValue t.foreignKey (readColumn parent r.primaryKey) found).map fun through =>
          readColumn through t.modelPrimaryKey := by
      rw [hget]
      simp [textOf_eq_iff, withValue]
    refine ⟨fun hnone => ?_, fun k hpk => ?_⟩
    · rw [hids, hnone, map_eq_nil_iff, withValue, filter_eq_nil_iff]
      intro through hthrough
      obtain ⟨k, -, hk⟩ := hfound through hthrough
      simp [hk]
    · rw [hids, hpk, hvalue k (mem_primaryKeyValues.2 ⟨parent, hmem, hpk⟩)]
      refine ⟨rfl, fun id hid => ?_⟩
      rw [idsOf, ← hvalue k (mem_primaryKeyValues.2 ⟨parent, hmem, hpk⟩)] at hid
      rw [mem_distinct]
      exact (filter_sublist.map _).subset hid

/-! ## Targets -/

theorem foldlM_pushSame {key : String} {base : List α} (values : List α) (collections : Arrays α)
    (hbase : collections.get? key = some base) :
    ∃ out, values.foldlM (fun collections value =>
        if (collections.get? key).isSome ∨ key ∈ inheritedNames then pushTo collections key value
        else some collections) collections = some out ∧
      ∀ k, out.get? k = if k = key then some (base ++ values) else collections.get? k := by
  induction values generalizing base collections with
  | nil =>
    refine ⟨collections, rfl, fun k => ?_⟩
    by_cases hk : k = key <;> simp [hk, hbase]
  | cons value values ih =>
    obtain ⟨out, hout, hget⟩ := ih (collections.set key (base ++ [value])) EntryMap.get?_set_self
    refine ⟨out, ?_, fun k => ?_⟩
    · rw [foldlM_cons, pushTo, hbase]
      exact hout
    · rw [hget, EntryMap.get?_set]
      by_cases hk : k = key <;> simp [hk]

/-- The targets of some ids, one id after the other. -/
def targetsAt (d : Driver κ) (targets : Arrays (Record κ)) (ids : List (Option κ)) :
    List (Record κ) :=
  ids.flatMap fun id => (targets.get? (d.keys.text id)).getD []

omit [DecidableEq κ] in
theorem mapTargets_spec (targets : Arrays (Record κ)) {entry : String × List (Option κ)}
    {base : List (Record κ)} (hids : ∀ id ∈ entry.2, d.keys.text id ∉ inheritedNames)
    (collections : Arrays (Record κ)) (hbase : collections.get? entry.1 = some base) :
    ∃ out, mapTargets d targets collections entry = some out ∧
      ∀ k, out.get? k =
        if k = entry.1 then some (base ++ targetsAt d targets entry.2) else collections.get? k := by
  obtain ⟨key, ids⟩ := entry
  simp only [mapTargets]
  induction ids generalizing base collections with
  | nil =>
    refine ⟨collections, rfl, fun k => ?_⟩
    by_cases hk : k = key <;> simp [hk, hbase, targetsAt]
  | cons id ids ih =>
    obtain ⟨mid, hmid, hmget⟩ := foldlM_pushSame ((targets.get? (d.keys.text id)).getD [])
      collections hbase
    obtain ⟨out, hout, hget⟩ := ih mid (fun id hid => hids id (mem_cons_of_mem _ hid))
      ((hmget key).trans (if_pos rfl))
    refine ⟨out, ?_, fun k => ?_⟩
    · rw [foldlM_cons, valuesAt, if_neg (hids id mem_cons_self)]
      simp only [Option.bind_eq_bind, Option.bind_some]
      rw [hmid]
      exact hout
    · rw [hget, hmget]
      by_cases hk : k = key <;> simp [hk, targetsAt]

omit [DecidableEq κ] in
theorem mapTargets_eq_none {targets : Arrays (Record κ)} {entry : String × List (Option κ)}
    {id : Option κ} (hid : id ∈ entry.2) (hname : d.keys.text id ∈ inheritedNames)
    (collections : Arrays (Record κ)) : mapTargets d targets collections entry = none :=
  foldlM_eq_none hid (fun collections => by rw [valuesAt, if_pos hname]; rfl) collections

omit [DecidableEq κ] in
theorem foldlM_mapTargets (targets : Arrays (Record κ)) (entries : List (String × List (Option κ)))
    (hnodup : (entries.map Prod.fst).Nodup)
    (hids : ∀ entry ∈ entries, ∀ id ∈ entry.2, d.keys.text id ∉ inheritedNames)
    (collections : Arrays (Record κ))
    (hsome : ∀ entry ∈ entries, (collections.get? entry.1).isSome) :
    ∃ out, entries.foldlM (mapTargets d targets) collections = some out ∧
      (∀ entry ∈ entries, out.get? entry.1 =
        (collections.get? entry.1).map (· ++ targetsAt d targets entry.2)) ∧
      ∀ k, k ∉ entries.map Prod.fst → out.get? k = collections.get? k := by
  induction entries generalizing collections with
  | nil => exact ⟨collections, rfl, by simp, by simp⟩
  | cons entry entries ih =>
    rw [map_cons, nodup_cons] at hnodup
    obtain ⟨base, hbase⟩ := Option.isSome_iff_exists.1 (hsome entry mem_cons_self)
    obtain ⟨mid, hmid, hmget⟩ := mapTargets_spec targets (hids entry mem_cons_self)
      collections hbase
    have hother {other : String × List (Option κ)} (hmem : other ∈ entries) :
        mid.get? other.1 = collections.get? other.1 := by
      rw [hmget, if_neg]
      intro heq
      exact hnodup.1 (heq ▸ mem_map_of_mem hmem)
    obtain ⟨out, hout, hget, hrest⟩ := ih hnodup.2
      (fun other hmem => hids other (mem_cons_of_mem _ hmem)) mid fun other hmem => by
        rw [hother hmem]
        exact hsome other (mem_cons_of_mem _ hmem)
    refine ⟨out, by rw [foldlM_cons, hmid]; exact hout, fun other hmem => ?_, fun k hk => ?_⟩
    · rcases mem_cons.1 hmem with rfl | hmem
      · rw [hrest _ hnodup.1, hmget, if_pos rfl, hbase]
        rfl
      · rw [hget other hmem, hother hmem]
    · rw [map_cons, mem_cons, not_or] at hk
      rw [hrest k hk.2, hmget, if_neg hk.1]

/-- The targets of a through record: those that the scope admits, with its id. -/
def targetsOf (r : Relationship κ) (t : Through) (content : Content κ) (id : Option κ) :
    List (Record κ) :=
  content.target.filter fun record =>
    (r.scope.wheres.all fun c => c.first record) && sqlEq (readColumn record t.targetForeignKey) id

theorem runThrough_spec (content : Content κ) (hplain : Plain r.scope.wheres)
    (hkeys : NoInherited d r parents)
    (hthrough : NoInheritedThrough d r t content parents)
    (hnames : NoOperators d.keys (primaryKeyValues r parents))
    (hids : NoOperators d.keys (content.through.map fun through =>
      readColumn through t.modelPrimaryKey))
    (htells : ThroughTells d.collation r t content parents) :
    ∃ assigned collectionOf, runThrough d r content parents t = some assigned ∧
      Assigns assigned parents collectionOf ∧ ∀ parent ∈ parents,
        (readColumn parent r.primaryKey = none → collectionOf parent = []) ∧
        ∀ k, readColumn parent r.primaryKey = some k → ∃ found : Option κ → List (Record κ),
          collectionOf parent = (idsOf t content k).flatMap found ∧
          ∀ id ∈ idsOf t content k, (found id).Perm (targetsOf r t content id) ∧
            Sorted r.scope.order (found id) := by
  obtain ⟨models, collections, hindex, hmodels, hcollections⟩ := indexModels_spec hkeys
  obtain ⟨ids, all, hthroughIds, hnodup, hall, hentries, hparents⟩ :=
    throughIds_spec (t := t) content hkeys hnames htells
  obtain ⟨found, hload, hfound, hof⟩ := loadCohorts_spec t.targetForeignKey r.scope.order
    content.target d.targetFits hplain hnodup
    (fun id hid => by
      obtain ⟨through, hmem, -, rfl⟩ := hall id hid
      exact hids _ (mem_map_of_mem hmem))
    fun record hrecord id hid => by
      obtain ⟨through, hmem, -, rfl⟩ := hall id hid
      exact htells.target through hmem record hrecord
  have hinherited (id : Option κ) (hid : id ∈ all) : d.keys.text id ∉ inheritedNames := by
    obtain ⟨through, hmem, hofParents, rfl⟩ := hall id hid
    exact hthrough through hmem hofParents
  obtain ⟨targets, htargets, htget, -⟩ := foldlM_pushInto (fun record => record)
    (fun record (hmem : record ∈ found) => by
      obtain ⟨k, hk, hrecord⟩ := hfound record hmem
      show textOf d record t.targetForeignKey ∉ inheritedNames
      rw [textOf, hrecord]
      exact hinherited _ hk) .empty
  have hwith (id : Option κ) :
      (targets.get? (d.keys.text id)).getD [] = withValue t.targetForeignKey id found := by
    rw [htget]
    simp [textOf, withValue, d.keys.text_injective.eq_iff]
  have hempty (parent : Record κ) (hmem : parent ∈ parents) :
      collections.get? (textOf d parent r.primaryKey) = some [] := by
    rw [hcollections, if_pos ⟨parent, hmem, rfl⟩]
  obtain ⟨out, hout, hget, hrest⟩ := foldlM_mapTargets targets ids.table.rows
    ids.nodup_keys (fun entry hentry id hid => by
      obtain ⟨parent, hmem, hkey⟩ := hentries entry hentry
      have hentryIds : (ids.get? (textOf d parent r.primaryKey)).getD [] = entry.2 := by
        rw [← hkey, EntryMap.get?_of_mem hentry]
        rfl
      cases hpk : readColumn parent r.primaryKey with
      | none =>
        rw [← hentryIds, (hparents parent hmem).1 hpk] at hid
        cases hid
      | some k =>
        rw [← hentryIds, ((hparents parent hmem).2 k hpk).1] at hid
        exact hinherited id (((hparents parent hmem).2 k hpk).2 id hid)) collections
    fun entry hentry => by
      obtain ⟨parent, hmem, hkey⟩ := hentries entry hentry
      rw [hkey, hempty parent hmem]
      rfl
  let collectionOf (parent : Record κ) : List (Record κ) :=
    targetsAt d targets ((ids.get? (textOf d parent r.primaryKey)).getD [])
  refine ⟨setLoaded models out, collectionOf, ?_, assigns_setLoaded hmodels fun parent hmem => ?_,
    fun parent hmem => ⟨fun hpk => ?_, fun k hpk => ?_⟩⟩
  · simp [runThrough, hindex, hthroughIds, targetsByForeignKey, hload, htargets, hout]
  · cases hids : ids.get? (textOf d parent r.primaryKey) with
    | none =>
      rw [hrest _ fun hin => ?_, hempty parent hmem]
      · simp [collectionOf, hids, targetsAt]
      · obtain ⟨values, hvalues⟩ := EntryMap.mem_keys.1 hin
        exact absurd (hids.symm.trans hvalues) (by simp)
    | some values =>
      have := hget _ (EntryMap.mem_of_get? hids)
      rw [this, hempty parent hmem]
      simp [collectionOf, hids]
  · simp only [collectionOf, (hparents parent hmem).1 hpk]
    rfl
  · obtain ⟨hidsOf, hmemAll⟩ := (hparents parent hmem).2 k hpk
    refine ⟨fun id => withValue t.targetForeignKey id found, ?_, fun id hid => ?_⟩
    · simp [collectionOf, hidsOf, targetsAt, hwith]
    · dsimp only
      cases id with
      | none =>
        have hnil : withValue t.targetForeignKey none found = [] := by
          rw [withValue, filter_eq_nil_iff]
          intro record hrecord
          obtain ⟨k, -, hk⟩ := hfound record hrecord
          simp [hk]
        rw [hnil]
        exact ⟨by simp [targetsOf], fun o ho => .nil⟩
      | some i =>
        obtain ⟨hperm, hsorted, -⟩ := hof i (hmemAll _ hid)
        exact ⟨by simpa [rowsOf, targetsOf] using hperm, hsorted⟩

theorem runThrough_eq_none (hkeys : NoInherited d r parents)
    (hnames : NoOperators d.keys (primaryKeyValues r parents))
    (htells : ThroughTells d.collation r t content parents)
    (h : ¬ NoInheritedThrough d r t content parents) : runThrough d r content parents t = none := by
  simp only [NoInheritedThrough, not_forall, not_not] at h
  obtain ⟨through, hmem, ⟨parent, hparent, k, hpk, hthrough⟩, hname⟩ := h
  obtain ⟨models, collections, hindex, -, -⟩ := indexModels_spec hkeys
  obtain ⟨ids, all, hthroughIds, -, -, -, hparents⟩ :=
    throughIds_spec (t := t) content hkeys hnames htells
  have hids := ((hparents parent hparent).2 k hpk).1
  have hid : readColumn through t.modelPrimaryKey ∈ idsOf t content k := by
    exact mem_map_of_mem (mem_filter.2 ⟨hmem, by simp [hthrough]⟩)
  cases hget : ids.get? (textOf d parent r.primaryKey) with
  | none =>
    rw [hget] at hids
    rw [← hids] at hid
    cases hid
  | some values =>
    rw [hget] at hids
    rw [← hids] at hid
    simp only [runThrough, hindex, hthroughIds, Option.bind_eq_bind, Option.bind_some]
    cases targetsByForeignKey d r content t all with
    | none => rfl
    | some targets =>
      rw [Option.bind_some, foldlM_eq_none (EntryMap.mem_of_get? hget)
        fun collections => mapTargets_eq_none hid hname collections]
      rfl

end Through

end Velocious.HasMany
