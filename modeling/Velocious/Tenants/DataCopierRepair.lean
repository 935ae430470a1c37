/-
  Verifying and repairing the copy of a tenant.

  The rows of the tenant are streamed from the source in batches; each batch is looked up in the
  target, and what is missing there is reported or inserted.

  * `streamTables_loads`: the batches hold the rows that `loadRows` finds, each once, however they
    are cut and however the values of a scope are chunked.
-/
import Velocious.Tenants.DataCopierReached

namespace Velocious.DataCopier

open Foundation List

/-- Rows that are written together. -/
structure Batch where
  tableName : String
  rows : List Row

def Batch.tagged (batch : Batch) : List (String × Row) := batch.rows.map (batch.tableName, ·)

/-- A table that is streamed: the batches it has yielded, the one it fills, and `retainedIds`. -/
structure TableStream where
  batches : List Batch
  batch : List Row
  retainedIds : List String

namespace Copier
variable (c : Copier)

def parentTableNames : List String :=
  c.tablePlan.filterMap fun tableConfig => orNull tableConfig.parentTableName

def streamScope (retainedIds : String → Option (List String)) (keyValue : String)
    (tableConfig : TableConfig) : Except CopyError (String × List String) :=
  match orNull tableConfig.keyColumn with
  | some keyColumn => .ok (keyColumn, [keyValue])
  | none =>
    match orNull tableConfig.parentColumn, orNull tableConfig.parentTableName with
    | some parentColumn, some parentTableName =>
      match retainedIds parentTableName with
      | some ids => .ok (parentColumn, ids)
      | none => .error <| .plan (s!"Tenant table plan entry {tableConfig.tableName} references " ++
          s!"parent table {parentTableName}, which has not been streamed; parent tables must " ++
          "appear before their children in the plan.")
    | _, _ => .error <| .plan (s!"Expected keyColumn or parentTableName+parentColumn for table " ++
        s!"{tableConfig.tableName} in the tenant table plan.")

/-- A row of the cursor joins the batch, which is yielded when it is full. -/
def streamRow (batchSize : ℕ) (tableName : String) (stream : TableStream) (row : Row) :
    TableStream :=
  let batch := stream.batch ++ [row]
  let retainedIds :=
    if tableName ∈ c.parentTableNames then stream.retainedIds ++ [row.id] else stream.retainedIds
  if batchSize ≤ batch.length then ⟨stream.batches ++ [⟨tableName, batch⟩], [], retainedIds⟩
  else ⟨stream.batches, batch, retainedIds⟩

def streamTable (db : Database) (batchSize : ℕ) (tableName columnName : String)
    (values : List String) : TableStream :=
  let stream := (chunks (uniqueStrings values) c.queryChunkSize).foldl
    (fun stream scopeChunk =>
      ((db tableName).select fun row =>
        scopeChunk.any fun value => c.cell row columnName = some value).foldl
          (c.streamRow batchSize tableName) stream) ⟨[], [], []⟩
  if stream.batch.isEmpty then stream
  else { stream with batches := stream.batches ++ [⟨tableName, stream.batch⟩] }

def streamTables (db : Database) (keyValue : String) (batchSize : ℕ) :
    List TableConfig → (String → Option (List String)) → List Batch × Option CopyError
  | [], _ => ([], none)
  | tableConfig :: others, retainedIds =>
    match streamScope retainedIds keyValue tableConfig with
    | .error e => ([], some e)
    | .ok (columnName, values) =>
      let stream := c.streamTable db batchSize tableConfig.tableName columnName values
      let (batches, error) := streamTables db keyValue batchSize others <|
        Function.update retainedIds tableConfig.tableName (some stream.retainedIds)
      (stream.batches ++ batches, error)

def streamPlanSourceBatches (db : Database) (keyValue : String) (batchSize : ℕ) :
    List Batch × Option CopyError :=
  c.streamTables db keyValue batchSize c.tablePlan fun _ => none

/-! ## Verifying and repairing -/

def missingIds (target : Database) (batch : Batch) : List String :=
  let ids := batch.rows.map Row.id
  ids.filter fun id => id ∉ Move.queryExistingIds target batch.tableName ids

/-- The first table that lacks rows, and the ids its batch lacks; the loop breaks there, and an
    error that would end the stream later is not thrown. -/
def findMissingRowIds (source target : Database) (keyValue : String) (batchSize : ℕ) :
    Except CopyError (Option (String × List String)) :=
  let (batches, error) := c.streamPlanSourceBatches source keyValue batchSize
  match batches.find? fun batch => !(missingIds target batch).isEmpty, error with
  | some batch, _ => .ok (some (batch.tableName, missingIds target batch))
  | none, some e => .error e
  | none, none => .ok none

/-- The target after the missing rows of a batch are inserted, and `copiedCount`. -/
def copyBatch (state : Database × ℕ) (batch : Batch) : Option (Database × ℕ) :=
  let (db, copiedCount) := state
  let existingIds := Move.queryExistingIds db batch.tableName (batch.rows.map Row.id)
  let missingRows := batch.rows.filter fun row => row.id ∉ existingIds
  if missingRows.isEmpty then some state
  else
    (c.insertRows (Function.update (fun _ => none) batch.tableName (some missingRows)) db).map
      fun db' => (db', copiedCount + missingRows.length)

/-- The repaired target and the number of rows copied. -/
def copyMissingRows (source target : Database) (keyValue : String) (batchSize : ℕ) :
    Except CopyError (Database × ℕ) :=
  let (batches, error) := c.streamPlanSourceBatches source keyValue batchSize
  match batches.foldlM c.copyBatch (target, 0), error with
  | none, _ => .error .duplicateKey
  | some _, some e => .error e
  | some result, none => .ok result

/-- The rows of a traversal with their tables, in the order of the plan. -/
def planRows (rows : RowsByTableName) : List (String × Row) :=
  c.tablePlan.flatMap fun tableConfig =>
    (rowsOf rows tableConfig).map (tableConfig.tableName, ·)

def isMissing (db : Database) (found : String × Row) : Bool :=
  ((db found.1).find? found.2.id).isNone

/-- What verifying and repairing are for, where a traversal of the source finds `rows`. -/
structure Repairs (source target : Database) (keyValue : String) (batchSize : ℕ)
    (rows : RowsByTableName) : Prop where
  /-- the stream yields every row once -/
  streamed : ∃ batches, c.streamPlanSourceBatches source keyValue batchSize = (batches, none) ∧
    batches.flatMap Batch.tagged = c.planRows rows ∧ (c.planRows rows).Nodup
  /-- nothing is reported iff nothing is missing -/
  verified : c.findMissingRowIds source target keyValue batchSize = .ok none ↔
    ∀ tableConfig ∈ c.tablePlan, ∀ row ∈ rowsOf rows tableConfig,
      ∃ found ∈ target tableConfig.tableName, found.id = row.id
  /-- the missing rows are added after the rows of the target, and counted, and then nothing is
      reported -/
  repaired : ∃ db, c.copyMissingRows source target keyValue batchSize =
      .ok (db, ((c.planRows rows).filter (isMissing target)).length) ∧
    (∀ tableName, (db tableName).rows = (target tableName).rows ++
      ((c.planRows rows).filter fun found => found.1 = tableName && isMissing target found).map
        Prod.snd) ∧
    ∀ batchSize', c.findMissingRowIds source db keyValue batchSize' = .ok none

variable {c : Copier} {source target db : Database} {keyValue : String} {batchSize : ℕ}
  {rows : RowsByTableName} {tableName : String}

theorem uniqueStrings_uniqueStrings (values : List String) :
    uniqueStrings (uniqueStrings values) = uniqueStrings values := by
  have hblank : (uniqueStrings values).filter (fun value => trim value ≠ "") =
      uniqueStrings values :=
    filter_eq_self.mpr fun value h => by simpa using (mem_uniqueStrings.mp h).2
  unfold uniqueStrings at hblank ⊢
  rw [hblank, reverse_reverse, dedup_idem]

theorem foldl_streamRow (c : Copier) (batchSize : ℕ) (tableName : String) (rows : List Row)
    (stream : TableStream) :
    (rows.foldl (c.streamRow batchSize tableName) stream).batches.flatMap Batch.tagged ++
        (rows.foldl (c.streamRow batchSize tableName) stream).batch.map (tableName, ·) =
      stream.batches.flatMap Batch.tagged ++ stream.batch.map (tableName, ·) ++
        rows.map (tableName, ·) ∧
    (tableName ∈ c.parentTableNames →
      (rows.foldl (c.streamRow batchSize tableName) stream).retainedIds =
        stream.retainedIds ++ rows.map Row.id) := by
  induction rows generalizing stream with
  | nil => simp
  | cons row others ih =>
    obtain ⟨hbatches, hretained⟩ := ih (c.streamRow batchSize tableName stream row)
    refine ⟨hbatches.trans ?_, fun hparent => (hretained hparent).trans ?_⟩
    · unfold streamRow
      dsimp only
      split
      · simp [Batch.tagged]
      · simp
    · unfold streamRow
      dsimp only
      split
      · simp
      · simp

theorem streamTable_loads (columnName : String) (values : List String) :
    (c.streamTable db batchSize tableName columnName values).batches.flatMap Batch.tagged =
      (c.queryRowsByColumn db tableName columnName values).map (tableName, ·) ∧
    (tableName ∈ c.parentTableNames →
      (c.streamTable db batchSize tableName columnName values).retainedIds =
        (c.queryRowsByColumn db tableName columnName values).map Row.id) := by
  unfold streamTable
  rw [← foldl_flatMap]
  obtain ⟨hbatches, hretained⟩ := foldl_streamRow c batchSize tableName
    (c.queryRowsByColumn db tableName columnName values) ⟨[], [], []⟩
  simp only [queryRowsByColumn] at hbatches hretained ⊢
  split
  · next hempty =>
    rw [isEmpty_iff.mp hempty, map_nil, append_nil] at hbatches
    exact ⟨hbatches, hretained⟩
  · refine ⟨?_, hretained⟩
    rw [flatMap_append, flatMap_singleton]
    exact hbatches

theorem streamScope_loads {tableConfig : TableConfig} {columnName : String} {values : List String}
    {retainedIds : String → Option (List String)} (ht : tableConfig ∈ c.tablePlan)
    (hretained : ∀ tableName ∈ c.parentTableNames,
      retainedIds tableName = (rows tableName).map (List.map Row.id))
    (h : scope rows keyValue tableConfig = .ok (columnName, values)) :
    ∃ values', streamScope retainedIds keyValue tableConfig = .ok (columnName, values') ∧
      uniqueStrings values' = uniqueStrings values := by
  rcases scope_eq_ok.mp h with ⟨hkey, rfl⟩ |
    ⟨hkey, hcolumn, parentTableName, parentRows, hname, hrows, rfl⟩
  · exact ⟨_, by simp [streamScope, hkey], rfl⟩
  · have hids := hretained parentTableName (mem_filterMap.mpr ⟨tableConfig, ht, hname⟩)
    rw [hrows] at hids
    exact ⟨_, by simp [streamScope, hkey, hcolumn, hname, hids], (uniqueStrings_uniqueStrings _).symm⟩

theorem streamTables_loads {plan : List TableConfig} : ∀ {before after : RowsByTableName}
    {retainedIds : String → Option (List String)}, plan ⊆ c.tablePlan →
      (plan.map TableConfig.tableName).Nodup →
      (∀ tableConfig ∈ plan, before tableConfig.tableName = none) →
      (∀ tableName ∈ c.parentTableNames,
        retainedIds tableName = (before tableName).map (List.map Row.id)) →
      c.traversePlan db keyValue plan before = .ok after →
      ∃ batches, c.streamTables db keyValue batchSize plan retainedIds = (batches, none) ∧
        batches.flatMap Batch.tagged = plan.flatMap fun tableConfig =>
          (rowsOf after tableConfig).map (tableConfig.tableName, ·) := by
  induction plan with
  | nil => exact fun _ _ _ _ _ => ⟨[], rfl, rfl⟩
  | cons tableConfig others ih =>
    intro before after retainedIds hplan hnodup hnone hretained h
    obtain ⟨ht, hothers⟩ := cons_subset.mp hplan
    obtain ⟨hname, hnodup'⟩ := nodup_cons.mp hnodup
    have hnone' : ∀ loaded, ∀ other ∈ others,
        Function.update before tableConfig.tableName (some loaded) other.tableName = none := by
      intro loaded other hmem
      have hne : other.tableName ≠ tableConfig.tableName :=
        fun heq => hname (heq ▸ mem_map_of_mem hmem)
      rw [Function.update_of_ne hne]
      exact hnone other (mem_cons_of_mem _ hmem)
    rw [traversePlan] at h
    cases hscope : scope before keyValue tableConfig with
    | error e =>
      rw [hscope] at h
      cases h
    | ok found =>
      obtain ⟨columnName, values⟩ := found
      rw [hscope] at h
      obtain ⟨values', hstream, hvalues⟩ := streamScope_loads ht hretained hscope
      obtain ⟨htable, hids⟩ := @streamTable_loads c db batchSize tableConfig.tableName columnName
        values'
      have hsame : c.queryRowsByColumn db tableConfig.tableName columnName values' =
          c.queryRowsByColumn db tableConfig.tableName columnName values := by
        rw [queryRowsByColumn, hvalues, queryRowsByColumn]
      rw [hsame] at htable hids
      have hretained' : ∀ tableName ∈ c.parentTableNames,
          Function.update retainedIds tableConfig.tableName
            (some (c.streamTable db batchSize tableConfig.tableName columnName values').retainedIds)
            tableName =
          (Function.update before tableConfig.tableName
            (some (c.queryRowsByColumn db tableConfig.tableName columnName values))
            tableName).map (List.map Row.id) := by
        intro tableName hparent
        by_cases heq : tableName = tableConfig.tableName
        · subst heq
          simp [hids hparent]
        · simpa [heq] using hretained tableName hparent
      obtain ⟨batches, hbatches, hrest⟩ := ih hothers hnodup' (hnone' _) hretained' h
      have hloaded := (traversePlan_ok hnodup' (hnone' _) h).1 tableConfig.tableName _
        (Function.update_self ..)
      refine ⟨_, by rw [streamTables, hstream]; dsimp only; rw [hbatches], ?_⟩
      rw [flatMap_append, flatMap_cons, htable, hrest, rowsOf, hloaded]
      rfl

/-! ## The missing rows -/

theorem isMissing_iff {found : String × Row} :
    isMissing db found = true ↔ ∀ row ∈ db found.1, row.id ≠ found.2.id := by
  rw [isMissing, Option.isNone_iff_eq_none, Table.find?_eq_none]

theorem not_mem_queryExistingIds {row : Row} {rows : List Row} (h : row ∈ rows) :
    row.id ∉ Move.queryExistingIds db tableName (rows.map Row.id) ↔
      isMissing db (tableName, row) = true := by
  rw [isMissing_iff, Move.queryExistingIds]
  simp only [mem_map, Table.mem_select, contains_iff_mem, not_exists, not_and]
  refine ⟨fun hnone found hfound hid => hnone found ⟨hfound, row, h, hid.symm⟩ hid,
    fun hnone found hfound => hnone found hfound.1⟩

theorem findMissingRowIds_iff {batches : List Batch}
    (h : c.streamPlanSourceBatches source keyValue batchSize = (batches, none)) :
    c.findMissingRowIds source target keyValue batchSize = .ok none ↔
      ∀ found ∈ batches.flatMap Batch.tagged, isMissing target found = false := by
  have hbatch : ∀ batch : Batch, missingIds target batch = [] ↔
      ∀ found ∈ batch.tagged, isMissing target found = false := by
    intro batch
    simp only [missingIds, filter_eq_nil_iff, forall_mem_map, Batch.tagged,
      decide_eq_true_eq]
    exact forall₂_congr fun row hrow => by rw [not_mem_queryExistingIds hrow, Bool.not_eq_true]
  rw [findMissingRowIds, h]
  dsimp only
  cases hfind : batches.find? fun batch => !(missingIds target batch).isEmpty with
  | some batch =>
    refine ⟨nofun, fun hall => ?_⟩
    have hnone := (hbatch batch).mpr fun found hfound =>
      hall found (mem_flatMap.mpr ⟨batch, mem_of_find?_eq_some hfind, hfound⟩)
    have hsome := find?_some hfind
    rw [hnone] at hsome
    cases hsome
  | none =>
    refine ⟨fun _ found hfound => ?_, fun _ => rfl⟩
    obtain ⟨batch, hmem, hfound⟩ := mem_flatMap.mp hfound
    have hnone := find?_eq_none.mp hfind batch hmem
    exact (hbatch batch).mp (by simpa using hnone) found hfound

def lacking (db : Database) (found : List (String × Row)) (tableName : String) : List Row :=
  (found.filter fun found => found.1 = tableName && isMissing db found).map Prod.snd

theorem lacking_append (first others : List (String × Row)) :
    lacking db (first ++ others) tableName =
      lacking db first tableName ++ lacking db others tableName := by
  simp [lacking]

def keyOf (found : String × Row) : String × String := (found.1, found.2.id)

theorem copyBatch_ok {batch : Batch} (db : Database) (count : ℕ)
    (hplan : ∀ found ∈ batch.tagged, found.1 ∈ c.tablePlan.map TableConfig.tableName)
    (hnodup : (batch.tagged.map keyOf).Nodup) :
    ∃ db', c.copyBatch (db, count) batch =
        some (db', count + (batch.tagged.filter (isMissing db)).length) ∧
      ∀ tableName, (db' tableName).rows =
        (db tableName).rows ++ lacking db batch.tagged tableName := by
  have hids : (batch.rows.map Row.id).Nodup := by
    refine .of_map (batch.tableName, ·) ?_
    simpa [Batch.tagged, keyOf, Function.comp_def] using hnodup
  obtain ⟨missingRows, hmissing⟩ : ∃ missingRows, missingRows =
      batch.rows.filter fun row => isMissing db (batch.tableName, row) := ⟨_, rfl⟩
  have hread : (batch.rows.filter fun row =>
      row.id ∉ Move.queryExistingIds db batch.tableName (batch.rows.map Row.id)) = missingRows := by
    rw [hmissing]
    refine filter_congr fun row hrow => ?_
    rw [Bool.eq_iff_iff, decide_eq_true_iff]
    exact not_mem_queryExistingIds hrow
  have hlength : (batch.tagged.filter (isMissing db)).length = missingRows.length := by
    rw [Batch.tagged, filter_map, length_map, hmissing]
    rfl
  have hself : lacking db batch.tagged batch.tableName = missingRows := by
    simp [lacking, Batch.tagged, filter_map, Function.comp_def, hmissing]
  have hother : ∀ tableName ≠ batch.tableName, lacking db batch.tagged tableName = [] := by
    intro tableName hne
    simp [lacking, Batch.tagged, filter_map, hne.symm]
  rw [hlength, copyBatch, hread]
  split
  · next hempty =>
    have hnil := isEmpty_iff.mp hempty
    refine ⟨db, by rw [hnil]; rfl, fun tableName => ?_⟩
    by_cases hne : tableName = batch.tableName
    · rw [hne, hself, hnil, append_nil]
    · rw [hother tableName hne, append_nil]
  · next hsome =>
    have hrows : ∀ tableName, (Function.update (fun _ => none) batch.tableName
        (some missingRows) : RowsByTableName) tableName =
          if tableName = batch.tableName then some missingRows else none :=
      fun tableName => by simp [Function.update_apply]
    have hinsert := foldlM_insertInto c (Function.update (fun _ => none) batch.tableName
      (some missingRows)) db c.tables_nodup
    obtain ⟨db', hdb⟩ := hinsert.1.mpr fun tableConfig _ => by
      rw [rowsOf, hrows]
      split
      · next heq =>
        rw [Option.getD_some, map_append, nodup_append']
        refine ⟨(db tableConfig.tableName).keys_nodup, ?_, fun id hold hnew => ?_⟩
        · rw [hmissing]
          exact hids.sublist (filter_sublist.map _)
        · obtain ⟨old, hmem, rfl⟩ := mem_map.mp hold
          obtain ⟨row, hrow, hid⟩ := mem_map.mp hnew
          rw [hmissing, mem_filter, isMissing_iff, ← heq] at hrow
          exact hrow.2 old hmem hid.symm
      · simpa using (db tableConfig.tableName).keys_nodup
    obtain ⟨hplanned, hothers⟩ := hinsert.2 db' hdb
    refine ⟨db', by rw [insertRows, hdb]; rfl, fun tableName => ?_⟩
    by_cases hne : tableName = batch.tableName
    · obtain ⟨row, hrow⟩ := exists_mem_of_ne_nil _ fun hnil => hsome (isEmpty_iff.mpr hnil)
      rw [hmissing] at hrow
      obtain ⟨tableConfig, ht, hname⟩ := mem_map.mp <|
        hplan _ (mem_map_of_mem (mem_of_mem_filter hrow))
      have htable := hplanned tableConfig ht
      rw [rowsOf, hrows, if_pos hname, hname] at htable
      rw [hne, hself]
      exact htable
    · rw [hother tableName hne, append_nil]
      by_cases hmem : tableName ∈ c.tablePlan.map TableConfig.tableName
      · obtain ⟨tableConfig, ht, rfl⟩ := mem_map.mp hmem
        have htable := hplanned tableConfig ht
        rwa [rowsOf, hrows, if_neg hne, Option.getD_none, append_nil] at htable
      · rw [hothers tableName hmem]

theorem copyBatches_ok {batches : List Batch} (db : Database) (count : ℕ)
    (hplan : ∀ found ∈ batches.flatMap Batch.tagged,
      found.1 ∈ c.tablePlan.map TableConfig.tableName)
    (hnodup : ((batches.flatMap Batch.tagged).map keyOf).Nodup) :
    ∃ db', batches.foldlM c.copyBatch (db, count) =
        some (db', count + ((batches.flatMap Batch.tagged).filter (isMissing db)).length) ∧
      ∀ tableName, (db' tableName).rows =
        (db tableName).rows ++ lacking db (batches.flatMap Batch.tagged) tableName := by
  induction batches generalizing db count with
  | nil => exact ⟨db, rfl, fun _ => (append_nil _).symm⟩
  | cons batch others ih =>
    rw [flatMap_cons, map_append, nodup_append'] at hnodup
    obtain ⟨hbatch, hothers, hdisjoint⟩ := hnodup
    rw [flatMap_cons, forall_mem_append] at hplan
    obtain ⟨hname, hplan'⟩ := hplan
    obtain ⟨db₁, hcopy, hrows⟩ := copyBatch_ok db count hname hbatch
    have hsame : ∀ found ∈ others.flatMap Batch.tagged, isMissing db₁ found = isMissing db found := by
      intro found hfound
      rw [Bool.eq_iff_iff, isMissing_iff, isMissing_iff]
      simp only [Table.mem_def, hrows, mem_append]
      refine ⟨fun h row hrow => h row (.inl hrow), fun h row hrow => ?_⟩
      rcases hrow with hrow | hrow
      · exact h row hrow
      · obtain ⟨⟨name, row⟩, hnew, rfl⟩ := mem_map.mp hrow
        simp only [mem_filter, Bool.and_eq_true, decide_eq_true_eq] at hnew
        obtain ⟨hmem, rfl, -⟩ := hnew
        intro hid
        refine hdisjoint (mem_map_of_mem hmem) (mem_map.mpr ⟨found, hfound, ?_⟩)
        exact Prod.ext rfl hid.symm
    obtain ⟨db', hrest, hrows'⟩ :=
      ih db₁ (count + (batch.tagged.filter (isMissing db)).length) hplan' hothers
    refine ⟨db', ?_, fun tableName => ?_⟩
    · rw [foldlM_cons, hcopy, flatMap_cons, filter_append, length_append,
        ← Nat.add_assoc, ← filter_congr hsame]
      exact hrest
    · rw [hrows', hrows, flatMap_cons, lacking_append, append_assoc]
      congr 2
      unfold lacking
      rw [filter_congr fun found hfound => by rw [hsame found hfound]]

theorem nodup_planRows (h : c.loadRows source keyValue = .ok rows) :
    ((c.planRows rows).map keyOf).Nodup := by
  rw [planRows, map_flatMap, nodup_flatMap]
  refine ⟨fun tableConfig ht => ?_, ?_⟩
  · obtain ⟨_, _, -, hunique, hfound⟩ := rowsOf_traversed h ht
    rw [map_map]
    refine hunique.map_on fun row hrow other hother heq => ?_
    exact Table.eq_of_key ((hfound row).mp hrow).1 ((hfound other).mp hother).1
      (congrArg Prod.snd heq)
  · refine (pairwise_map.mp c.tables_nodup).imp fun hne key hkey hkey' => hne ?_
    simp only [map_map, mem_map] at hkey hkey'
    obtain ⟨_, -, rfl⟩ := hkey
    obtain ⟨_, -, heq⟩ := hkey'
    exact (congrArg Prod.fst heq).symm

/-- A project with three tasks, beside the task of another one. -/
def threeTasks : Database := fun tableName =>
  if tableName = "projects" then ⟨[⟨"1", fun _ => none⟩, ⟨"2", fun _ => none⟩], by decide⟩
  else if tableName = "tasks" then
    ⟨[⟨"7", fun _ => some "1"⟩, ⟨"8", fun _ => some "1"⟩, ⟨"9", fun _ => some "2"⟩,
      ⟨"10", fun _ => some "1"⟩], by decide⟩
  else .empty

/-- The same project, with one of the tasks. -/
def oneCopied : Database := fun tableName =>
  if tableName = "projects" then ⟨[⟨"1", fun _ => none⟩], List.nodup_singleton _⟩
  else if tableName = "tasks" then ⟨[⟨"8", fun _ => some "1"⟩], List.nodup_singleton _⟩
  else .empty

end Copier

end Velocious.DataCopier
