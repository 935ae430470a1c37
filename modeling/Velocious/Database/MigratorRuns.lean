/-
  Runs of the migrator: the ledger and the steps that were run.

  * `Exact`: the table of a database has the versions whose last completed step was up; every call
    keeps it.
  * `Effect` is what a call does to tables, memory and log, and composes.
  * `Fresh` is the condition on a call: for the migrations it looks at, the versions in memory agree
    with the table, and none is listed twice for a database. Under it a step is run only when the
    table asks for it (`Justified`), and nothing new runs nothing.
  * `migratedTwice`: the versions in memory are not written when a step is run.
-/
import Velocious.Database.Migrator

namespace Velocious.Migrator

open Foundation List

/-! ## What is asked of a run -/

/-- Whether a version is applied after these steps: the last completed one decides. -/
def replay (applied : Bool) (db version : String) : List StepEvent → Bool
  | [] => applied
  | event :: log =>
    replay (if event.database = db ∧ event.version = version ∧ event.completed then
      event.direction = .up else applied) db version log

def StepEvent.key (event : StepEvent) : String × String := (event.version, event.database)

def stepOrder (dbs : Connections) (files : List Migration) : List (String × String) :=
  files.flatMap fun migration => dbs.identifiers.map fun db => (migration.version, db)

namespace Call

def dbs : Call → Connections
  | .migrateFiles dbs _ _ | .rollback dbs _ _ => dbs

/-- The migrations a call looks at, in order. -/
def migrations (w : World) : Call → List Migration
  | .migrateFiles _ _ files => files
  | .rollback _ _ files => (w.rollbackMigration files).toOption.toList

def required : Call → Migration → Except String (Option MigrationClass)
  | .migrateFiles _ importCallback _ => World.requireMigration importCallback
  | .rollback _ importCallback _ => World.requireRollback importCallback

/-- A call would run a migration on a database. -/
def RunsOn (c : Configuration) (call : Call) (migration : Migration) (db : String) : Prop :=
  db ∈ call.dbs.identifiers ∧ ∃ cls, call.required migration = .ok (some cls) ∧ c.runsOn cls db

end Call

namespace World

/-- The tables are what the steps made of them. -/
def Exact (tables : String → Option (List String)) (w : World) : Prop :=
  ∀ db version, w.hasVersion db version =
    replay (((tables db).getD []).contains version) db version w.log

/-- An up step was run when its version was not in the table, a down step when it was. -/
def Justified (w : World) : Prop :=
  ∀ event ∈ w.log, event.present = decide (event.direction = .down)

/-- The versions in memory, where loaded, agree with the table. -/
def Agrees (w : World) (db version : String) : Prop :=
  ∀ versions, w.migrationsVersions.get? db = some versions →
    versions.contains version = w.hasVersion db version

/-- No step of a migration that the call looks at has completed since its versions were loaded, and
    the call lists no version twice for a database. -/
def Fresh (c : Configuration) (w : World) (call : Call) : Prop :=
  (call.migrations w).Pairwise (fun earlier later => earlier.version = later.version →
    ∀ db, call.RunsOn c earlier db → ¬call.RunsOn c later db) ∧
  ∀ migration ∈ call.migrations w, ∀ db, call.RunsOn c migration db →
    w.Agrees db migration.version

/-- A `migrateFiles` call lists only versions that are in the tables. -/
def NothingNew (c : Configuration) (w : World) (call : Call) : Prop :=
  (∃ dbs importCallback files, call = .migrateFiles dbs importCallback files) ∧
  ∀ migration ∈ call.migrations w, ∀ db, call.RunsOn c migration db →
    w.hasVersion db migration.version = true

/-! ## Loading -/

variable {c : Configuration} {w w' w'' : World} {tables : String → Option (List String)}
  {db version : String} {migration : Migration} {cls : MigrationClass} {direction : Direction}

/-- The versions of a database are in memory only when its table exists. -/
def Tabled (w : World) : Prop :=
  ∀ db, (w.migrationsVersions.get? db).isSome → (w.schemaMigrations db).isSome

/-- Versions are loaded: the tables keep their versions, and what is new in memory is a table. -/
structure Loads (w w' : World) : Prop where
  tabled : w.Tabled → w'.Tabled
  log : w'.log = w.log
  has : ∀ db version, w'.hasVersion db version = w.hasVersion db version
  loaded : ∀ db versions, w'.migrationsVersions.get? db = some versions →
    w.migrationsVersions.get? db = some versions ∨
      ∀ version, versions.contains version = w.hasVersion db version

theorem Loads.refl (w : World) : Loads w w where
  tabled := id
  log := rfl
  has _ _ := rfl
  loaded _ _ h := .inl h

theorem Loads.trans (h : Loads w w') (h' : Loads w' w'') : Loads w w'' where
  tabled := h'.tabled ∘ h.tabled
  log := h'.log.trans h.log
  has db version := (h'.has db version).trans (h.has db version)
  loaded db versions hget := by
    rcases h'.loaded db versions hget with hget | hall
    · exact h.loaded db versions hget
    · exact .inr fun version => (hall version).trans (h.has db version)

theorem Loads.foldl {f : World → String → World} (hf : ∀ w db, Loads w (f w db))
    (dbs : List String) : ∀ w, Loads w (dbs.foldl f w) := by
  induction dbs with
  | nil => exact Loads.refl
  | cons db dbs ih => exact fun w => (hf w db).trans (ih (f w db))

theorem hasVersion_setTable (db' version' : String) (versions : List String) :
    (w.setTable db versions).hasVersion db' version' =
      if db' = db then versions.contains version' else w.hasVersion db' version' := by
  unfold hasVersion setTable
  by_cases h : db' = db
  · subst h
    simp
  · simp [h]

theorem tabled_setTable (h : w.Tabled) (versions : List String) : (w.setTable db versions).Tabled := by
  intro db' hloaded
  show (Function.update w.schemaMigrations db (some versions) db').isSome = true
  by_cases heq : db' = db
  · subst heq
    simp
  · rw [Function.update_of_ne heq]
    exact h db' hloaded

theorem loads_create (c : Configuration) (w : World) (db : String) :
    Loads w (createMigrationsTableForDatabase c w db) := by
  unfold createMigrationsTableForDatabase
  split
  · split
    · exact .refl w
    · next hnone =>
      refine ⟨fun h => tabled_setTable h [], rfl, fun db' version => ?_, fun _ _ h => .inl h⟩
      rw [hasVersion_setTable]
      split
      · next heq =>
        rw [heq, hasVersion, hnone]
        rfl
      · rfl
  · exact .refl w

theorem loads_load (c : Configuration) (w : World) (db : String) :
    Loads w (loadMigrationsVersionsForDatabase c w db) := by
  unfold loadMigrationsVersionsForDatabase
  split
  · split
    · next versions hversions =>
      refine ⟨fun h db' hloaded => ?_, rfl, fun _ _ => rfl, fun db' versions' hget => ?_⟩
      · simp only [EntryMap.get?_set] at hloaded
        split at hloaded
        · next heq =>
          rw [heq]
          show (w.schemaMigrations db).isSome = true
          rw [hversions]
          rfl
        · exact h db' hloaded
      · simp only [EntryMap.get?_set] at hget
        split at hget
        · next heq =>
          cases hget
          refine .inr fun version => ?_
          rw [heq, hasVersion, hversions]
          rfl
        · exact .inl hget
    · refine ⟨fun h db' hloaded => ?_, rfl, fun _ _ => rfl, fun db' versions' hget => ?_⟩
      · simp only [EntryMap.get?_delete] at hloaded
        split at hloaded
        · cases hloaded
        · exact h db' hloaded
      · simp only [EntryMap.get?_delete] at hget
        split at hget
        · cases hget
        · exact .inl hget
  · exact .refl w

theorem loads_loadNeeded (c : Configuration) (w : World) (dbs : Connections) :
    Loads w (w.loadNeeded c dbs) :=
  Loads.foldl (fun w db => (loads_create c w db).trans (loads_load c _ db)) _ w

theorem Loads.exact (h : Loads w w') (hexact : w.Exact tables) : w'.Exact tables := by
  intro db version
  rw [h.has, h.log]
  exact hexact db version

theorem Loads.agrees (h : Loads w w') (hagrees : w.Agrees db version) : w'.Agrees db version := by
  intro versions hget
  rw [h.has]
  rcases h.loaded db versions hget with hget | hall
  · exact hagrees versions hget
  · exact hall version

/-! ## Running -/

theorem replay_append (applied : Bool) (log log' : List StepEvent) :
    replay applied db version (log ++ log') =
      replay (replay applied db version log) db version log' := by
  induction log generalizing applied with
  | nil => rfl
  | cons event log ih => exact ih _

theorem runStep_effect (w : World) (migration : Migration) (cls : MigrationClass)
    (direction : Direction) (htable : (w.schemaMigrations db).isSome = true) :
    ∃ completed, (w.runStep migration cls direction db).1.log = w.log ++
        [StepEvent.mk db migration.version direction (w.hasVersion db migration.version)
          completed] ∧
      (w.runStep migration cls direction db).1.migrationsVersions = w.migrationsVersions ∧
      (w.Tabled → (w.runStep migration cls direction db).1.Tabled) ∧
      ∀ db' version, (w.runStep migration cls direction db).1.hasVersion db' version =
        if db' = db ∧ version = migration.version ∧ completed then decide (direction = .up)
        else w.hasVersion db' version := by
  obtain ⟨versions, hversions⟩ := Option.isSome_iff_exists.mp htable
  have hhas : ∀ version, w.hasVersion db version = versions.contains version := by
    intro version
    rw [hasVersion, hversions]
    rfl
  unfold runStep
  cases cls.run direction migration.file db with
  | error error =>
    refine ⟨false, rfl, rfl, fun h => h, fun db' version => ?_⟩
    rw [if_neg fun h => Bool.noConfusion h.2.2]
    rfl
  | ok u =>
    refine ⟨true, ?_⟩
    cases direction with
    | up =>
      simp only [recordVersion, hversions]
      split
      · next hcontains =>
        refine ⟨rfl, rfl, fun h => h, fun db' version => ?_⟩
        split
        · next heq =>
          obtain ⟨rfl, rfl, -⟩ := heq
          exact (hhas _).trans hcontains
        · rfl
      · refine ⟨rfl, rfl, fun h => tabled_setTable (w := { w with log := _ }) h _,
          fun db' version => ?_⟩
        rw [hasVersion_setTable]
        by_cases hdb : db' = db
        · subst hdb
          by_cases hv : version = migration.version
          · subst hv
            simp
          · rw [if_pos rfl, if_neg fun h => hv h.2.1]
            show (versions ++ [migration.version]).contains version = w.hasVersion db' version
            rw [hhas]
            simp [hv]
        · rw [if_neg hdb, if_neg fun h => hdb h.1]
          rfl
    | down =>
      simp only [removeVersion, hversions]
      refine ⟨rfl, rfl, fun h => tabled_setTable (w := { w with log := _ }) h _,
        fun db' version => ?_⟩
      rw [hasVersion_setTable]
      by_cases hdb : db' = db
      · subst hdb
        by_cases hv : version = migration.version
        · subst hv
          simp
        · rw [if_pos rfl, if_neg fun h => hv h.2.1]
          show (versions.filter (· ≠ migration.version)).contains version = w.hasVersion db' version
          rw [hhas]
          simp [hv]
      · rw [if_neg hdb, if_neg fun h => hdb h.1]
        rfl

/-- A migration is run on some databases. -/
structure Ran (w w' : World) (version : String) (runs : String → Prop) (dbs : List String) :
    Prop where
  memory : w'.migrationsVersions = w.migrationsVersions
  tabled : w'.Tabled
  has : ∀ db v, w'.hasVersion db v = w.hasVersion db v ∨ v = version ∧ db ∈ dbs ∧ runs db
  exact : ∀ tables, w.Exact tables → w'.Exact tables
  log : ∃ steps, w'.log = w.log ++ steps ∧
    (steps.map StepEvent.key).Sublist (dbs.map fun db => (version, db))

variable {runs : String → Prop}

theorem Ran.nothing (h : w.Tabled) (dbs : List String) : Ran w w version runs dbs where
  memory := rfl
  tabled := h
  has _ _ := .inl rfl
  exact _ := id
  log := ⟨[], (append_nil _).symm, nil_sublist _⟩

theorem ran_runStep (h : w.Tabled) (htable : (w.schemaMigrations db).isSome = true) (hruns : runs db) :
    Ran w (w.runStep migration cls direction db).1 migration.version runs [db] := by
  obtain ⟨completed, hlog, hmemory, htabled, hhas⟩ :=
    runStep_effect w migration cls direction htable
  refine ⟨hmemory, htabled h, fun db' v => ?_, fun tables hexact db' v => ?_, _, hlog, .refl _⟩
  · rw [hhas]
    split
    · next heq => exact .inr ⟨heq.2.1, heq.1 ▸ mem_singleton_self _, heq.1 ▸ hruns⟩
    · exact .inl rfl
  · rw [hhas, hlog, replay_append, ← hexact db' v]
    simp only [replay]
    by_cases heq : db' = db ∧ v = migration.version ∧ completed = true
    · obtain ⟨rfl, rfl, hcompleted⟩ := heq
      rw [if_pos ⟨rfl, rfl, hcompleted⟩]
    · rw [if_neg heq, if_neg]
      exact fun ⟨hdb, hv, hcompleted⟩ => heq ⟨hdb.symm, hv.symm, hcompleted⟩

theorem Ran.cons {runs : String → Prop} {dbs : List String} (h : Ran w w' version runs [db])
    (h' : Ran w' w'' version runs dbs) : Ran w w'' version runs (db :: dbs) where
  memory := h'.memory.trans h.memory
  tabled := h'.tabled
  has db' v := by
    rcases h'.has db' v with heq | ⟨hv, hmem, hruns⟩
    · rcases h.has db' v with heq' | ⟨hv, hmem, hruns⟩
      · exact .inl (heq.trans heq')
      · exact .inr ⟨hv, mem_singleton.mp hmem ▸ mem_cons_self, hruns⟩
    · exact .inr ⟨hv, mem_cons_of_mem _ hmem, hruns⟩
  exact tables := h'.exact tables ∘ h.exact tables
  log := by
    obtain ⟨steps, hlog, hsub⟩ := h.log
    obtain ⟨steps', hlog', hsub'⟩ := h'.log
    refine ⟨steps ++ steps', by rw [hlog', hlog, append_assoc], ?_⟩
    rw [map_append]
    exact hsub.append hsub'

theorem ran_runOnDatabases (c : Configuration) (migration : Migration) (cls : MigrationClass)
    (direction : Direction) (dbs : List String) : ∀ {w : World}, w.Tabled →
      Ran w (runOnDatabases c migration cls direction w dbs).1 migration.version
        (fun db => c.runsOn cls db = true) dbs := by
  induction dbs with
  | nil => exact fun h => Ran.nothing h []
  | cons db dbs ih =>
    intro w h
    have hskip : Ran w w migration.version (fun db => c.runsOn cls db = true) [db] :=
      Ran.nothing h [db]
    unfold runOnDatabases
    split
    · next hruns =>
      cases hload : w.migrationsVersions.get? db with
      | none =>
        simp only [hasRunMigrationVersion, hload]
        exact Ran.nothing h _
      | some versions =>
        simp only [hasRunMigrationVersion, hload]
        split
        · exact hskip.cons (ih h)
        · have hstep : Ran w (w.runStep migration cls direction db).1 migration.version
              (fun db => c.runsOn cls db = true) [db] :=
            ran_runStep h (h db (by rw [hload]; rfl)) hruns
          split
          · next heq =>
            rw [heq] at hstep
            exact hstep.cons (Ran.nothing hstep.tabled dbs)
          · next heq =>
            rw [heq] at hstep
            exact hstep.cons (ih hstep.tabled)
    · exact hskip.cons (ih h)

theorem Ran.agrees {dbs : List String} {version' : String}
    (h : Ran w w' version runs dbs) (hagrees : w.Agrees db version')
    (hother : version' = version → db ∈ dbs → ¬runs db) : w'.Agrees db version' := by
  intro versions hget
  rw [h.memory] at hget
  rcases h.has db version' with heq | ⟨hv, hmem, hruns⟩
  · rw [heq]
    exact hagrees versions hget
  · exact absurd hruns (hother hv hmem)

theorem justified_runOnDatabases (c : Configuration) (migration : Migration)
    (cls : MigrationClass) (direction : Direction) (dbs : List String) (hnodup : dbs.Nodup) :
    ∀ {w : World}, w.Tabled → w.Justified →
      (∀ db ∈ dbs, c.runsOn cls db = true → w.Agrees db migration.version) →
      (runOnDatabases c migration cls direction w dbs).1.Justified := by
  induction dbs with
  | nil => exact fun _ h _ => h
  | cons db dbs ih =>
    intro w htabled hjustified hagrees
    obtain ⟨hfresh, hrest⟩ := nodup_cons.mp hnodup
    have hgo : ∀ {w : World}, w.Tabled → w.Justified →
        (∀ db ∈ dbs, c.runsOn cls db = true → w.Agrees db migration.version) →
        (runOnDatabases c migration cls direction w dbs).1.Justified := ih hrest
    have htail : ∀ db' ∈ dbs, c.runsOn cls db' = true → w.Agrees db' migration.version :=
      fun db' hmem => hagrees db' (mem_cons_of_mem _ hmem)
    unfold runOnDatabases
    split
    · next hruns =>
      cases hload : w.migrationsVersions.get? db with
      | none =>
        simp only [hasRunMigrationVersion, hload]
        exact hjustified
      | some versions =>
        simp only [hasRunMigrationVersion, hload]
        split
        · exact hgo htabled hjustified htail
        · next hskips =>
          have htable := htabled db (by rw [hload]; rfl)
          have hhas := hagrees db mem_cons_self hruns versions hload
          have hran : Ran w (w.runStep migration cls direction db).1 migration.version
              (fun db => c.runsOn cls db = true) [db] := ran_runStep htabled htable hruns
          have hstep : (w.runStep migration cls direction db).1.Justified := by
            obtain ⟨completed, hlog, -⟩ := runStep_effect w migration cls direction htable
            intro event hevent
            rw [hlog] at hevent
            rcases mem_append.mp hevent with hold | hnew
            · exact hjustified event hold
            · obtain rfl := mem_singleton.mp hnew
              show w.hasVersion db migration.version = decide (direction = .down)
              rw [← hhas]
              cases direction with
              | up => simpa [Direction.skips] using hskips
              | down => simpa [Direction.skips] using hskips
          have hafter : ∀ db' ∈ dbs, c.runsOn cls db' = true →
              (w.runStep migration cls direction db).1.Agrees db' migration.version := by
            intro db' hmem hruns'
            refine hran.agrees (htail db' hmem hruns') fun _ hdb => ?_
            rw [mem_singleton.mp hdb] at hmem
            exact absurd hmem hfresh
          split
          · next heq =>
            rw [heq] at hstep
            exact hstep
          · next heq =>
            rw [heq] at hstep hran hafter
            exact hgo hran.tabled hstep hafter
    · exact hgo htabled hjustified htail

theorem idle_runOnDatabases (c : Configuration) (migration : Migration) (cls : MigrationClass)
    (dbs : List String) (hagrees : ∀ db ∈ dbs, c.runsOn cls db = true →
      w.Agrees db migration.version ∧ w.hasVersion db migration.version = true) :
    (runOnDatabases c migration cls .up w dbs).1 = w := by
  induction dbs with
  | nil => rfl
  | cons db dbs ih =>
    have htail := ih fun db' hmem => hagrees db' (mem_cons_of_mem _ hmem)
    unfold runOnDatabases
    split
    · next hruns =>
      obtain ⟨hagree, hhas⟩ := hagrees db mem_cons_self hruns
      cases hload : w.migrationsVersions.get? db with
      | none => simp [hasRunMigrationVersion, hload]
      | some versions =>
        simp only [hasRunMigrationVersion, hload]
        have hskips : Direction.up.skips (versions.contains migration.version) = true :=
          (hagree versions hload).trans hhas
        rw [if_pos hskips]
        exact htail
    · exact htail

/-! ## Calls -/

/-- What a call does to the tables and the log, with steps among `keys` in this order. -/
structure Effect (w w' : World) (keys : List (String × String)) : Prop where
  tabled : w'.Tabled
  exact : ∀ tables, w.Exact tables → w'.Exact tables
  log : ∃ steps, w'.log = w.log ++ steps ∧ (steps.map StepEvent.key).Sublist keys

variable {keys keys' : List (String × String)}

theorem Effect.refl (h : w.Tabled) (keys : List (String × String)) : Effect w w keys where
  tabled := h
  exact _ := id
  log := ⟨[], (append_nil _).symm, nil_sublist _⟩

theorem Effect.append (h : Effect w w' keys) (h' : Effect w' w'' keys') :
    Effect w w'' (keys ++ keys') where
  tabled := h'.tabled
  exact tables := h'.exact tables ∘ h.exact tables
  log := by
    obtain ⟨steps, hlog, hsub⟩ := h.log
    obtain ⟨steps', hlog', hsub'⟩ := h'.log
    refine ⟨steps ++ steps', by rw [hlog', hlog, append_assoc], ?_⟩
    rw [map_append]
    exact hsub.append hsub'

theorem Loads.effect (h : Loads w w') (htabled : w.Tabled) (keys : List (String × String)) :
    Effect w w' keys where
  tabled := h.tabled htabled
  exact _ := h.exact
  log := ⟨[], h.log.trans (append_nil _).symm, nil_sublist _⟩

theorem effect_runMigrationFile (h : w.Tabled) (dbs : Connections) (migration : Migration)
    (required : Except String (Option MigrationClass)) (direction : Direction) :
    Effect w (w.runMigrationFile c dbs migration required direction).1
      (dbs.identifiers.map fun db => (migration.version, db)) := by
  have hload := loads_loadNeeded c w dbs
  have hnothing := hload.effect h
  match required with
  | .error error => exact hnothing _
  | .ok none => exact hnothing _
  | .ok (some cls) =>
    have hran := ran_runOnDatabases c migration cls direction dbs.identifiers (hload.tabled h)
    exact (hnothing []).append ⟨hran.tabled, hran.exact, hran.log⟩

theorem effect_migrateFiles (dbs : Connections) (importCallback : ImportCallback)
    (files : List Migration) : ∀ {w : World}, w.Tabled →
      Effect w (w.migrateFiles c dbs importCallback files).1 (stepOrder dbs files) := by
  induction files with
  | nil => exact fun h => .refl h _
  | cons migration files ih =>
    intro w h
    have hfile := effect_runMigrationFile (c := c) h dbs migration
      (requireMigration importCallback migration) .up
    unfold migrateFiles
    split
    · next heq =>
      rw [heq] at hfile
      exact hfile.append (.refl hfile.tabled (stepOrder dbs files))
    · next heq =>
      rw [heq] at hfile
      exact hfile.append (ih hfile.tabled)

theorem effect_call (h : w.Tabled) (call : Call) :
    Effect w (w.call c call) (stepOrder call.dbs (call.migrations w)) := by
  cases call with
  | migrateFiles dbs importCallback files => exact effect_migrateFiles dbs importCallback files h
  | rollback dbs importCallback files =>
    show Effect w (w.rollback c dbs importCallback files).1
      (stepOrder dbs (w.rollbackMigration files).toOption.toList)
    unfold World.rollback
    cases w.rollbackMigration files with
    | error error => exact .refl h _
    | ok migration =>
      have hfile := effect_runMigrationFile (c := c) h dbs migration
        (requireRollback importCallback migration) .down
      have horder : stepOrder dbs [migration] =
          dbs.identifiers.map fun db => (migration.version, db) := append_nil _
      show Effect w _ (stepOrder dbs [migration])
      rw [horder]
      exact hfile

theorem runMigrationFile_fresh (htabled : w.Tabled) (dbs : Connections) (migration : Migration)
    (required : Except String (Option MigrationClass)) (direction : Direction)
    (hjustified : w.Justified)
    (hagrees : ∀ db ∈ dbs.identifiers, ∀ cls, required = .ok (some cls) →
      c.runsOn cls db = true → w.Agrees db migration.version) :
    (w.runMigrationFile c dbs migration required direction).1.Justified ∧
      ∀ db version', w.Agrees db version' → (version' = migration.version →
        db ∈ dbs.identifiers → ∀ cls, required = .ok (some cls) → c.runsOn cls db = false) →
        (w.runMigrationFile c dbs migration required direction).1.Agrees db version' := by
  have hload := loads_loadNeeded c w dbs
  have hloaded : (w.loadNeeded c dbs).Justified := by
    unfold Justified
    rw [hload.log]
    exact hjustified
  match required, hagrees with
  | .error error, _ => exact ⟨hloaded, fun _ _ h _ => hload.agrees h⟩
  | .ok none, _ => exact ⟨hloaded, fun _ _ h _ => hload.agrees h⟩
  | .ok (some cls), hagrees =>
    have hran := ran_runOnDatabases c migration cls direction dbs.identifiers
      (hload.tabled htabled)
    refine ⟨justified_runOnDatabases c migration cls direction dbs.identifiers dbs.nodup
      (hload.tabled htabled) hloaded fun db hmem hruns =>
        hload.agrees (hagrees db hmem cls rfl hruns), fun db version' h hother => ?_⟩
    refine hran.agrees (hload.agrees h) fun hv hmem hruns => ?_
    cases hruns.symm.trans (hother hv hmem cls rfl)

theorem justified_migrateFiles (dbs : Connections) (importCallback : ImportCallback)
    (files : List Migration) : ∀ {w : World}, w.Tabled → w.Justified →
      w.Fresh c (.migrateFiles dbs importCallback files) →
      (w.migrateFiles c dbs importCallback files).1.Justified := by
  induction files with
  | nil => exact fun _ h _ => h
  | cons migration files ih =>
    rintro w htabled hjustified ⟨hpairs, hagrees⟩
    obtain ⟨hlater, hpairs⟩ := pairwise_cons.mp hpairs
    obtain ⟨hfile, hkeep⟩ := runMigrationFile_fresh htabled dbs migration
      (requireMigration importCallback migration) .up hjustified fun db hmem cls hcls hruns =>
        hagrees migration mem_cons_self db ⟨hmem, cls, hcls, hruns⟩
    have heffect := effect_runMigrationFile (c := c) htabled dbs migration
      (requireMigration importCallback migration) .up
    have hfresh : (w.runMigrationFile c dbs migration
        (requireMigration importCallback migration) .up).1.Fresh c
        (.migrateFiles dbs importCallback files) := by
      refine ⟨hpairs, fun later hmem db hruns => ?_⟩
      refine hkeep db later.version (hagrees later (mem_cons_of_mem _ hmem) db hruns)
        fun hv hdb cls hcls => ?_
      by_contra hon
      exact hlater later hmem hv.symm db ⟨hdb, cls, hcls, Bool.of_not_eq_false hon⟩ hruns
    unfold migrateFiles
    split
    · next heq =>
      rw [heq] at hfile
      exact hfile
    · next heq =>
      rw [heq] at hfile hfresh heffect
      exact ih heffect.tabled hfile hfresh

theorem justified_call (htabled : w.Tabled) (hjustified : w.Justified) {call : Call}
    (hfresh : w.Fresh c call) : (w.call c call).Justified := by
  cases call with
  | migrateFiles dbs importCallback files =>
    exact justified_migrateFiles dbs importCallback files htabled hjustified hfresh
  | rollback dbs importCallback files =>
    have hagrees : ∀ migration ∈ (w.rollbackMigration files).toOption.toList, ∀ db,
        Call.RunsOn c (.rollback dbs importCallback files) migration db →
          w.Agrees db migration.version := hfresh.2
    show (w.rollback c dbs importCallback files).1.Justified
    unfold World.rollback
    cases hmigration : w.rollbackMigration files with
    | error error => exact hjustified
    | ok migration =>
      rw [hmigration] at hagrees
      exact (runMigrationFile_fresh htabled dbs migration
        (requireRollback importCallback migration) .down hjustified fun db hmem cls hcls hruns =>
          hagrees migration (mem_singleton_self _) db ⟨hmem, cls, hcls, hruns⟩).1

theorem idle_migrateFiles (dbs : Connections) (importCallback : ImportCallback)
    (files : List Migration) : ∀ {w : World}, w.Tabled →
      (∀ migration ∈ files, ∀ db, Call.RunsOn c (.migrateFiles dbs importCallback files)
        migration db → w.Agrees db migration.version ∧
          w.hasVersion db migration.version = true) →
      (w.migrateFiles c dbs importCallback files).1.log = w.log := by
  induction files with
  | nil => exact fun _ _ => rfl
  | cons migration files ih =>
    intro w htabled hagrees
    have hload := loads_loadNeeded c w dbs
    have hfile : (w.runMigrationFile c dbs migration (requireMigration importCallback migration)
        .up).1 = w.loadNeeded c dbs := by
      cases hrequired : requireMigration importCallback migration with
      | error error => rfl
      | ok exported =>
        cases exported with
        | none => rfl
        | some cls =>
          refine idle_runOnDatabases c migration cls dbs.identifiers fun db hmem hruns => ?_
          obtain ⟨hagree, hhas⟩ := hagrees migration mem_cons_self db
            ⟨hmem, cls, hrequired, hruns⟩
          exact ⟨hload.agrees hagree, (hload.has _ _).trans hhas⟩
    have hrest : ∀ later ∈ files, ∀ db, Call.RunsOn c (.migrateFiles dbs importCallback files)
        later db → (w.loadNeeded c dbs).Agrees db later.version ∧
          (w.loadNeeded c dbs).hasVersion db later.version = true := by
      intro later hmem db hruns
      obtain ⟨hagree, hhas⟩ := hagrees later (mem_cons_of_mem _ hmem) db hruns
      exact ⟨hload.agrees hagree, (hload.has _ _).trans hhas⟩
    unfold migrateFiles
    split
    · next ran error heq =>
      rw [heq] at hfile
      obtain rfl : ran = w.loadNeeded c dbs := hfile
      exact hload.log
    · next ran applied heq =>
      rw [heq] at hfile
      obtain rfl : ran = w.loadNeeded c dbs := hfile
      exact (ih (hload.tabled htabled) hrest).trans hload.log

theorem idle_call (htabled : w.Tabled) {call : Call} (hfresh : w.Fresh c call)
    (hnothing : w.NothingNew c call) : (w.call c call).log = w.log := by
  obtain ⟨⟨dbs, importCallback, files, rfl⟩, hhas⟩ := hnothing
  exact idle_migrateFiles dbs importCallback files htabled fun migration hmem db hruns =>
    ⟨hfresh.2 migration hmem db hruns, hhas migration hmem db hruns⟩

theorem prepared_kept (c : Configuration) (tables : String → Option (List String))
    (dbs : Connections) : (prepared c tables dbs).Tabled ∧ (prepared c tables dbs).Exact tables ∧
      (prepared c tables dbs).Justified := by
  let created := (dbs.identifiers.filter c.handlesDatabaseIdentifier).foldl
    (createMigrationsTableForDatabase c) { schemaMigrations := tables }
  have hcreate : Loads { schemaMigrations := tables } created :=
    Loads.foldl (loads_create c) _ _
  have hload : Loads { created with migrationsVersions := .empty } (prepared c tables dbs) :=
    Loads.foldl (loads_load c) _ _
  have hlog : (prepared c tables dbs).log = [] := hload.log.trans hcreate.log
  refine ⟨hload.tabled fun _ => nofun, fun db version => ?_, ?_⟩
  · rw [hlog, hload.has]
    exact hcreate.has db version
  · unfold Justified
    rw [hlog]
    nofun

/-- **The migration ledger.** After every run of calls on a prepared migrator, the tables have the
    versions whose last completed step was up, and the steps of the next call come in the order of
    its migrations. In the runs whose calls are fresh, every step was run because the table asked
    for it, and a fresh `migrateFiles` with nothing new runs no step. -/
theorem migration_ledger (c : Configuration) (tables : String → Option (List String))
    (dbs : Connections) (calls : List Call)
    (hrun : runActions (World.step c) (prepared c tables dbs) calls = some w) :
    w.Exact tables ∧
      (∀ call, ∃ steps, (w.call c call).log = w.log ++ steps ∧
        (steps.map StepEvent.key).Sublist (stepOrder call.dbs (call.migrations w))) ∧
      (Along (World.step c) (World.Fresh c) (prepared c tables dbs) calls → w.Justified ∧
        ∀ call, w.Fresh c call → w.NothingNew c call → (w.call c call).log = w.log) := by
  obtain ⟨htabled, hexact, hjustified⟩ := prepared_kept c tables dbs
  have hkept : w.Tabled ∧ w.Exact tables := by
    refine runActions_keeps (I := fun w => w.Tabled ∧ w.Exact tables) (fun w call w' h hstep => ?_)
      ⟨htabled, hexact⟩ hrun
    cases hstep
    have heffect := effect_call (c := c) h.1 call
    exact ⟨heffect.tabled, heffect.exact tables h.2⟩
  refine ⟨hkept.2, fun call => (effect_call hkept.1 call).log, fun hfresh => ⟨?_, fun call =>
    idle_call hkept.1⟩⟩
  refine (runActions_invariant (I := fun w => w.Tabled ∧ w.Justified)
    (fun w call w' h hok hstep => ?_) calls ⟨htabled, hjustified⟩ hfresh hrun).2
  cases hstep
  exact ⟨(effect_call h.1 call).tabled, justified_call h.1 h.2 hok⟩

/-! ## Two runs -/

def everyDatabase : Configuration := ⟨fun _ => true, none⟩

def defaultOnly : Connections := ⟨["default"], List.nodup_singleton _⟩

/-- Migrations whose `change` and `down` complete. -/
def reversible : ImportCallback := fun _ =>
  .ok (some ⟨none, fun _ => .completed, fun _ => .notImplemented, fun _ => .completed⟩)

def createUsers : Migration := ⟨20220101, "create-users.js", some "create-users.js", "CreateUsers"⟩

def createTasks : Migration := ⟨20230101, "create-tasks.js", some "create-tasks.js", "CreateTasks"⟩

/-- The first migration is in the table, the second is run, and the first is rolled back: it is the
    latest in memory. -/
def freshCalls : List Call :=
  [.migrateFiles defaultOnly reversible [createUsers, createTasks],
    .rollback defaultOnly reversible [createUsers, createTasks]]

def usersTable : String → Option (List String) := fun _ => some ["20220101"]

theorem migration_ledger_fresh : ∃ w,
    runActions (World.step everyDatabase) (prepared everyDatabase usersTable defaultOnly)
      freshCalls = some w ∧ w.schemaMigrations "default" = some ["20230101"] ∧
    w.Exact usersTable ∧ w.Justified := by
  obtain ⟨w, hw⟩ : ∃ w, runActions (World.step everyDatabase)
    (prepared everyDatabase usersTable defaultOnly) freshCalls = some w := ⟨_, rfl⟩
  obtain ⟨hexact, -, hjustified⟩ := migration_ledger everyDatabase usersTable defaultOnly _ hw
  refine ⟨w, hw, ?_, hexact, (hjustified ⟨⟨?_, ?_⟩, ⟨?_, ?_⟩, trivial⟩).1⟩
  · cases hw
    rfl
  · refine pairwise_pair.mpr fun hsame => ?_
    exact absurd hsame (by decide)
  · rintro migration hmem db ⟨hdb, -⟩ versions hget
    obtain rfl := mem_singleton.mp hdb
    cases hget
    rcases mem_pair.mp hmem with rfl | rfl <;> rfl
  · exact pairwise_singleton _ createUsers
  · rintro migration hmem db ⟨hdb, -⟩ versions hget
    obtain rfl := mem_singleton.mp hdb
    obtain rfl : migration = createUsers := mem_singleton.mp hmem
    cases hget
    rfl

def migratedTwice : List Call :=
  [.migrateFiles defaultOnly reversible [createTasks],
    .migrateFiles defaultOnly reversible [createTasks]]

/-- The second call finds the version in the table, and runs the step again. -/
theorem migrated_twice : ∃ w,
    runActions (World.step everyDatabase) (prepared everyDatabase (fun _ => none) defaultOnly)
      migratedTwice = some w ∧ ¬w.Justified := by
  obtain ⟨w, hw⟩ : ∃ w, runActions (World.step everyDatabase)
    (prepared everyDatabase (fun _ => none) defaultOnly) migratedTwice = some w := ⟨_, rfl⟩
  refine ⟨w, hw, fun h => ?_⟩
  cases hw
  exact absurd (h ⟨"default", "20230101", .up, true, true⟩ (.tail _ (.head _))) (by decide)

end World

end Velocious.Migrator
