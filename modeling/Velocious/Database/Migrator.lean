/-
  The migrator and its ledger.

  A `World` has the `schema_migrations` table of every database, the versions the migrator holds in
  memory, and the steps that were run, each with whether its version was in the table. `prepare`
  loads the versions, `runMigrationFile` decides by them, and `recordVersion` and `removeVersion`
  write the table.

  * `migrateFiles` and `rollback` are the calls; an error ends a call and keeps what it did.
  * `runOnDatabases` is the loop over the current connections.
-/
import Velocious.Foundation.EntryMap
import Velocious.Foundation.ParseInt
import Velocious.Foundation.Machine

namespace Velocious.Migrator

open Foundation

/-! ## Migrations -/

/-- The way of a migration. -/
inductive Direction where
  | up
  | down
  deriving DecidableEq, Repr

/-- Whether a migration is passed over, by whether it has been run. -/
def Direction.skips : Direction → Bool → Bool
  | .up, hasRun => hasRun
  | .down, hasRun => !hasRun

/-- How a method of a migration ends; `notImplemented` is a `NotImplementedError`. -/
inductive MethodResult where
  | completed
  | notImplemented
  | failed (message : String)
  deriving DecidableEq, Repr

/-- A migration class, by what its methods do on each database. -/
structure MigrationClass where
  databaseIdentifiers : Option (List String)
  change : String → MethodResult
  up : String → MethodResult
  down : String → MethodResult

/-- `MigrationObjectType` -/
structure Migration where
  date : ℕ
  file : String
  fullPath : Option String
  migrationClassName : String
  deriving DecidableEq, Repr

def Migration.version (migration : Migration) : String := toString migration.date

/-- What importing a file gives: an error, or its export. -/
abbrev ImportCallback := String → Except String (Option MigrationClass)

/-- The error of a migration without `fullPath`, which names the keys it has. -/
def missingFullPath : String :=
  "Migration didn't have a fullPath key: date, file, migrationClassName"

/-- `change`, or `up` when there is none. -/
def MigrationClass.runUp (cls : MigrationClass) (file db : String) : Except String Unit :=
  match cls.change db with
  | .completed => .ok ()
  | .failed message => .error message
  | .notImplemented =>
    match cls.up db with
    | .completed => .ok ()
    | .failed message => .error message
    | .notImplemented => .error s!"'change' or 'up' didn't exist on migration: {file}"

def MigrationClass.runDown (cls : MigrationClass) (file db : String) : Except String Unit :=
  match cls.down db with
  | .completed => .ok ()
  | .failed message => .error message
  | .notImplemented => .error (s!"'down' didn't exist on migration: {file}" ++
      " or migrating down with a change method isn't currently supported")

def MigrationClass.run (cls : MigrationClass) (direction : Direction) (file db : String) :
    Except String Unit :=
  match direction with
  | .up => cls.runUp file db
  | .down => cls.runDown file db

/-! ## The migrator -/

/-- What the migrator is configured with. -/
structure Configuration where
  migrations : String → Bool
  databaseIdentifiers : Option (List String)

/-- The keys of `getCurrentConnections()`. -/
structure Connections where
  identifiers : List String
  nodup : identifiers.Nodup

/-- A step that was run; `present` is whether its version was in the table then. -/
structure StepEvent where
  database : String
  version : String
  direction : Direction
  present : Bool
  completed : Bool
  deriving DecidableEq, Repr

/-- The databases and the migrator. -/
structure World where
  /-- the versions in `schema_migrations`, by database, when the table exists -/
  schemaMigrations : String → Option (List String)
  migrationsVersions : EntryMap String (List String) := .empty
  log : List StepEvent := []

def Configuration.handlesDatabaseIdentifier (c : Configuration) (db : String) : Bool :=
  match c.databaseIdentifiers with
  | none => true
  | some databaseIdentifiers => databaseIdentifiers.contains db

def Configuration.runsOn (c : Configuration) (cls : MigrationClass) (db : String) : Bool :=
  c.handlesDatabaseIdentifier db && c.migrations db &&
    (cls.databaseIdentifiers.getD ["default"]).contains db

namespace World

def hasVersion (w : World) (db version : String) : Bool :=
  ((w.schemaMigrations db).getD []).contains version

def setTable (w : World) (db : String) (versions : List String) : World :=
  { w with schemaMigrations := Function.update w.schemaMigrations db (some versions) }

def recordVersion (w : World) (db version : String) : World × Except String Unit :=
  match w.schemaMigrations db with
  | none => (w, .error "no such table: schema_migrations")
  | some versions =>
    if versions.contains version then (w, .ok ())
    else (w.setTable db (versions ++ [version]), .ok ())

def removeVersion (w : World) (db version : String) : World × Except String Unit :=
  match w.schemaMigrations db with
  | none => (w, .error "no such table: schema_migrations")
  | some versions => (w.setTable db (versions.filter (· ≠ version)), .ok ())

def createMigrationsTableForDatabase (c : Configuration) (w : World) (db : String) : World :=
  if c.migrations db then
    match w.schemaMigrations db with
    | some _ => w
    | none => w.setTable db []
  else w

def loadMigrationsVersionsForDatabase (c : Configuration) (w : World) (db : String) : World :=
  if c.migrations db then
    match w.schemaMigrations db with
    | some versions => { w with migrationsVersions := w.migrationsVersions.set db versions }
    | none => { w with migrationsVersions := w.migrationsVersions.delete db }
  else w

/-- `prepare`: `createMigrationsTable` and `loadMigrationsVersions` -/
def prepare (c : Configuration) (w : World) (dbs : Connections) : World :=
  let handled := dbs.identifiers.filter c.handlesDatabaseIdentifier
  let created := handled.foldl (createMigrationsTableForDatabase c) w
  handled.foldl (loadMigrationsVersionsForDatabase c)
    { created with migrationsVersions := .empty }

def hasRunMigrationVersion (w : World) (db : String) (migration : Migration) :
    Except String Bool :=
  match w.migrationsVersions.get? db with
  | none => .error s!"Migrations versions hasn't been loaded yet for db: {db}"
  | some versions => .ok (versions.contains migration.version)

/-- The versions of the databases that `prepare` did not load. -/
def loadNeeded (c : Configuration) (w : World) (dbs : Connections) : World :=
  let needing := dbs.identifiers.filter fun db => c.handlesDatabaseIdentifier db &&
    c.migrations db && (w.migrationsVersions.get? db).isNone
  needing.foldl (fun w db =>
    loadMigrationsVersionsForDatabase c (createMigrationsTableForDatabase c w db) db) w

/-- A step is run on a database, and the table written when it completes. -/
def runStep (w : World) (migration : Migration) (cls : MigrationClass) (direction : Direction)
    (db : String) : World × Except String Unit :=
  let result := cls.run direction migration.file db
  let ran := { w with log := w.log ++ [StepEvent.mk db migration.version direction
    (w.hasVersion db migration.version) result.isOk] }
  match result, direction with
  | .error error, _ => (ran, .error error)
  | .ok (), .up => ran.recordVersion db migration.version
  | .ok (), .down => ran.removeVersion db migration.version

/-- The loop of `runMigrationFile`: whether the migration was run on a database. -/
def runOnDatabases (c : Configuration) (migration : Migration) (cls : MigrationClass)
    (direction : Direction) (w : World) : List String → World × Except String Bool
  | [] => (w, .ok false)
  | db :: dbs =>
    if c.runsOn cls db then
      match w.hasRunMigrationVersion db migration with
      | .error error => (w, .error error)
      | .ok hasRun =>
        if direction.skips hasRun then runOnDatabases c migration cls direction w dbs
        else
          match w.runStep migration cls direction db with
          | (ran, .error error) => (ran, .error error)
          | (ran, .ok ()) =>
            let (last, result) := runOnDatabases c migration cls direction ran dbs
            (last, result.map fun _ => true)
    else runOnDatabases c migration cls direction w dbs

def runMigrationFile (c : Configuration) (w : World) (dbs : Connections) (migration : Migration)
    (required : Except String (Option MigrationClass)) (direction : Direction) :
    World × Except String Bool :=
  let loaded := w.loadNeeded c dbs
  match required with
  | .error error => (loaded, .error error)
  | .ok none => (loaded, .error
      s!"Migration {migration.file} must export a default migration class. Type: undefined")
  | .ok (some cls) => runOnDatabases c migration cls direction loaded dbs.identifiers

def requireMigration (importCallback : ImportCallback) (migration : Migration) :
    Except String (Option MigrationClass) :=
  match migration.fullPath with
  | none => .error missingFullPath
  | some fullPath =>
    match importCallback fullPath with
    | .ok none => .error s!"Migration file must export migration class: {fullPath}"
    | result => result

def requireRollback (importCallback : ImportCallback) (migration : Migration) :
    Except String (Option MigrationClass) :=
  match migration.fullPath with
  | none => .error missingFullPath
  | some fullPath => importCallback fullPath

/-- `migrateFiles`: the number of migrations that were run. -/
def migrateFiles (c : Configuration) (dbs : Connections) (importCallback : ImportCallback)
    (w : World) : List Migration → World × Except String ℕ
  | [] => (w, .ok 0)
  | migration :: files =>
    match w.runMigrationFile c dbs migration (requireMigration importCallback migration) .up with
    | (ran, .error error) => (ran, .error error)
    | (ran, .ok applied) =>
      let (last, result) := migrateFiles c dbs importCallback ran files
      (last, result.map fun count => if applied then count + 1 else count)

def latestMigrationVersion (w : World) : Option String :=
  w.migrationsVersions.values.flatten.foldl (fun highestVersion migrationVersion =>
    match highestVersion with
    | none | some "" => some migrationVersion
    | some highest =>
      if codeUnits highest < codeUnits migrationVersion then some migrationVersion
      else some highest) none

/-- The migration that `rollback` takes, or its error. -/
def rollbackMigration (w : World) (files : List Migration) : Except String Migration :=
  match w.latestMigrationVersion with
  | none | some "" => .error "No migrations have been run yet"
  | some latest =>
    match parseInt none latest with
    | none => .error "Migration file for version NaN not found"
    | some number =>
      match files.find? fun file => (file.date : ℤ) = number with
      | none => .error s!"Migration file for version {number} not found"
      | some migration => .ok migration

def rollback (c : Configuration) (dbs : Connections) (importCallback : ImportCallback) (w : World)
    (files : List Migration) : World × Except String Unit :=
  match w.rollbackMigration files with
  | .error error => (w, .error error)
  | .ok migration =>
    let (ran, result) :=
      w.runMigrationFile c dbs migration (requireRollback importCallback migration) .down
    (ran, result.map fun _ => ())

end World

/-- A call of the migrator. -/
inductive Call where
  | migrateFiles (dbs : Connections) (importCallback : ImportCallback) (files : List Migration)
  | rollback (dbs : Connections) (importCallback : ImportCallback) (files : List Migration)

/-- What a call leaves, whether it returns or throws. -/
def World.call (c : Configuration) (w : World) : Call → World
  | .migrateFiles dbs importCallback files => (w.migrateFiles c dbs importCallback files).1
  | .rollback dbs importCallback files => (w.rollback c dbs importCallback files).1

def World.step (c : Configuration) (w : World) (call : Call) : Option World := some (w.call c call)

/-- A migrator after `prepare`, on databases with these tables. -/
def World.prepared (c : Configuration) (tables : String → Option (List String))
    (dbs : Connections) : World :=
  World.prepare c { schemaMigrations := tables } dbs

end Velocious.Migrator
