/-
  `reset` of the migrator, which drops every table of the databases it handles.

  Dropping a table fails while a table that blocks it is there, and a call of `getTables` may fail.
  A pass of the loop catches the errors of its drops, so that it never asks for another pass:
  `empties_iff` says when one pass is enough.
-/
import Velocious.Database.Migrator

namespace Velocious.MigratorReset

open List Migrator

/-- The databases: their tables in the order `getTables` lists them, which other tables keep one
    from being dropped, and the error of each call of `getTables`, by the calls before it. -/
structure Server where
  tables : String → List String
  nodup : ∀ db, (tables db).Nodup
  blocks : String → String → String → Bool
  getTablesError : String → ℕ → Option String

/-! ## The loop -/

section
variable (blocks : String → String → Bool)

def dropTable (tables : List String) (name : String) : Except String (List String) :=
  if tables.any (blocks name) then .error s!"cannot drop table {name}"
  else .ok (tables.filter (· ≠ name))

/-- The variables of a pass, and the tables it has left. -/
structure Pass where
  tables : List String
  errors : List String := []
  anyTableDropped : Bool := false

/-- The inner `try` of a pass. -/
def Pass.drop (p : Pass) (name : String) : Pass :=
  match dropTable blocks p.tables name with
  | .ok tables => { p with tables, anyTableDropped := true }
  | .error error => { p with errors := p.errors ++ [error] }

/-- How a pass ends; the error that is thrown may be `undefined`. -/
inductive Ending where
  | done
  | retry
  | thrown (error : Option String)

/-- The outer `catch` of a pass. -/
def Pass.caught (p : Pass) : Ending :=
  if p.errors ≠ [] && p.anyTableDropped then .retry else .thrown p.errors.head?

def pass (getTablesError : Option String) (tables : List String) : List String × Ending :=
  match getTablesError with
  | some _ => (tables, Pass.caught { tables })
  | none => ((tables.foldl (Pass.drop blocks) { tables }).tables, .done)

end

/-- The `while` of a database, with at most `fuel` passes. -/
def dropTables (s : Server) (db : String) :
    ℕ → ℕ → List String → Option (List String × Except (Option String) Unit)
  | 0, _, _ => none
  | fuel + 1, calls, tables =>
    match pass (s.blocks db) (s.getTablesError db calls) tables with
    | (left, .done) => some (left, .ok ())
    | (left, .retry) => dropTables s db fuel (calls + 1) left
    | (left, .thrown error) => some (left, .error error)

def reset (c : Configuration) (s : Server) (fuel : ℕ) :
    List String → (String → List String) →
      Option ((String → List String) × Except (Option String) Unit)
  | [], tables => some (tables, .ok ())
  | db :: dbs, tables =>
    if c.handlesDatabaseIdentifier db then
      match dropTables s db fuel 0 (tables db) with
      | none => none
      | some (left, .ok ()) => reset c s fuel dbs (Function.update tables db left)
      | some (left, .error error) => some (Function.update tables db left, .error error)
    else reset c s fuel dbs tables

def Configuration.handled (c : Configuration) (dbs : Connections) : List String :=
  dbs.identifiers.filter c.handlesDatabaseIdentifier

/-- No table of a database blocks itself, also by way of others. -/
def Acyclic (s : Server) (db : String) : Prop :=
  ∀ name, ¬ Relation.TransGen (fun a b => b ∈ s.tables db ∧ s.blocks db a b = true) name name

/-- A reset ends; if it returns, no table is left, and it returns where `getTables` never fails and
    no tables block each other in a cycle. -/
def Empties (c : Configuration) (dbs : Connections) (s : Server) : Prop :=
  ∃ passes left result,
    (∀ fuel ≥ passes, reset c s fuel dbs.identifiers s.tables = some (left, result)) ∧
    (result = .ok () → ∀ db ∈ Configuration.handled c dbs, left db = []) ∧
    ((∀ db calls, s.getTablesError db calls = none) →
      (∀ db ∈ Configuration.handled c dbs, Acyclic s db) → result = .ok ())

/-- A database lists each table after all tables that block it. -/
def InOrder (blocks : String → String → Bool) (tables : List String) : Prop :=
  tables.Pairwise (fun name later => blocks name later = false) ∧
    ∀ name ∈ tables, blocks name name = false

section
variable {blocks : String → String → Bool}

theorem drop_blocked {p : Pass} {name : String} (h : p.tables.any (blocks name) = true) :
    (p.drop blocks name).tables = p.tables := by
  simp [Pass.drop, dropTable, h]

theorem drop_free {p : Pass} {name : String} (h : p.tables.any (blocks name) = false) :
    (p.drop blocks name).tables = p.tables.filter (· ≠ name) := by
  simp [Pass.drop, dropTable, h]

theorem mem_foldl_drop {name : String} (names : List String) {p : Pass} (hmem : name ∈ p.tables)
    (hnot : name ∉ names) : name ∈ (names.foldl (Pass.drop blocks) p).tables := by
  induction names generalizing p with
  | nil => exact hmem
  | cons other names ih =>
    obtain ⟨hne, hnot⟩ := not_or.mp (mem_cons.not.mp hnot)
    refine ih ?_ hnot
    cases h : p.tables.any (blocks other) with
    | true => rwa [drop_blocked h]
    | false =>
      rw [drop_free h]
      exact mem_filter.mpr ⟨hmem, by simpa using hne⟩

theorem foldl_drop_eq_nil {tables : List String} (hnodup : tables.Nodup) {p : Pass}
    (hp : p.tables = tables) :
    (tables.foldl (Pass.drop blocks) p).tables = [] ↔ InOrder blocks tables := by
  induction tables generalizing p with
  | nil => simp [hp, InOrder]
  | cons name tables ih =>
    obtain ⟨hname, hnodup⟩ := nodup_cons.mp hnodup
    cases h : p.tables.any (blocks name) with
    | true =>
      have hstays : name ∈ (tables.foldl (Pass.drop blocks) (p.drop blocks name)).tables :=
        mem_foldl_drop tables (by simp [drop_blocked h, hp]) hname
      obtain ⟨other, hother, hblocks⟩ := any_eq_true.mp h
      refine ⟨fun hnil => by simp_all, fun ⟨hpairs, hself⟩ => ?_⟩
      rw [hp] at hother
      rcases mem_cons.mp hother with rfl | hlater
      · simp [hself other mem_cons_self] at hblocks
      · simp [(pairwise_cons.mp hpairs).1 other hlater] at hblocks
    | false =>
      have hrest : p.tables.filter (· ≠ name) = tables := by
        rw [hp, filter_cons_of_neg (by simp)]
        exact filter_eq_self.mpr fun other hother => by
          simpa using ne_of_mem_of_not_mem hother hname
      have hfree : blocks name name = false ∧ ∀ other ∈ tables, blocks name other = false := by
        simpa [hp] using h
      rw [foldl_cons, ih hnodup ((drop_free h).trans hrest)]
      simp [InOrder, hfree.1, and_iff_right hfree.2]

end

section
variable {c : Configuration} {s : Server} {ids : List String} {tables : String → List String}

theorem dropTables_ok {db : String} (h : s.getTablesError db 0 = none) (fuel : ℕ) :
    dropTables s db (fuel + 1) 0 (tables db) = some
      (((tables db).foldl (Pass.drop (s.blocks db)) { tables := tables db }).tables, .ok ()) := by
  simp [dropTables, pass, h]

theorem reset_error (h : ∃ db ∈ ids.filter c.handlesDatabaseIdentifier,
      (s.getTablesError db 0).isSome = true) :
    ∃ left, ∀ fuel, reset c s (fuel + 1) ids tables = some (left, .error none) := by
  induction ids generalizing tables with
  | nil => simp at h
  | cons db ids ih =>
    cases hhandled : c.handlesDatabaseIdentifier db with
    | false => simpa [reset, hhandled] using ih (by simpa [hhandled] using h)
    | true =>
      cases hget : s.getTablesError db 0 with
      | some error =>
        exact ⟨_, fun fuel => by simp [reset, hhandled, dropTables, pass, hget, Pass.caught]; rfl⟩
      | none =>
        simp only [reset, hhandled, if_true, dropTables_ok hget]
        exact ih (by simpa [hhandled, hget] using h)

theorem reset_ok (hnodup : ids.Nodup)
    (h : ∀ db ∈ ids.filter c.handlesDatabaseIdentifier, s.getTablesError db 0 = none) :
    ∃ left, (∀ fuel, reset c s (fuel + 1) ids tables = some (left, .ok ())) ∧
      (∀ db ∈ ids.filter c.handlesDatabaseIdentifier, left db =
        ((tables db).foldl (Pass.drop (s.blocks db)) { tables := tables db }).tables) ∧
      ∀ db ∉ ids, left db = tables db := by
  induction ids generalizing tables with
  | nil => exact ⟨tables, fun _ => rfl, by simp, fun _ _ => rfl⟩
  | cons db ids ih =>
    obtain ⟨hdb, hnodup⟩ := nodup_cons.mp hnodup
    have hne : ∀ other ∈ ids, other ≠ db := fun _ hmem => ne_of_mem_of_not_mem hmem hdb
    cases hhandled : c.handlesDatabaseIdentifier db with
    | false =>
      obtain ⟨left, hreset, hleft, hother⟩ := @ih tables hnodup
        (by simpa [hhandled] using h)
      exact ⟨left, by simpa [reset, hhandled] using hreset, by simpa [hhandled] using hleft,
        fun other hnot => hother other fun hmem => hnot (mem_cons_of_mem _ hmem)⟩
    | true =>
      have hget : s.getTablesError db 0 = none := h db (by simp [hhandled])
      obtain ⟨left, hreset, hleft, hother⟩ := @ih (Function.update tables db
        ((tables db).foldl (Pass.drop (s.blocks db)) { tables := tables db }).tables) hnodup
        fun other hmem => h other (by simp_all)
      refine ⟨left, fun fuel => ?_, fun other hmem => ?_, fun other hnot => ?_⟩
      · simp only [reset, hhandled, if_true, dropTables_ok hget, hreset]
      · rcases eq_or_ne other db with rfl | hdiffers
        · rw [hother other hdb, Function.update_self]
        · have hin : other ∈ ids.filter c.handlesDatabaseIdentifier := by simp_all
          rw [hleft other hin, Function.update_of_ne hdiffers]
      · obtain ⟨hdiffers, hnot⟩ := not_or.mp (mem_cons.not.mp hnot)
        rw [hother other hnot, Function.update_of_ne hdiffers]

end

/-- **A reset empties the databases it handles, or throws, iff** `getTables` fails for one of them
    or each of them lists every table after all tables that block it. -/
theorem empties_iff (c : Configuration) (dbs : Connections) (s : Server) :
    Empties c dbs s ↔
      (∃ db ∈ Configuration.handled c dbs, (s.getTablesError db 0).isSome = true) ∨
      ∀ db ∈ Configuration.handled c dbs, InOrder (s.blocks db) (s.tables db) := by
  by_cases hfails : ∃ db ∈ Configuration.handled c dbs, (s.getTablesError db 0).isSome = true
  · obtain ⟨left, hreset⟩ := @reset_error c s dbs.identifiers s.tables hfails
    refine iff_of_true ⟨1, left, .error none, fun fuel hfuel => ?_, nofun, fun hnone => ?_⟩
      (.inl hfails)
    · obtain ⟨fuel, rfl⟩ := Nat.exists_eq_add_of_le' hfuel
      exact hreset fuel
    · obtain ⟨db, -, hsome⟩ := hfails
      simp [hnone] at hsome
  · have hnone : ∀ db ∈ Configuration.handled c dbs, s.getTablesError db 0 = none := by
      simpa using hfails
    obtain ⟨left, hreset, hleft, -⟩ := @reset_ok c s _ s.tables dbs.nodup hnone
    have hempty : (∀ db ∈ Configuration.handled c dbs, left db = []) ↔
        ∀ db ∈ Configuration.handled c dbs, InOrder (s.blocks db) (s.tables db) :=
      forall₂_congr fun db hdb => by rw [hleft db hdb, foldl_drop_eq_nil (s.nodup db) rfl]
    rw [or_iff_right hfails, ← hempty]
    constructor
    · rintro ⟨passes, left', result, hends, hreturns, -⟩
      have heq := (hends (passes + 1) (Nat.le_succ _)).symm.trans (hreset passes)
      cases heq
      exact hreturns rfl
    · refine fun h => ⟨1, left, .ok (), fun fuel hfuel => ?_, fun _ => h, fun _ _ => rfl⟩
      obtain ⟨fuel, rfl⟩ := Nat.exists_eq_add_of_le' hfuel
      exact hreset fuel

/-- A database lists the projects before the tasks, which refer to them. -/
def projectsFirst : Server where
  tables _ := ["projects", "tasks"]
  nodup _ := by decide
  blocks _ name other := name = "projects" && other = "tasks"
  getTablesError _ _ := none

/-- The projects are left, and the reset returns. -/
theorem projects_left :
    ¬ Empties ⟨fun _ => true, none⟩ ⟨["default"], by decide⟩ projectsFirst := by
  rintro ⟨passes, left, result, hends, hreturns, -⟩
  have hreset := hends (passes + 1) (Nat.le_succ _)
  cases hreset
  exact absurd (hreturns rfl "default" (by decide)) (by decide)

end Velocious.MigratorReset
