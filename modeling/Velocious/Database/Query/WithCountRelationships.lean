/-
  The relationships whose counts are the numbers of rows that they load.

  * `Countable`: the relationship is direct, on the parents' primary key, and its scope does not
    limit or join away rows.
  * `KeysExact`: the database takes no foreign key for a parent's id that it is not.
-/
import Mathlib
import Velocious.Database.Query.PreloadHasManyAgreement
import Velocious.Database.Query.WithCountAgreement

namespace Velocious.WithCount

open Foundation HasMany List

variable {κ : Type} [DecidableEq κ]

/-! ## Agreement -/

/-- A relationship whose grouped query has the rows of its own one. -/
structure Direct (s : Server κ) (primaryKey : String) (r : CountedRelationship κ) : Prop where
  through : r.through = none
  primaryKey : r.primaryKey = primaryKey
  limit : r.limit = none
  distinct : r.distinct = true → r.joinedColumns = none
  text : s.primaryKeyText = true → r.foreignKeyText = true

/-- A relationship that its query counts. -/
structure Countable (s : Server κ) (primaryKey : String) (r : CountedRelationship κ) : Prop where
  ordered : r.order.isSome = true → s.ordersGroups = true
  unambiguous : isAmbiguous r = false
  rows : r.limit = some 0 ∨ Direct s primaryKey r

/-- The counts of a call: each entry that has its name for itself counts what it would load. -/
def AgreesOn (s : Server κ) (primaryKey : String) (contents : String → CountContent κ)
    (entries : List (Entry κ)) (models : List (Record κ)) : Prop :=
  ∃ attached, runWithCount s primaryKey contents entries models = some attached ∧
    ∀ e ∈ entries, (∀ e' ∈ entries, e'.attributeName = e.attributeName → e' = e) →
      ∀ model ∈ models, ∃ rows,
        loadRows s.collation e (contents e.relationship.tables) model = some rows ∧
          associationCount attached model e.attributeName = some rows.length

/-- The counts of some relationships agree, whatever is stored and however they are asked for. -/
def CountsAgree (s : Server κ) (primaryKey : String)
    (accepted : Set (CountedRelationship κ)) : Prop :=
  ∀ entries models contents, (∀ e ∈ entries, e.relationship ∈ accepted) →
    Askable s primaryKey entries models → KeysExact s primaryKey entries contents models →
    (∀ tables, (contents tables).target.Nodup) →
    AgreesOn s primaryKey contents entries models

section Loads

variable {s : Server κ} {primaryKey : String} {e : Entry κ} {content : CountContent κ}
  {parent : Record κ} {k : κ}

section
variable (hplain : Plain e.scopeWheres) (hthrough : e.relationship.through = none)
  (hk : readColumn parent e.relationship.primaryKey = some k)
  (htells : TellsKeys s.collation e.relationship.foreignKey content [some k])
include hplain hthrough hk htells

theorem ownRows_direct :
    ownRows s.collation e content parent =
      (joinedRows e.relationship.joinedColumns.isSome content).filter fun row =>
        ((queryForEntry s.collation e).wheres.all fun c => c.first row) &&
          readColumn row.1 e.relationship.foreignKey = some k := by
  have hwheres (first : Clause (Joined κ)) (hfirst : first.others = []) :
      Plain (first :: e.scopeWheres ++ [extraClause e]) := by
    refine plain_append (fun c hmem => ?_) fun c hmem => (by rw [mem_singleton.1 hmem]; rfl)
    rcases mem_cons.1 hmem with rfl | hmem
    · exact hfirst
    · exact hplain c hmem
  have htype (row : Joined κ) : (if e.relationship.polymorphic.isSome then
      [(⟨fun row => typeIs s.collation e.relationship.toAssociation row.1, []⟩ : Clause (Joined κ))]
      else []).all (fun c => c.first row) = typeIs s.collation e.relationship.toAssociation row.1 := by
    cases hp : e.relationship.polymorphic <;> simp [typeIs, hp]
  have hextra (row : Joined κ) : (if e.extra.isSome then [extraClause e] else []).all
      (fun c => c.first row) = (extraClause e).first row := by
    cases hx : e.extra <;> simp [extraClause, hx]
  simp only [ownRows, hthrough]
  refine filter_congr fun row hrow => ?_
  have hcolumn := columnIs_eq (htells row.1 (fst_mem_of_mem_joinedRows hrow) _ mem_cons_self)
  rw [whereHolds_of_plain (hwheres _ rfl)]
  simp only [queryForEntry, all_append, htype, hextra, hk, all_cons, hcolumn]
  rw [Bool.eq_iff_iff]
  simp only [Bool.and_eq_true]
  tauto

theorem nodup_ownRows (hjoined : e.relationship.joinedColumns = none)
    (hnodup : content.target.Nodup) :
    ((ownRows s.collation e content parent).map Prod.fst).Nodup := by
  rw [ownRows_direct hplain hthrough hk htells, hjoined]
  have hrows : (joinedRows (none : Option (List String)).isSome content).map Prod.fst =
      content.target := by
    simp [joinedRows, CountContent.found, map_flatMap]
  exact hnodup.sublist (hrows ▸ filter_sublist.map _)

end

theorem loadRows_length (h : Countable s primaryKey e.relationship) (hplain : Plain e.scopeWheres)
    {contents : String → CountContent κ}
    (hnodup : (contents e.relationship.tables).target.Nodup)
    (htells : TellsKeys s.collation e.relationship.foreignKey (contents e.relationship.tables)
      [some k])
    (hk : readColumn parent primaryKey = some k) :
    ∃ rows, loadRows s.collation e (contents e.relationship.tables) parent = some rows ∧
      rows.length = countFor s.toDatabase contents e k := by
  refine ⟨_, by rw [loadRows, if_neg (by simp [h.unambiguous])], ?_⟩
  rcases h.rows with hlimit | hdirect
  · have hzero : countOf (queryForEntry s.collation e) (contents e.relationship.tables) k = 0 :=
      if_pos hlimit
    simp [hlimit, countFor, hzero]
  · have hk' : readColumn parent e.relationship.primaryKey = some k := hdirect.primaryKey ▸ hk
    set own := ownRows s.collation e (contents e.relationship.tables) parent with hown
    have hrows : (if e.relationship.distinct = true
        then distinct ((orderBy e.relationship.order own).map Prod.fst)
        else (orderBy e.relationship.order own).map Prod.fst).length = own.length := by
      have hperm := (orderBy_perm e.relationship.order own).map Prod.fst
      split
      · rename_i hdistinct
        have := nodup_ownRows hplain hdirect.through hk' htells (hdirect.distinct hdistinct)
          hnodup
        rw [distinct_of_nodup (hperm.nodup_iff.2 this), hperm.length_eq, length_map]
      · rw [hperm.length_eq, length_map]
    have htext : ¬ (s.primaryKeyText = true ∧ e.relationship.foreignKeyText = false) := by
      rintro ⟨hp, hf⟩
      rw [hdirect.text hp] at hf
      cases hf
    have hsome : ¬ (queryForEntry s.collation e).limit = some 0 := by simp [queryForEntry, hdirect.limit]
    rw [countFor, if_neg htext, countOf, if_neg hsome, countP_eq_length_filter]
    simp only [hdirect.limit, Option.elim_none]
    rw [hrows, hown, ownRows_direct hplain hdirect.through hk' htells]
    rfl

end Loads

theorem associationCount_eq {attached : List (Attached κ)} {model : Record κ} {name : String}
    {n : ℕ} (hmem : (model, name, n) ∈ attached)
    (honly : ∀ a ∈ attached, a.1 = model → a.2.1 = name → a.2.2 = n) :
    associationCount attached model name = some n := by
  have hsome : (attached.reverse.find? fun a => a.1 = model ∧ a.2.1 = name).isSome := by
    rw [find?_isSome]
    exact ⟨_, mem_reverse.2 hmem, by simp⟩
  obtain ⟨a, ha⟩ := Option.isSome_iff_exists.1 hsome
  have hprop := find?_some ha
  simp only [decide_eq_true_eq] at hprop
  rw [associationCount, ha, Option.map_some,
    honly a (mem_reverse.1 (mem_of_find?_eq_some ha)) hprop.1 hprop.2]

section Counts

variable {s : Server κ} {primaryKey : String} {contents : String → CountContent κ}

theorem agreesOn_of_countable {entries : List (Entry κ)} {models : List (Record κ)}
    (hcountable : ∀ e ∈ entries, Countable s primaryKey e.relationship)
    (hask : Askable s primaryKey entries models)
    (hexact : KeysExact s primaryKey entries contents models)
    (hnodup : ∀ tables, (contents tables).target.Nodup) :
    AgreesOn s primaryKey contents entries models := by
  obtain ⟨attached, hrun, hmem⟩ := runWithCount_spec hask hexact
    (fun e he => (hcountable e he).ordered) fun e he n hn => by
      rcases (hcountable e he).rows with hlimit | hdirect
      · exact .inl (Option.some.inj (hn.symm.trans hlimit))
      · rw [hdirect.limit] at hn
        cases hn
  refine ⟨attached, hrun, fun e he honly model hmodel => ?_⟩
  obtain ⟨k, hk, -⟩ := hask.ids model hmodel
  obtain ⟨rows, hrows, hlength⟩ := loadRows_length (hcountable e he) (hask.plain e he)
    (hnodup e.relationship.tables) (fun record hrecord value hvalue =>
      hexact e he record hrecord value (mem_map.2 ⟨model, hmodel, by
        rw [hk, mem_singleton.1 hvalue]⟩)) hk
  refine ⟨rows, hrows, associationCount_eq ?_ fun a ha hfirst hname => ?_⟩
  · rw [hmem]
    refine ⟨e, he, mem_map.2 ⟨model, hmodel, ?_⟩⟩
    rw [hk, hlength]
    rfl
  · obtain ⟨e', he', hin⟩ := (hmem a).1 ha
    obtain ⟨model', -, rfl⟩ := mem_map.1 hin
    obtain rfl : model' = model := hfirst
    obtain rfl := honly e' he' hname
    rw [hk, hlength]
    rfl

end Counts

/-! ## Relationships that are not countable -/

section Single

variable {s : Server κ} {primaryKey : String} {r : CountedRelationship κ} {k : κ}

/-- A relationship on its own, without conditions. -/
def entryOf (r : CountedRelationship κ) : Entry κ := { attributeName := "count", relationship := r }

def targetOf (r : CountedRelationship κ) (k : κ) : Record κ :=
  (r.foreignKey, k) :: r.polymorphic.toList

omit [DecidableEq κ] in
theorem askable_single {parent : Record κ} (hk : readColumn parent primaryKey = some k)
    (hname : WhereModelClassHash.operator? (s.keys.text (some k)) = none) :
    Askable s primaryKey [entryOf r] [parent] where
  plain e he := by
    obtain rfl := mem_singleton.1 he
    intro c hc
    cases hc
  texts e he e' he' _ contents cohort := by
    rw [mem_singleton.1 he, mem_singleton.1 he']
  ids model hmodel := by
    rw [mem_singleton.1 hmodel]
    exact ⟨k, hk, hname⟩

theorem keysExact_single {content : CountContent κ} {parent : Record κ}
    (hk : readColumn parent primaryKey = some k)
    (htells : TellsKeys s.collation r.foreignKey content [some k]) :
    KeysExact s primaryKey [entryOf r] (fun _ => content) [parent] := by
  intro e he
  obtain rfl := mem_singleton.1 he
  rwa [map_singleton, hk]

/-- The database tells keys apart where there is only one. -/
theorem tellsKeys_of_only {c : Collation κ} {foreignKey : String} {content : CountContent κ}
    (h : ∀ record ∈ content.target, ∀ k' ∈ readColumn record foreignKey, k' = k) :
    TellsKeys c foreignKey content [some k] := by
  intro record hrecord value hvalue
  obtain rfl := mem_singleton.1 hvalue
  cases hread : readColumn record foreignKey with
  | none => rfl
  | some k' =>
    obtain rfl := h record hrecord k' hread
    simp [Collation.Tells]

theorem runWithCount_single (contents : String → CountContent κ) (parent : Record κ) :
    runWithCount s primaryKey contents [entryOf r] [parent] =
      ((executeCountQuery s.toDatabase contents (queryForEntry s.collation (entryOf r))
        [readColumn parent primaryKey]).map (setCounts .empty)).map fun counts =>
          attachCounts s.toDatabase primaryKey counts (entryOf r) [parent] := by
  have hgroups : (queryGroups s [entryOf r]).values =
      [(queryForEntry s.collation (entryOf r), [entryOf r])] := rfl
  have hchunk : chunkValues s.maxInClauseValues s.fits [readColumn parent primaryKey] =
      [[readColumn parent primaryKey]] := by simp [chunkValues, chunksFrom]
  rw [runWithCount]
  simp only [hgroups, map_cons, map_nil, executeChunkedCountQuery, hchunk,
    mapM_cons, foldlM_cons]
  cases executeCountQuery s.toDatabase contents (queryForEntry s.collation (entryOf r))
    [readColumn parent primaryKey] <;> simp

theorem ordered_of_agrees {content : CountContent κ} {parent : Record κ}
    (h : AgreesOn s primaryKey (fun _ => content) [entryOf r] [parent]) :
    r.order.isSome = true → s.ordersGroups = true := by
  intro horder
  obtain ⟨attached, hrun, -⟩ := h
  by_contra hgroups
  have hnone : executeCountQuery s.toDatabase (fun _ => content) (queryForEntry s.collation (entryOf r))
      [readColumn parent primaryKey] = none := by
    have hthrows : s.ordersGroups = false := by simpa using hgroups
    rw [executeCountQuery]
    simp [queryForEntry, entryOf, horder, hthrows]
  rw [runWithCount_single, hnone] at hrun
  cases hrun

theorem loads_of_agrees {content : CountContent κ} {parent : Record κ}
    (hk : readColumn parent primaryKey = some k)
    (hname : WhereModelClassHash.operator? (s.keys.text (some k)) = none)
    (htells : TellsKeys s.collation r.foreignKey content [some k])
    (h : AgreesOn s primaryKey (fun _ => content) [entryOf r] [parent]) :
    ∃ rows, loadRows s.collation (entryOf r) content parent = some rows ∧
      rows.length = countFor s.toDatabase (fun _ => content) (entryOf r) k := by
  have hordered := ordered_of_agrees h
  obtain ⟨attached, hrun, hcounts⟩ := h
  obtain ⟨attached', hrun', hmem⟩ := runWithCount_spec (s := s)
    (askable_single (r := r) hk hname) (keysExact_single hk htells)
    (fun e he => by rw [mem_singleton.1 he]; exact hordered)
    (fun e he n _ => by simp only [length_singleton]; omega)
  cases hrun.symm.trans hrun'
  obtain ⟨rows, hrows, hcount⟩ := hcounts (entryOf r) (by simp)
    (fun e' he' _ => mem_singleton.1 he') parent (by simp)
  refine ⟨rows, hrows, Option.some.inj (hcount.symm.trans (associationCount_eq ?_ ?_))⟩
  · rw [hmem]
    exact ⟨entryOf r, by simp, by simp [entryCounts, hk]⟩
  · intro a ha _ _
    obtain ⟨e, he, hin⟩ := (hmem a).1 ha
    obtain rfl := mem_singleton.1 he
    obtain rfl := mem_singleton.1 hin
    simp [hk]

omit [DecidableEq κ] in
theorem readColumn_targetOf (rest : Record κ) :
    readColumn (targetOf r k ++ rest) r.foreignKey = some k := by
  simp [targetOf, readColumn]

omit [DecidableEq κ] in
theorem only_targetOf (rest : Record κ) : ∀ record ∈ [targetOf r k ++ rest],
    ∀ k' ∈ readColumn record r.foreignKey, k' = k := by
  intro record hrecord k' hk'
  rw [mem_singleton.1 hrecord, readColumn_targetOf] at hk'
  exact (Option.mem_some_iff.1 hk').symm

omit [DecidableEq κ] in
theorem typeIs_targetOf (c : Collation κ) (rest : Record κ) :
    typeIs c r.toAssociation (targetOf r k ++ rest) := by
  cases hp : r.polymorphic with
  | none => simp [typeIs, hp]
  | some p =>
    obtain ⟨typeColumn, modelName⟩ := p
    have hne : (typeColumn == r.foreignKey) = false := by simpa using r.type_ne _ _ hp
    simp [typeIs, hp, targetOf, readColumn, List.lookup, hne]

theorem countFor_entryOf (hzero : r.limit ≠ some 0)
    (htext : s.primaryKeyText = true → r.foreignKeyText = true) (content : CountContent κ) :
    countFor s.toDatabase (fun _ => content) (entryOf r) k =
      (joinedRows r.joinedColumns.isSome content).countP fun row =>
        typeIs s.collation r.toAssociation row.1 && readColumn row.1 r.foreignKey = some k := by
  have hmatch : ¬ (s.primaryKeyText = true ∧ (entryOf r).relationship.foreignKeyText = false) := by
    rintro ⟨hp, hf⟩
    rw [entryOf, htext hp] at hf
    cases hf
  rw [countFor, if_neg hmatch, countOf, if_neg (by simpa [queryForEntry, entryOf] using hzero)]
  cases hp : r.polymorphic <;> simp [queryForEntry, entryOf, typeIs, hp]

theorem loadRows_pos {e : Entry κ} {content : CountContent κ} {parent : Record κ}
    {rows : List (Record κ)} (hzero : e.relationship.limit ≠ some 0)
    (hown : ownRows s.collation e content parent ≠ [])
    (hrows : loadRows s.collation e content parent = some rows) : 0 < rows.length := by
  rw [loadRows] at hrows
  split at hrows
  · cases hrows
  · have hordered : (orderBy e.relationship.order (ownRows s.collation e content parent)).map Prod.fst ≠ [] := by
      intro hnil
      have := (orderBy_perm e.relationship.order (ownRows s.collation e content parent)).length_eq
      rw [map_eq_nil_iff.1 hnil] at this
      exact hown (length_eq_zero_iff.1 this.symm)
    obtain ⟨record, hrecord⟩ := exists_mem_of_ne_nil _ hordered
    have hpos : 0 < (if e.relationship.distinct = true then distinct
        ((orderBy e.relationship.order (ownRows s.collation e content parent)).map Prod.fst)
        else (orderBy e.relationship.order (ownRows s.collation e content parent)).map Prod.fst).length := by
      refine length_pos_of_mem (a := record) ?_
      split
      · exact mem_distinct.2 hrecord
      · exact hrecord
    cases hrows
    cases hlimit : e.relationship.limit with
    | none => simpa using hpos
    | some n =>
      have hn : 0 < n := Nat.pos_of_ne_zero fun h => hzero (by rw [hlimit, h])
      simp only [Option.elim_some, length_take]
      exact Nat.lt_min.2 ⟨hn, hpos⟩

omit [DecidableEq κ] in
theorem mem_readColumn_single {a b : String} {k' : κ} (h : k' ∈ readColumn [(a, k)] b) :
    k' = k := by
  by_cases hab : b = a
  · simpa [readColumn, hab, eq_comm] using h
  · have hne : (b == a) = false := by simpa using hab
    simp [readColumn, List.lookup, hne] at h

omit [DecidableEq κ] in
theorem readColumn_pair (a b : String) : readColumn [(a, k), (b, k)] b = some k := by
  by_cases hab : b = a
  · simp [readColumn, hab]
  · have hne : (b == a) = false := by simpa using hab
    simp [readColumn, List.lookup, hne]

omit [DecidableEq κ] in
theorem found_default (joins : Bool) (target through : List (Record κ)) (record : Record κ) :
    CountContent.found { target := target, through := through } joins record = [[]] := by
  cases joins <;> rfl

omit [DecidableEq κ] in
theorem joinedRows_default (joins : Bool) (target through : List (Record κ)) :
    joinedRows joins { target := target, through := through } =
      target.map fun record => (record, ([] : Record κ)) := by
  simp [joinedRows, found_default, map_eq_flatMap]

omit [DecidableEq κ] in
theorem ownRows_alone (ht : r.through = none) (target : List (Record κ)) (parent : Record κ) :
    ownRows s.collation (entryOf r) { target := target } parent =
      (target.filter fun record => columnIs s.collation r.foreignKey (readColumn parent r.primaryKey) record &&
        typeIs s.collation r.toAssociation record).map fun record => (record, []) := by
  have hplain (first : Joined κ → Bool) :
      Plain [(⟨first, []⟩ : Clause (Joined κ)), extraClause (entryOf r)] := by
    intro c hmem
    rcases (by simpa using hmem : c = ⟨first, []⟩ ∨ c = extraClause (entryOf r)) with rfl | rfl
    · rfl
    · rfl
  have hown : ownRows s.collation (entryOf r) { target := target } parent =
      (joinedRows r.joinedColumns.isSome { target := target }).filter (whereHolds
        [⟨fun row => columnIs s.collation r.foreignKey (readColumn parent r.primaryKey) row.1 &&
          typeIs s.collation r.toAssociation row.1, []⟩, extraClause (entryOf r)]) := by
    simp only [ownRows, entryOf, ht]
    rfl
  rw [hown, joinedRows_default, filter_map]
  congr 1
  refine filter_congr fun record _ => ?_
  rw [Function.comp_apply, whereHolds_of_plain (hplain _)]
  simp [extraClause, entryOf]

omit [DecidableEq κ] in
theorem ownRows_through {t : Through} (ht : r.through = some t) (target through : List (Record κ))
    (parent : Record κ) :
    ownRows s.collation (entryOf r) { target := target, through := through } parent =
      ((leftJoin s.collation t { target := target, through := through }).filter fun row =>
        s.collation.eq (row.2.bind (readColumn · t.foreignKey)) (readColumn parent r.primaryKey)).map
          fun row => (row.1, []) := by
  have hplain (first : (Joined κ × Option (Record κ)) → Bool) :
      Plain [(⟨first, []⟩ : Clause (Joined κ × Option (Record κ))),
        (extraClause (entryOf r)).comap Prod.fst] := by
    intro c hmem
    rcases (by simpa using hmem : c = ⟨first, []⟩ ∨
      c = (extraClause (entryOf r)).comap Prod.fst) with rfl | rfl
    · rfl
    · rfl
  have hown : ownRows s.collation (entryOf r) { target := target, through := through } parent =
      ((((leftJoin s.collation t { target := target, through := through }).map fun row =>
        ((row.1, ([] : Record κ)), row.2)).filter (whereHolds
          [⟨fun row => s.collation.eq (row.2.bind (readColumn · t.foreignKey))
            (readColumn parent r.primaryKey), []⟩,
            (extraClause (entryOf r)).comap Prod.fst])).map Prod.fst) := by
    simp only [ownRows, entryOf, ht, found_default, map_cons, map_nil,
      ← map_eq_flatMap]
    rfl
  rw [hown, filter_map, map_map]
  congr 1
  refine filter_congr fun row _ => ?_
  rw [Function.comp_apply, whereHolds_of_plain (hplain _)]
  simp [extraClause, entryOf, Clause.comap]

theorem loadRows_nil {e : Entry κ} {content : CountContent κ} {parent : Record κ}
    {rows : List (Record κ)} (hown : ownRows s.collation e content parent = [])
    (hrows : loadRows s.collation e content parent = some rows) : rows = [] := by
  rw [loadRows] at hrows
  split at hrows
  · cases hrows
  · have hempty : orderBy e.relationship.order ([] : List (Joined κ)) = [] :=
      length_eq_zero_iff.1 (orderBy_perm _ _).length_eq
    cases hrows
    simp only [hown, hempty, distinct]
    cases e.relationship.limit <;> simp

theorem length_loadRows_le {e : Entry κ} {content : CountContent κ} {parent : Record κ}
    {rows : List (Record κ)} {n : ℕ} (hlimit : e.relationship.limit = some n)
    (hrows : loadRows s.collation e content parent = some rows) : rows.length ≤ n := by
  simp only [loadRows, hlimit] at hrows
  split at hrows
  · cases hrows
  · cases hrows
    exact length_take_le _ _

variable (s primaryKey r) in
/-- A relationship on its own agrees, for some parents of the id `k`. -/
def AgreesAlone (k : κ) : Prop :=
  ∀ content parent, readColumn parent primaryKey = some k →
    TellsKeys s.collation r.foreignKey content [some k] → content.target.Nodup →
    AgreesOn s primaryKey (fun _ => content) [entryOf r] [parent]

variable (hname : WhereModelClassHash.operator? (s.keys.text (some k)) = none)
  (h : AgreesAlone s primaryKey r k)

include hname h

theorem loads_alone (content : CountContent κ) {parent : Record κ}
    (hk : readColumn parent primaryKey = some k)
    (honly : ∀ record ∈ content.target, ∀ k' ∈ readColumn record r.foreignKey, k' = k)
    (hnodup : content.target.Nodup) :
    ∃ rows, loadRows s.collation (entryOf r) content parent = some rows ∧
      rows.length = countFor s.toDatabase (fun _ => content) (entryOf r) k := by
  have htells := tellsKeys_of_only (c := s.collation) honly
  exact loads_of_agrees hk hname htells (h content parent hk htells hnodup)

section
variable (hzero : r.limit ≠ some 0)
include hzero

theorem text_of_agrees :
    s.primaryKeyText = true → r.foreignKeyText = true := by
  intro hp
  by_contra hf
  have hcount (content : CountContent κ) :
      countFor s.toDatabase (fun _ => content) (entryOf r) k = 0 :=
    if_pos ⟨hp, (by simpa using hf : r.foreignKeyText = false)⟩
  have hparent : readColumn [(primaryKey, k), (r.primaryKey, k)] primaryKey = some k := by
    simp [readColumn]
  have hno (content : CountContent κ)
      (honly : ∀ record ∈ content.target, ∀ k' ∈ readColumn record r.foreignKey, k' = k)
      (hnodup : content.target.Nodup) :
      ownRows s.collation (entryOf r) content [(primaryKey, k), (r.primaryKey, k)] = [] := by
    obtain ⟨rows, hrows, hlength⟩ := loads_alone hname h content hparent honly hnodup
    by_contra hown
    have := loadRows_pos hzero hown hrows
    rw [hlength, hcount] at this
    exact Nat.lt_irrefl 0 this
  cases ht : r.through with
  | none =>
    have := hno { target := [targetOf r k ++ []] } (only_targetOf []) (by simp)
    have htype := typeIs_targetOf (r := r) (k := k) s.collation []
    have hfk := readColumn_targetOf (r := r) (k := k) []
    rw [ownRows_alone ht, readColumn_pair] at this
    simp_all [columnIs]
  | some t =>
    have := hno { target := [[(t.targetForeignKey, k)]]
                  through := [[(t.primaryKey, k), (t.foreignKey, k)]] }
      (fun record hrecord k' hk' => mem_readColumn_single (mem_singleton.1 hrecord ▸ hk')) (by simp)
    have hpk : readColumn [(t.primaryKey, k), (t.foreignKey, k)] t.primaryKey = some k := by
      simp [readColumn]
    have htarget : readColumn [(t.targetForeignKey, k)] t.targetForeignKey = some k := by
      simp [readColumn]
    rw [ownRows_through ht] at this
    simp [leftJoin, hpk, htarget, readColumn_pair] at this

theorem countFor_targetOf :
    countFor s.toDatabase (fun _ => { target := [targetOf r k ++ []] }) (entryOf r) k = 1 := by
  rw [countFor_entryOf hzero (text_of_agrees hname h hzero), joinedRows_default]
  have htype := typeIs_targetOf (r := r) (k := k) s.collation []
  have hfk := readColumn_targetOf (r := r) (k := k) []
  simp_all

theorem ownRows_ne_nil_of_agrees {parent : Record κ}
    (hk : readColumn parent primaryKey = some k) :
    ownRows s.collation (entryOf r) { target := [targetOf r k ++ []] } parent ≠ [] := by
  intro hnil
  obtain ⟨rows, hrows, hlength⟩ := loads_alone hname h { target := [targetOf r k ++ []] } hk
    (only_targetOf []) (by simp)
  rw [countFor_targetOf hname h hzero, loadRows_nil hnil hrows] at hlength
  cases hlength

theorem through_of_agrees : r.through = none := by
  cases ht : r.through with
  | none => rfl
  | some t =>
    have hk : readColumn [(primaryKey, k)] primaryKey = some k := by simp [readColumn]
    refine absurd ?_ (ownRows_ne_nil_of_agrees hname h hzero hk)
    rw [ownRows_through ht]
    simp [leftJoin]

theorem primaryKey_of_agrees : r.primaryKey = primaryKey := by
  by_contra hne
  have hk : readColumn [(primaryKey, k)] primaryKey = some k := by simp [readColumn]
  refine ownRows_ne_nil_of_agrees hname h hzero hk ?_
  have hnone : readColumn [(primaryKey, k)] r.primaryKey = none := by
    have : (r.primaryKey == primaryKey) = false := by simpa using hne
    simp [readColumn, List.lookup, this]
  have hfk := readColumn_targetOf (r := r) (k := k) []
  rw [ownRows_alone (through_of_agrees hname h hzero)]
  simp_all [columnIs]

theorem limit_of_agrees : r.limit = none := by
  cases hlimit : r.limit with
  | none => rfl
  | some n =>
    have hk : readColumn [(primaryKey, k)] primaryKey = some k := by simp [readColumn]
    set target := (List.range (n + 1)).map fun i =>
      targetOf r k ++ [(String.ofList (List.replicate i 'x'), k)] with htarget
    have hnodup : target.Nodup := by
      refine nodup_range.map_on fun i _ j _ heq => ?_
      have := congrArg String.toList (by simpa using append_cancel_left heq :
        String.ofList (List.replicate i 'x') = String.ofList (List.replicate j 'x'))
      simpa using congrArg List.length this
    obtain ⟨rows, hrows, hlength⟩ := loads_alone hname h { target := target } hk
      (fun record hmem k' hk' => by
        obtain ⟨i, -, rfl⟩ := mem_map.1 hmem
        rw [readColumn_targetOf] at hk'
        exact (Option.mem_some_iff.1 hk').symm) hnodup
    have hcount : countFor s.toDatabase (fun _ => { target := target }) (entryOf r) k = n + 1 := by
      rw [countFor_entryOf hzero (text_of_agrees hname h hzero), joinedRows_default,
        countP_map, countP_eq_length.2, length_map, length_range]
      intro record hmem
      obtain ⟨i, -, rfl⟩ := mem_map.1 hmem
      simp [typeIs_targetOf, readColumn_targetOf]
    have hle := length_loadRows_le (e := entryOf r) hlimit hrows
    rw [hlength, hcount] at hle
    omega

theorem distinct_of_agrees (hdistinct : r.distinct = true) :
    r.joinedColumns = none := by
  cases hj : r.joinedColumns with
  | none => rfl
  | some columns =>
    have hk : readColumn [(primaryKey, k)] primaryKey = some k := by simp [readColumn]
    have hk' : readColumn [(primaryKey, k)] (entryOf r).relationship.primaryKey = some k := by
      rw [entryOf, primaryKey_of_agrees hname h hzero, hk]
    obtain ⟨rows, hrows, hlength⟩ := loads_alone hname h
      { target := [targetOf r k ++ []], joined := fun _ => [[], [("", k)]] } hk (only_targetOf [])
      (by simp)
    have hcount : countFor s.toDatabase (fun _ =>
        { target := [targetOf r k ++ []], joined := fun _ => [[], [("", k)]] }) (entryOf r) k = 2 := by
      rw [countFor_entryOf hzero (text_of_agrees hname h hzero)]
      have htype := typeIs_targetOf (r := r) (k := k) s.collation []
      have hfk := readColumn_targetOf (r := r) (k := k) []
      simp_all [joinedRows, CountContent.found]
    have hloaded : rows = distinct ((orderBy r.order (ownRows s.collation (entryOf r)
        { target := [targetOf r k ++ []], joined := fun _ => [[], [("", k)]] }
        [(primaryKey, k)])).map Prod.fst) := by
      rw [loadRows] at hrows
      split at hrows
      · cases hrows
      · cases hrows
        simp [entryOf, limit_of_agrees hname h hzero, hdistinct]
    have hnodup : rows.Nodup := hloaded ▸ nodup_distinct _
    have hsub : rows ⊆ [targetOf r k ++ []] := by
      intro record hmem
      rw [hloaded, mem_distinct, mem_map] at hmem
      obtain ⟨row, hrow, rfl⟩ := hmem
      have hplain : Plain (entryOf r).scopeWheres := fun c hc => (by cases hc)
      have hthrough : (entryOf r).relationship.through = none := through_of_agrees hname h hzero
      rw [(orderBy_perm _ _).mem_iff, ownRows_direct hplain hthrough hk'
        (tellsKeys_of_only (only_targetOf []))] at hrow
      exact fst_mem_of_mem_joinedRows (mem_of_mem_filter hrow)
    have := (subperm_of_subset hnodup hsub).length_le
    rw [hlength, hcount] at this
    simp at this

end

omit hname h in
theorem unambiguous_of_agrees {content : CountContent κ} {parent : Record κ}
    (hagrees : AgreesOn s primaryKey (fun _ => content) [entryOf r] [parent]) :
    isAmbiguous r = false := by
  obtain ⟨attached, -, hcounts⟩ := hagrees
  obtain ⟨rows, hrows, -⟩ := hcounts (entryOf r) (by simp)
    (fun e' he' _ => mem_singleton.1 he') parent (by simp)
  rw [loadRows] at hrows
  split at hrows
  · cases hrows
  · rename_i hambiguous
    simpa [entryOf] using hambiguous

theorem countable_of_agrees : Countable s primaryKey r := by
  have hk : readColumn [(primaryKey, k)] primaryKey = some k := by simp [readColumn]
  have hagrees : AgreesOn s primaryKey (fun _ => { target := [] }) [entryOf r] [[(primaryKey, k)]] :=
    h { target := [] } _ hk (fun _ hmem => (by cases hmem)) nodup_nil
  refine ⟨ordered_of_agrees hagrees, unambiguous_of_agrees hagrees, ?_⟩
  by_cases hzero : r.limit = some 0
  · exact .inl hzero
  · exact .inr
      { through := through_of_agrees hname h hzero
        primaryKey := primaryKey_of_agrees hname h hzero
        limit := limit_of_agrees hname h hzero
        distinct := distinct_of_agrees hname h hzero
        text := text_of_agrees hname h hzero }

end Single

/-- **Counts and relationships.** The counts of some relationships agree with what their own queries
    load, whatever is stored and however they are asked for, exactly where all of them are
    countable. -/
theorem with_count_agrees {s : Server κ} {primaryKey : String}
    {accepted : Set (CountedRelationship κ)} {k : κ}
    (hname : WhereModelClassHash.operator? (s.keys.text (some k)) = none) :
    CountsAgree s primaryKey accepted ↔ ∀ r ∈ accepted, Countable s primaryKey r := by
  constructor
  · intro h r hr
    refine countable_of_agrees hname fun content parent hk htells hnodup => ?_
    refine h [entryOf r] [parent] (fun _ => content) (fun e he => ?_) (askable_single hk hname)
      (keysExact_single hk htells) fun _ => hnodup
    rw [mem_singleton.1 he]
    exact hr
  · intro h entries models contents haccepted hask hexact hnodup
    exact agreesOn_of_countable (fun e he => h _ (haccepted e he)) hask hexact hnodup

def numbersServer : Server ℕ where
  keys := numbers
  maxInClauseValues := 1
  fits _ := true
  ordersGroups := true
  primaryKeyText := false
  tupleCounts _ := none
  collation := .binary
  toSql q := q.tables

/-- `Project.hasMany("tasks", (scope) => scope.order("position"))` -/
def countedTasks : CountedRelationship ℕ where
  foreignKey := "project_id"
  primaryKey := "id"
  polymorphic := none
  tables := "tasks"
  order := some
    { le := fun a b => byPosition.le a.1 b.1
      le_trans := fun _ _ _ => byPosition.le_trans _ _ _
      le_total := fun _ _ => byPosition.le_total _ _ }

theorem with_count_agrees_tasks : CountsAgree numbersServer "id" {countedTasks} :=
  (with_count_agrees (numbers_no_operator 0)).2 fun r hr => by
    obtain rfl := Set.mem_singleton_iff.1 hr
    exact ⟨fun _ => rfl, rfl, .inr ⟨rfl, rfl, rfl, fun _ => rfl, fun h => (by cases h)⟩⟩

/-- `User.hasMany("createdProjects", {foreignKey: "creating_user_reference", primaryKey: "reference"})` -/
def createdProjects : CountedRelationship ℕ where
  foreignKey := "creating_user_reference"
  primaryKey := "reference"
  polymorphic := none
  tables := "projects"

/-- A user whose reference is not its id: its project is not counted. -/
theorem with_count_other_key : ¬ CountsAgree numbersServer "id" {createdProjects} := by
  intro h
  obtain ⟨attached, hrun, hcounts⟩ := h [entryOf createdProjects] [[("id", 1), ("reference", 7)]]
    (fun _ => { target := [[("id", 3), ("creating_user_reference", 7)]] })
    (fun e he => by rw [mem_singleton.1 he]; rfl)
    (askable_single (k := 1) rfl (numbers_no_operator 1))
    (fun _ _ _ _ _ _ => Collation.tells_binary _ _) (by simp)
  obtain ⟨rows, hrows, hcount⟩ := hcounts (entryOf createdProjects) (by simp)
    (fun e' he' _ => mem_singleton.1 he') _ (mem_singleton.2 rfl)
  have hloaded : loadRows .binary (entryOf createdProjects)
      { target := [[("id", 3), ("creating_user_reference", 7)]] } [("id", 1), ("reference", 7)] =
      some [[("id", 3), ("creating_user_reference", 7)]] := by decide
  have hattached : runWithCount numbersServer "id"
      (fun _ => { target := [[("id", 3), ("creating_user_reference", 7)]] })
      [entryOf createdProjects] [[("id", 1), ("reference", 7)]] =
      some [([("id", 1), ("reference", 7)], "count", 0)] := by
    decide
  cases hloaded.symm.trans hrows
  cases hattached.symm.trans hrun
  revert hcount
  decide

end Velocious.WithCount
