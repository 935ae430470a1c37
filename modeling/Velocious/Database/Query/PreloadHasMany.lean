/-
  The has-many preloader.

  The records of all parents are loaded by queries for cohorts of their ids, and are given to the
  parents by objects with the ids as property names: `runDirect`, and `runThrough` with the ids of the
  through records in between. `none` is where the code throws.
-/
import Velocious.Foundation.EntryMap
import Velocious.Database.Query.RelationshipQueries

namespace Velocious.HasMany

open Foundation

/-- The properties that every object has: `key in {}`. -/
def inheritedNames : List String :=
  ["constructor", "__defineGetter__", "__defineSetter__", "hasOwnProperty", "__lookupGetter__",
    "__lookupSetter__", "isPrototypeOf", "propertyIsEnumerable", "toString", "valueOf", "__proto__",
    "toLocaleString"]

/-- An object whose own properties are arrays. -/
abbrev Arrays (α : Type) := EntryMap String (List α)

variable {κ α : Type}

/-- `if (!(key in arrays)) arrays[key] = []` and `arrays[key].push(value)`; what an object inherits
    is no array. -/
def pushInto (arrays : Arrays α) (key : String) (value : α) : Option (Arrays α) :=
  if key ∈ inheritedNames then none
  else some (arrays.set key ((arrays.get? key).getD [] ++ [value]))

/-- `arrays[key].push(value)` -/
def pushTo (arrays : Arrays α) (key : String) (value : α) : Option (Arrays α) :=
  (arrays.get? key).map fun values => arrays.set key (values ++ [value])

/-- `arrays[key] || []`, to be iterated -/
def valuesAt (arrays : Arrays α) (key : String) : Option (List α) :=
  if key ∈ inheritedNames then none else some ((arrays.get? key).getD [])

/-! ## Preloading -/

section Preload

variable [DecidableEq κ] (d : Driver κ) (r : Relationship κ) (content : Content κ)
  (parents : List (Record κ))

/-- The property name of a column's value. -/
def textOf (record : Record κ) (column : String) : String := d.keys.text (readColumn record column)

def primaryKeyValues : List (Option κ) :=
  distinct (parents.map fun parent => readColumn parent r.primaryKey)

/-- `modelsByPrimaryKeyValue`, and `preloadCollections` with an empty collection for each. -/
def indexModels : Option (Arrays (Record κ) × Arrays (Record κ)) := do
  let models ← parents.foldlM (fun models parent =>
    pushInto models (textOf d parent r.primaryKey) parent) .empty
  some (models, parents.foldl (fun collections parent =>
    collections.set (textOf d parent r.primaryKey) []) .empty)

/-- `setLoaded` of every model of every key, with the collection of the key. -/
def setLoaded (models collections : Arrays (Record κ)) : List (Record κ × List (Record κ)) :=
  collections.table.rows.flatMap fun (key, collection) =>
    ((models.get? key).getD []).map fun model => (model, collection)

/-- `_runDirect`: the models, each with the collection that is set loaded. -/
def runDirect : Option (List (Record κ × List (Record κ))) := do
  let (models, collections) ← indexModels d r parents
  let wheres := ⟨typeIs d.collation r.toAssociation, []⟩ :: r.scope.wheres
  let targetModels ← loadCohorts d d.targetFits r.foreignKey wheres r.scope.order content.target
    (primaryKeyValues r parents)
  let collections ← targetModels.foldlM (fun collections targetModel =>
    pushTo collections (textOf d targetModel r.foreignKey) targetModel) collections
  some (setLoaded models collections)

/-- Step 1 of `_runThrough`: `parentToTargetIds`, and `allTargetIds`. -/
def throughIds (t : Through) : Option (Arrays (Option κ) × List (Option κ)) := do
  let throughModels ← loadCohorts d d.throughFits t.foreignKey [] none content.through
    (primaryKeyValues r parents)
  let parentToTargetIds ← throughModels.foldlM (fun ids throughModel =>
    pushInto ids (textOf d throughModel t.foreignKey) (readColumn throughModel t.modelPrimaryKey))
    .empty
  some (parentToTargetIds,
    distinct (throughModels.map fun throughModel => readColumn throughModel t.modelPrimaryKey))

/-- Steps 2 and 3: `targetModelsByForeignKey`. -/
def targetsByForeignKey (t : Through) (allTargetIds : List (Option κ)) :
    Option (Arrays (Record κ)) := do
  let targetModels ← loadCohorts d d.targetFits t.targetForeignKey r.scope.wheres r.scope.order
    content.target allTargetIds
  targetModels.foldlM (fun targets targetModel =>
    pushInto targets (textOf d targetModel t.targetForeignKey) targetModel) .empty

/-- Step 4, for one parent: the targets of its through ids, in their order. -/
def mapTargets (targets collections : Arrays (Record κ)) (entry : String × List (Option κ)) :
    Option (Arrays (Record κ)) :=
  entry.2.foldlM (fun collections throughId => do
    let matching ← valuesAt targets (d.keys.text throughId)
    matching.foldlM (fun collections targetModel =>
      if (collections.get? entry.1).isSome ∨ entry.1 ∈ inheritedNames
        then pushTo collections entry.1 targetModel else some collections) collections) collections

def runThrough (t : Through) : Option (List (Record κ × List (Record κ))) := do
  let (models, collections) ← indexModels d r parents
  let (parentToTargetIds, allTargetIds) ← throughIds d r content parents t
  let targets ← targetsByForeignKey d r content t allTargetIds
  let collections ← parentToTargetIds.table.rows.foldlM (mapTargets d targets) collections
  some (setLoaded models collections)

/-- `run`, with the models to load -/
def run : Option (List (Record κ × List (Record κ))) :=
  match r.through with
  | some t => runThrough d r content parents t
  | none => runDirect d r content parents

end Preload

end Velocious.HasMany
