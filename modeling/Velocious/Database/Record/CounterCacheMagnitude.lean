/-
  A counter column that is the sum of its children's magnitudes.

  * A child has a source attribute and the key of its parent (`Image`); `Row` is one in the database,
    `Record` one in memory, with what was loaded, what is changed, and the parent that is loaded.
  * `save` is the part of a record's save that a counter cache sees: `computePendingMagnitudeDelta`
    before anything is written, the parent that is saved with the record, the row itself, and
    `applyPendingMagnitudeDelta` at the end.
  * `step`: what may happen to the records of one model, in any order.
-/
import Velocious.Foundation.Machine
import Velocious.Foundation.TableSums
import Mathlib.Logic.Function.Basic

namespace Velocious.CounterCacheMagnitude

open Foundation

/-- `MagnitudeCounterCacheDefinition`, and what it says of the models. -/
structure Definition (V κ : Type) where
  /-- of the source attribute; `none` is `null` or `undefined` -/
  magnitude : Option V → ℤ
  truthy : κ → Bool
  /-- what the database writes for a source attribute that is not given -/
  sourceDefault : Option V
  autoSave : Bool
  updatedAt : Bool

/-- The source attribute and the foreign key. -/
structure Image (V κ : Type) where
  source : Option V
  foreignKey : Option κ
  deriving DecidableEq

/-- A row of the children. -/
structure Row (ι V κ : Type) where
  id : ι
  image : Image V κ

/-- `_changes`; the flag is that of the other attributes. -/
structure Changes (V κ : Type) where
  source : Option (Option V) := none
  foreignKey : Option (Option κ) := none
  others : Bool := false

/-- A parent in memory. -/
structure ParentRecord (κ : Type) where
  key : Option κ
  isNew : Bool
  hasChanges : Bool

/-- A child in memory. -/
structure Record (ι V κ : Type) where
  id : Option ι
  attributes : Image V κ
  changes : Changes V κ
  loaded : Option ℕ
  dirty : Bool

/-- The tables and the records in memory. -/
structure State (ι V κ : Type) where
  rows : Table (Row ι V κ) Row.id
  parents : κ → Option ℤ
  records : ℕ → Option (Record ι V κ)
  parentRecords : ℕ → Option (ParentRecord κ)

variable {ι V κ : Type}

/-! ## Attributes -/

def Changes.any (changes : Changes V κ) : Bool :=
  changes.source.isSome || changes.foreignKey.isSome || changes.others

def ParentRecord.isChanged (parent : ParentRecord κ) : Bool := parent.isNew || parent.hasChanges

namespace Record

def setSource [DecidableEq V] (record : Record ι V κ) (value : Option V) : Record ι V κ :=
  if record.attributes.source = value then record
  else { record with changes := { record.changes with source := some value } }

/-- `_setColumnAttribute`, with the key of the loaded parent: another parent is not loaded any more. -/
def setForeignKey [DecidableEq κ] (record : Record ι V κ) (loadedKey : Option (Option κ))
    (value : Option κ) : Record ι V κ :=
  if record.attributes.foreignKey = value then record
  else
    { record with
      changes := { record.changes with foreignKey := some value }
      loaded := if loadedKey = some value then record.loaded else none
      dirty := if loadedKey = some value then record.dirty else false }

end Record

def State.loadedParent (s : State ι V κ) (record : Record ι V κ) : Option (ParentRecord κ) :=
  record.loaded.bind s.parentRecords

def State.loadedKey (s : State ι V κ) (record : Record ι V κ) : Option (Option κ) :=
  (s.loadedParent record).map ParentRecord.key

/-- `_belongsToChanges`: the key of a parent that was assigned. -/
def belongsToChanges (s : State ι V κ) (record : Record ι V κ) : Option (Option κ) :=
  if record.dirty then s.loadedKey record else none

/-- `readColumn`: the key of an assigned parent stands before the changes, and these before what
    was loaded. A save writes the changes over the key. -/
def State.read (s : State ι V κ) (record : Record ι V κ) : Image V κ :=
  ⟨record.changes.source.getD record.attributes.source,
    (belongsToChanges s record).getD
      (record.changes.foreignKey.getD record.attributes.foreignKey)⟩

/-! ## The counter cache -/

/-- What a save moves once it has written. -/
structure PendingMagnitudeDelta (κ : Type) where
  newMagnitude : ℤ
  oldMagnitude : ℤ
  newParentId : Option κ
  oldParentId : Option κ

section CounterCache

variable (definition : Definition V κ)

def oldSourceValueThroughReadCast (record : Record ι V κ) (currentValue : Option V) : Option V :=
  if record.changes.source.isNone then currentValue else record.attributes.source

def computePendingMagnitudeDelta (s : State ι V κ) (record : Record ι V κ) :
    PendingMagnitudeDelta κ :=
  let newSource := (s.read record).source
  let oldSource := oldSourceValueThroughReadCast record newSource
  let newParentId := (s.read record).foreignKey
  { newMagnitude := definition.magnitude newSource
    oldMagnitude := definition.magnitude oldSource
    newParentId
    oldParentId :=
      if record.changes.foreignKey.isSome then record.attributes.foreignKey else newParentId }

variable [DecidableEq κ]

/-- `UPDATE … SET counter = COALESCE(counter, 0) + amount WHERE pk = parentId` -/
def incrementParentCounter (parents : κ → Option ℤ) (parentId : κ) (amount : ℤ) : κ → Option ℤ :=
  Function.update parents parentId ((parents parentId).map (· + amount))

/-- `if (parentId && amount !== 0)` -/
def incrementTruthy (parents : κ → Option ℤ) (parentId : Option κ) (amount : ℤ) : κ → Option ℤ :=
  match parentId with
  | none => parents
  | some key =>
    if definition.truthy key ∧ amount ≠ 0 then incrementParentCounter parents key amount
    else parents

def applyPendingMagnitudeDelta (pending : PendingMagnitudeDelta κ) (parents : κ → Option ℤ) :
    κ → Option ℤ :=
  if pending.oldParentId = pending.newParentId then
    incrementTruthy definition parents pending.newParentId
      (pending.newMagnitude - pending.oldMagnitude)
  else
    incrementTruthy definition
      (incrementTruthy definition parents pending.oldParentId (-pending.oldMagnitude))
      pending.newParentId pending.newMagnitude

def afterDestroy (s : State ι V κ) (record : Record ι V κ) : κ → Option ℤ :=
  incrementTruthy definition s.parents (s.read record).foreignKey
    (-definition.magnitude (s.read record).source)

end CounterCache

/-! ## Saves -/

section Saves

variable [DecidableEq ι] [DecidableEq κ] (definition : Definition V κ)

/-- Saves a parent; a new one gets the key, unless it has one. -/
def saveParentRecord (parents : κ → Option ℤ) (parent : ParentRecord κ) (key : κ) :
    Option ((κ → Option ℤ) × ParentRecord κ) :=
  if parent.isNew then
    let key := parent.key.getD key
    if (parents key).isSome then none
    else some (Function.update parents key (some 0), ⟨some key, false, false⟩)
  else if (parent.key.bind parents).isSome then some (parents, { parent with hasChanges := false })
  else none

/-- `_autoSaveBelongsToRelationships`; the flag says that the parent was saved. -/
def autoSaveBelongsToRelationships (s : State ι V κ) (record : Record ι V κ) (key : κ) :
    Option (State ι V κ × Record ι V κ × Bool) :=
  match record.loaded with
  | none => some (s, record, false)
  | some j =>
    match s.parentRecords j with
    | none => some (s, record, false)
    | some parent =>
      if definition.autoSave && parent.isChanged then
        (saveParentRecord s.parents parent key).map fun (parents, parent') =>
          ({ s with parents, parentRecords := Function.update s.parentRecords j (some parent') },
            { record.setForeignKey (some parent'.key) parent'.key with dirty := false }, true)
      else some (s, record, false)

/-- What a row gets, over what it is. -/
def writtenImage (s : State ι V κ) (record : Record ι V κ) (image : Image V κ) : Image V κ :=
  ⟨record.changes.source.getD image.source,
    (record.changes.foreignKey.or (belongsToChanges s record)).getD image.foreignKey⟩

/-- There is something to update. -/
def hasData (s : State ι V κ) (record : Record ι V κ) (parentSaved : Bool) : Bool :=
  record.changes.any ||
    (parentSaved && (definition.updatedAt || (belongsToChanges s record).isSome))

/-- `_createNewRecord` with the key `id`, or `_updateRecordWithChanges`; then the record is
    reloaded. -/
def writeRecord (s : State ι V κ) (record : Record ι V κ) (parentSaved : Bool) (id : ι) :
    Option (State ι V κ × Record ι V κ) :=
  match record.id with
  | none =>
    let image := writtenImage s record ⟨definition.sourceDefault, none⟩
    (s.rows.insert? ⟨id, image⟩).map fun rows =>
      ({ s with rows }, { record with id := some id, attributes := image, changes := {} })
  | some id =>
    if hasData definition s record parentSaved then
      (s.rows.find? id).map fun row =>
        let image := writtenImage s record row.image
        ({ s with rows := s.rows.modify id fun row => { row with image } },
          { record with attributes := image, changes := {} })
    else some (s, record)

/-- Where a save fails; the transaction is rolled back, the records in memory are not. -/
inductive Failure where
  | early
  | parentSaved
  | written

/-- `save` of the record `i`; `id` and `key` are the keys of what it inserts. -/
def save (s : State ι V κ) (i : ℕ) (record : Record ι V κ) (id : ι) (key : κ) :
    Option Failure → Option (State ι V κ)
  | some .early => some s
  | some .parentSaved =>
    (autoSaveBelongsToRelationships definition s record key).map fun (s', record', _) =>
      { s with
        parentRecords := s'.parentRecords
        records := Function.update s.records i (some record') }
  | some .written =>
    (autoSaveBelongsToRelationships definition s record key).bind fun (s', record', saved) =>
      (writeRecord definition s' record' saved id).map fun (_, record'') =>
        { s with
          parentRecords := s'.parentRecords
          records := Function.update s.records i (some record'') }
  | none =>
    let pending := computePendingMagnitudeDelta definition s record
    (autoSaveBelongsToRelationships definition s record key).bind fun (s', record', saved) =>
      (writeRecord definition s' record' saved id).map fun (s'', record'') =>
        { s'' with
          parents := applyPendingMagnitudeDelta definition pending s''.parents
          records := Function.update s.records i (some record'') }

/-! ## Steps -/

/-- What can happen. -/
inductive Action (ι V κ : Type) where
  | build (i : ℕ)
  | load (i : ℕ) (id : ι)
  | reload (i : ℕ)
  | setSource (i : ℕ) (value : Option V)
  | setForeignKey (i : ℕ) (key : Option κ)
  | setOther (i : ℕ)
  | setParent (i : ℕ) (j : Option ℕ)
  | loadParentOf (i j : ℕ)
  | save (i : ℕ) (id : ι) (key : κ) (failure : Option Failure)
  | destroy (i : ℕ) (failed : Bool)
  | buildParent (j : ℕ) (key : Option κ)
  | loadParent (j : ℕ) (key : κ)
  | changeParent (j : ℕ)
  | saveParent (j : ℕ) (key : κ)

def setRecord (s : State ι V κ) (i : ℕ) (record : Record ι V κ) : State ι V κ :=
  { s with records := Function.update s.records i (some record) }

def setParentRecord (s : State ι V κ) (j : ℕ) (parent : ParentRecord κ) : State ι V κ :=
  { s with parentRecords := Function.update s.parentRecords j (some parent) }

def assignParent (s : State ι V κ) (record : Record ι V κ) (j : Option ℕ) : Record ι V κ :=
  let parent := j.bind s.parentRecords
  { record with loaded := j, dirty := true }.setForeignKey (parent.map ParentRecord.key)
    (parent.bind ParentRecord.key)

def step [DecidableEq V] (s : State ι V κ) : Action ι V κ → Option (State ι V κ)
  | .build i => some (setRecord s i ⟨none, ⟨none, none⟩, {}, none, false⟩)
  | .load i id =>
    (s.rows.find? id).map fun row => setRecord s i ⟨some id, row.image, {}, none, false⟩
  | .reload i =>
    (s.records i).bind fun record => record.id.bind fun id => (s.rows.find? id).map fun row =>
      setRecord s i { record with attributes := row.image, changes := {} }
  | .setSource i value => (s.records i).map fun record => setRecord s i (record.setSource value)
  | .setForeignKey i key => (s.records i).map fun record =>
    setRecord s i (record.setForeignKey (s.loadedKey record) key)
  | .setOther i => (s.records i).map fun record =>
    setRecord s i { record with changes := { record.changes with others := true } }
  | .setParent i j => (s.records i).bind fun record =>
    if j.all fun j => (s.parentRecords j).isSome then
      some (setRecord s i (assignParent s record j))
    else none
  | .loadParentOf i j => (s.records i).bind fun record =>
    if (s.parentRecords j).map ParentRecord.key = some (s.read record).foreignKey then
      some (setRecord s i { record with loaded := some j, dirty := false })
    else none
  | .save i id key failure => (s.records i).bind fun record =>
    save definition s i record id key failure
  | .destroy i failed => (s.records i).bind fun record => record.id.map fun id =>
    if failed then s
    else
      { s with
        rows := s.rows.delete fun row => row.id = id
        parents := afterDestroy definition s record }
  | .buildParent j key =>
    if (s.parentRecords j).isSome then none else some (setParentRecord s j ⟨key, true, false⟩)
  | .loadParent j key =>
    if (s.parentRecords j).isSome then none
    else (s.parents key).map fun _ => setParentRecord s j ⟨some key, false, false⟩
  | .changeParent j => (s.parentRecords j).map fun parent =>
    setParentRecord s j { parent with hasChanges := true }
  | .saveParent j key => (s.parentRecords j).bind fun parent =>
    (saveParentRecord s.parents parent key).map fun (parents, parent') =>
      setParentRecord { s with parents } j parent'

end Saves

/-- The sum of the magnitudes of the child rows that point at a parent. -/
def magnitudes [DecidableEq κ] (definition : Definition V κ) (s : State ι V κ) (key : κ) : ℤ :=
  ((s.rows.select fun row => row.image.foreignKey = some key).map fun row =>
    definition.magnitude row.image.source).sum

def Summed [DecidableEq κ] (definition : Definition V κ) (s : State ι V κ) : Prop :=
  ∀ key counter, s.parents key = some counter → counter = magnitudes definition s key

end Velocious.CounterCacheMagnitude
