/-
  Gap-less positional lists (src/database/record/acts-as-list.js): the callbacks that shift
  the rows around a record when it is created, updated or destroyed.

  * A table is a list of rows, of which the record's id, its scope and its position matter.
    The ids are the primary key, and there is a unique index on the scope and the position;
    every statement writes one row, and fails if it breaks one of them.
  * A record in memory has the scope and the position it was loaded with (`_attributes`),
    which may not be those of its row any more. No row and no record has a `null` scope.
  * A save that throws is rolled back.
-/
import Velocious.Foundation.Machine
import Velocious.Foundation.Paging
import Mathlib.Data.Int.Order.Basic

namespace Velocious.ActsAsList

open Foundation

/-- A row of a list. -/
structure Row (ι σ : Type) where
  id : ι
  scope : σ
  position : ℤ
  deriving DecidableEq

variable {ι σ : Type} [DecidableEq ι] [DecidableEq σ]

def Row.slot (r : Row ι σ) : σ × ℤ := (r.scope, r.position)

/-- The primary key and the unique index. -/
def Indexed (rows : List (Row ι σ)) : Prop :=
  (rows.map (·.id)).Nodup ∧ (rows.map Row.slot).Nodup

instance (rows : List (Row ι σ)) : Decidable (Indexed rows) := inferInstanceAs (Decidable (_ ∧ _))

/-- The table after a statement, if its indexes accept it. -/
def accept (rows : List (Row ι σ)) : Except String (List (Row ι σ)) :=
  if Indexed rows then .ok rows else .error "UNIQUE constraint failed"

/-- `UPDATE … SET … WHERE …`. -/
def updateRows (rows : List (Row ι σ)) (where_ : Row ι σ → Bool) (set : Row ι σ → Row ι σ) :
    Except String (List (Row ι σ)) :=
  accept (rows.map fun r => if where_ r then set r else r)

/-! ## The helpers -/

def assertPositivePosition (position : Option ℤ) (persisted : Bool) : Except String ℤ :=
  match position with
  | some p =>
    if 0 < p then .ok p
    else .error ((if persisted then "Persisted" else "Requested") ++
      " actsAsList position must be a positive integer")
  | none => .error ((if persisted then "Persisted" else "Requested") ++
      " actsAsList position must be a positive integer")

/-- The rows that a shift moves: `[fromPosition, toPosition)` of a scope, but for one record. -/
def inRange (scope : σ) (fromPosition : ℤ) (toPosition : Option ℤ) (exclude : Option ι)
    (r : Row ι σ) : Bool :=
  r.scope = scope && fromPosition ≤ r.position && 0 < r.position && exclude ≠ some r.id &&
    toPosition.all fun stop => r.position < stop

/-- Moves each of the rows, in turn, by `step`. -/
def shiftRows (step : ℤ) (scope : σ) (selected rows : List (Row ι σ)) :
    Except String (List (Row ι σ)) :=
  selected.foldlM (fun rows row =>
    updateRows rows (fun r => r.id = row.id && r.scope = scope && r.position = row.position)
      fun r => { r with position := r.position + step }) rows

/-- `shiftPositionsUp`: the highest row first. -/
def shiftPositionsUp (rows : List (Row ι σ)) (scope : σ) (exclude : Option ι) (fromPosition : ℤ)
    (toPosition : Option ℤ) : Except String (List (Row ι σ)) :=
  shiftRows 1 scope (sortByKey (fun r => -r.position)
    (rows.filter (inRange scope fromPosition toPosition exclude))) rows

/-- `shiftPositionsDown`: the lowest row first. -/
def shiftPositionsDown (rows : List (Row ι σ)) (scope : σ) (id : ι) (fromPosition : ℤ)
    (toPosition : Option ℤ) : Except String (List (Row ι σ)) :=
  shiftRows (-1) scope (sortByKey (fun r => r.position)
    (rows.filter (inRange scope fromPosition toPosition (some id)))) rows

def highestPositionInScope (rows : List (Row ι σ)) (scope : σ) : ℤ :=
  ((sortByKey (fun r => -r.position) (rows.filter (·.scope = scope))).head?.map
    (·.position)).getD 0

def moveOutOfWay (rows : List (Row ι σ)) (scope : σ) (id : ι) :
    Except String (List (Row ι σ)) :=
  updateRows rows (fun r => r.scope = scope && r.id = id)
    fun r => { r with position := -r.position }

def placeMovedRecord (rows : List (Row ι σ)) (id : ι) (scope : σ) (position : ℤ) :
    Except String (List (Row ι σ)) :=
  updateRows rows (fun r => r.id = id) fun r => { r with scope, position }

/-! ## Saving and destroying -/

/-- What an update sets: a position, which may be `null`, and a scope. `posAssigned` is whether
    `assign` (which `update` calls) was given the position under the attribute's own name: a
    setter, or `assign` with the name of the column, sets it too, but leaves no such name. -/
structure UpdateRequest (σ : Type) where
  position : Option (Option ℤ)
  scope : Option σ
  posAssigned : Bool
  deriving DecidableEq

/-- `_changes`. -/
structure Changes (σ : Type) where
  position : Option (Option ℤ)
  scope : Option σ
  deriving DecidableEq

/-- What is set to another value than the record's. -/
def changesOf (record : Row ι σ) (request : UpdateRequest σ) : Changes σ where
  position := request.position.filter (· ≠ some record.position)
  scope := request.scope.filter (· ≠ record.scope)

/-- The callback before a record is created: the table, and the position of the record. -/
def beforeCreate (rows : List (Row ι σ)) (scope : σ) (position : Option ℤ) :
    Except String (List (Row ι σ) × ℤ) :=
  match position with
  | some _ => do
    let position ← assertPositivePosition position false
    let rows ← shiftPositionsUp rows scope none position none
    return (rows, position)
  | none => return (rows, highestPositionInScope rows scope + 1)

/-- The callback before a record is updated: the table, and the changes that are left. -/
def beforeUpdate (rows : List (Row ι σ)) (record : Row ι σ) (request : UpdateRequest σ) :
    Except String (List (Row ι σ) × Changes σ) :=
  let changes := changesOf record request
  if changes.position.isNone && changes.scope.isNone then return (rows, changes)
  else do
    let oldPosition ← assertPositivePosition (some record.position) true
    let newPosition ← assertPositivePosition (changes.position.getD (some record.position)) false
    match changes.scope with
    | some newScope =>
      let rows ← moveOutOfWay rows record.scope record.id
      if request.posAssigned then
        let rows ← shiftPositionsDown rows record.scope record.id (oldPosition + 1) none
        let rows ← shiftPositionsUp rows newScope (some record.id) newPosition none
        let rows ← placeMovedRecord rows record.id newScope newPosition
        return (rows, ⟨none, none⟩)
      else
        let nextPos := highestPositionInScope rows newScope + 1
        let rows ← shiftPositionsDown rows record.scope record.id (oldPosition + 1) none
        -- `setAttribute` records no change to the value the record has
        return (rows, if nextPos = record.position then changes
          else { changes with position := some (some nextPos) })
    | none =>
      let rows ← moveOutOfWay rows record.scope record.id
      if newPosition < oldPosition then
        let rows ← shiftPositionsUp rows record.scope (some record.id) newPosition (some oldPosition)
        return (rows, changes)
      else if oldPosition < newPosition then
        let rows ← shiftPositionsDown rows record.scope record.id (oldPosition + 1)
          (some (newPosition + 1))
        return (rows, changes)
      else return (rows, changes)

def beforeDestroy (rows : List (Row ι σ)) (record : Row ι σ) : Except String (List (Row ι σ)) := do
  let position ← assertPositivePosition (some record.position) true
  let rows ← moveOutOfWay rows record.scope record.id
  shiftPositionsDown rows record.scope record.id (position + 1) none

/-- `_createNewRecord`, after its callback. -/
def create (rows : List (Row ι σ)) (id : ι) (scope : σ) (position : Option ℤ) :
    Except String (List (Row ι σ)) := do
  let (rows, position) ← beforeCreate rows scope position
  accept (rows ++ [⟨id, scope, position⟩])

/-- `_updateRecordWithChanges`, after its callback, and the reload. -/
def update (rows : List (Row ι σ)) (record : Row ι σ) (request : UpdateRequest σ) :
    Except String (List (Row ι σ)) := do
  let (rows, changes) ← beforeUpdate rows record request
  if changes.position.isNone && changes.scope.isNone then return rows
  else
    let rows ← updateRows rows (fun r => r.id = record.id) fun r =>
      { r with
        scope := changes.scope.getD r.scope
        position := (changes.position.getD none).getD r.position }
    if rows.any fun r => r.id = record.id then return rows
    else throw "couldn't be reloaded - record didn't exist"

def destroy (rows : List (Row ι σ)) (record : Row ι σ) : Except String (List (Row ι σ)) := do
  let rows ← beforeDestroy rows record
  return rows.filter fun r => r.id ≠ record.id

/-- A save or a destroy. -/
inductive ListOp (ι σ : Type) where
  | create (id : ι) (scope : σ) (position : Option ℤ)
  | update (record : Row ι σ) (request : UpdateRequest σ)
  | destroy (record : Row ι σ)
  deriving DecidableEq

def perform (rows : List (Row ι σ)) : ListOp ι σ → Except String (List (Row ι σ))
  | .create id scope position => create rows id scope position
  | .update record request => update rows record request
  | .destroy record => destroy rows record

/-- The table after an operation; what throws changes nothing. -/
def tableStep (rows : List (Row ι σ)) (op : ListOp ι σ) : Option (List (Row ι σ)) :=
  some ((perform rows op).toOption.getD rows)

/-! ## What is asked of the lists -/

def listOf (rows : List (Row ι σ)) (scope : σ) : List (Row ι σ) :=
  sortByKey Row.position (rows.filter (·.scope = scope))

/-- The ids of a scope, in the order of their positions. -/
def idsOf (rows : List (Row ι σ)) (scope : σ) : List ι := (listOf rows scope).map (·.id)

/-- The record that an operation is about. -/
def ListOp.id : ListOp ι σ → ι
  | create id _ _ => id
  | update record _ | destroy record => record.id

/-- The scope and the position that an operation asks for: without a position a record goes to
    the end of a list it comes into, and stays where it is in its own. -/
def ListOp.wants (rows : List (Row ι σ)) : ListOp ι σ → Option (σ × ℤ)
  | create _ scope position => some (scope, position.getD ((idsOf rows scope).length + 1))
  | update record request =>
    (rows.find? (·.id = record.id)).map fun row =>
      let scope := request.scope.getD row.scope
      (scope, (request.position.getD none).getD
        (if scope = row.scope then row.position else (idsOf rows scope).length + 1))
  | destroy _ => none

/-- What is asked of one operation: the positions of every scope are 1 to n, the other records
    keep their order, and the record is where it was asked to be, as far as the list goes. -/
structure Kept (rows rows' : List (Row ι σ)) (op : ListOp ι σ) : Prop where
  compact : ∀ scope, (listOf rows' scope).map (·.position) =
    (List.range' 1 (idsOf rows' scope).length).map Nat.cast
  others : ∀ scope, (idsOf rows' scope).erase op.id = (idsOf rows scope).erase op.id
  placed : ∀ scope position, op.wants rows = some (scope, position) →
    (⟨op.id, scope, max 1 (min position (idsOf rows' scope).length)⟩ : Row ι σ) ∈ rows'
  gone : op.wants rows = none → ∀ r ∈ rows', r.id ≠ op.id

/-- A save or a destroy that does what is asked. -/
def Saves (rows : List (Row ι σ)) (op : ListOp ι σ) : Prop :=
  ∃ rows', perform rows op = .ok rows' ∧ Kept rows rows' op

/-- The record's row is there, in the record's scope. -/
structure Current (rows : List (Row ι σ)) (record row : Row ι σ) : Prop where
  mem : row ∈ rows
  id : row.id = record.id
  scope : row.scope = record.scope
  positive : 0 < record.position

/-- The shift down from the record's position takes the rows above its row. -/
def AboveAlike (rows : List (Row ι σ)) (record row : Row ι σ) : Prop :=
  ∀ r ∈ rows, r.scope = row.scope → r.id ≠ row.id →
    (record.position < r.position ↔ row.position < r.position)

/-- When an operation does what is asked. -/
def Fits (rows : List (Row ι σ)) : ListOp ι σ → Prop
  | .create id scope position =>
    (∀ r ∈ rows, r.id ≠ id) ∧
      ∀ q, position = some q → 1 ≤ q ∧ q ≤ (idsOf rows scope).length + 1
  | .destroy record => ∃ row, Current rows record row ∧ AboveAlike rows record row
  | .update record request => ∃ row ∈ rows, row.id = record.id ∧
    match (changesOf record request).scope, (changesOf record request).position with
    | none, none =>
      (request.scope.isSome → row.scope = record.scope) ∧
        (request.position.isSome → row.position = record.position)
    | none, some q =>
      Current rows record row ∧ ∃ p, q = some p ∧ 1 ≤ p ∧ p ≤ (idsOf rows row.scope).length ∧
        (p < record.position → ∀ r ∈ rows, r.scope = row.scope → r.id ≠ row.id →
          p ≤ r.position → (r.position < record.position ↔ r.position < row.position)) ∧
        (record.position < p → ∀ r ∈ rows, r.scope = row.scope → r.id ≠ row.id →
          r.position ≤ p → (record.position < r.position ↔ row.position < r.position))
    | some scope, _ =>
      Current rows record row ∧ AboveAlike rows record row ∧
        if request.posAssigned then
          ∃ p, request.position = some (some p) ∧ 1 ≤ p ∧ p ≤ (idsOf rows scope).length + 1
        else
          record.position ≠ (idsOf rows scope).length + 1 ∧
            ∀ q, request.position = some q → ∃ p, q = some p ∧
              ((idsOf rows scope).length + 1 : ℤ) ≤ p

end Velocious.ActsAsList
