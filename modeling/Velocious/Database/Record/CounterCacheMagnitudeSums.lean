/-
  Which runs keep the counters: those whose saves see the change that they make.

  * `counted`: what an image that was read adds to a parent's counter; `contribution`: what a row
    adds to the sum of its parent's children.
-/
import Velocious.Database.Record.CounterCacheMagnitude

namespace Velocious.CounterCacheMagnitude

open Foundation

variable {ι V κ : Type} [DecidableEq κ] {definition : Definition V κ}

/-! ## Contributions -/

section Contributions

variable (definition)

/-- What a child adds to the sum of its parent. -/
def contribution (image : Image V κ) (key : κ) : ℤ :=
  if image.foreignKey = some key then definition.magnitude image.source else 0

/-- What a child's image adds to a counter: a key that is not truthy is passed over. -/
def counted (image : Image V κ) (key : κ) : ℤ :=
  if definition.truthy key then contribution definition image key else 0

/-- What a row adds, if there is one. -/
def rowContribution (image : Option (Image V κ)) (key : κ) : ℤ :=
  image.elim 0 fun image => contribution definition image key

variable {definition}

theorem magnitudes_eq_sum (s : State ι V κ) (key : κ) : magnitudes definition s key =
    s.rows.sum fun row => contribution definition row.image key := by
  rw [magnitudes, Table.sum_select]
  simp only [decide_eq_true_eq, contribution]

theorem incrementTruthy_apply (parents : κ → Option ℤ) (parentId : Option κ) (amount : ℤ) (key : κ) :
    incrementTruthy definition parents parentId amount key = (parents key).map
      (· + if parentId = some key ∧ definition.truthy key then amount else 0) := by
  cases parentId with
  | none => simp [incrementTruthy]
  | some parentId =>
    by_cases hkey : parentId = key
    · subst hkey
      by_cases htruthy : definition.truthy parentId <;> by_cases hamount : amount = 0 <;>
        simp [incrementTruthy, incrementParentCounter, htruthy, hamount]
    · have hne : key ≠ parentId := fun h => hkey h.symm
      by_cases hguard : definition.truthy parentId ∧ amount ≠ 0 <;>
        simp [incrementTruthy, incrementParentCounter, hguard, hkey, hne]

/-- The image that the delta is taken against: the key is what was loaded, if it is changed. -/
def seenBefore (s : State ι V κ) (record : Record ι V κ) : Image V κ :=
  ⟨record.attributes.source,
    if record.changes.foreignKey.isSome then record.attributes.foreignKey
    else (s.read record).foreignKey⟩

theorem applyPendingMagnitudeDelta_apply (s : State ι V κ) (record : Record ι V κ)
    (parents : κ → Option ℤ) (key : κ) :
    applyPendingMagnitudeDelta definition (computePendingMagnitudeDelta definition s record)
        parents key = (parents key).map
      (· + (counted definition (s.read record) key -
        counted definition (seenBefore s record) key)) := by
  have hsource : oldSourceValueThroughReadCast record (s.read record).source =
      (seenBefore s record).source := by
    rw [oldSourceValueThroughReadCast, seenBefore]
    cases hchange : record.changes.source <;> simp [State.read, hchange]
  have hparent : (if record.changes.foreignKey.isSome then record.attributes.foreignKey
      else (s.read record).foreignKey) = (seenBefore s record).foreignKey := rfl
  simp only [applyPendingMagnitudeDelta, computePendingMagnitudeDelta, hparent, hsource]
  split_ifs with hsame
  · rw [incrementTruthy_apply, counted, counted, contribution, contribution, hsame]
    split_ifs <;> simp_all
  · rw [incrementTruthy_apply, incrementTruthy_apply, Option.map_map, counted, counted,
      contribution, contribution]
    congr 1
    funext counter
    split_ifs <;> simp_all

theorem afterDestroy_apply (s : State ι V κ) (record : Record ι V κ) (key : κ) :
    afterDestroy definition s record key =
      (s.parents key).map (· - counted definition (s.read record) key) := by
  rw [afterDestroy, incrementTruthy_apply, counted, contribution]
  congr 1
  funext counter
  split_ifs <;> simp_all
  omega

end Contributions

/-! ## Saves -/

section Saves

variable [DecidableEq ι]

def rowImage (s : State ι V κ) (record : Record ι V κ) : Option (Image V κ) :=
  record.id.bind fun id => (s.rows.find? id).map Row.image

variable (definition) in
def imageAfter (s : State ι V κ) (record : Record ι V κ) (parentSaved : Bool) :
    Option (Image V κ) :=
  match record.id with
  | none => some (writtenImage s record ⟨definition.sourceDefault, none⟩)
  | some _ =>
    if hasData definition s record parentSaved then
      (rowImage s record).map (writtenImage s record)
    else rowImage s record

/-- No row points at the key of a parent that is about to be inserted. -/
def FreshKey (s : State ι V κ) (parent : ParentRecord κ) (key : κ) : Prop :=
  parent.isNew → ∀ row ∈ s.rows, row.image.foreignKey ≠ some (parent.key.getD key)

/-- Parents that were inserted have no children yet. -/
def Grown (s : State ι V κ) (parents : κ → Option ℤ) : Prop :=
  ∀ key counter, parents key = some counter → s.parents key = some counter ∨
    (counter = 0 ∧ ∀ row ∈ s.rows, row.image.foreignKey ≠ some key)

variable {s s' : State ι V κ}

variable {key : κ}

omit [DecidableEq ι] in
theorem saveParentRecord_grown {parent parent' : ParentRecord κ}
    {parents : κ → Option ℤ} (hfresh : FreshKey s parent key)
    (h : saveParentRecord s.parents parent key = some (parents, parent')) : Grown s parents := by
  intro key' counter hcounter
  rw [saveParentRecord] at h
  split_ifs at h with hnew
  · simp only [Option.ite_none_left_eq_some, Option.some.injEq, Prod.mk.injEq] at h
    obtain ⟨-, rfl, -⟩ := h
    by_cases hkey : key' = parent.key.getD key
    · subst hkey
      rw [Function.update_self] at hcounter
      exact .inr ⟨(Option.some.inj hcounter).symm, hfresh hnew⟩
    · rw [Function.update_of_ne hkey] at hcounter
      exact .inl hcounter
  · obtain ⟨rfl, -⟩ := Prod.mk.inj (Option.some.inj h)
    exact .inl hcounter

variable {record : Record ι V κ}

omit [DecidableEq ι] in
theorem autoSaveBelongsToRelationships_spec {record' : Record ι V κ} {saved : Bool}
    (hfresh : ∀ parent, s.loadedParent record = some parent → FreshKey s parent key)
    (h : autoSaveBelongsToRelationships definition s record key = some (s', record', saved)) :
    s'.rows = s.rows ∧ Grown s s'.parents ∧ record'.id = record.id := by
  have hself : Grown s s.parents := fun _ _ hcounter => .inl hcounter
  rw [autoSaveBelongsToRelationships] at h
  cases hloaded : record.loaded with
  | none =>
    rw [hloaded] at h
    cases h
    exact ⟨rfl, hself, rfl⟩
  | some j =>
    simp only [hloaded] at h
    cases hparent : s.parentRecords j with
    | none =>
      rw [hparent] at h
      cases h
      exact ⟨rfl, hself, rfl⟩
    | some parent =>
      simp only [hparent] at h
      split_ifs at h with hsave
      · obtain ⟨⟨parents, parent'⟩, hparents, h⟩ := Option.map_eq_some_iff.1 h
        cases h
        refine ⟨rfl, saveParentRecord_grown (hfresh parent ?_) hparents, ?_⟩
        · rw [State.loadedParent, hloaded]
          exact hparent
        · show (record.setForeignKey _ _).id = record.id
          rw [Record.setForeignKey]
          split <;> rfl
      · cases h
        exact ⟨rfl, hself, rfl⟩

variable {id : ι}

theorem writeRecord_sum {record' : Record ι V κ} {saved : Bool}
    (h : writeRecord definition s record saved id = some (s', record')) (key : κ) :
    s'.parents = s.parents ∧ (s'.rows.sum fun row => contribution definition row.image key) =
      (s.rows.sum fun row => contribution definition row.image key) +
        rowContribution definition (imageAfter definition s record saved) key -
        rowContribution definition (rowImage s record) key := by
  rw [writeRecord] at h
  cases hid : record.id with
  | none =>
    simp only [hid] at h
    obtain ⟨rows, hrows, h⟩ := Option.map_eq_some_iff.1 h
    cases h
    rw [Table.sum_insert? hrows]
    simp [imageAfter, rowImage, hid, rowContribution]
  | some rowId =>
    simp only [hid] at h
    split_ifs at h with hdata
    · obtain ⟨row, hrow, h⟩ := Option.map_eq_some_iff.1 h
      cases h
      rw [Table.sum_modify hrow]
      simp [imageAfter, rowImage, hid, hdata, hrow, rowContribution]
    · cases h
      exact ⟨rfl, by simp [imageAfter, hid, hdata]⟩

/-! ## Steps -/

variable (definition) in
/-- What the delta is taken against and what the record reads count as its row before and after the
    save; or neither of them changes what it counts as. -/
def SeesChange (s : State ι V κ) (record : Record ι V κ) (key : κ) : Prop :=
  ∀ s' record' saved,
    autoSaveBelongsToRelationships definition s record key = some (s', record', saved) →
    (∀ parent,
      counted definition (seenBefore s record) parent =
          rowContribution definition (rowImage s record) parent ∧
        counted definition (s.read record) parent =
          rowContribution definition (imageAfter definition s' record' saved) parent) ∨
    ∀ parent,
      counted definition (s.read record) parent = counted definition (seenBefore s record) parent ∧
        rowContribution definition (imageAfter definition s' record' saved) parent =
          rowContribution definition (rowImage s record) parent

variable (definition) in
/-- A save sees the change that it makes, a record that is destroyed counts as its row, and a parent
    is inserted before a row points at it. -/
def Follows (s : State ι V κ) : Action ι V κ → Prop
  | .save i _ key none => ∀ record, s.records i = some record →
    (∀ parent, s.loadedParent record = some parent → FreshKey s parent key) ∧
      SeesChange definition s record key
  | .destroy i false => ∀ record, s.records i = some record → ∀ parent,
    counted definition (s.read record) parent = rowContribution definition (rowImage s record) parent
  | .saveParent j key => ∀ parent, s.parentRecords j = some parent → FreshKey s parent key
  | _ => True

omit [DecidableEq ι] in
theorem summed_of_grown (hs : Summed definition s) (hrows : s'.rows = s.rows)
    (hgrown : Grown s s'.parents) : Summed definition s' := by
  intro key counter hcounter
  rw [magnitudes, hrows]
  rcases hgrown key counter hcounter with hcounter | ⟨rfl, hfresh⟩
  · exact hs key counter hcounter
  · have hnone : (s.rows.select fun row => row.image.foreignKey = some key) = [] := by
      refine List.filter_eq_nil_iff.2 fun row hrow => ?_
      simpa using hfresh row hrow
    rw [hnone]
    rfl

omit [DecidableEq ι] in
theorem summed_of_same (hs : Summed definition s) (hrows : s'.rows = s.rows)
    (hparents : s'.parents = s.parents) : Summed definition s' :=
  summed_of_grown hs hrows fun _ _ hcounter => .inl (hparents ▸ hcounter)

theorem save_summed {i : ℕ} (hs : Summed definition s)
    (hfresh : ∀ parent, s.loadedParent record = some parent → FreshKey s parent key)
    (hsees : SeesChange definition s record key)
    (h : save definition s i record id key none = some s') : Summed definition s' := by
  obtain ⟨⟨s₁, record₁, saved⟩, hsaved, h⟩ := Option.bind_eq_some_iff.1 h
  obtain ⟨⟨s₂, record₂⟩, hwritten, rfl⟩ := Option.map_eq_some_iff.1 h
  obtain ⟨hrows, hgrown, hid⟩ := autoSaveBelongsToRelationships_spec hfresh hsaved
  have hs₁ : Summed definition s₁ := summed_of_grown hs hrows hgrown
  have himage : rowImage s₁ record₁ = rowImage s record := by rw [rowImage, rowImage, hid, hrows]
  intro parent counter hcounter
  obtain ⟨hparents, hsum⟩ := writeRecord_sum hwritten parent
  simp only at hcounter
  rw [applyPendingMagnitudeDelta_apply, hparents] at hcounter
  obtain ⟨before, hbefore, rfl⟩ := Option.map_eq_some_iff.1 hcounter
  have hcount := hs₁ parent before hbefore
  rw [magnitudes_eq_sum] at hcount
  rw [magnitudes_eq_sum]
  rw [hsum, himage]
  rcases hsees s₁ record₁ saved hsaved with hsees | hsees
  · rw [(hsees parent).1, (hsees parent).2]
    omega
  · rw [(hsees parent).1, (hsees parent).2]
    omega

theorem failed_save {i : ℕ}
    {failure : Failure} (h : save definition s i record id key (some failure) = some s') :
    s'.rows = s.rows ∧ s'.parents = s.parents := by
  cases failure with
  | early =>
    cases h
    exact ⟨rfl, rfl⟩
  | parentSaved =>
    obtain ⟨⟨s₁, record₁, saved⟩, -, rfl⟩ := Option.map_eq_some_iff.1 h
    exact ⟨rfl, rfl⟩
  | written =>
    obtain ⟨⟨s₁, record₁, saved⟩, -, h⟩ := Option.bind_eq_some_iff.1 h
    obtain ⟨⟨s₂, record₂⟩, -, rfl⟩ := Option.map_eq_some_iff.1 h
    exact ⟨rfl, rfl⟩

theorem destroy_summed (hs : Summed definition s) (hid : record.id = some id)
    (hsees : ∀ parent, counted definition (s.read record) parent =
      rowContribution definition (rowImage s record) parent) :
    Summed definition
      { s with
        rows := s.rows.delete fun row => row.id = id
        parents := afterDestroy definition s record } := by
  intro parent counter hcounter
  simp only at hcounter
  rw [afterDestroy_apply] at hcounter
  obtain ⟨before, hbefore, rfl⟩ := Option.map_eq_some_iff.1 hcounter
  have hcount := hs parent before hbefore
  rw [magnitudes_eq_sum] at hcount
  rw [magnitudes_eq_sum]
  rw [Table.sum_delete, hcount, hsees parent, rowImage, hid, Option.bind_some]
  cases s.rows.find? id <;> rfl

theorem step_summed [DecidableEq V] (s : State ι V κ) (a : Action ι V κ) (s' : State ι V κ)
    (hs : Summed definition s) (hfollows : Follows definition s a)
    (h : step definition s a = some s') : Summed definition s' := by
  have hmapped {o : Option (Record ι V κ)} {i : ℕ} {f : Record ι V κ → Record ι V κ}
      (h : (o.map fun record => setRecord s i (f record)) = some s') : Summed definition s' := by
    obtain ⟨record, -, rfl⟩ := Option.map_eq_some_iff.1 h
    exact summed_of_same hs rfl rfl
  cases a with
  | build i =>
    cases h
    exact summed_of_same hs rfl rfl
  | load i id =>
    obtain ⟨row, -, rfl⟩ := Option.map_eq_some_iff.1 h
    exact summed_of_same hs rfl rfl
  | reload i =>
    obtain ⟨record, -, h⟩ := Option.bind_eq_some_iff.1 h
    obtain ⟨id, -, h⟩ := Option.bind_eq_some_iff.1 h
    obtain ⟨row, -, rfl⟩ := Option.map_eq_some_iff.1 h
    exact summed_of_same hs rfl rfl
  | setSource i value => exact hmapped h
  | setForeignKey i key => exact hmapped h
  | setOther i => exact hmapped h
  | setParent i j =>
    obtain ⟨record, -, h⟩ := Option.bind_eq_some_iff.1 h
    split at h
    · cases h
      exact summed_of_same hs rfl rfl
    · cases h
  | loadParentOf i j =>
    obtain ⟨record, -, h⟩ := Option.bind_eq_some_iff.1 h
    split at h
    · cases h
      exact summed_of_same hs rfl rfl
    · cases h
  | save i id key failure =>
    obtain ⟨record, hrecord, h⟩ := Option.bind_eq_some_iff.1 h
    cases failure with
    | none => exact save_summed hs (hfollows record hrecord).1 (hfollows record hrecord).2 h
    | some failure =>
      obtain ⟨hrows, hparents⟩ := failed_save h
      exact summed_of_same hs hrows hparents
  | destroy i failed =>
    obtain ⟨record, hrecord, h⟩ := Option.bind_eq_some_iff.1 h
    obtain ⟨id, hid, h⟩ := Option.map_eq_some_iff.1 h
    cases failed with
    | true =>
      cases h
      exact hs
    | false =>
      cases h
      exact destroy_summed hs hid (hfollows record hrecord)
  | buildParent j key =>
    simp only [step, Option.ite_none_left_eq_some, Option.some.injEq] at h
    obtain ⟨-, rfl⟩ := h
    exact summed_of_same hs rfl rfl
  | loadParent j key =>
    simp only [step, Option.ite_none_left_eq_some] at h
    obtain ⟨counter, -, rfl⟩ := Option.map_eq_some_iff.1 h.2
    exact summed_of_same hs rfl rfl
  | changeParent j =>
    obtain ⟨parent, -, rfl⟩ := Option.map_eq_some_iff.1 h
    exact summed_of_same hs rfl rfl
  | saveParent j key =>
    obtain ⟨parent, hparent, h⟩ := Option.bind_eq_some_iff.1 h
    obtain ⟨⟨parents, parent'⟩, hsaved, rfl⟩ := Option.map_eq_some_iff.1 h
    exact summed_of_grown hs rfl (saveParentRecord_grown (hfollows parent hparent) hsaved)

end Saves

/-- `1` while a build is running. -/
def runningBuilds : Definition Bool ℕ where
  magnitude source := if source = some true then 1 else 0
  truthy key := key ≠ 0
  sourceDefault := none
  autoSave := true
  updatedAt := true

def oneServer : State ℕ Bool ℕ where
  rows := .empty
  parents key := if key = 1 then some 0 else none
  records _ := none
  parentRecords _ := none

/-- `build = new Build({dockerServerId: 1, running: true})`, `await build.save()` -/
def createBuild : List (Action ℕ Bool ℕ) :=
  [.build 0, .setForeignKey 0 (some 1), .setSource 0 (some true), .save 0 7 0 none]

theorem summed_oneServer : Summed runningBuilds oneServer := by
  intro key counter hcounter
  simp only [oneServer, Option.ite_none_right_eq_some, Option.some.injEq] at hcounter
  exact hcounter.2.symm

end Velocious.CounterCacheMagnitude
