/-
  The identity of a sync scope (`scopeKey` of src/sync/query-scope.js).

  A key is the owner's prefix, the resource type, a colon and the canonical text of the conditions.
  `scopeKey_eq_iff`: of plain scopes it tells the owner, the resource type and the conditions up to
  the order of keys.
-/
import Velocious.Foundation.JsonNesting
import Velocious.Utils.StableJsonCanonical

namespace Velocious.QueryScope

open Foundation Foundation.JsValue StableJson

/-- A serialized scope: its conditions are an object that `JSON.parse` can return. -/
structure SerializedSyncScope where
  owner : Option String
  resourceType : Option String
  conditions : JsValue
  record : ∃ fields, conditions = .obj true fields
  parsed : IsParsed conditions

def ownerPrefix : Option String → List Char
  | none => []
  | some owner => "owner=".toList ++ (StableJson.stableJsonStringify (.str owner) ++ ['|'])

/-- `scope.resourceType ?? ""`. -/
def SerializedSyncScope.typeText (scope : SerializedSyncScope) : String :=
  scope.resourceType.getD ""

/-- A stable canonical key identifying a sync scope. -/
def scopeKey (scope : SerializedSyncScope) : List Char :=
  ownerPrefix scope.owner ++
    (scope.typeText.toList ++ ':' :: StableJson.stableJsonStringify scope.conditions)

/-- One scope: the conditions are compared up to the order of keys. -/
structure SameScope (a b : SerializedSyncScope) : Prop where
  owner : a.owner = b.owner
  resourceType : a.resourceType = b.resourceType
  conditions : Equal a.conditions b.conditions

/-- The text of the conditions tells them, and the resource type is not empty and no owner's
prefix. -/
structure SerializedSyncScope.Plain (scope : SerializedSyncScope) : Prop where
  conditions : StableJson.Plain scope.conditions
  named : scope.resourceType ≠ some ""
  unowned : scope.owner = none →
    ∀ owner rest, scope.typeText.toList ≠ ownerPrefix (some owner) ++ rest

variable {a b : SerializedSyncScope}

theorem exists_write_conditions (a : SerializedSyncScope) :
    ∃ o fields, StableJson.stableJsonStringify a.conditions = write (.obj o fields) := by
  obtain ⟨fields, h⟩ := a.record
  rw [h]
  exact ⟨_, _, rfl⟩

theorem resourceType_eq (ha : a.Plain) (hb : b.Plain) (h : a.typeText = b.typeText) :
    a.resourceType = b.resourceType := by
  have hane := ha.named
  have hbne := hb.named
  unfold SerializedSyncScope.typeText at h
  cases hra : a.resourceType with
  | none =>
    cases hrb : b.resourceType with
    | none => rfl
    | some s =>
      rw [hra, hrb] at h
      exact absurd (hrb.trans (congrArg some h.symm)) hbne
  | some s =>
    cases hrb : b.resourceType with
    | none =>
      rw [hra, hrb] at h
      exact absurd (hra.trans (congrArg some h)) hane
    | some t =>
      rw [hra, hrb] at h
      exact congrArg some h

theorem head_inj (ha : a.Plain) (hb : b.Plain)
    (h : ownerPrefix a.owner ++ a.typeText.toList = ownerPrefix b.owner ++ b.typeText.toList) :
    a.owner = b.owner ∧ a.typeText = b.typeText := by
  cases hoa : a.owner with
  | none =>
    rw [hoa] at h
    cases hob : b.owner with
    | none =>
      rw [hob] at h
      exact ⟨rfl, String.toList_inj.mp h⟩
    | some owner =>
      rw [hob] at h
      exact absurd h (ha.unowned hoa owner _)
  | some owner =>
    rw [hoa] at h
    cases hob : b.owner with
    | none =>
      rw [hob] at h
      exact absurd h.symm (hb.unowned hob owner _)
    | some owner' =>
      rw [hob] at h
      simp only [ownerPrefix, List.append_assoc, List.append_cancel_left_eq] at h
      obtain ⟨rfl, hrest⟩ := quoteChars_inj h
      exact ⟨rfl, String.toList_inj.mp (List.cons.inj hrest).2⟩

/-- **The key of a scope** is that of another, if both are plain, exactly if they are one scope. -/
theorem scopeKey_eq_iff (ha : a.Plain) (hb : b.Plain) : scopeKey a = scopeKey b ↔ SameScope a b := by
  have hiff := stableJsonStringify_eq_iff a.parsed b.parsed ha.conditions hb.conditions
  constructor
  · intro h
    obtain ⟨o, fields, hwa⟩ := exists_write_conditions a
    obtain ⟨o', fields', hwb⟩ := exists_write_conditions b
    unfold scopeKey at h
    rw [hwa, hwb, ← List.append_assoc, ← List.append_assoc] at h
    obtain ⟨hhead, htext⟩ := colon_object_inj h
    obtain ⟨howner, htype⟩ := head_inj ha hb hhead
    exact ⟨howner, resourceType_eq ha hb htype, hiff.mp (by rw [hwa, hwb, htext])⟩
  · intro h
    unfold scopeKey SerializedSyncScope.typeText
    rw [h.owner, h.resourceType, hiff.mpr h.conditions]

end Velocious.QueryScope
