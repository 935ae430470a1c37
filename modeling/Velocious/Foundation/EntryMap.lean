/-
  JavaScript's `Map`: distinct keys, listed in the order in which they were first set.

  `get?_set` and `get?_delete` say what each operation does to every key.
-/
import Velocious.Foundation.Table

namespace Foundation

open List

universe u v

/-- A `Map`, by its entries. -/
structure EntryMap (κ : Type u) (α : Type v) where
  table : Table (κ × α) Prod.fst

namespace EntryMap

variable {κ : Type u} {α : Type v}

def empty : EntryMap κ α := ⟨.empty⟩

/-- The values, in the order of their keys. -/
def values (m : EntryMap κ α) : List α := m.table.rows.map Prod.snd

def keys (m : EntryMap κ α) : List κ := m.table.rows.map Prod.fst

theorem nodup_keys (m : EntryMap κ α) : m.keys.Nodup := m.table.keys_nodup

variable [DecidableEq κ]

def get? (m : EntryMap κ α) (k : κ) : Option α := (m.table.find? k).map Prod.snd

def set (m : EntryMap κ α) (k : κ) (a : α) : EntryMap κ α :=
  ⟨m.table.upsert (k, a) fun e => (e.1, a)⟩

def delete (m : EntryMap κ α) (k : κ) : EntryMap κ α := ⟨m.table.delete fun e => e.1 = k⟩

section
variable {m : EntryMap κ α} {k : κ} {a : α}

@[simp] theorem get?_empty (k : κ) : (empty : EntryMap κ α).get? k = none := rfl

theorem get?_set (k' : κ) : (m.set k a).get? k' = if k' = k then some a else m.get? k' := by
  unfold get? set
  rw [Table.find?_upsert]
  split
  · cases m.table.find? k <;> rfl
  · rfl

theorem get?_delete (k' : κ) : (m.delete k).get? k' = if k' = k then none else m.get? k' := by
  unfold get? delete
  rw [Table.find?_delete]
  cases h : m.table.find? k' with
  | none => simp
  | some e =>
    have hkey : e.1 = k' := Table.key_of_find? h
    by_cases hk : k' = k
    · simp [hkey, hk]
    · simp [Option.filter, hkey, hk]

@[simp] theorem get?_set_self : (m.set k a).get? k = some a := by simp [get?_set]

@[simp] theorem get?_delete_self : (m.delete k).get? k = none := by simp [get?_delete]

theorem get?_of_mem (h : (k, a) ∈ m.table.rows) : m.get? k = some a :=
  congrArg (Option.map Prod.snd) (Table.find?_of_mem (Table.mem_def.mpr h))

theorem mem_of_get? (h : m.get? k = some a) : (k, a) ∈ m.table.rows := by
  obtain ⟨e, he, rfl⟩ := Option.map_eq_some_iff.mp h
  obtain rfl := Table.key_of_find? he
  exact Table.mem_def.mp (Table.mem_of_find? he)

theorem mem_values {b : α} : b ∈ m.values ↔ ∃ k, m.get? k = some b := by
  constructor
  · intro h
    obtain ⟨⟨k, c⟩, he, rfl⟩ := mem_map.mp h
    exact ⟨k, congrArg (Option.map Prod.snd) (Table.find?_of_mem (Table.mem_def.mpr he))⟩
  · rintro ⟨k, h⟩
    obtain ⟨e, he, rfl⟩ := Option.map_eq_some_iff.mp h
    exact mem_map_of_mem (Table.mem_def.mp (Table.mem_of_find? he))

theorem map_get?_keys (m : EntryMap κ α) : m.keys.map m.get? = m.values.map some := by
  unfold keys values get?
  rw [map_map, map_map]
  refine map_congr_left fun e he => ?_
  exact congrArg (Option.map Prod.snd) (Table.find?_of_mem (Table.mem_def.mpr he))

theorem mem_keys {k : κ} : k ∈ m.keys ↔ ∃ a, m.get? k = some a := by
  constructor
  · intro h
    obtain ⟨e, he, rfl⟩ := mem_map.mp h
    exact ⟨e.2, congrArg (Option.map Prod.snd) (Table.find?_of_mem (Table.mem_def.mpr he))⟩
  · rintro ⟨a, h⟩
    obtain ⟨e, he, -⟩ := Option.map_eq_some_iff.mp h
    rw [← Table.key_of_find? he]
    exact mem_map_of_mem (Table.mem_def.mp (Table.mem_of_find? he))

end

end EntryMap

end Foundation
