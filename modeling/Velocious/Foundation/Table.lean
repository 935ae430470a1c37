/-
  Keyed tables: finite tables whose rows carry a primary key.

  A `Table α key` is a list of rows no two of which share a key, so a table
  that violates its primary key cannot be built. The statements are those of
  SQL: `find?` and `select` read, `insert?` fails on a taken key, `update p f`
  rewrites the rows matching `p` without touching their keys, `delete p` drops
  them, and `count p` is both `COUNT(*)` and the number of rows a statement
  affects.

  * `find?_update`, `mem_update`, `count_update`: what each statement does to
    look-ups, membership and counts;
  * `modify k f` rewrites the one row with key `k`; `update_key_eq` says that a
    conditional update fenced on a key is a `modify` or nothing at all.
-/
import Mathlib.Data.List.Nodup
import Mathlib.Data.List.Count
import Mathlib.Tactic

namespace Foundation

open List

universe u v

/-- A table of rows `α` with primary key `key`. -/
structure Table (α : Type u) {κ : Type v} (key : α → κ) where
  rows : List α
  keys_nodup : (rows.map key).Nodup

namespace Table

variable {α : Type u} {κ : Type v} {key : α → κ}

instance : Membership α (Table α key) := ⟨fun t a => a ∈ t.rows⟩

theorem mem_def {t : Table α key} {a : α} : a ∈ t ↔ a ∈ t.rows := Iff.rfl

@[ext] theorem ext {t u : Table α key} (h : t.rows = u.rows) : t = u := by
  cases t; simp_all

instance [DecidableEq α] : DecidableEq (Table α key) := fun t u =>
  decidable_of_iff (t.rows = u.rows) ⟨Table.ext, fun h => h ▸ rfl⟩

def empty : Table α key := ⟨[], by simp⟩

def select (t : Table α key) (p : α → Bool) : List α := t.rows.filter p

/-- The number of rows matching `p`. -/
def count (t : Table α key) (p : α → Bool) : ℕ := t.rows.countP p

/-- Rewrites the rows matching `p` with `f`, which keeps the key. -/
def update (t : Table α key) (p : α → Bool) (f : α → α)
    (hf : ∀ a, key (f a) = key a := by intro a; rfl) : Table α key where
  rows := t.rows.map fun a => if p a then f a else a
  keys_nodup := by
    have h : key ∘ (fun a => if p a then f a else a) = key := by
      funext a
      by_cases hp : p a <;> simp [hp, hf]
    rw [map_map, h]
    exact t.keys_nodup

/-- Drops the rows matching `p`. -/
def delete (t : Table α key) (p : α → Bool) : Table α key where
  rows := t.rows.filter fun a => !p a
  keys_nodup := t.keys_nodup.sublist (filter_sublist.map key)

section lookup
variable [DecidableEq κ]

def find? (t : Table α key) (k : κ) : Option α := t.rows.find? fun a => key a = k

/-- Appends a row; `none` when its key is taken. -/
def insert? (t : Table α key) (a : α) : Option (Table α key) :=
  if h : key a ∈ t.rows.map key then none
  else some
    { rows := t.rows ++ [a]
      keys_nodup := by
        rw [map_append, nodup_append]
        refine ⟨t.keys_nodup, by simp, ?_⟩
        rintro k hk _ hk' rfl
        simp only [map_cons, map_nil, mem_singleton] at hk'
        exact h (hk' ▸ hk) }

/-- Rewrites the row with key `k`. -/
def modify (t : Table α key) (k : κ) (f : α → α)
    (hf : ∀ a, key (f a) = key a := by intro a; rfl) : Table α key :=
  t.update (fun a => key a = k) f hf

/-- Appends `a`, or rewrites the row with its key with `f`. -/
def upsert (t : Table α key) (a : α) (f : α → α)
    (hf : ∀ a, key (f a) = key a := by intro a; rfl) : Table α key :=
  match t.insert? a with
  | some t' => t'
  | none => t.modify (key a) f hf

/-- `a`, in place of a row with its key. -/
def overwrite (key : α → κ) (a b : α) : α := if key b = key a then a else b

theorem key_overwrite (key : α → κ) (a b : α) : key (overwrite key a b) = key b := by
  unfold overwrite
  split
  · next h => exact h.symm
  · rfl

/-- Writes `a` over the row with its key, if there is one. -/
def put (t : Table α key) (a : α) : Table α key :=
  t.modify (key a) (overwrite key a) (key_overwrite key a)

end lookup

/-! ## Reading -/

@[simp] theorem not_mem_empty {a : α} : a ∉ (empty : Table α key) := by
  simp [mem_def, empty]

@[simp] theorem count_empty (p : α → Bool) : (empty : Table α key).count p = 0 := rfl

theorem eq_of_key {t : Table α key} {a b : α} (ha : a ∈ t) (hb : b ∈ t) (h : key a = key b) :
    a = b :=
  inj_on_of_nodup_map t.keys_nodup ha hb h

theorem mem_select {t : Table α key} {p : α → Bool} {a : α} :
    a ∈ t.select p ↔ a ∈ t ∧ p a := by
  simp [select, mem_def]

theorem count_eq_zero {t : Table α key} {p : α → Bool} :
    t.count p = 0 ↔ ∀ a ∈ t, p a = false := by
  simp [count, mem_def]

theorem count_congr {t : Table α key} {p q : α → Bool} (h : ∀ a ∈ t, p a = q a) :
    t.count p = t.count q :=
  countP_congr fun a ha => by simp [h a ha]

section lookup
variable [DecidableEq κ]

@[simp] theorem find?_empty (k : κ) : (empty : Table α key).find? k = none := rfl

theorem find?_eq_some {t : Table α key} {k : κ} {a : α} :
    t.find? k = some a ↔ a ∈ t ∧ key a = k := by
  constructor
  · intro h
    exact ⟨mem_of_find?_eq_some h, by simpa using find?_some h⟩
  · rintro ⟨ha, rfl⟩
    cases h : t.find? (key a) with
    | none => simpa using find?_eq_none.mp h a ha
    | some b =>
      have hb : b ∈ t := mem_of_find?_eq_some h
      have hk : key b = key a := by simpa using find?_some h
      rw [eq_of_key hb ha hk]

theorem find?_eq_none {t : Table α key} {k : κ} :
    t.find? k = none ↔ ∀ a ∈ t, key a ≠ k := by
  simp [find?, mem_def]

section
variable {t : Table α key} {k : κ} {a : α} (h : t.find? k = some a)
include h

theorem mem_of_find? : a ∈ t :=
  (find?_eq_some.mp h).1

theorem key_of_find? : key a = k :=
  (find?_eq_some.mp h).2

end

theorem find?_of_mem {t : Table α key} {a : α} (h : a ∈ t) : t.find? (key a) = some a :=
  find?_eq_some.mpr ⟨h, rfl⟩

end lookup

/-! ## Writing -/

section update
variable {t : Table α key} {p : α → Bool} {f : α → α} {hf : ∀ a, key (f a) = key a}

theorem mem_update {b : α} :
    b ∈ t.update p f hf ↔ ∃ a ∈ t, b = if p a then f a else a := by
  simp only [mem_def, update, mem_map]
  exact exists_congr fun a => and_congr_right fun _ => eq_comm

theorem count_update (q : α → Bool) :
    (t.update p f hf).count q = t.count fun a => q (if p a then f a else a) := by
  simp only [count, update, countP_map]
  rfl

theorem update_eq_self (h : ∀ a ∈ t, p a = false) : t.update p f hf = t := by
  apply Table.ext
  exact (map_congr_left fun a ha => by simp [h a ha]).trans (map_id _)

theorem update_eq_self_of_fixed (h : ∀ a ∈ t, p a → f a = a) : t.update p f hf = t := by
  apply ext
  refine (map_congr_left fun a ha => ?_).trans (map_id _)
  split
  · next hp => exact h a ha hp
  · rfl

theorem find?_update [DecidableEq κ] (k : κ) :
    (t.update p f hf).find? k = (t.find? k).map fun a => if p a then f a else a := by
  cases h : t.find? k with
  | none =>
    rw [find?_eq_none] at h
    simp only [Option.map_none, find?_eq_none, mem_update]
    rintro b ⟨a, ha, rfl⟩
    by_cases hp : p a <;> simp [hp, hf, h a ha]
  | some a =>
    obtain ⟨ha, rfl⟩ := find?_eq_some.mp h
    simp only [Option.map_some, find?_eq_some, mem_update]
    refine ⟨⟨a, ha, rfl⟩, ?_⟩
    by_cases hp : p a <;> simp [hp, hf]

end update

section delete
variable {t : Table α key} {p : α → Bool}

theorem mem_delete {a : α} : a ∈ t.delete p ↔ a ∈ t ∧ p a = false := by
  simp [mem_def, delete]

theorem count_delete (q : α → Bool) :
    (t.delete p).count q = t.count fun a => q a && !p a := by
  simp [count, delete, countP_filter]

theorem count_delete_add (q : α → Bool) :
    (t.delete p).count q + t.count (fun a => q a && p a) = t.count q := by
  rw [count_delete]
  simp only [count]
  induction t.rows with
  | nil => rfl
  | cons a l ih =>
    simp only [countP_cons]
    cases q a <;> cases p a <;> simp <;> omega

theorem delete_eq_self (h : ∀ a ∈ t, p a = false) : t.delete p = t := by
  apply Table.ext
  simpa [delete, mem_def] using h

theorem find?_delete [DecidableEq κ] (k : κ) :
    (t.delete p).find? k = (t.find? k).filter fun a => !p a := by
  cases h : t.find? k with
  | none =>
    rw [find?_eq_none] at h
    simp only [Option.filter_none, find?_eq_none, mem_delete]
    exact fun a ha => h a ha.1
  | some a =>
    obtain ⟨ha, rfl⟩ := find?_eq_some.mp h
    by_cases hp : p a
    · rw [show (some a).filter (fun a => !p a) = none by simp [hp]]
      rw [find?_eq_none]
      intro b hb hk
      obtain ⟨hb, hpb⟩ := mem_delete.mp hb
      rw [eq_of_key hb ha hk, hp] at hpb
      cases hpb
    · simp [hp, Option.filter_some, find?_eq_some, mem_delete, ha]

end delete

section insert
variable [DecidableEq κ] {t t' : Table α key} {a : α}

theorem insert?_eq_some :
    t.insert? a = some t' ↔ t.find? (key a) = none ∧ t'.rows = t.rows ++ [a] := by
  have hk : key a ∈ t.rows.map key ↔ ¬ t.find? (key a) = none := by
    simp [find?_eq_none, mem_def]
  unfold insert?
  split
  · next h => simp [hk.mp h]
  · next h =>
    have hn : t.find? (key a) = none := by
      by_contra hc
      exact h (hk.mpr hc)
    simp only [hn, Option.some.injEq, true_and]
    constructor
    · rintro rfl
      rfl
    · intro hr
      exact Table.ext hr.symm

theorem insert?_eq_none : t.insert? a = none ↔ ∃ b, t.find? (key a) = some b := by
  unfold insert?
  split
  · next h =>
    obtain ⟨b, hb, hk⟩ := mem_map.mp h
    simp only [true_iff]
    exact ⟨b, find?_eq_some.mpr ⟨hb, hk⟩⟩
  · next h =>
    simp only [reduceCtorEq, false_iff, not_exists]
    intro b hb
    obtain ⟨hb, hk⟩ := find?_eq_some.mp hb
    exact h (mem_map.mpr ⟨b, hb, hk⟩)

theorem mem_insert? (h : t.insert? a = some t') {b : α} : b ∈ t' ↔ b ∈ t ∨ b = a := by
  rw [mem_def, (insert?_eq_some.mp h).2]
  simp [mem_def]

theorem count_insert? (h : t.insert? a = some t') (q : α → Bool) :
    t'.count q = t.count q + if q a then 1 else 0 := by
  simp [count, (insert?_eq_some.mp h).2]

theorem find?_insert? (h : t.insert? a = some t') (k : κ) :
    t'.find? k = if k = key a then some a else t.find? k := by
  obtain ⟨hn, hr⟩ := insert?_eq_some.mp h
  split
  · next hk =>
    rw [find?_eq_some, mem_insert? h]
    exact ⟨.inr rfl, hk.symm⟩
  · next hk =>
    simp only [find?, hr]
    simp [Ne.symm hk]

/-- Inserts rows; `none` when a key is taken. -/
def insertAll? (t : Table α key) : List α → Option (Table α key)
  | [] => some t
  | a :: as => (t.insert? a).bind fun t' => t'.insertAll? as

theorem insertAll?_append (as bs : List α) :
    t.insertAll? (as ++ bs) = (t.insertAll? as).bind fun t' => t'.insertAll? bs := by
  induction as generalizing t with
  | nil => rfl
  | cons a as ih =>
    rw [cons_append, insertAll?, insertAll?]
    cases t.insert? a with
    | none => rfl
    | some t₁ => exact ih

theorem rows_insertAll? {as : List α} (h : t.insertAll? as = some t') :
    t'.rows = t.rows ++ as := by
  induction as generalizing t with
  | nil =>
    cases h
    exact (append_nil _).symm
  | cons a as ih =>
    obtain ⟨t₁, h₁, h⟩ := Option.bind_eq_some_iff.mp h
    rw [ih h, (insert?_eq_some.mp h₁).2, append_assoc, singleton_append]

theorem exists_insertAll? {as : List α} :
    (∃ t', t.insertAll? as = some t') ↔ ((t.rows ++ as).map key).Nodup := by
  constructor
  · rintro ⟨t', h⟩
    rw [← rows_insertAll? h]
    exact t'.keys_nodup
  · intro h
    induction as generalizing t with
    | nil => exact ⟨t, rfl⟩
    | cons a as ih =>
      cases h₁ : t.insert? a with
      | none =>
        obtain ⟨b, hb⟩ := insert?_eq_none.mp h₁
        obtain ⟨hb, hk⟩ := find?_eq_some.mp hb
        rw [map_append] at h
        have hmem : key a ∈ t.rows.map key := hk ▸ mem_map_of_mem hb
        exact (disjoint_of_nodup_append h hmem mem_cons_self).elim
      | some t₁ =>
        have hrows := (insert?_eq_some.mp h₁).2
        rw [insertAll?, h₁]
        exact ih (by rw [hrows, append_assoc]; exact h)

end insert

/-! ## Writing one row -/

section modify
variable [DecidableEq κ] {t : Table α key} {k : κ} {a : α} {f : α → α}
  {hf : ∀ a, key (f a) = key a}

theorem find?_modify (k' : κ) :
    (t.modify k f hf).find? k' = if k' = k then (t.find? k).map f else t.find? k' := by
  rw [modify, find?_update]
  split
  · next h =>
    subst h
    cases h : t.find? k' with
    | none => rfl
    | some a => simp [key_of_find? h]
  · next hne =>
    cases h : t.find? k' with
    | none => rfl
    | some a => simp [key_of_find? h, hne]

theorem find?_upsert {a : α} (k' : κ) :
    (t.upsert a f hf).find? k' =
      if k' = key a then some ((t.find? (key a)).elim a f) else t.find? k' := by
  unfold upsert
  split
  · next t' h =>
    rw [find?_insert? h, (insert?_eq_some.mp h).1]
    rfl
  · next h =>
    obtain ⟨b, hb⟩ := insert?_eq_none.mp h
    rw [find?_modify, hb]
    rfl

theorem mem_modify (h : t.find? k = some a) {b : α} :
    b ∈ t.modify k f hf ↔ b = f a ∨ (b ∈ t ∧ key b ≠ k) := by
  simp only [modify, mem_update, decide_eq_true_eq]
  constructor
  · rintro ⟨c, hc, rfl⟩
    by_cases hk : key c = k
    · left
      rw [if_pos hk, eq_of_key hc (mem_of_find? h) (hk.trans (key_of_find? h).symm)]
    · right
      rw [if_neg hk]
      exact ⟨hc, hk⟩
  · rintro (rfl | ⟨hb, hk⟩)
    · exact ⟨a, mem_of_find? h, by rw [if_pos (key_of_find? h)]⟩
    · exact ⟨b, hb, by rw [if_neg hk]⟩

theorem modify_eq_self (h : t.find? k = none) : t.modify k f hf = t :=
  update_eq_self fun a ha => by simpa using find?_eq_none.mp h a ha

theorem update_key_eq (c : α → Bool) (h : t.find? k = some a) :
    t.update (fun b => key b = k && c b) f hf = if c a then t.modify k f hf else t := by
  have hu : ∀ b ∈ t, key b = k → b = a := fun b hb hk =>
    eq_of_key hb (mem_of_find? h) (hk.trans (key_of_find? h).symm)
  split
  · next hc =>
    apply Table.ext
    refine map_congr_left fun b hb => ?_
    by_cases hk : key b = k
    · simp [hu b hb hk, hc]
    · simp [hk]
  · next hc =>
    refine update_eq_self fun b hb => ?_
    by_cases hk : key b = k
    · simp [hu b hb hk, hc]
    · simp [hk]

theorem exists_split (h : t.find? k = some a) :
    ∃ l₁ l₂, t.rows = l₁ ++ a :: l₂ ∧ (∀ b ∈ l₁, key b ≠ k) ∧ ∀ b ∈ l₂, key b ≠ k := by
  obtain ⟨ha, rfl⟩ := find?_eq_some.mp h
  obtain ⟨l₁, l₂, hl⟩ := append_of_mem (mem_def.mp ha)
  have hn := t.keys_nodup
  rw [hl, map_append, map_cons, nodup_append, nodup_cons] at hn
  obtain ⟨-, ⟨ha₂, -⟩, hd⟩ := hn
  refine ⟨l₁, l₂, hl, fun b hb hk => ?_, fun b hb hk => ?_⟩
  · exact hd _ (mem_map_of_mem hb) _ (mem_cons_self ..) hk
  · exact ha₂ (hk ▸ mem_map_of_mem hb)

theorem count_modify (f : α → α) (hf : ∀ a, key (f a) = key a) (h : t.find? k = some a)
    (q : α → Bool) :
    (t.modify k f hf).count q + (if q a then 1 else 0) =
      t.count q + if q (f a) then 1 else 0 := by
  obtain ⟨l₁, l₂, hl, h₁, h₂⟩ := exists_split h
  have hq : ∀ l : List α, (∀ b ∈ l, key b ≠ k) →
      l.countP (fun b => q (if decide (key b = k) = true then f b else b)) = l.countP q :=
    fun l hl => countP_congr fun b hb => by simp [hl b hb]
  rw [modify, count_update]
  simp only [count, hl, countP_append, countP_cons, hq l₁ h₁, hq l₂ h₂,
    key_of_find? h, decide_true, if_true]
  omega

theorem count_key (c : α → Bool) (h : t.find? k = some a) :
    t.count (fun b => key b = k && c b) = if c a then 1 else 0 := by
  obtain ⟨l₁, l₂, hl, h₁, h₂⟩ := exists_split h
  have hz : ∀ l : List α, (∀ b ∈ l, key b ≠ k) → l.countP (fun b => key b = k && c b) = 0 :=
    fun l hl => countP_eq_zero.mpr fun b hb => by simp [hl b hb]
  simp [count, hl, countP_cons, hz l₁ h₁, hz l₂ h₂, key_of_find? h]

theorem count_key_none (c : α → Bool) (h : t.find? k = none) :
    t.count (fun b => key b = k && c b) = 0 :=
  count_eq_zero.mpr fun b hb => by simp [find?_eq_none.mp h b hb]

theorem put_of_key (h : key a = k) :
    t.put a = t.modify k (overwrite key a) (key_overwrite key a) := by
  subst h
  rfl

theorem mem_put {b : α} (h : b ∈ t.put a) : b = a ∨ b ∈ t := by
  rw [put, modify, mem_update] at h
  obtain ⟨b, hb, rfl⟩ := h
  split
  · next hk => exact .inl (by rw [overwrite, if_pos (by simpa using hk)])
  · exact .inr hb

theorem find?_put_isSome {b : α} (h : t.find? k = some b) : ∃ b, (t.put a).find? k = some b := by
  rw [put, find?_modify]
  split
  · next hk => exact ⟨overwrite key a b, by rw [← hk, h, Option.map_some]⟩
  · exact ⟨b, h⟩

theorem put_eq_modify (f : α → α) (hf : ∀ a, key (f a) = key a) (h : t.find? k = some a) :
    t.put (f a) = t.modify k f hf := by
  obtain rfl : key a = k := key_of_find? h
  apply Table.ext
  refine map_congr_left fun b hb => ?_
  simp only [hf, overwrite]
  by_cases hk : key b = key a
  · rw [eq_of_key hb (mem_of_find? h) hk]
    simp
  · simp [hk]

theorem put_eq_self (h : t.find? (key a) = some a) : t.put a = t :=
  (put_eq_modify id (fun _ => rfl) h).trans (update_eq_self_of_fixed fun _ _ _ => rfl)

end modify

end Table

/-- SQL's `column = value`: never true of NULL. -/
def sqlEq {α : Type} [DecidableEq α] (column value : Option α) : Bool :=
  column.isSome && column = value

@[simp] theorem sqlEq_some {α : Type} [DecidableEq α] {column : Option α} {a : α} :
    sqlEq column (some a) = decide (column = some a) := by
  cases column <;> simp [sqlEq]

@[simp] theorem sqlEq_none {α : Type} [DecidableEq α] {column : Option α} :
    sqlEq column none = false := by
  cases column <;> simp [sqlEq]

end Foundation
