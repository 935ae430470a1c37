/-
  Sums over the rows of a table: what inserting, rewriting and deleting a row adds and takes.
-/
import Velocious.Foundation.Table
import Mathlib.Algebra.BigOperators.Group.List.Basic

namespace Foundation.Table

open List

universe u v

variable {α : Type u} {κ : Type v} {key : α → κ}

def sum (t : Table α key) (weight : α → ℤ) : ℤ := (t.rows.map weight).sum

@[simp] theorem sum_empty (weight : α → ℤ) : (empty : Table α key).sum weight = 0 := rfl

theorem sum_select (t : Table α key) (p : α → Bool) (weight : α → ℤ) :
    ((t.select p).map weight).sum = t.sum fun a => if p a then weight a else 0 := by
  rw [select, sum]
  induction t.rows with
  | nil => rfl
  | cons a rows ih => cases hp : p a <;> simp [hp, ih]

variable [DecidableEq κ] {t : Table α key} {weight : α → ℤ}

theorem sum_insert? {a : α} {t' : Table α key} (h : t.insert? a = some t') :
    t'.sum weight = t.sum weight + weight a := by
  rw [insert?] at h
  split at h
  · cases h
  · cases h
    simp [sum]

theorem sum_rows_of_not_mem {k : κ} {f : α → α} {rows : List α} (h : ∀ a ∈ rows, key a ≠ k) :
    (rows.map fun a => if key a = k then f a else a) = rows := by
  refine (map_congr_left fun a ha => ?_).trans rows.map_id
  rw [if_neg (h a ha)]
  rfl

theorem sum_modify {k : κ} {f : α → α} {hf : ∀ a, key (f a) = key a} {a : α}
    (h : t.find? k = some a) :
    (t.modify k f hf).sum weight = t.sum weight + weight (f a) - weight a := by
  have hrows : ∀ rows : List α, (rows.map key).Nodup → a ∈ rows → key a = k →
      ((rows.map fun b => if key b = k then f b else b).map weight).sum =
        (rows.map weight).sum + weight (f a) - weight a := by
    intro rows hnodup hmem hkey
    induction rows with
    | nil => cases hmem
    | cons b rows ih =>
      rw [map_cons, nodup_cons] at hnodup
      rcases mem_cons.1 hmem with rfl | hmem
      · have hothers : ∀ c ∈ rows, key c ≠ k := by
          rintro c hc rfl
          exact hnodup.1 (hkey ▸ mem_map_of_mem hc)
        rw [map_cons, sum_rows_of_not_mem hothers, if_pos hkey]
        simp only [map_cons, sum_cons]
        omega
      · have hb : key b ≠ k := by
          rintro rfl
          exact hnodup.1 (hkey ▸ mem_map_of_mem hmem)
        rw [map_cons, if_neg hb, map_cons, sum_cons, ih hnodup.2 hmem, map_cons,
          sum_cons]
        omega
  obtain ⟨hmem, hkey⟩ := find?_eq_some.1 h
  simpa [sum, modify, update] using hrows t.rows t.keys_nodup hmem hkey

theorem sum_delete {k : κ} :
    (t.delete fun a => key a = k).sum weight =
      t.sum weight - ((t.find? k).map weight).getD 0 := by
  have hrows : ∀ rows : List α, (rows.map key).Nodup →
      ((rows.filter fun b => !decide (key b = k)).map weight).sum = (rows.map weight).sum -
        ((rows.find? fun b => key b = k).map weight).getD 0 := by
    intro rows hnodup
    induction rows with
    | nil => rfl
    | cons b rows ih =>
      rw [map_cons, nodup_cons] at hnodup
      by_cases hb : key b = k
      · have hothers : (rows.filter fun c => !decide (key c = k)) = rows := by
          refine filter_eq_self.2 fun c hc => ?_
          have hne : key c ≠ k := by
            rintro rfl
            exact hnodup.1 (hb ▸ mem_map_of_mem hc)
          simp [hne]
        simp [hb, hothers]
      · simp only [filter_cons, find?_cons, hb, decide_false, Bool.not_false, if_true,
          map_cons, sum_cons, ih hnodup.2]
        omega
  exact hrows t.rows t.keys_nodup

end Foundation.Table
