/-
  Lists of entries addressed by their place, such as the calls made so far.

  `modify_cases`, `set_cases` and `append_cases` say where an entry comes from after one entry is
  rewritten or replaced, or one is added, and `sum_map_modify` what rewriting one entry does to a
  sum over all of them.
-/
import Mathlib.Algebra.BigOperators.Group.List.Basic
import Mathlib.Tactic

namespace Foundation

open List

universe u

variable {α : Type u} {l : List α} {i j : ℕ} {a b : α}

variable {f : α → α}

theorem modify_cases (h : (l.modify i f)[j]? = some b) (hi : l[i]? = some a) :
    (j = i ∧ b = f a) ∨ (j ≠ i ∧ l[j]? = some b) := by
  by_cases hij : i = j
  · subst hij
    rw [getElem?_modify_eq, hi] at h
    exact .inl ⟨rfl, (Option.some.inj h).symm⟩
  · rw [getElem?_modify_ne _ _ hij] at h
    exact .inr ⟨fun heq => hij heq.symm, h⟩

theorem modify_self (hi : l[i]? = some a) : (l.modify i f)[i]? = some (f a) := by
  rw [getElem?_modify_eq, hi]
  rfl

theorem modify_of_ne (hij : j ≠ i) (hj : l[j]? = some b) : (l.modify i f)[j]? = some b := by
  rwa [getElem?_modify_ne _ _ fun heq => hij heq.symm]

theorem set_cases (h : (l.set i a)[j]? = some b) :
    (j = i ∧ b = a) ∨ (j ≠ i ∧ l[j]? = some b) := by
  rw [getElem?_set] at h
  split at h
  · split at h
    · exact .inl ⟨by omega, (Option.some.inj h).symm⟩
    · cases h
  · exact .inr ⟨by omega, h⟩

theorem append_cases (h : (l ++ [a])[j]? = some b) : (j = l.length ∧ b = a) ∨ l[j]? = some b := by
  rcases lt_trichotomy j l.length with hlt | rfl | hgt
  · rw [getElem?_append_left hlt] at h
    exact .inr h
  · rw [getElem?_concat_length] at h
    exact .inl ⟨rfl, (Option.some.inj h).symm⟩
  · rw [getElem?_eq_none (by rw [length_append, length_singleton]; omega)] at h
    cases h

theorem append_of_getElem? (h : l[j]? = some b) : (l ++ [a])[j]? = some b := by
  rw [List.getElem?_append_left (List.getElem?_eq_some_iff.mp h).1]
  exact h

theorem sum_map_modify (h : l[i]? = some a) (f : α → α) (g : α → ℕ) :
    ((l.modify i f).map g).sum + g a = (l.map g).sum + g (f a) := by
  induction l generalizing i with
  | nil => cases h
  | cons b l ih =>
    cases i with
    | zero =>
      cases h
      simp only [modify_zero_cons, map_cons, sum_cons]
      omega
    | succ i =>
      have hrest := ih (i := i) h
      simp only [modify_succ_cons, map_cons, sum_cons]
      omega

end Foundation
