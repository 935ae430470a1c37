/-
  Pages of records that are sorted by a key of their own.

  A page is a prefix of the sorted records above a cursor; the next cursor is the
  key of its last record. `mem_take_of_le` is why no record is passed: what a page
  leaves out lies above its last record.
-/
import Mathlib.Data.List.Sort
import Mathlib.Data.List.Nodup
import Mathlib.Data.List.Pairwise

namespace Foundation

open List

variable {α κ : Type*} [LinearOrder κ] {key : α → κ} {l : List α} {a last : α}

def sortByKey (key : α → κ) (l : List α) : List α := l.insertionSort fun a b => key a ≤ key b

@[simp]
theorem mem_sortByKey : a ∈ sortByKey key l ↔ a ∈ l := mem_insertionSort _

@[simp]
theorem length_sortByKey : (sortByKey key l).length = l.length := length_insertionSort _ _

theorem sortByKey_pairwise (h : l.Pairwise fun a b => key a ≠ key b) :
    (sortByKey key l).Pairwise fun a b => key a < key b := by
  have hle : (sortByKey key l).Pairwise fun a b => key a ≤ key b :=
    pairwise_insertionSort (fun a b => key a ≤ key b) l
  have hne : (sortByKey key l).Pairwise fun a b => key a ≠ key b :=
    h.perm (perm_insertionSort _ _).symm fun hab => Ne.symm hab
  refine (hle.and hne).imp ?_
  rintro a b ⟨hab, hne⟩
  exact lt_of_le_of_ne hab hne

omit [LinearOrder κ] in
theorem eq_of_key_eq (h : l.Pairwise fun a b => key a ≠ key b) {b : α} (ha : a ∈ l) (hb : b ∈ l)
    (hkey : key a = key b) : a = b := by
  have hsymm : Std.Symm fun a b : α => key a ≠ key b := ⟨fun _ _ hab => Ne.symm hab⟩
  by_contra hne
  exact h.forall ha hb hne hkey

theorem take_eq_of_length_lt {n : ℕ} (hshort : (l.take n).length < n) : l.take n = l := by
  rw [length_take] at hshort
  exact take_of_length_le (by omega)

section
variable (h : l.Pairwise fun a b => key a < key b)
include h

theorem key_le_getLast (hlast : l.getLast? = some last) (ha : a ∈ l) : key a ≤ key last := by
  obtain ⟨init, rfl⟩ := getLast?_eq_some_iff.mp hlast
  rcases mem_append.mp ha with ha | ha
  · exact ((pairwise_append.mp h).2.2 a ha last (mem_singleton_self last)).le
  · rw [mem_singleton.mp ha]

theorem mem_take_of_le {n : ℕ} (hlast : (l.take n).getLast? = some last) (ha : a ∈ l)
    (hle : key a ≤ key last) : a ∈ l.take n := by
  have hmem := mem_of_getLast? hlast
  rw [← take_append_drop n l] at h ha
  rcases mem_append.mp ha with ha | ha
  · exact ha
  · exact absurd hle (not_le.mpr ((pairwise_append.mp h).2.2 last hmem a ha))

end

end Foundation
