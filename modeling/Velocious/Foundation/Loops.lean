/-
  Counting loops over lists.

  * `foldl_range`: a loop over the indices of a list is a fold over its elements.
  * `foldl_set`: a loop that assigns slot after slot.
  * `pieces_flatMap`: the pieces of a list of equally long codes.
-/
import Mathlib.Tactic

namespace Foundation

open List

variable {α β : Type*}

theorem foldl_range {f : β → ℕ → β} {g : β → α → β} (l : List α)
    (h : ∀ b i a, l[i]? = some a → f b i = g b a) (b : β) :
    (List.range l.length).foldl f b = l.foldl g b := by
  induction l using List.reverseRecOn with
  | nil => rfl
  | append_singleton l a ih =>
    have hinit : ∀ b i a', l[i]? = some a' → f b i = g b a' := by
      intro b i a' hi
      have hlt : i < l.length := (List.getElem?_eq_some_iff.mp hi).1
      exact h b i a' (by rw [getElem?_append_left hlt, hi])
    rw [length_append, length_singleton, range_succ, foldl_append,
      foldl_append, ih hinit]
    exact h _ _ _ (by simp)

theorem length_foldl_set (value : ℕ → α) (indices : List ℕ) (l : List α) :
    (indices.foldl (fun l i => l.set i (value i)) l).length = l.length := by
  induction indices generalizing l with
  | nil => rfl
  | cons i indices ih => simp [ih]

theorem take_succ_set {l : List α} {i : ℕ} (h : i < l.length) (a : α) :
    (l.set i a).take (i + 1) = l.take i ++ [a] := by
  rw [take_add_one, take_set_of_le le_rfl, getElem?_set_self h]
  rfl

theorem foldl_set {l : List α} {n : ℕ} (h : n ≤ l.length) (value : ℕ → α) :
    ((List.range n).foldl (fun l i => l.set i (value i)) l).take n = (List.range n).map value := by
  induction n with
  | zero => rfl
  | succ n ih =>
    rw [range_succ, foldl_append, foldl_cons, foldl_nil, take_succ_set,
      ih (by omega), map_append]
    · rfl
    · rw [length_foldl_set]
      omega

section
variable {code : α → List β} {width : ℕ} (h : ∀ a, (code a).length = width)
include h

theorem length_flatMap_code (l : List α) : (l.flatMap code).length = width * l.length := by
  induction l with
  | nil => simp
  | cons a l ih => simp [h, ih, Nat.mul_add, Nat.add_comm]

theorem drop_flatMap_code (l : List α) (n : ℕ) :
    (l.flatMap code).drop (width * n) = (l.drop n).flatMap code := by
  induction n generalizing l with
  | zero => simp
  | succ n ih =>
    cases l with
    | nil => simp
    | cons a l =>
      rw [flatMap_cons, Nat.mul_succ, Nat.add_comm, ← drop_drop, drop_left' (h a), ih,
        drop_succ_cons]

theorem take_flatMap_code (l : List α) (n : ℕ) :
    (l.flatMap code).take (width * n) = (l.take n).flatMap code := by
  induction n generalizing l with
  | zero => simp
  | succ n ih =>
    cases l with
    | nil => simp
    | cons a l =>
      rw [flatMap_cons, Nat.mul_succ, Nat.add_comm, take_append, h a, Nat.add_sub_cancel_left,
        ih, take_of_length_le (by rw [h a]; omega), take_succ_cons, flatMap_cons]

end

end Foundation
