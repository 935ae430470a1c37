/-
  Framing a stream that arrives in chunks.

  A `Framer` splits one item off the front of a stream, if a whole one is there;
  more bytes behind a whole item do not change it. Taking all whole items after
  each chunk is then taking those of the whole stream (`frames_append`), and a
  stream that was put together from items is taken apart into them
  (`frames_flatMap`). `bigEndian` reads a length field.
-/
import Mathlib.Data.List.Basic
import Mathlib.Tactic.Ring

namespace Foundation

open List

universe u v

/-! ## Framers -/

/-- Splits one item off the front of a stream, if a whole one is there. -/
structure Framer (β : Type u) (ε : Type v) where
  next : List β → Option (ε × List β)
  shorter : ∀ {b x r}, next b = some (x, r) → r.length < b.length
  extend : ∀ {b x r} (c : List β), next b = some (x, r) → next (b ++ c) = some (x, r ++ c)

namespace Framer

variable {β : Type u} {ε : Type v} (f : Framer β ε)

/-- The first `n` items, and what is left. -/
def split : ℕ → List β → List ε × List β
  | 0, b => ([], b)
  | n + 1, b =>
    match f.next b with
    | none => ([], b)
    | some (x, r) => (x :: (split n r).1, (split n r).2)

/-- The whole items of a stream. -/
def frames (b : List β) : List ε := (f.split b.length b).1

def rest (b : List β) : List β := (f.split b.length b).2

variable {f} {b c r : List β} {x : ε}

theorem split_fuel {n m : ℕ} (hn : b.length ≤ n) (hm : b.length ≤ m) :
    f.split n b = f.split m b := by
  induction n generalizing b m with
  | zero =>
    obtain rfl := eq_nil_of_length_eq_zero (Nat.le_zero.mp hn)
    cases m with
    | zero => rfl
    | succ m =>
      have hnone : f.next [] = none := by
        cases h : f.next [] with
        | none => rfl
        | some y => exact absurd (f.shorter h) (Nat.not_lt_zero _)
      simp [split, hnone]
  | succ n ih =>
    cases h : f.next b with
    | none => cases m <;> simp only [split, h]
    | some y =>
      obtain ⟨x, r⟩ := y
      have hr := f.shorter h
      cases m with
      | zero => omega
      | succ m => simp only [split, h, ih (b := r) (m := m) (by omega) (by omega)]

theorem frames_of_none (h : f.next b = none) : f.frames b = [] := by
  rw [frames]
  cases b.length <;> simp only [split, h]

theorem rest_of_none (h : f.next b = none) : f.rest b = b := by
  rw [rest]
  cases b.length <;> simp only [split, h]

theorem split_of_some (h : f.next b = some (x, r)) :
    f.split b.length b = (x :: f.frames r, f.rest r) := by
  have hr := f.shorter h
  obtain ⟨n, hn⟩ := Nat.exists_eq_add_of_lt hr
  have hfuel : f.split (r.length + n) r = f.split r.length r := split_fuel (by omega) le_rfl
  simp only [hn, split, h, hfuel]
  rfl

theorem frames_of_some (h : f.next b = some (x, r)) : f.frames b = x :: f.frames r := by
  rw [frames, split_of_some h]

theorem rest_of_some (h : f.next b = some (x, r)) : f.rest b = f.rest r := by
  rw [rest, split_of_some h]

theorem next_rest (b : List β) : f.next (f.rest b) = none := by
  induction hn : b.length using Nat.strong_induction_on generalizing b with
  | _ n ih =>
    cases h : f.next b with
    | none => rw [rest_of_none h, h]
    | some y =>
      obtain ⟨x, r⟩ := y
      rw [rest_of_some h]
      exact ih r.length (hn ▸ f.shorter h) r rfl

theorem frames_append (b c : List β) :
    f.frames (b ++ c) = f.frames b ++ f.frames (f.rest b ++ c) ∧
      f.rest (b ++ c) = f.rest (f.rest b ++ c) := by
  induction hn : b.length using Nat.strong_induction_on generalizing b with
  | _ n ih =>
    cases h : f.next b with
    | none => rw [frames_of_none h, rest_of_none h]; exact ⟨rfl, rfl⟩
    | some y =>
      obtain ⟨x, r⟩ := y
      obtain ⟨hframes, hrest⟩ := ih r.length (hn ▸ f.shorter h) r rfl
      have happend := f.extend c h
      rw [frames_of_some happend, rest_of_some happend, frames_of_some h, rest_of_some h]
      exact ⟨congrArg (x :: ·) hframes, hrest⟩

theorem frames_flatMap {ι : Type*} {encode : ι → List β} {item : ι → ε} {xs : List ι}
    (h : ∀ i ∈ xs, ∀ r, f.next (encode i ++ r) = some (item i, r)) (hnil : f.next [] = none) :
    f.frames (xs.flatMap encode) = xs.map item ∧ f.rest (xs.flatMap encode) = [] := by
  induction xs with
  | nil => exact ⟨frames_of_none hnil, rest_of_none hnil⟩
  | cons i xs ih =>
    obtain ⟨hframes, hrest⟩ := ih fun j hj => h j (mem_cons_of_mem _ hj)
    have hnext := h i mem_cons_self (xs.flatMap encode)
    rw [flatMap_cons, frames_of_some hnext, rest_of_some hnext]
    exact ⟨congrArg (item i :: ·) hframes, hrest⟩

end Framer

/-- The number these bytes spell, the most significant first. -/
def bigEndian (bytes : List UInt8) : ℕ := bytes.foldl (fun n b => n * 256 + b.toNat) 0

/-- `n` in `k` bytes. -/
def toBigEndian : ℕ → ℕ → List UInt8
  | 0, _ => []
  | k + 1, n => toBigEndian k (n / 256) ++ [UInt8.ofNat (n % 256)]

@[simp] theorem length_toBigEndian (k n : ℕ) : (toBigEndian k n).length = k := by
  induction k generalizing n with
  | zero => rfl
  | succ k ih => simp [toBigEndian, ih]

theorem bigEndian_toBigEndian {k n : ℕ} (h : n < 256 ^ k) : bigEndian (toBigEndian k n) = n := by
  induction k generalizing n with
  | zero =>
    obtain rfl := Nat.lt_one_iff.mp h
    rfl
  | succ k ih =>
    have hdiv : n / 256 < 256 ^ k := by
      rw [Nat.div_lt_iff_lt_mul (by omega)]
      exact h
    have hbyte : (UInt8.ofNat (n % 256)).toNat = n % 256 := by
      rw [UInt8.toNat_ofNat']
      omega
    have hprefix := ih hdiv
    rw [bigEndian] at hprefix ⊢
    rw [toBigEndian, foldl_append]
    simp only [foldl_cons, foldl_nil]
    omega

end Foundation
