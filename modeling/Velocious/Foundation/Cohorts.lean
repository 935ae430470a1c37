/-
  Values in cohorts: a list is cut into chunks, and a question is asked about each chunk.

  * `chunkValues` cuts a list where the next value does not fit; `flatten_chunkValues`: nothing is
    lost, and the order is kept. `cut_chunkValues`: each chunk fits and no chunk has room for the
    next value.
  * `filter_flatMap_chunk`: where no value occurs twice, what is said about one value is in the
    answer for its chunk.
-/
import Mathlib.Data.List.Dedup

namespace Foundation

open List

variable {α β : Type}

/-- The distinct values, in the order in which they are first seen: JavaScript's `Set`. -/
def distinct [DecidableEq α] (values : List α) : List α := values.reverse.dedup.reverse

@[simp] theorem mem_distinct [DecidableEq α] {values : List α} {a : α} :
    a ∈ distinct values ↔ a ∈ values := by
  simp [distinct]

theorem nodup_distinct [DecidableEq α] (values : List α) : (distinct values).Nodup :=
  nodup_reverse.2 (nodup_dedup _)

theorem distinct_of_nodup [DecidableEq α] {values : List α} (h : values.Nodup) :
    distinct values = values := by
  rw [distinct, (nodup_reverse.2 h).dedup, reverse_reverse]

/-- The chunks of some values after a chunk that is being filled: a value that does not fit goes
    into the next one, unless the chunk is empty. -/
def chunksFrom (fits : List α → Bool) : List α → List α → List (List α)
  | [], [] => []
  | current, [] => [current]
  | [], value :: values => chunksFrom fits [value] values
  | current, value :: values =>
    if fits (current ++ [value]) then chunksFrom fits (current ++ [value]) values
    else current :: chunksFrom fits [value] values

/-- Chunks of at most `maxCount` values that fit, or of one value. -/
def chunkValues (maxCount : ℕ) (fits : List α → Bool) (values : List α) : List (List α) :=
  chunksFrom (fun candidate => decide (candidate.length ≤ maxCount) && fits candidate) [] values

theorem flatten_chunksFrom (fits : List α → Bool) (current values : List α) :
    (chunksFrom fits current values).flatten = current ++ values := by
  induction values generalizing current with
  | nil => cases current <;> simp [chunksFrom]
  | cons value values ih =>
    cases current with
    | nil => simp [chunksFrom, ih]
    | cons first current =>
      simp only [chunksFrom]
      split <;> simp [ih]

/-- **Chunks keep their values**, in order. -/
theorem flatten_chunkValues (maxCount : ℕ) (fits : List α → Bool) (values : List α) :
    (chunkValues maxCount fits values).flatten = values := by
  simp [chunkValues, flatten_chunksFrom]

/-- Chunks of some values: none is empty, together they are the values, a chunk of several values
    fits, and none fits with the first value of the next one. -/
structure Cut (fits : List α → Bool) (values : List α) (chunks : List (List α)) : Prop where
  ne_nil : [] ∉ chunks
  flatten : chunks.flatten = values
  within : ∀ chunk ∈ chunks, 1 < chunk.length → fits chunk = true
  full : chunks.IsChain fun chunk next => ∀ first ∈ next.head?, fits (chunk ++ [first]) = false

theorem cut_chunksFrom {fits : List α → Bool} {first : α} {current : List α} (values : List α)
    (hfits : current ≠ [] → fits (first :: current) = true) :
    Cut fits (first :: current ++ values) (chunksFrom fits (first :: current) values) ∧
      ∃ chunk chunks, chunksFrom fits (first :: current) values = (first :: chunk) :: chunks := by
  induction values generalizing first current with
  | nil =>
    refine ⟨⟨by simp [chunksFrom], by simp [chunksFrom], ?_, by simp [chunksFrom]⟩, current, [], rfl⟩
    simpa [chunksFrom, length_pos_iff] using hfits
  | cons value values ih =>
    simp only [chunksFrom]
    split
    · next hnext =>
      have h := @ih first (current ++ [value]) fun _ => hnext
      simpa using h
    · next hnext =>
      obtain ⟨hcut, chunk, chunks, heq⟩ := @ih value [] (absurd rfl)
      refine ⟨⟨by simpa using hcut.ne_nil, by simp [hcut.flatten], ?_, ?_⟩, current, _, rfl⟩
      · rintro chunk (_ | ⟨_, hmem⟩) hlength
        · exact hfits (by rintro rfl; simp at hlength)
        · exact hcut.within _ hmem hlength
      · have hfull := hcut.full
        rw [heq] at hfull ⊢
        exact isChain_cons_cons.mpr ⟨by simpa using hnext, hfull⟩

/-- **Each chunk is filled**, and no more than filled. -/
theorem cut_chunkValues (maxCount : ℕ) (fits : List α → Bool) (values : List α) :
    Cut (fun chunk => decide (chunk.length ≤ maxCount) && fits chunk) values
      (chunkValues maxCount fits values) := by
  cases values with
  | nil => exact ⟨by simp [chunkValues, chunksFrom], rfl, by simp [chunkValues, chunksFrom],
      by simp [chunkValues, chunksFrom]⟩
  | cons value values =>
    exact (@cut_chunksFrom α _ value [] values (absurd rfl)).1

theorem filter_flatMap_chunk {chunks : List (List α)} {chunk : List α} {a : α}
    {answer : List α → List β} {p : β → Bool} (hnodup : chunks.flatten.Nodup)
    (hchunk : chunk ∈ chunks) (ha : a ∈ chunk)
    (hother : ∀ other ∈ chunks, a ∉ other → ∀ b ∈ answer other, p b = false) :
    (chunks.flatMap answer).filter p = (answer chunk).filter p := by
  obtain ⟨before, after, rfl⟩ := append_of_mem hchunk
  have hnone (others : List (List α)) (hsub : ∀ other ∈ others, other ∈ before ++ chunk :: after)
      (hnot : ∀ other ∈ others, a ∉ other) : (others.flatMap answer).filter p = [] := by
    simp only [filter_eq_nil_iff, mem_flatMap, Bool.not_eq_true]
    rintro b ⟨other, hmem, hb⟩
    exact hother other (hsub other hmem) (hnot other hmem) b hb
  simp only [flatten_append, flatten_cons, nodup_append, mem_append,
    mem_flatten] at hnodup
  obtain ⟨-, ⟨-, -, hafter⟩, hbefore⟩ := hnodup
  have hb := hnone before (fun other hmem => by simp [hmem]) fun other hmem hin =>
    hbefore a ⟨other, hmem, hin⟩ a (.inl ha) rfl
  have hf := hnone after (fun other hmem => by simp [hmem]) fun other hmem hin =>
    hafter a ha a ⟨other, hmem, hin⟩ rfl
  simp [hb, hf]

end Foundation
