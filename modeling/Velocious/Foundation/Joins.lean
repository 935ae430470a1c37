/-
  The bags of rows that SQL computes: joins by nested loops, groups, and windows.

  * `joinRows` is the join of two lists of rows, of any type; `merge` makes a row of a row of each
    side, where the other side may be missing.
  * `groupRows` is one list of rows for each value of a key.
  * `length_dedup_map`: two functions that tell apart the same rows have as many values;
    `length_dedup_map_pair`: the values of a function on two rows.
-/
import Mathlib.Data.Finset.Card
import Mathlib.Data.List.Dedup

namespace Foundation

open List

/-- The join of two tables. -/
inductive JoinType where
  | inner
  | left
  | right
  | full
  deriving DecidableEq

/-- The rows of the left side are kept without a match. -/
def JoinType.keepsLeft : JoinType → Bool
  | left | full => true
  | inner | right => false

def JoinType.keepsRight : JoinType → Bool
  | right | full => true
  | inner | left => false

section
variable {α β γ : Type}

def joinRows (type : JoinType) (on : α → β → Bool) (merge : Option α → Option β → γ)
    (as : List α) (bs : List β) : List γ :=
  (as.flatMap fun a =>
    match bs.filter (on a) with
    | [] => if type.keepsLeft then [merge (some a) none] else []
    | b :: bs => (b :: bs).map fun b => merge (some a) (some b)) ++
  if type.keepsRight then
    (bs.filter fun b => as.all fun a => !on a b).map fun b => merge none (some b)
  else []

theorem mem_joinRows {type : JoinType} {on : α → β → Bool} {merge : Option α → Option β → γ}
    {as : List α} {bs : List β} {c : γ} (h : c ∈ joinRows type on merge as bs) :
    (∃ a ∈ as, ∃ b, c = merge (some a) b) ∨
      type.keepsRight = true ∧ ∃ b ∈ bs, c = merge none (some b) := by
  rcases mem_append.mp h with hleft | hright
  · obtain ⟨a, ha, hc⟩ := mem_flatMap.mp hleft
    refine .inl ⟨a, ha, ?_⟩
    split at hc
    · split at hc
      · exact ⟨none, mem_singleton.mp hc⟩
      · cases hc
    · obtain ⟨b, -, rfl⟩ := mem_map.mp hc
      exact ⟨some b, rfl⟩
  · split at hright
    · rename_i hkeeps
      obtain ⟨b, hb, rfl⟩ := mem_map.mp hright
      exact .inr ⟨hkeeps, b, mem_of_mem_filter hb, rfl⟩
    · cases hright

def groupRows [DecidableEq β] (key : α → β) (rows : List α) : List (List α) :=
  (rows.map key).dedup.map fun k => rows.filter fun row => key row = k

def window (limit offset : Option ℕ) (rows : List α) : List α :=
  let rows := rows.drop (offset.getD 0)
  limit.elim rows rows.take

theorem length_dedup_map [DecidableEq β] [DecidableEq γ] {f : α → β} {g : α → γ} {rows : List α}
    (h : ∀ r ∈ rows, ∀ s ∈ rows, f r = f s ↔ g r = g s) :
    (rows.map f).dedup.length = (rows.map g).dedup.length := by
  induction rows with
  | nil => rfl
  | cons row rows ih =>
    have hmem : f row ∈ rows.map f ↔ g row ∈ rows.map g := by
      simp only [mem_map]
      constructor
      · rintro ⟨s, hs, hf⟩
        exact ⟨s, hs, (h s (mem_cons_of_mem row hs) row mem_cons_self).mp hf⟩
      · rintro ⟨s, hs, hg⟩
        exact ⟨s, hs, (h s (mem_cons_of_mem row hs) row mem_cons_self).mpr hg⟩
    have hrest := ih fun r hr s hs =>
      h r (mem_cons_of_mem row hr) s (mem_cons_of_mem row hs)
    by_cases hf : f row ∈ rows.map f
    · rw [map_cons, map_cons, dedup_cons_of_mem hf,
        dedup_cons_of_mem (hmem.mp hf), hrest]
    · rw [map_cons, map_cons, dedup_cons_of_notMem hf,
        dedup_cons_of_notMem (mt hmem.mpr hf), length_cons, length_cons, hrest]

theorem length_dedup_map_pair [DecidableEq β] {f : α → β} {rows : List α} {r s : α} (hr : r ∈ rows)
    (hs : s ∈ rows) (h : ∀ x ∈ rows, x = r ∨ x = s) :
    (rows.map f).dedup.length = if f r = f s then 1 else 2 := by
  have hset : (rows.map f).toFinset = {f r, f s} := by
    ext y
    simp only [mem_toFinset, mem_map, Finset.mem_insert, Finset.mem_singleton]
    constructor
    · rintro ⟨x, hx, rfl⟩
      exact (h x hx).imp (congrArg f) (congrArg f)
    · rintro (rfl | rfl)
      · exact ⟨r, hr, rfl⟩
      · exact ⟨s, hs, rfl⟩
  rw [← card_toFinset, hset]
  split
  · rename_i heq
    rw [heq, Finset.pair_eq_singleton, Finset.card_singleton]
  · rename_i hne
    exact Finset.card_pair hne

end

end Foundation
