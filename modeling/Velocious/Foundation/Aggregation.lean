/-
  The aggregates of SQL on columns of integers and `NULL`s.

  * `aggregate` is one aggregate over a column, and `merge` combines two of them, `none` being
    `NULL`.
  * An aggregate of a column in parts is the merge of those of its parts: `aggregate_append` and
    `aggregate_flatten`. The order of the rows does not matter: `aggregate_perm`.
  * `flatMap_filter_perm` is the partition of a list by a key.
-/
import Mathlib.Data.List.Basic
import Mathlib.Data.List.Perm.Basic
import Mathlib.Data.List.MinMax
import Mathlib.Tactic

namespace Foundation

open List

/-- The operation of an aggregate. -/
inductive AggregateOperation where
  | sum
  | count
  | max
  | min
  deriving DecidableEq, Repr

namespace AggregateOperation

def combine : AggregateOperation → ℤ → ℤ → ℤ
  | sum, a, b | count, a, b => a + b
  | max, a, b => Max.max a b
  | min, a, b => Min.min a b

/-- The same, where `NULL` contributes nothing. -/
def merge (op : AggregateOperation) : Option ℤ → Option ℤ → Option ℤ
  | none, b => b
  | a, none => a
  | some a, some b => some (op.combine a b)

def aggregate (op : AggregateOperation) (column : List (Option ℤ)) : Option ℤ :=
  match op with
  | count => some (column.filterMap id).length
  | sum => if column.filterMap id = [] then none else some (column.filterMap id).sum
  | max => (column.filterMap id).max?
  | min => (column.filterMap id).min?

variable {op : AggregateOperation}

@[simp] theorem merge_none_left (b : Option ℤ) : op.merge none b = b := rfl

@[simp] theorem merge_none_right (a : Option ℤ) : op.merge a none = a := by cases a <;> rfl

theorem merge_assoc (a b c : Option ℤ) : op.merge (op.merge a b) c = op.merge a (op.merge b c) := by
  cases a with
  | none => rfl
  | some a =>
    cases b with
    | none => rfl
    | some b =>
      cases c with
      | none => rfl
      | some c =>
        refine congrArg some ?_
        cases op with
        | sum => exact add_assoc a b c
        | count => exact add_assoc a b c
        | max => exact max_assoc a b c
        | min => exact min_assoc a b c

theorem merge_left_comm (a b c : Option ℤ) :
    op.merge a (op.merge b c) = op.merge b (op.merge a c) := by
  have hcomm : ∀ x y, op.combine x y = op.combine y x := by
    intro x y
    cases op with
    | sum => exact add_comm x y
    | count => exact add_comm x y
    | max => exact max_comm x y
    | min => exact min_comm x y
  have hswap : op.merge a b = op.merge b a := by
    cases a with
    | none => simp
    | some a =>
      cases b with
      | none => rfl
      | some b => exact congrArg some (hcomm a b)
  rw [← merge_assoc, hswap, merge_assoc]

def contribution (op : AggregateOperation) : Option ℤ → Option ℤ
  | none => none
  | some value => some (if op = count then 1 else value)

theorem aggregate_cons (value : Option ℤ) (column : List (Option ℤ)) :
    op.aggregate (value :: column) = op.merge (op.contribution value) (op.aggregate column) := by
  cases value with
  | none =>
    have hskip : (none :: column).filterMap id = column.filterMap id := rfl
    simp only [contribution, merge_none_left]
    unfold aggregate
    rw [hskip]
  | some value =>
    have hkeep : (some value :: column).filterMap id = value :: column.filterMap id := rfl
    unfold aggregate
    rw [hkeep]
    generalize column.filterMap id = present
    cases op with
    | count =>
      refine congrArg some ?_
      rw [length_cons, Nat.cast_succ]
      exact add_comm _ 1
    | sum =>
      cases present with
      | nil => simp [contribution]
      | cons first present => simp [contribution, merge, combine]
    | max =>
      rw [max?_cons]
      cases present.max? <;> rfl
    | min =>
      rw [min?_cons]
      cases present.min? <;> rfl

theorem merge_aggregate_nil (column : List (Option ℤ)) :
    op.merge (op.aggregate []) (op.aggregate column) = op.aggregate column := by
  cases op with
  | count => exact congrArg some (zero_add _)
  | sum => rfl
  | max => rfl
  | min => rfl

theorem aggregate_append (xs ys : List (Option ℤ)) :
    op.aggregate (xs ++ ys) = op.merge (op.aggregate xs) (op.aggregate ys) := by
  induction xs with
  | nil => exact (merge_aggregate_nil ys).symm
  | cons x xs ih => rw [cons_append, aggregate_cons, aggregate_cons, ih, merge_assoc]

theorem aggregate_perm {xs ys : List (Option ℤ)} (h : xs.Perm ys) :
    op.aggregate xs = op.aggregate ys := by
  induction h with
  | nil => rfl
  | cons x _ ih => rw [aggregate_cons, aggregate_cons, ih]
  | swap x y l =>
    rw [aggregate_cons, aggregate_cons, aggregate_cons, aggregate_cons, merge_left_comm]
  | trans _ _ ih₁ ih₂ => exact ih₁.trans ih₂

theorem aggregate_flatten {parts : List (List (Option ℤ))} (h : parts ≠ []) :
    (parts.map op.aggregate).foldl op.merge none = op.aggregate parts.flatten := by
  induction parts using List.reverseRecOn with
  | nil => exact absurd rfl h
  | append_singleton parts last ih =>
    rw [map_append, foldl_append, flatten_append]
    by_cases hp : parts = []
    · subst hp
      simp
    · rw [ih hp, aggregate_append]
      simp

end AggregateOperation

theorem flatMap_filter_perm {α β : Type} [DecidableEq β] (key : α → β) :
    ∀ {keys : List β} {l : List α}, keys.Nodup → (∀ a ∈ l, key a ∈ keys) →
      (keys.flatMap fun k => l.filter fun a => key a = k).Perm l
  | [], l, _, hl => by
    rw [eq_nil_iff_forall_not_mem.mpr fun a ha => not_mem_nil (hl a ha)]
    exact .refl _
  | k :: keys, l, hk, hl => by
    obtain ⟨hnew, hk⟩ := nodup_cons.mp hk
    have hrest : (keys.flatMap fun k' => l.filter fun a => key a = k') =
        keys.flatMap fun k' => (l.filter fun a => !decide (key a = k)).filter fun a =>
          key a = k' := by
      refine flatMap_congr fun k' hk' => ?_
      rw [filter_filter]
      refine filter_congr fun a _ => ?_
      by_cases ha : key a = k'
      · have : k' ≠ k := fun h => hnew (h ▸ hk')
        simp [ha, this]
      · simp [ha]
    rw [flatMap_cons, hrest]
    refine .trans (.append_left _ (flatMap_filter_perm key hk fun a ha => ?_))
      (filter_append_perm (fun a => decide (key a = k)) l)
    obtain ⟨ha, hne⟩ := mem_filter.mp ha
    rcases mem_cons.mp (hl a ha) with h | h
    · simp [h] at hne
    · exact h

end Foundation
