/-
  The tables of a database whose DDL is transactional, as its connections see them.

  A table that a transaction creates is there for its own connection, for the others once the
  transaction commits, and for nobody once it is rolled back. Only one open transaction can have
  created a table: another one that creates it waits.
-/
import Mathlib.Tactic

namespace Foundation

universe u v

/-- Tables `τ` and connections `κ`. -/
structure Ddl (τ : Type u) (κ : Type v) where
  committed : τ → Bool
  pending : τ → Option κ
  inside : κ → Bool
  transactions : κ → ℕ

namespace Ddl

variable {τ : Type u} {κ : Type v} {d : Ddl τ κ} {c c' : κ} {t t' : τ}

def empty : Ddl τ κ := ⟨fun _ => false, fun _ => none, fun _ => false, fun _ => 0⟩

/-- A pending table is not committed, and its transaction is open. -/
structure Valid (d : Ddl τ κ) : Prop where
  uncommitted : ∀ {t c}, d.pending t = some c → d.committed t = false
  isOpen : ∀ {t c}, d.pending t = some c → d.inside c = true

theorem valid_empty : (empty : Ddl τ κ).Valid := by
  constructor <;> simp [empty]

/-! ## Transactions -/

section
variable [DecidableEq κ]

/-- The table is there, as a connection sees it. -/
def visible (d : Ddl τ κ) (c : κ) (t : τ) : Bool := d.committed t || d.pending t = some c

def beginTransaction (d : Ddl τ κ) (c : κ) : Ddl τ κ :=
  { d with
    inside := Function.update d.inside c true
    transactions := Function.update d.transactions c (d.transactions c + 1) }

def endTransaction (d : Ddl τ κ) (c : κ) : Ddl τ κ :=
  { d with
    pending := fun t => (d.pending t).filter (· ≠ c)
    inside := Function.update d.inside c false }

def rollback (d : Ddl τ κ) (c : κ) : Ddl τ κ := d.endTransaction c

def commit (d : Ddl τ κ) (c : κ) : Ddl τ κ :=
  { d.endTransaction c with committed := fun t => d.committed t || d.pending t = some c }

theorem Valid.beginTransaction (h : d.Valid) : (d.beginTransaction c).Valid where
  uncommitted := h.uncommitted
  isOpen {t c'} hpending := by
    by_cases hc : c' = c
    · simp [Ddl.beginTransaction, hc]
    · simpa [Ddl.beginTransaction, hc] using h.isOpen hpending

theorem Valid.rollback (h : d.Valid) : (d.rollback c).Valid where
  uncommitted hpending := by
    obtain ⟨hpending, -⟩ := Option.filter_eq_some_iff.mp hpending
    exact h.uncommitted hpending
  isOpen hpending := by
    obtain ⟨hpending, hne⟩ := Option.filter_eq_some_iff.mp hpending
    simpa [Ddl.rollback, endTransaction, of_decide_eq_true hne] using h.isOpen hpending

theorem Valid.commit (h : d.Valid) : (d.commit c).Valid where
  uncommitted hpending := by
    obtain ⟨hpending, hne⟩ := Option.filter_eq_some_iff.mp hpending
    simpa [Ddl.commit, hpending, of_decide_eq_true hne] using h.uncommitted hpending
  isOpen := h.rollback.isOpen

theorem committed_commit (ht : d.committed t = true) : (d.commit c).committed t = true := by
  simp [Ddl.commit, ht]

end

/-! ## Creating a table -/

section
variable [DecidableEq τ]

/-- `CREATE TABLE IF NOT EXISTS`. -/
def create (d : Ddl τ κ) (c : κ) (t : τ) : Ddl τ κ :=
  if d.committed t then d
  else if d.inside c then { d with pending := Function.update d.pending t (some c) }
  else { d with committed := Function.update d.committed t true }

theorem committed_create (ht : d.committed t' = true) : (d.create c t).committed t' = true := by
  unfold Ddl.create
  split
  · exact ht
  · split
    · exact ht
    · by_cases h : t' = t <;> simp [h, ht]

theorem create_committed (hinside : d.inside c = false) : (d.create c t).committed t = true := by
  unfold Ddl.create
  split
  · assumption
  · simp [hinside]

theorem pending_create (ht : d.pending t' ≠ none) : (d.create c t).pending t' ≠ none := by
  unfold Ddl.create
  split
  · exact ht
  · split
    · by_cases h : t' = t <;> simp [h, ht]
    · exact ht

@[simp] theorem inside_create : (d.create c t).inside = d.inside := by
  unfold Ddl.create
  split
  · rfl
  · split <;> rfl

/-- `CREATE TABLE` may go on: no other open transaction has created the table. -/
def canCreate [DecidableEq κ] (d : Ddl τ κ) (c : κ) (t : τ) : Bool := (d.pending t).all (· = c)

theorem Valid.create [DecidableEq κ] (h : d.Valid) (hcan : d.canCreate c t = true) :
    (d.create c t).Valid := by
  unfold Ddl.create
  split
  · exact h
  rename_i hcommitted
  split
  · constructor
    · intro t' c' hpending
      by_cases ht : t' = t
      · simpa [ht] using hcommitted
      · exact h.uncommitted (by simpa [ht] using hpending)
    · intro t' c' hpending
      by_cases ht : t' = t
      · subst ht
        simp only [Function.update_self, Option.some.injEq] at hpending
        rwa [← hpending]
      · exact h.isOpen (by simpa [ht] using hpending)
  · rename_i hinside
    refine ⟨fun {t' c'} hpending => ?_, h.isOpen⟩
    have ht : t' ≠ t := by
      rintro rfl
      -- the transaction that created it would be that of the connection
      have hcreated : d.pending t' = some c' := hpending
      have hc : c' = c := by simpa [canCreate, hcreated] using hcan
      exact hinside (hc ▸ h.isOpen hcreated)
    simpa [ht] using h.uncommitted hpending

end

end Ddl

end Foundation
