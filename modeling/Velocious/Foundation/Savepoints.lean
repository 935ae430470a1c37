/-
  A database connection with transactions and named savepoints, as BEGIN, SAVEPOINT, RELEASE,
  ROLLBACK TO, COMMIT and ROLLBACK change it.

  A statement that does not apply fails and changes nothing. The newest savepoint stands first;
  RELEASE and ROLLBACK TO drop the savepoints above the named one. `Grown` says what a program
  that only adds savepoints leaves of those it found.
-/
import Mathlib.Tactic

namespace Foundation

universe u

/-- A database with transactions. -/
structure Savepoints (σ : Type u) where
  content : σ
  /-- the content at the BEGIN of the open transaction -/
  begun : Option σ
  points : List (ℕ × σ)

namespace Savepoints

variable {σ : Type u} {d d₁ d₂ : Savepoints σ} {n m k : ℕ}

def write (w : σ → σ) (d : Savepoints σ) : Savepoints σ := { d with content := w d.content }

def startTransaction? (d : Savepoints σ) : Option (Savepoints σ) :=
  if d.begun.isSome then none else some ⟨d.content, some d.content, []⟩

def commit? (d : Savepoints σ) : Option (Savepoints σ) := d.begun.map fun _ => ⟨d.content, none, []⟩

def rollback? (d : Savepoints σ) : Option (Savepoints σ) := d.begun.map fun old => ⟨old, none, []⟩

def savepoint? (name : ℕ) (d : Savepoints σ) : Option (Savepoints σ) :=
  d.begun.map fun _ => { d with points := (name, d.content) :: d.points }

def release? (name : ℕ) (d : Savepoints σ) : Option (Savepoints σ) :=
  match d.points.dropWhile fun p => p.1 ≠ name with
  | [] => none
  | _ :: points => some { d with points }

def rollbackTo? (name : ℕ) (d : Savepoints σ) : Option (Savepoints σ) :=
  match d.points.dropWhile fun p => p.1 ≠ name with
  | [] => none
  | (n, old) :: points => some { d with content := old, points := (n, old) :: points }

/-- The same transaction, with further savepoints whose names are between `n` and `m`. -/
structure Grown (n m : ℕ) (d d' : Savepoints σ) : Prop where
  begun : d'.begun = d.begun
  points : ∃ new, d'.points = new ++ d.points ∧ ∀ p ∈ new, n ≤ p.1 ∧ p.1 < m

theorem Grown.of_eq (hbegun : d₁.begun = d.begun) (hpoints : d₁.points = d.points) :
    Grown n m d d₁ :=
  ⟨hbegun, [], hpoints, nofun⟩

theorem Grown.trans (h : Grown n m d d₁) (h₁ : Grown m k d₁ d₂) (hnm : n ≤ m) (hmk : m ≤ k) :
    Grown n k d d₂ := by
  obtain ⟨new, hnew, hnames⟩ := h.points
  obtain ⟨new₁, hnew₁, hnames₁⟩ := h₁.points
  refine ⟨h₁.begun.trans h.begun, new₁ ++ new, by rw [hnew₁, hnew, List.append_assoc],
    fun p hp => ?_⟩
  rcases List.mem_append.mp hp with hp | hp
  · have := hnames₁ p hp
    omega
  · have := hnames p hp
    omega

theorem Grown.content (h : Grown n m d d₁) (s : σ) : Grown n m d { d₁ with content := s } :=
  ⟨h.begun, h.points⟩

theorem Grown.dropWhile (h : Grown (n + 1) m d₁ d₂) (hpoint : d₁.points = (n, d.content) :: d.points) :
    (d₂.points.dropWhile fun p => p.1 ≠ n) = (n, d.content) :: d.points := by
  obtain ⟨new, hnew, hnames⟩ := h.points
  rw [hnew, hpoint, List.dropWhile_append_of_pos fun p hp => ?_]
  · simp
  · have := hnames p hp
    simp only [ne_eq, decide_not, Bool.not_eq_true', decide_eq_false_iff_not]
    omega

theorem release_grown (hpoint : d.savepoint? n = some d₁) (h : Grown (n + 1) m d₁ d₂) :
    d₂.release? n = some { d with content := d₂.content } := by
  obtain ⟨old, -, rfl⟩ := Option.map_eq_some_iff.mp hpoint
  rw [release?, h.dropWhile rfl, h.begun]

theorem rollbackTo_grown (hpoint : d.savepoint? n = some d₁) (h : Grown (n + 1) m d₁ d₂) :
    d₂.rollbackTo? n = some d₁ := by
  obtain ⟨old, -, rfl⟩ := Option.map_eq_some_iff.mp hpoint
  rw [rollbackTo?, h.dropWhile rfl, h.begun]

end Savepoints

end Foundation
