/-
  Boolean expressions of SQL, as texts.

  * `Truth`: three-valued logic; `none` is `NULL`.
  * A text is a list of tokens, without comments and MySQL's `XOR`. `Expr` is the grammar: `OR` binds
    least, then `AND`, then `NOT`, and each tree has one `text`.
  * `truth` reads a text from left to right, with a frame for each open parenthesis;
    `truth_text`: it finds the value of the tree, so a text has one value however it is read.
  * `Expr.and` is the tree of two texts with `AND` between them: the last disjunct of the first one
    and the first disjunct of the second one become one disjunct.
-/
import Mathlib.Data.Fintype.Option
import Mathlib.Data.List.Basic

namespace Foundation

open List

/-! ## Three-valued logic -/

/-- A truth value; `none` is `NULL`. -/
abbrev Truth := Option Bool

namespace Truth

def and : Truth → Truth → Truth
  | some true, b => b
  | some false, _ => some false
  | none, some false => some false
  | none, _ => none

def or : Truth → Truth → Truth
  | some false, b => b
  | some true, _ => some true
  | none, some true => some true
  | none, _ => none

def not : Truth → Truth := Option.map Bool.not

variable {a b : Truth}

@[simp] theorem and_eq_true : and a b = some true ↔ a = some true ∧ b = some true := by
  revert a b
  decide

@[simp] theorem or_eq_true : or a b = some true ↔ a = some true ∨ b = some true := by
  revert a b
  decide

@[simp] theorem or_eq_false : or a b = some false ↔ a = some false ∧ b = some false := by
  revert a b
  decide

@[simp] theorem not_eq_true : not a = some true ↔ a = some false := by
  revert a
  decide

@[simp] theorem not_not : not (not a) = a := by
  revert a
  decide

theorem and_assoc (a b c : Truth) : and (and a b) c = and a (and b c) := by
  revert a b c
  decide

end Truth

/-! ## Texts -/

/-- A token of a condition; an atom is a comparison, or whatever else has no operator outside of
    itself. -/
inductive Token (α : Type) where
  | and
  | or
  | not
  | open
  | close
  | atom (a : α)
  deriving DecidableEq

variable {α : Type}

mutual

/-- A condition: conditions that are joined by `OR`. -/
inductive Expr (α : Type) where
  | one (c : Conj α)
  | or (e : Expr α) (c : Conj α)

/-- Conditions that are joined by `AND`. -/
inductive Conj (α : Type) where
  | one (u : Unary α)
  | and (c : Conj α) (u : Unary α)

/-- An atom, a negation, or a condition in parentheses. -/
inductive Unary (α : Type) where
  | atom (a : α)
  | not (u : Unary α)
  | parens (e : Expr α)

end

mutual

def Expr.text : Expr α → List (Token α)
  | .one c => c.text
  | .or e c => e.text ++ .or :: c.text

def Conj.text : Conj α → List (Token α)
  | .one u => u.text
  | .and c u => c.text ++ .and :: u.text

def Unary.text : Unary α → List (Token α)
  | .atom a => [.atom a]
  | .not u => .not :: u.text
  | .parens e => .open :: e.text ++ [.close]

end

mutual

def Expr.eval (v : α → Truth) : Expr α → Truth
  | .one c => c.eval v
  | .or e c => .or (e.eval v) (c.eval v)

def Conj.eval (v : α → Truth) : Conj α → Truth
  | .one u => u.eval v
  | .and c u => .and (c.eval v) (u.eval v)

def Unary.eval (v : α → Truth) : Unary α → Truth
  | .atom a => v a
  | .not u => .not (u.eval v)
  | .parens e => e.eval v

end

def WellFormed (ts : List (Token α)) : Prop := ∃ e : Expr α, e.text = ts

/-! ## Reading -/

/-- What is known within a parenthesis. -/
structure Frame where
  ors : Truth := some false
  ands : Truth := some true
  negated : Bool := false

namespace Frame

def operand (f : Frame) (value : Truth) : Frame :=
  ⟨f.ors, .and f.ands (if f.negated then .not value else value), false⟩

def value (f : Frame) : Truth := .or f.ors f.ands

end Frame

/-- One token, in the innermost open parenthesis. -/
def readToken (v : α → Truth) : List Frame → Token α → List Frame
  | f :: outer, .atom a => f.operand (v a) :: outer
  | f :: outer, .not => ⟨f.ors, f.ands, !f.negated⟩ :: outer
  | f :: outer, .and => f :: outer
  | f :: outer, .or => ⟨f.value, some true, false⟩ :: outer
  | outer, .open => {} :: outer
  | f :: g :: outer, .close => g.operand f.value :: outer
  | frames, .close => frames
  | [], _ => []

def truth (v : α → Truth) (ts : List (Token α)) : Truth :=
  match ts.foldl (readToken v) [{}] with
  | f :: _ => f.value
  | [] => none

section Reading

variable (v : α → Truth)

mutual

theorem foldl_expr (e : Expr α) (outer : List Frame) :
    ∃ f : Frame, e.text.foldl (readToken v) ({} :: outer) = f :: outer ∧ f.value = e.eval v ∧
      f.negated = false := by
  cases e with
  | one c => exact ⟨_, foldl_conj c outer {} rfl, rfl, rfl⟩
  | or e c =>
    obtain ⟨f, hf, hvalue, -⟩ := foldl_expr e outer
    refine ⟨⟨e.eval v, c.eval v, false⟩, ?_, rfl, rfl⟩
    rw [Expr.text, foldl_append, foldl_cons, hf, readToken, hvalue]
    exact foldl_conj c outer _ rfl

theorem foldl_conj (c : Conj α) (outer : List Frame) (f : Frame) (hf : f.negated = false) :
    c.text.foldl (readToken v) (f :: outer) = f.operand (c.eval v) :: outer := by
  cases c with
  | one u => exact foldl_unary u outer f
  | and c u =>
    rw [Conj.text, foldl_append, foldl_cons, foldl_conj c outer f hf, readToken,
      foldl_unary u]
    simp [Frame.operand, hf, Truth.and_assoc, Conj.eval]

theorem foldl_unary (u : Unary α) (outer : List Frame) (f : Frame) :
    u.text.foldl (readToken v) (f :: outer) = f.operand (u.eval v) :: outer := by
  cases u with
  | atom a => rfl
  | not u =>
    rw [Unary.text, foldl_cons, readToken, foldl_unary u]
    cases hf : f.negated <;> simp [Frame.operand, hf, Unary.eval]
  | parens e =>
    obtain ⟨g, hg, hvalue, -⟩ := foldl_expr e (f :: outer)
    rw [Unary.text, cons_append, foldl_cons, readToken, foldl_append,
      foldl_cons, foldl_nil, hg, readToken, hvalue]
    rfl

end

/-- **Reading finds the value of the tree.** -/
theorem truth_text (e : Expr α) : truth v e.text = e.eval v := by
  obtain ⟨f, hf, hvalue, -⟩ := foldl_expr v e []
  rw [truth, hf]
  exact hvalue

end Reading

/-- The value of what stands before the last `OR` outside parentheses. -/
def truthBeforeOr (v : α → Truth) (ts : List (Token α)) : Truth :=
  match ts.foldl (readToken v) [{}] with
  | f :: _ => f.ors
  | [] => none

section Operands

variable {v : α → Truth} {ts : List (Token α)}

section
variable (h : WellFormed ts) (u : Unary α)
include h u

theorem exists_frame_and :
    ∃ f : Frame, ts.foldl (readToken v) [{}] = [f] ∧
      (ts ++ .and :: u.text).foldl (readToken v) [{}] = [⟨f.ors, .and f.ands (u.eval v), false⟩] := by
  obtain ⟨e, rfl⟩ := h
  obtain ⟨f, hf, -, hnegated⟩ := foldl_expr v e []
  refine ⟨f, hf, ?_⟩
  rw [foldl_append, hf, foldl_cons, readToken, foldl_unary v u, Frame.operand, hnegated]
  rfl

theorem truth_and_operand :
    truth v (ts ++ .and :: u.text) = some true ↔
      truthBeforeOr v ts = some true ∨ (truth v ts = some true ∧ u.eval v = some true) := by
  obtain ⟨f, hf, hand⟩ := exists_frame_and (v := v) h u
  rw [truth, truth, truthBeforeOr, hf, hand]
  simp only [Frame.value, Truth.or_eq_true, Truth.and_eq_true]
  tauto

theorem truthBeforeOr_and_operand :
    truthBeforeOr v (ts ++ .and :: u.text) = truthBeforeOr v ts := by
  obtain ⟨f, hf, hand⟩ := exists_frame_and (v := v) h u
  rw [truthBeforeOr, truthBeforeOr, hf, hand]

end

theorem truth_of_truthBeforeOr (h : WellFormed ts) (hbefore : truthBeforeOr v ts = some true) :
    truth v ts = some true := by
  obtain ⟨e, rfl⟩ := h
  obtain ⟨f, hf, -⟩ := foldl_expr v e []
  rw [truthBeforeOr, hf] at hbefore
  rw [truth, hf]
  exact Truth.or_eq_true.2 (.inl hbefore)

theorem truthBeforeOr_operand (u : Unary α) : truthBeforeOr v u.text = some false := by
  rw [truthBeforeOr, foldl_unary v u]
  rfl

end Operands

/-! ## Texts with `AND` between them -/

def Conj.append (c : Conj α) : Conj α → Conj α
  | .one u => .and c u
  | .and c' u => .and (c.append c') u

/-- `… AND c'` -/
def Expr.andLast : Expr α → Conj α → Expr α
  | .one c, c' => .one (c.append c')
  | .or e c, c' => .or e (c.append c')

/-- `e AND e'`, without parentheses. -/
def Expr.and (e : Expr α) : Expr α → Expr α
  | .one c => e.andLast c
  | .or e' c => .or (e.and e') c

theorem Conj.text_append (c c' : Conj α) : (c.append c').text = c.text ++ .and :: c'.text := by
  match c' with
  | .one u => rfl
  | .and c' u => simp [Conj.append, Conj.text, Conj.text_append c c']

theorem Expr.text_andLast (e : Expr α) (c : Conj α) :
    (e.andLast c).text = e.text ++ .and :: c.text := by
  cases e <;> simp [Expr.andLast, Expr.text, Conj.text_append]

theorem Expr.text_and (e e' : Expr α) : (e.and e').text = e.text ++ .and :: e'.text := by
  match e' with
  | .one c => exact e.text_andLast c
  | .or e' c => simp [Expr.and, Expr.text, Expr.text_and e e']

section Values

variable {v : α → Truth}

theorem Conj.eval_append (c c' : Conj α) :
    (c.append c').eval v = .and (c.eval v) (c'.eval v) := by
  match c' with
  | .one u => rfl
  | .and c' u => simp [Conj.append, Conj.eval, Conj.eval_append c c', Truth.and_assoc]

/-- A disjunct before the last one is true. -/
def Expr.Earlier (v : α → Truth) : Expr α → Prop
  | .one _ => False
  | .or e _ => e.eval v = some true

def Expr.last : Expr α → Conj α
  | .one c => c
  | .or _ c => c

def Expr.first : Expr α → Conj α
  | .one c => c
  | .or e _ => e.first

/-- A disjunct after the first one is true. -/
def Expr.Later (v : α → Truth) : Expr α → Prop
  | .one _ => False
  | .or e c => e.Later v ∨ c.eval v = some true

theorem Expr.eval_iff_last (e : Expr α) :
    e.eval v = some true ↔ e.Earlier v ∨ e.last.eval v = some true := by
  cases e <;> simp [Expr.eval, Expr.Earlier, Expr.last]

theorem Expr.eval_iff_first (e : Expr α) :
    e.eval v = some true ↔ e.first.eval v = some true ∨ e.Later v := by
  match e with
  | .one c => simp [Expr.eval, Expr.first, Expr.Later]
  | .or e c =>
    rw [Expr.eval, Truth.or_eq_true, Expr.eval_iff_first e, Expr.first, Expr.Later, or_assoc]

/-- **`e AND e'`** is true by a disjunct of one of them, or by the two that it joins. -/
theorem Expr.eval_and (e e' : Expr α) : (e.and e').eval v = some true ↔
    e.Earlier v ∨ (e.last.eval v = some true ∧ e'.first.eval v = some true) ∨ e'.Later v := by
  match e' with
  | .one c =>
    cases e <;>
      simp [Expr.and, Expr.andLast, Expr.eval, Expr.Earlier, Expr.last, Expr.first, Expr.Later,
        Conj.eval_append]
  | .or e' c =>
    rw [Expr.and, Expr.eval, Truth.or_eq_true, Expr.eval_and e e', Expr.Later]
    tauto

theorem Expr.eval_and_of {e e' : Expr α} (h : e.eval v = some true) (h' : e'.eval v = some true) :
    (e.and e').eval v = some true := by
  rw [Expr.eval_and]
  rcases e.eval_iff_last.1 h with h | h
  · exact .inl h
  · rcases e'.eval_iff_first.1 h' with h' | h'
    · exact .inr (.inl ⟨h, h'⟩)
    · exact .inr (.inr h')

end Values

def Expr.isOr : Expr α → Bool
  | .one _ => false
  | .or _ _ => true

theorem Expr.isOr_and (e e' : Expr α) : (e.and e').isOr = (e.isOr || e'.isOr) := by
  cases e' with
  | one c => cases e <;> rfl
  | or e' c => simp [Expr.and, Expr.isOr]

section Values

variable {v : α → Truth}

variable {e : Expr α}

theorem Expr.eval_of_earlier (h : e.Earlier v) : e.eval v = some true :=
  e.eval_iff_last.2 (.inl h)

theorem Expr.eval_of_later (h : e.Later v) : e.eval v = some true :=
  e.eval_iff_first.2 (.inr h)

theorem Expr.eval_and_iff {e' : Expr α} (h : e.isOr = false ∨ e.eval v ≠ some true)
    (h' : e'.isOr = false ∨ e'.eval v ≠ some true) :
    (e.and e').eval v = some true ↔ e.eval v = some true ∧ e'.eval v = some true := by
  refine ⟨fun hand => ?_, fun hboth => Expr.eval_and_of hboth.1 hboth.2⟩
  have hearlier : ¬ e.Earlier v := by
    intro hearlier
    rcases h with h | h
    · cases e with
      | one c => exact hearlier
      | or e c => cases h
    · exact h (Expr.eval_of_earlier hearlier)
  have hlater : ¬ e'.Later v := by
    intro hlater
    rcases h' with h' | h'
    · cases e' with
      | one c => exact hlater
      | or e' c => cases h'
    · exact h' (Expr.eval_of_later hlater)
  rcases (Expr.eval_and e e').1 hand with hand | ⟨hlast, hfirst⟩ | hand
  · exact absurd hand hearlier
  · exact ⟨e.eval_iff_last.2 (.inr hlast), e'.eval_iff_first.2 (.inl hfirst)⟩
  · exact absurd hand hlater

theorem Expr.earlier_or_later (h : e.isOr = true) (he : e.eval v = some true) :
    e.Earlier v ∨ e.Later v := by
  cases e with
  | one c => cases h
  | or e c =>
    rcases Truth.or_eq_true.1 he with he | he
    · exact .inl he
    · exact .inr (.inr he)

end Values

/-- An `OR` stands outside all parentheses; the number is that of the open ones. -/
def orOutside : ℕ → List (Token α) → Bool
  | _, [] => false
  | depth, .open :: ts => orOutside (depth + 1) ts
  | depth, .close :: ts => orOutside (depth - 1) ts
  | 0, .or :: _ => true
  | depth, _ :: ts => orOutside depth ts

mutual

theorem orOutside_expr (e : Expr α) (depth : ℕ) (ts : List (Token α)) :
    orOutside (depth + 1) (e.text ++ ts) = orOutside (depth + 1) ts := by
  cases e with
  | one c => exact orOutside_conj c _ ts
  | or e c =>
    rw [Expr.text, append_assoc, orOutside_expr e]
    exact orOutside_conj c _ ts

theorem orOutside_conj (c : Conj α) (depth : ℕ) (ts : List (Token α)) :
    orOutside depth (c.text ++ ts) = orOutside depth ts := by
  cases c with
  | one u => exact orOutside_unary u depth ts
  | and c u =>
    rw [Conj.text, append_assoc, orOutside_conj c, cons_append]
    cases depth <;> rw [orOutside] <;> first | exact orOutside_unary u _ ts | simp

theorem orOutside_unary (u : Unary α) (depth : ℕ) (ts : List (Token α)) :
    orOutside depth (u.text ++ ts) = orOutside depth ts := by
  cases u with
  | atom a => cases depth <;> rfl
  | not u =>
    rw [Unary.text, cons_append]
    cases depth <;> rw [orOutside] <;> first | exact orOutside_unary u _ ts | simp
  | parens e =>
    rw [Unary.text, cons_append, cons_append, append_assoc, orOutside,
      orOutside_expr e, singleton_append, orOutside, Nat.add_sub_cancel]

end

theorem orOutside_or (e : Expr α) (ts : List (Token α)) :
    orOutside 0 (e.text ++ .or :: ts) = true := by
  match e with
  | .one c => exact orOutside_conj c 0 _
  | .or e c =>
    rw [Expr.text, append_assoc]
    exact orOutside_or e _

theorem orOutside_text (e : Expr α) : orOutside 0 e.text = e.isOr := by
  cases e with
  | one c =>
    have := orOutside_conj c 0 []
    rwa [append_nil] at this
  | or e c => exact orOutside_or e c.text

end Foundation
