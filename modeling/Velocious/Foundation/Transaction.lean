/-
  Transactions: stateful code that either commits or rolls back.

  A transaction body is a `StateT σ (Except ε)` action. `commit x s` runs it:
  on success the new state is kept, on an error the state is the one before
  (rollback), so a failed transaction changes nothing by construction.

  `Ensures x s Q` is partial correctness: if the body started in `s` succeeds,
  its result and state satisfy `Q`. The rules `ensures_*` are equivalences, so
  rewriting with them computes the weakest precondition of a body; a statement
  of the body gets one lemma and its callers never unfold it.
-/
import Velocious.Foundation.Table

namespace Foundation

universe u

/-- The body of a transaction on states `σ` that may fail with `ε`. -/
abbrev Txn (σ ε : Type) (α : Type) := StateT σ (Except ε) α

variable {σ ε α β : Type}

/-- Every successful outcome of `x` from `s` satisfies `Q`. -/
def Ensures (x : Txn σ ε α) (s : σ) (Q : α → σ → Prop) : Prop :=
  ∀ a s', x.run s = .ok (a, s') → Q a s'

/-- Runs a body: keeps its state when it succeeds, restores `s` when it fails. -/
def commit (x : Txn σ ε α) (s : σ) : Except ε α × σ :=
  match x.run s with
  | .ok (a, s') => (.ok a, s')
  | .error e => (.error e, s)

variable {x : Txn σ ε α} {s : σ}

theorem commit_ok {s' : σ} {a : α} (h : commit x s = (.ok a, s')) : x.run s = .ok (a, s') := by
  unfold commit at h
  split at h <;> simp_all

variable {Q : α → σ → Prop}

theorem Ensures.commit (h : Ensures x s Q) : (∃ e, commit x s = (.error e, s)) ∨
      ∃ a s', Foundation.commit x s = (.ok a, s') ∧ Q a s' := by
  cases hx : x.run s with
  | error e => exact .inl ⟨e, by simp [Foundation.commit, hx]⟩
  | ok r => exact .inr ⟨r.1, r.2, by simp [Foundation.commit, hx], h _ _ hx⟩

/-! ## Rules -/

theorem Ensures.mono {P : α → σ → Prop} (h : Ensures x s P)
    (hPQ : ∀ a s', P a s' → Q a s') : Ensures x s Q :=
  fun a s' hx => hPQ a s' (h a s' hx)

@[simp] theorem ensures_pure {a : α} : Ensures (pure a : Txn σ ε α) s Q ↔ Q a s := by
  constructor
  · intro h
    exact h a s rfl
  · rintro h _ _ ⟨⟩
    exact h

@[simp] theorem ensures_bind {f : α → Txn σ ε β} {Q : β → σ → Prop} :
    Ensures (x >>= f) s Q ↔ Ensures x s fun a s' => Ensures (f a) s' Q := by
  constructor
  · intro h a s' hx b s'' hf
    apply h
    rw [StateT.run_bind, hx]
    exact hf
  · intro h b s'' hxf
    rw [StateT.run_bind] at hxf
    cases hx : x.run s with
    | error e => rw [hx] at hxf; cases hxf
    | ok r => rw [hx] at hxf; exact h r.1 r.2 hx b s'' hxf

@[simp] theorem ensures_map {f : α → β} {Q : β → σ → Prop} :
    Ensures (f <$> x) s Q ↔ Ensures x s fun a s' => Q (f a) s' := by
  rw [map_eq_pure_bind, ensures_bind]
  simp only [ensures_pure]

@[simp] theorem ensures_get {Q : σ → σ → Prop} : Ensures (get : Txn σ ε σ) s Q ↔ Q s s := by
  constructor
  · intro h
    exact h s s rfl
  · rintro h _ _ ⟨⟩
    exact h

@[simp] theorem ensures_set {t : σ} {Q : PUnit → σ → Prop} :
    Ensures (set t : Txn σ ε PUnit) s Q ↔ Q ⟨⟩ t := by
  constructor
  · intro h
    exact h ⟨⟩ t rfl
  · rintro h _ _ ⟨⟩
    exact h

@[simp] theorem ensures_modify {f : σ → σ} {Q : PUnit → σ → Prop} :
    Ensures (modify f : Txn σ ε PUnit) s Q ↔ Q ⟨⟩ (f s) := by
  constructor
  · intro h
    exact h ⟨⟩ (f s) rfl
  · rintro h _ _ ⟨⟩
    exact h

@[simp] theorem ensures_throw {e : ε} : Ensures (throw e : Txn σ ε α) s Q := by
  rintro a s' ⟨⟩

@[simp] theorem ensures_lift {x : Except ε α} :
    Ensures (liftM x : Txn σ ε α) s Q ↔ ∀ a, x = .ok a → Q a s := by
  cases x with
  | error e =>
    refine ⟨fun _ a h => (nomatch h), fun _ a s' h => ?_⟩
    cases h
  | ok a =>
    refine ⟨fun h b hb => ?_, fun h b s' hb => ?_⟩
    · cases hb
      exact h a s rfl
    · cases hb
      exact h a rfl

@[simp] theorem ensures_ite {c : Prop} [Decidable c] {y : Txn σ ε α} :
    Ensures (if c then x else y) s Q ↔ (c → Ensures x s Q) ∧ (¬c → Ensures y s Q) := by
  split <;> simp_all

theorem ensures_tryCatch {h : ε → Txn σ ε α}
    (hx : Ensures x s Q) (hh : ∀ e, x.run s = .error e → Ensures (h e) s Q) :
    Ensures (tryCatch x h) s Q := by
  intro a s' hr
  have hdef : (tryCatch x h : Txn σ ε α).run s =
      match x.run s with
      | .ok r => .ok r
      | .error e => (h e).run s := by
    change tryCatch (x.run s) (fun e => (h e).run s) = _
    cases x.run s <;> rfl
  rw [hdef] at hr
  cases hrun : x.run s with
  | ok r =>
    rw [hrun] at hr
    exact hx a s' (hrun.trans hr)
  | error e =>
    rw [hrun] at hr
    exact hh e hrun a s' hr

end Foundation
