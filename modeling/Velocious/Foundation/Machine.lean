/-
  Machines given by a partial step function: `step s a` is the state after
  action `a`, if `a` is enabled in `s`.

  `runActions` runs a list of actions, `Along` says that every step of a run
  meets a condition on the state before it, and `runActions_invariant` packages
  the induction: what every step that meets the condition keeps, every such run
  keeps.
-/
import Mathlib.Data.List.Basic

namespace Foundation

universe u v

section
variable {σ : Type u} {α : Type v} (step : σ → α → Option σ)

/-- The state after a list of actions, if each is enabled in its turn. -/
def runActions (s : σ) : List α → Option σ
  | [] => some s
  | a :: as => (step s a).bind fun s' => runActions s' as

/-- Every step of a run meets a condition. -/
def Along (ok : σ → α → Prop) (s : σ) : List α → Prop
  | [] => True
  | a :: as => ok s a ∧ (step s a).elim True fun s' => Along ok s' as

variable {step}

variable {as : List α}

theorem runActions_cons {s s' : σ} {a : α} : runActions step s (a :: as) = some s' ↔
      ∃ s₁, step s a = some s₁ ∧ runActions step s₁ as = some s' :=
  Option.bind_eq_some_iff

theorem runActions_append (s : σ) (as bs : List α) :
    runActions step s (as ++ bs) = (runActions step s as).bind fun s' => runActions step s' bs := by
  induction as generalizing s with
  | nil => rfl
  | cons a as ih => simp only [List.cons_append, runActions, ih, Option.bind_assoc]

variable {I : σ → Prop} {ok : σ → α → Prop}

theorem runActions_invariant
    (hstep : ∀ s a s', I s → ok s a → step s a = some s' → I s') (as : List α) :
    ∀ {s s' : σ}, I s → Along step ok s as → runActions step s as = some s' → I s' := by
  induction as with
  | nil =>
    rintro s s' hs - h
    cases h
    exact hs
  | cons a as ih =>
    rintro s s' hs ⟨hok, hrest⟩ h
    obtain ⟨s₁, h₁, h⟩ := runActions_cons.mp h
    rw [h₁] at hrest
    exact ih (hstep s a s₁ hs hok h₁) hrest h

theorem along_of_invariant {good : σ → α → Prop}
    (hstep : ∀ s a, I s → ok s a → good s a ∧ ∀ s', step s a = some s' → I s') (as : List α) :
    ∀ {s : σ}, I s → Along step ok s as → Along step good s as := by
  induction as with
  | nil => exact fun _ _ => trivial
  | cons a as ih =>
    rintro s hs ⟨hok, hrest⟩
    obtain ⟨hgood, hkeep⟩ := hstep s a hs hok
    refine ⟨hgood, ?_⟩
    cases h : step s a with
    | none => trivial
    | some s' =>
      rw [h] at hrest
      exact ih (hkeep s' h) hrest

variable (step) in
/-- Every state that a run passes through meets a condition. -/
def Always (P : σ → Prop) (s : σ) (as : List α) : Prop :=
  ∀ bs s', bs <+: as → runActions step s bs = some s' → P s'

/-- The states of a run meet a condition exactly if its steps do, where an invariant of the steps
that do gives the condition, and no step that does not keeps it. -/
theorem always_iff {P : σ → Prop} (hP : ∀ s, I s → P s)
    (hstep : ∀ s a s', I s → step s a = some s' → (ok s a → I s') ∧ (P s' → ok s a)) : ∀
    {s s' : σ}, I s → runActions step s as = some s' →
      (Always step P s as ↔ Along step ok s as) := by
  induction as with
  | nil =>
    intro s s' hs h
    refine ⟨fun _ => trivial, fun _ bs t hbs ht => ?_⟩
    obtain rfl := List.prefix_nil.mp hbs
    cases ht
    exact hP s hs
  | cons a as ih =>
    intro s s' hs h
    obtain ⟨s₁, h₁, hrun⟩ := runActions_cons.mp h
    obtain ⟨hkeep, hneeds⟩ := hstep s a s₁ hs h₁
    constructor
    · intro halways
      have hok := hneeds (halways [a] s₁ ⟨as, rfl⟩ (by rw [runActions_cons]; exact ⟨s₁, h₁, rfl⟩))
      refine ⟨hok, ?_⟩
      rw [h₁]
      refine (ih (hkeep hok) hrun).mp fun bs t hbs ht => halways (a :: bs) t ?_ ?_
      · exact List.cons_prefix_cons.mpr ⟨rfl, hbs⟩
      · exact runActions_cons.mpr ⟨s₁, h₁, ht⟩
    · rintro ⟨hok, hrest⟩ bs t hbs ht
      rw [h₁] at hrest
      cases bs with
      | nil =>
        cases ht
        exact hP s hs
      | cons b bs =>
        obtain ⟨rfl, htail⟩ := List.cons_prefix_cons.mp hbs
        obtain ⟨t₁, ht₁, ht⟩ := runActions_cons.mp ht
        cases h₁.symm.trans ht₁
        exact (ih (hkeep hok) hrun).mpr hrest bs t htail ht

/-- A run of steps that meet a condition anyway, up to the last one. -/
theorem along_concat {s : σ} {a : α} (h : ∀ s, ∀ b ∈ as, ok s b)
    (hlast : ∀ s', runActions step s as = some s' → ok s' a) : Along step ok s (as ++ [a]) := by
  induction as generalizing s with
  | nil =>
    refine ⟨hlast s rfl, ?_⟩
    cases step s a <;> trivial
  | cons b as ih =>
    refine ⟨h s b List.mem_cons_self, ?_⟩
    cases hb : step s b with
    | none => trivial
    | some s₁ =>
      exact ih (fun s b' hmem => h s b' (List.mem_cons_of_mem _ hmem)) fun s' hrun =>
        hlast s' (runActions_cons.mpr ⟨s₁, hb, hrun⟩)

theorem along_of_forall (h : ∀ s a, ok s a) (s : σ) (as : List α) : Along step ok s as := by
  induction as generalizing s with
  | nil => trivial
  | cons a as ih =>
    refine ⟨h s a, ?_⟩
    cases step s a with
    | none => trivial
    | some s' => exact ih s'

theorem along_true (s : σ) (as : List α) : Along step (fun _ _ => True) s as :=
  along_of_forall (fun _ _ => trivial) s as

theorem runActions_keeps (hstep : ∀ s a s', I s → step s a = some s' → I s')
    {s s' : σ} (hs : I s) (h : runActions step s as = some s') : I s' :=
  runActions_invariant (fun s a s' hs _ => hstep s a s' hs) as hs (along_true s as) h

/-- What every step keeps, of the actions so far and the state, every run keeps. -/
theorem runActions_history {I : List α → σ → Prop}
    (hstep : ∀ as s a s', I as s → step s a = some s' → I (as ++ [a]) s') {s s' : σ} (hs : I [] s)
    (h : runActions step s as = some s') : I as s' := by
  have hfrom : ∀ as bs s, I bs s → runActions step s as = some s' → I (bs ++ as) s' := by
    intro as
    induction as with
    | nil =>
      rintro bs s hs h
      cases h
      rwa [List.append_nil]
    | cons a as ih =>
      rintro bs s hs h
      obtain ⟨s₁, h₁, h⟩ := runActions_cons.mp h
      rw [List.append_cons]
      exact ih (bs ++ [a]) s₁ (hstep bs s a s₁ hs h₁) h
  exact hfrom as [] s hs h

end

end Foundation
