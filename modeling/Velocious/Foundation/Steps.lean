/-
  Finite runs of a labelled transition system whose steps each emit a list of
  events: `Steps step s es s'` is a run from `s` to `s'` that emits `es`.

  `Steps.invariant` packages the induction on a run: what every step keeps, of
  the history so far and the state, every run keeps.
-/
import Mathlib.Data.List.Basic

namespace Foundation

universe u v

variable {σ : Type u} {ε : Type v}

/-- A sequence of steps, with all their events. -/
inductive Steps (step : σ → List ε → σ → Prop) : σ → List ε → σ → Prop where
  | nil {s} : Steps step s [] s
  | cons {s s₁ s₂ es es₁} : step s es s₁ → Steps step s₁ es₁ s₂ → Steps step s (es ++ es₁) s₂

namespace Steps

variable {step : σ → List ε → σ → Prop} {s s₁ s' : σ} {es es₁ : List ε}

theorem single (h : step s es s') : Steps step s es s' := by
  simpa using cons h nil

theorem trans (h : Steps step s es s₁) (h₁ : Steps step s₁ es₁ s') :
    Steps step s (es ++ es₁) s' := by
  induction h with
  | nil => exact h₁
  | cons hm _ ih =>
    rw [List.append_assoc]
    exact .cons hm (ih h₁)

theorem invariant {I : List ε → σ → Prop}
    (hI : ∀ es s es' s', I es s → step s es' s' → I (es ++ es') s') {l : List ε}
    (h : Steps step s es s') (h₀ : I l s) : I (l ++ es) s' := by
  induction h generalizing l with
  | nil => simpa using h₀
  | cons hm _ ih =>
    rw [← List.append_assoc]
    exact ih (hI _ _ _ _ h₀ hm)

end Steps

end Foundation
