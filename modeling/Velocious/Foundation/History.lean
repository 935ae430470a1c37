/-
  Histories: what happened, in order, and what holds of all that happened after some entry.

  * `After history entry P`: `P` holds of what follows each occurrence of the entry.
  * `after_concat`: what one more entry has to keep.
-/
import Mathlib.Data.List.Basic

namespace Foundation

open List

universe u

variable {α : Type u} {history : List α} {entry next : α}

/-- What follows each occurrence of an entry. -/
def After (history : List α) (entry : α) (P : List α → Prop) : Prop :=
  ∀ earlier later, history = earlier ++ entry :: later → P later

variable {P : List α → Prop}

theorem after_nil : After [] entry P := by
  intro earlier later h
  cases earlier <;> cases h

theorem after_of_not_mem (h : entry ∉ history) : After history entry P := by
  rintro earlier later rfl
  exact absurd (by simp) h

theorem After.mono {Q : List α → Prop} (h : After history entry P) (hPQ : ∀ later, P later → Q later) :
    After history entry Q := fun earlier later hsplit => hPQ later (h earlier later hsplit)

theorem after_concat {Q : List α → Prop} (h : After history entry P)
    (hkeep : ∀ later, P later → Q (later ++ [next])) (hnew : entry = next → Q []) :
    After (history ++ [next]) entry Q := by
  intro earlier later hsplit
  rcases eq_nil_or_concat later with rfl | ⟨later', last, rfl⟩
  · have hlast := congrArg List.getLast? hsplit
    simp only [getLast?_append, getLast?_singleton, Option.some_or, Option.some.injEq]
      at hlast
    exact hnew hlast.symm
  · rw [concat_eq_append, ← cons_append, ← append_assoc] at hsplit
    obtain ⟨hhistory, hlast⟩ := append_inj' hsplit rfl
    rw [concat_eq_append, ← (List.cons.inj hlast).1]
    exact hkeep later' (h earlier later' hhistory)

/-- The entry happened, and since then nothing that is `bad`. -/
def Since (history : List α) (entry : α) (bad : α → Prop) : Prop :=
  ∃ earlier later, history = earlier ++ entry :: later ∧ ∀ e ∈ later, ¬ bad e

theorem since_concat_self {bad : α → Prop} : Since (history ++ [entry]) entry bad :=
  ⟨history, [], rfl, fun _ h => by cases h⟩

theorem Since.concat {bad : α → Prop} (h : Since history entry bad) (hnext : ¬ bad next) :
    Since (history ++ [next]) entry bad := by
  obtain ⟨earlier, later, rfl, hgood⟩ := h
  refine ⟨earlier, later ++ [next], by simp, fun e he => ?_⟩
  rcases mem_append.1 he with he | he
  · exact hgood e he
  · rw [mem_singleton.1 he]
    exact hnext

end Foundation
