/-
  Persisted counting semaphores: a table of counter rows beside a table of
  holders, each holding at most one counter.

  `Balanced` says that every counter row stores exactly the number of its
  holders. The rules say which paired writes keep it: a holder that takes a
  slot with the counter raised (`acquire`), one that gives its slot up with the
  counter lowered where it is positive (`release`), a new counter nobody holds
  (`register`), writes that touch neither (`of_held`, `of_active`), and the
  recount of every counter (`balanced_rebuild`), which needs no balance before.
-/
import Velocious.Foundation.Table

namespace Foundation

universe u v w

variable {α : Type u} {κ : Type v} {γ : Type u} {ι : Type w}
  {key : α → ι} {ckey : γ → κ} [DecidableEq κ]

section
variable (held : α → Option κ) (active : γ → ℤ)

def holders (t : Table α key) (k : κ) : ℕ := t.count fun a => held a = some k

/-- Every counter row stores the number of its holders. -/
def Balanced (t : Table α key) (c : Table γ ckey) : Prop :=
  ∀ r ∈ c, active r = holders held t (ckey r)

end

variable {held : α → Option κ} {active : γ → ℤ} {t t' : Table α key} {c c' : Table γ ckey}

theorem holders_pos {a : α} {k : κ} (ha : a ∈ t) (hk : held a = some k) : 0 < holders held t k := by
  by_contra h
  have := Table.count_eq_zero.mp (Nat.eq_zero_of_not_pos h) a ha
  simp [hk] at this

theorem holders_modify [DecidableEq ι] (held : α → Option κ) {i : ι} {a : α} (f : α → α)
    (hf : ∀ a, key (f a) = key a)
    (ht : t.find? i = some a) (k : κ) :
    holders held (t.modify i f hf) k + (if held a = some k then 1 else 0) =
      holders held t k + if held (f a) = some k then 1 else 0 := by
  simpa [holders] using Table.count_modify f hf ht fun a => decide (held a = some k)

namespace Balanced

section
variable (h : Balanced held active t c)
include h

theorem nonneg {r : γ} (hr : r ∈ c) : 0 ≤ active r := by
  rw [h r hr]
  exact Int.natCast_nonneg _

theorem of_held (ht : ∀ k, holders held t' k = holders held t k) : Balanced held active t' c :=
  fun r hr => by rw [h r hr, ht]

theorem of_active (p : γ → Bool) (g : γ → γ)
    (hg : ∀ r, ckey (g r) = ckey r) (ha : ∀ r, active (g r) = active r) :
    Balanced held active t (c.update p g hg) := by
  intro r hr
  obtain ⟨r, hmem, rfl⟩ := Table.mem_update.mp hr
  by_cases hp : p r
  · simp only [hp, if_true, ha, hg]
    exact h r hmem
  · simpa [hp] using h r hmem

theorem register {r : γ} (hi : c.insert? r = some c')
    (h0 : active r = holders held t (ckey r)) : Balanced held active t c' := by
  intro r' hr'
  rcases (Table.mem_insert? hi).mp hr' with hr' | rfl
  · exact h r' hr'
  · exact h0

end

section
variable [DecidableEq ι]

section
variable (h : Balanced held active t c) {i : ι} {a : α}
include h

theorem shift (k : κ) (f : α → α)
    (hf : ∀ a, key (f a) = key a) (p : γ → Bool) (g : γ → γ) (hg : ∀ r, ckey (g r) = ckey r)
    (ht : t.find? i = some a)
    (hother : ∀ k', k' ≠ k → (held a = some k' ↔ held (f a) = some k'))
    (hp : ∀ r ∈ c, p r → ckey r = k)
    (hk : ∀ r ∈ c, ckey r = k → active (if p r then g r else r) +
      (if held a = some k then 1 else 0) = active r + if held (f a) = some k then 1 else 0) :
    Balanced held active (t.modify i f hf) (c.update p g hg) := by
  intro r' hr'
  obtain ⟨r, hr, rfl⟩ := Table.mem_update.mp hr'
  have hkey : ckey (if p r then g r else r) = ckey r := by split <;> simp [hg]
  have hm := holders_modify held f hf ht (ckey r)
  have hb := h r hr
  rw [hkey]
  by_cases hrk : ckey r = k
  · have hstep := hk r hr hrk
    have hcount : (holders held (t.modify i f hf) k : ℤ) + (if held a = some k then 1 else 0) =
        holders held t k + if held (f a) = some k then 1 else 0 := by
      rw [hrk] at hm
      exact_mod_cast hm
    rw [hrk] at hb ⊢
    linarith
  · have hpr : p r = false := by
      by_contra hc
      exact hrk (hp r hr (by simpa using hc))
    have := hother (ckey r) hrk
    simp only [hpr, Bool.false_eq_true, if_false, this] at hm ⊢
    omega

section
variable {k : κ} (f : α → α) (hf : ∀ a, key (f a) = key a) (g : γ → γ)
  (hg : ∀ r, ckey (g r) = ckey r) (ht : t.find? i = some a)
include f hf g hg ht

theorem acquire (ha : held a = none) (hfa : held (f a) = some k)
    (hga : ∀ r, active (g r) = active r + 1) :
    Balanced held active (t.modify i f hf) (c.modify k g hg) := by
  refine h.shift k f hf _ g hg ht ?_ (by simp) ?_
  · intro k' hk'
    simp [ha, hfa, Ne.symm hk']
  · intro r _ hr
    simp [ha, hfa, hr, hga]

theorem release (ha : held a = some k) (hfa : held (f a) = none)
    (hga : ∀ r, active (g r) = active r - 1) :
    Balanced held active (t.modify i f hf)
      (c.update (fun r => ckey r = k && 0 < active r) g hg) := by
  refine h.shift k f hf _ g hg ht ?_ (by simp +contextual) ?_
  · intro k' hk'
    simp [ha, hfa, Ne.symm hk']
  · intro r hr hrk
    have hpos : 0 < active r := by
      rw [h r hr, hrk]
      exact_mod_cast holders_pos (Table.mem_of_find? ht) ha
    simp [ha, hfa, hrk, hpos, hga]

end

end

end

end Balanced

theorem balanced_rebuild (g : γ → γ) (hg : ∀ r, ckey (g r) = ckey r)
    (ha : ∀ r, active (g r) = holders held t (ckey r)) :
    Balanced held active t (c.update (fun _ => true) g hg) := by
  intro r' hr'
  obtain ⟨r, -, rfl⟩ := Table.mem_update.mp hr'
  simp [ha, hg]

theorem Balanced.rebuild_eq_self (h : Balanced held active t c) (g : γ → γ)
    (hg : ∀ r, ckey (g r) = ckey r)
    (ha : ∀ r, active r = holders held t (ckey r) → g r = r) :
    c.update (fun _ => true) g hg = c :=
  Table.update_eq_self_of_fixed fun r hr _ => ha r (h r hr)

end Foundation
