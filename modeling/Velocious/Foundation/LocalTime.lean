/-
  Local time: a clock that is a piecewise constant offset ahead of UTC, and the instant that a local
  time names.

  * A local time that is shown twice names the first of the two instants, and one that is skipped is
    read with the offset before the change (`Zone.utc`).
  * The clock is changed seldom: around a change it runs evenly for as long as it is moved, and a
    minute more (`Zone.before`, `Zone.after`).
  * `First t`: no earlier instant shows what the clock shows at `t`. What a local time names is a
    first instant (`first_utc`), and to advance the clock from a first instant leads to a later one
    (`lt_utc_add`).
-/
import Mathlib.Tactic

namespace Foundation

def msMinute : ℤ := 60000

/-- A time zone: the offset from UTC at each instant, and the instant that a local time names. -/
structure Zone where
  offset : ℤ → ℤ
  utc : ℤ → ℤ
  before : ∀ T t, offset (T - 1) ≠ offset T → T - |offset T - offset (T - 1)| - msMinute ≤ t →
    t < T → offset t = offset (T - 1)
  after : ∀ T t, offset (T - 1) ≠ offset T → T ≤ t →
    t < T + |offset T - offset (T - 1)| + msMinute → offset t = offset T
  /-- a local time that is shown names the first instant that shows it -/
  shown : ∀ t, utc (t + offset t) ≤ t ∧ utc (t + offset t) + offset (utc (t + offset t)) = t + offset t
  /-- one that is skipped is read with the offset before the change -/
  skipped : ∀ l, (∀ t, t + offset t ≠ l) → ∃ T, T + offset (T - 1) ≤ l ∧ l < T + offset T ∧
    utc l = l - offset (T - 1)

namespace Zone

def fixed (offset : ℤ) : Zone where
  offset _ := offset
  utc l := l - offset
  before _ _ h := absurd rfl h
  after _ _ h := absurd rfl h
  shown t := by simp
  skipped l h := absurd (sub_add_cancel l offset) (h (l - offset))

/-- A single change of the clock. -/
def change (T : ℤ) (old new : ℤ) : Zone where
  offset t := if t < T then old else new
  utc l := if l < T + max old new then l - old else l - new
  before T' t h hle hlt := by
    have hT : T' = T := by
      by_contra hne
      apply h
      split_ifs <;> first | rfl | omega
    subst hT
    rw [if_pos hlt, if_pos (by omega)]
  after T' t h hle hlt := by
    have hT : T' = T := by
      by_contra hne
      apply h
      split_ifs <;> first | rfl | omega
    subst hT
    rw [if_neg (by omega), if_neg (by omega)]
  shown t := by
    rcases le_total old new with hle | hle
    · rw [max_eq_right hle]
      split_ifs <;> omega
    · rw [max_eq_left hle]
      split_ifs <;> omega
  skipped l h := by
    have hold := h (l - old)
    have hnew := h (l - new)
    refine ⟨T, ?_⟩
    rw [if_pos (by omega), if_neg (by omega)]
    rcases le_total old new with hle | hle
    · rw [max_eq_right hle]
      split_ifs at hold hnew ⊢ <;> omega
    · rw [max_eq_left hle]
      split_ifs at hold hnew ⊢ <;> omega

variable (z : Zone)

/-- What the clock shows at an instant. -/
def localTime (t : ℤ) : ℤ := t + z.offset t

def IsChange (T : ℤ) : Prop := z.offset (T - 1) ≠ z.offset T

/-- No earlier instant shows the same. -/
def First (t : ℤ) : Prop := ∀ s, z.localTime s = z.localTime t → t ≤ s

variable {z} {T t s l : ℤ}

theorem exists_last_change (hlt : s < t) (hne : z.offset s ≠ z.offset t) :
    ∃ T, s < T ∧ T ≤ t ∧ z.IsChange T ∧ ∀ u, T ≤ u → u ≤ t → z.offset u = z.offset t := by
  obtain ⟨n, hn⟩ : ∃ n : ℕ, t = s + n := ⟨(t - s).toNat, by omega⟩
  induction n generalizing t with
  | zero => omega
  | succ n ih =>
  by_cases hchange : z.offset (t - 1) = z.offset t
  · have hlt' : s < t - 1 := by
      rcases eq_or_ne s (t - 1) with rfl | h
      · exact absurd hchange hne
      · omega
    obtain ⟨T, hsT, hTt, hT, hsteady⟩ := ih hlt' (hchange ▸ hne) (by omega)
    refine ⟨T, hsT, by omega, hT, fun u hu hut => ?_⟩
    rcases eq_or_lt_of_le hut with rfl | hut
    · rfl
    · exact (hsteady u hu (by omega)).trans hchange
  · refine ⟨t, hlt, le_rfl, hchange, fun u hu hut => ?_⟩
    obtain rfl : u = t := by omega
    rfl

/-! ## Around a change -/

theorem shown_before (hT : z.IsChange T)
    (hl : T + z.offset T ≤ l + msMinute) (hl' : l < T + z.offset (T - 1)) :
    z.localTime (l - z.offset (T - 1)) = l ∧ l - z.offset (T - 1) < T := by
  have hoffset := z.before T (l - z.offset (T - 1)) hT
  have habs := neg_abs_le (z.offset T - z.offset (T - 1))
  unfold localTime
  omega

theorem change_gap {T' : ℤ} (hT : z.IsChange T) (hT' : z.IsChange T') (hlt : T < T') :
    T + |z.offset T' - z.offset (T' - 1)| + msMinute ≤ T' := by
  by_contra hnear
  have h1 := z.before T' T hT' (by omega) hlt
  have h2 := z.before T' (T - 1) hT' (by omega) (by omega)
  exact hT (h2.trans h1.symm)

/-- **Once the clock is changed it never shows an earlier time again.** -/
theorem localTime_change_le (hT : z.IsChange T) (ht : T ≤ t) : z.localTime T ≤ z.localTime t := by
  induction hn : (t - T).toNat using Nat.strong_induction_on generalizing t with
  | _ n ih =>
  rcases eq_or_lt_of_le ht with rfl | hlt
  · rfl
  by_cases hchange : z.offset (t - 1) = z.offset t
  · have := ih _ (by omega) (show T ≤ t - 1 by omega) rfl
    unfold localTime at this ⊢
    omega
  · -- what the clock shows after the change, it has shown since `T`, or it is later
    have hgap := change_gap hT hchange hlt
    have hpos := abs_nonneg (z.offset t - z.offset (t - 1))
    have habs := neg_abs_le (z.offset t - z.offset (t - 1))
    have hminute : (0 : ℤ) < msMinute := by decide
    have hsteady := z.before t (t - |z.offset t - z.offset (t - 1)| - msMinute) hchange le_rfl
      (by omega)
    have := ih _ (by omega) (show T ≤ t - |z.offset t - z.offset (t - 1)| - msMinute by omega) rfl
    unfold localTime at this ⊢
    omega

theorem localTime_change_add_le {T' : ℤ} (hT : z.IsChange T) (hT' : z.IsChange T') (hlt : T < T') :
    z.localTime T + msMinute ≤ z.localTime T' := by
  have hgap := change_gap hT hT' hlt
  have habs := neg_abs_le (z.offset T' - z.offset (T' - 1))
  have hpos := abs_nonneg (z.offset T' - z.offset (T' - 1))
  have hminute : (0 : ℤ) < msMinute := by decide
  have hsteady := z.before T' (T' - |z.offset T' - z.offset (T' - 1)| - msMinute) hT' le_rfl
    (by omega)
  have := localTime_change_le hT
    (show T ≤ T' - |z.offset T' - z.offset (T' - 1)| - msMinute by omega)
  unfold localTime at this ⊢
  omega

/-- **Up to a change the clock has shown no later time.** -/
theorem localTime_lt_of_lt_change (hT : z.IsChange T) (ht : t < T) :
    z.localTime t < T + z.offset (T - 1) := by
  induction hn : (T - t).toNat using Nat.strong_induction_on generalizing t with
  | _ n ih =>
  by_cases hchange : z.offset t = z.offset (t + 1)
  · rcases eq_or_ne (t + 1) T with rfl | hne
    · rw [add_sub_cancel_right]
      unfold localTime
      omega
    · have := ih _ (by omega) (show t + 1 < T by omega) rfl
      unfold localTime at this ⊢
      omega
  · rcases eq_or_ne (t + 1) T with rfl | hne
    · rw [add_sub_cancel_right]
      unfold localTime
      omega
    · -- the clock is changed at `t + 1`, and makes up for it before `T`
      have hchange' : z.IsChange (t + 1) := by rwa [IsChange, add_sub_cancel_right]
      have hsteady := z.after (t + 1)
        (t + 1 + |z.offset (t + 1) - z.offset (t + 1 - 1)|) hchange'
      rw [add_sub_cancel_right] at hsteady
      have hpos := abs_nonneg (z.offset (t + 1) - z.offset t)
      have habs := neg_abs_le (z.offset (t + 1) - z.offset t)
      have hminute : (0 : ℤ) < msMinute := by decide
      have hbefore : t + 1 + |z.offset (t + 1) - z.offset t| < T := by
        by_contra hnear
        have h1 := z.after (t + 1) T hchange' (by omega) (by rw [add_sub_cancel_right]; omega)
        have h2 := z.after (t + 1) (T - 1) hchange' (by omega)
          (by rw [add_sub_cancel_right]; omega)
        exact hT (h2.trans h1.symm)
      have := ih _ (by omega) hbefore rfl
      unfold localTime at this ⊢
      omega

theorem exists_set_back (hlt : s < t) (h : z.localTime t < z.localTime s) :
    ∃ T, s < T ∧ T ≤ t ∧ z.IsChange T ∧ z.localTime T ≤ z.localTime t ∧
      z.localTime s < T + z.offset (T - 1) := by
  have hne : z.offset s ≠ z.offset t := by
    intro heq
    unfold localTime at h
    omega
  obtain ⟨T, hsT, hTt, hT, -⟩ := exists_last_change hlt hne
  exact ⟨T, hsT, hTt, hT, localTime_change_le hT hTt, localTime_lt_of_lt_change hT hsT⟩

theorem not_first_of_set_back (hlt : s < t) (h : z.localTime t < z.localTime s) : ¬z.First t := by
  intro hfirst
  obtain ⟨T, hsT, hTt, hT, hle, hbefore⟩ := exists_set_back hlt h
  have hminute : (0 : ℤ) < msMinute := by decide
  have hshown := shown_before (l := z.localTime t) hT
    (by unfold localTime at *; omega) (by omega)
  have := hfirst _ hshown.1
  omega

theorem localTime_utc (h : ∃ t, z.localTime t = l) : z.localTime (z.utc l) = l := by
  obtain ⟨t, rfl⟩ := h
  exact (z.shown t).2

theorem utc_le (h : z.localTime t = l) : z.utc l ≤ t := by
  subst h
  exact (z.shown t).1

theorem exists_skip (h : ¬∃ t, z.localTime t = l) :
    ∃ T, z.IsChange T ∧ T + z.offset (T - 1) ≤ l ∧ l < z.localTime T ∧
      z.utc l = l - z.offset (T - 1) ∧
      z.localTime (z.utc l) = l + (z.offset T - z.offset (T - 1)) := by
  obtain ⟨T, hle, hlt, hutc⟩ := z.skipped l fun t ht => h ⟨t, ht⟩
  have hT : z.IsChange T := by
    intro heq
    omega
  have habs := le_abs_self (z.offset T - z.offset (T - 1))
  have hminute : (0 : ℤ) < msMinute := by decide
  have hsteady := z.after T (l - z.offset (T - 1)) hT (by omega) (by omega)
  refine ⟨T, hT, hle, hlt, hutc, ?_⟩
  rw [hutc]
  unfold localTime
  omega

/-- **What a local time names is the first instant that shows what it shows.** -/
theorem first_utc (l : ℤ) : z.First (z.utc l) := by
  intro s hs
  by_cases hshown : ∃ t, z.localTime t = l
  · rw [localTime_utc hshown] at hs
    exact utc_le hs
  · obtain ⟨T, hT, hle, hlt, hutc, hlocal⟩ := exists_skip hshown
    by_contra hearly
    rcases lt_or_ge s T with hsT | hsT
    · have := localTime_lt_of_lt_change hT hsT
      unfold localTime at *
      omega
    · have hminute : (0 : ℤ) < msMinute := by decide
      have habs := le_abs_self (z.offset T - z.offset (T - 1))
      unfold localTime at *
      have hsteady := z.after T s hT hsT (by omega)
      omega

/-- **To advance the clock from a first instant leads to a later one.** -/
theorem lt_utc_add (ht : z.First t) {d : ℤ} (hd : 0 < d) : t < z.utc (z.localTime t + d) := by
  by_contra hle
  have hle : z.utc (z.localTime t + d) ≤ t := by omega
  by_cases hshown : ∃ u, z.localTime u = z.localTime t + d
  · have hlocal := localTime_utc hshown
    have hlt : z.utc (z.localTime t + d) < t := by
      rcases eq_or_lt_of_le hle with heq | hlt
      · rw [heq] at hlocal
        omega
      · exact hlt
    exact not_first_of_set_back hlt (by omega) ht
  · obtain ⟨T, hT, hskip, hskip', hutc, -⟩ := exists_skip hshown
    have := localTime_change_le hT (show T ≤ t by omega)
    omega

end Zone

end Foundation
