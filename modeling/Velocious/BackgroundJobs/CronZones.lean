/-
  Whether the schedule of a cron expression moves on, in every time zone.

  * `MovesOn`: the date that is returned is after the one asked for, the dates that the scheduler
    gets by asking again from each answer increase, and each step of the search advances.
  * `Repeats`: the clock has been set back, and in what it shows again the expression matches a
    later minute.
-/
import Velocious.BackgroundJobs.CronSchedule

namespace Velocious.CronSchedule

open Foundation Velocious.CronExpression

/-- The dates that come of asking again from each answer. -/
inductive Fires (z : Zone) (parsed : ParsedCron) : ℤ → List ℤ → Prop where
  | nil {start} : Fires z parsed start []
  | cons {start r results} : nextCronFireDate z parsed start = .ok r → Fires z parsed r results →
      Fires z parsed start (r :: results)

/-- The schedule moves on from a date. -/
structure MovesOn (z : Zone) (parsed : ParsedCron) (start : ℤ) : Prop where
  later : ∀ r, nextCronFireDate z parsed start = .ok r → start < r
  increasing : ∀ results, Fires z parsed start results → results.Pairwise (· < ·)
  advances : ∀ n s t, candidates z start n = some s → candidates z start (n + 1) = some t → s < t

/-- The clock has shown a later minute that matches. -/
def Repeats (z : Zone) (parsed : ParsedCron) (start : ℤ) : Prop :=
  ∃ l, l % msMinute = 0 ∧ z.localTime start < l ∧ candidateMatches parsed l = true ∧
    ∃ t ≤ start, z.localTime t = l

section
variable {z : Zone} {parsed : ParsedCron} {start r : ℤ}

def minuteOf (z : Zone) (start : ℤ) : ℤ := z.localTime start / 60000 * 60000

theorem minuteOf_le (z : Zone) (start : ℤ) : minuteOf z start ≤ z.localTime start ∧
    z.localTime start < minuteOf z start + msMinute := by
  unfold minuteOf msMinute
  omega

theorem localTime_zero {s t : ℤ} (hs : candidates z start 0 = some s)
    (ht : candidates z start 1 = some t) (hle : t ≤ start) : z.localTime s = minuteOf z start := by
  obtain ⟨hminute, hminute'⟩ := minuteOf_le z start
  have hseq : s = z.utc (minuteOf z start) := candidates_zero hs
  by_contra hne
  have hskipped : ¬∃ t, z.localTime t = minuteOf z start := fun h =>
    hne (hseq ▸ Zone.localTime_utc h)
  obtain ⟨T, hT, hskip, hskip', hutc, hlocal⟩ := Zone.exists_skip hskipped
  rw [← hseq] at hutc hlocal
  have hst := lt_candidates_succ hs ht
  -- the clock is not changed again before `start`
  have hsteady : ∀ T', z.IsChange T' → T' ≤ start → T' ≤ T := by
    intro T' hT' hle'
    by_contra hlt
    have h1 := Zone.localTime_change_add_le hT hT' (by omega)
    have h2 := Zone.localTime_change_le hT' hle'
    omega
  have hconst : ∀ u, T < u → u ≤ start → z.offset u = z.offset T := by
    intro u hu hu'
    by_contra hne'
    obtain ⟨T', hT', hle', hchange, -⟩ := Zone.exists_last_change hu (Ne.symm hne')
    have := hsteady T' hchange (by omega)
    omega
  obtain ⟨u, hu, htu⟩ := candidates_succ ht
  cases hs.symm.trans hu
  by_cases hshown : ∃ v, z.localTime v = z.localTime s + msMinute
  · have hlocal' := Zone.localTime_utc hshown
    rw [← htu] at hlocal'
    have h1 := hconst t (by omega) hle
    have h2 := hconst start (by omega) le_rfl
    unfold Zone.localTime at *
    omega
  · obtain ⟨T', hT', hskip₁, hskip₂, hutc', -⟩ := Zone.exists_skip hshown
    have := hsteady T' hT' (by omega)
    have := Zone.localTime_change_le hT' (show T' ≤ s by omega)
    unfold msMinute at hskip₂
    omega

theorem localTime_candidate {n : ℕ} {t : ℤ} (hn : n ≠ 0) (ht : candidates z start n = some t)
    (hle : t ≤ start) : z.localTime t = minuteOf z start + n * msMinute := by
  obtain ⟨hminute, hminute'⟩ := minuteOf_le z start
  induction n generalizing t with
  | zero => contradiction
  | succ n ih =>
    obtain ⟨s, hs, rfl⟩ := candidates_succ ht
    have hlt := lt_candidates_succ hs ht
    have hlocal : z.localTime s = minuteOf z start + n * msMinute := by
      rcases Nat.eq_zero_or_pos n with rfl | hpos
      · simpa using localTime_zero hs ht hle
      · exact ih (by omega) hs (by omega)
    have hnext : z.localTime s + msMinute = minuteOf z start + (n + 1 : ℕ) * msMinute := by
      rw [hlocal]
      push_cast
      ring
    rw [hnext] at hle ⊢
    by_contra hne
    have hskipped : ¬∃ u, z.localTime u = minuteOf z start + (n + 1 : ℕ) * msMinute := fun h =>
      hne (Zone.localTime_utc h)
    obtain ⟨T, hT, hskip, hskip', hutc, -⟩ := Zone.exists_skip hskipped
    have := Zone.localTime_change_le hT (show T ≤ start by omega)
    unfold msMinute at *
    omega

theorem repeats_of_le (h : nextCronFireDate z parsed start = .ok r) (hle : r ≤ start) :
    Repeats z parsed start := by
  obtain ⟨n, hn, -, hr, hmatch, -⟩ := nextCronFireDate_ok.mp h
  obtain ⟨-, hminute⟩ := minuteOf_le z start
  have hlocal := localTime_candidate hn hr hle
  refine ⟨z.localTime r, ?_, ?_, hmatch, r, hle, rfl⟩
  · rw [hlocal]
    unfold minuteOf msMinute
    omega
  · unfold msMinute at *
    omega

/-- **In the second pass the answer is taken from the first.** -/
theorem le_of_repeats (h : nextCronFireDate z parsed start = .ok r) (hrepeats : Repeats z parsed start) :
    r ≤ start := by
  obtain ⟨l, hwhole, hlater, hmatch, t, ht, rfl⟩ := hrepeats
  obtain ⟨n, hn, -, hr, -, hbefore⟩ := nextCronFireDate_ok.mp h
  obtain ⟨hminute, hminute'⟩ := minuteOf_le z start
  have hts : t < start := by
    rcases eq_or_lt_of_le ht with rfl | hlt
    · omega
    · exact hlt
  obtain ⟨T, -, hTstart, hT, hback, hlate⟩ := Zone.exists_set_back hts hlater
  obtain ⟨m, hm⟩ : ∃ m : ℕ, z.localTime t = minuteOf z start + m * msMinute := by
    refine ⟨((z.localTime t - minuteOf z start) / 60000).toNat, ?_⟩
    unfold minuteOf msMinute at *
    omega
  have hm0 : m ≠ 0 := by
    rintro rfl
    omega
  -- the minutes up to `l` are shown before the clock is set back
  have hshown : ∀ k : ℕ, k ≤ m →
      z.localTime (minuteOf z start + k * msMinute - z.offset (T - 1)) =
          minuteOf z start + k * msMinute ∧
        minuteOf z start + k * msMinute - z.offset (T - 1) < T := by
    intro k hk
    apply Zone.shown_before hT
    · have : T + z.offset T ≤ z.localTime start := hback
      unfold msMinute at *
      omega
    · unfold msMinute at *
      omega
  have hcandidate : ∀ k : ℕ, k ≤ m → ∀ c, candidates z start k = some c →
      z.localTime c = minuteOf z start + k * msMinute ∧ c ≤ start := by
    intro k
    induction k with
    | zero =>
      intro hk c hc
      have h0 := hshown 0 hk
      simp only [Nat.cast_zero, zero_mul, add_zero] at h0 ⊢
      rw [candidates_zero hc]
      exact ⟨Zone.localTime_utc ⟨_, h0.1⟩, (Zone.utc_le h0.1).trans (by omega)⟩
    | succ k ih =>
      intro hk c hc
      obtain ⟨s, hs, rfl⟩ := candidates_succ hc
      have hnext : z.localTime s + msMinute = minuteOf z start + (k + 1 : ℕ) * msMinute := by
        rw [(ih (by omega) s hs).1]
        push_cast
        ring
      rw [hnext]
      have h1 := hshown (k + 1) hk
      exact ⟨Zone.localTime_utc ⟨_, h1.1⟩, (Zone.utc_le h1.1).trans (by omega)⟩
  rcases le_or_gt n m with hnm | hmn
  · exact (hcandidate n hnm r hr).2
  · obtain ⟨c, hc⟩ := candidates_isSome hmn.le hr
    refine absurd ⟨c, hc, ?_⟩ (hbefore m hm0 hmn)
    rw [(hcandidate m le_rfl c hc).1, ← hm]
    exact hmatch

theorem lt_of_first (hfirst : z.First start) (h : nextCronFireDate z parsed start = .ok r) :
    start < r := by
  by_contra hle
  obtain ⟨l, -, hlater, -, t, ht, rfl⟩ := repeats_of_le h (by omega)
  rcases eq_or_lt_of_le ht with rfl | hlt
  · omega
  · exact Zone.not_first_of_set_back hlt hlater hfirst

theorem first_of_ok (h : nextCronFireDate z parsed start = .ok r) : z.First r := by
  obtain ⟨n, -, -, hr, -, -⟩ := nextCronFireDate_ok.mp h
  exact first_candidate hr

theorem Fires.lt_of_first {results : List ℤ} (h : Fires z parsed start results) :
    z.First start → ∀ r ∈ results, start < r := by
  induction h with
  | nil => simp
  | cons hnext _ ih =>
    intro hfirst r hr
    have hlt := CronSchedule.lt_of_first hfirst hnext
    rcases List.mem_cons.mp hr with rfl | hr
    · exact hlt
    · exact hlt.trans (ih (first_of_ok hnext) r hr)

/-- **The answers increase**, in every time zone. -/
theorem Fires.pairwise {results : List ℤ} (h : Fires z parsed start results) :
    results.Pairwise (· < ·) := by
  induction h with
  | nil => exact .nil
  | cons hnext hrest ih => exact .cons (hrest.lt_of_first (first_of_ok hnext)) ih

end

/-- **Where the schedule moves on.** -/
theorem movesOn_iff (z : Zone) (parsed : ParsedCron) (start : ℤ) :
    MovesOn z parsed start ↔
      ¬((∃ r, nextCronFireDate z parsed start = .ok r) ∧ Repeats z parsed start) := by
  constructor
  · rintro h ⟨⟨r, hr⟩, hrepeats⟩
    have := h.later r hr
    have := le_of_repeats hr hrepeats
    omega
  · intro h
    refine ⟨fun r hr => ?_, fun results => Fires.pairwise, fun n s t => lt_candidates_succ⟩
    by_contra hle
    exact h ⟨⟨r, hr⟩, repeats_of_le hr (by omega)⟩

/-- On 2026-10-25 at 01:00 UTC the clock is set back from 3:00 to 2:00. -/
def autumn : Zone := .change 1792890000000 7200000 3600000

/-- At 2:10 in the second pass, the answer is 2:30 in the first. -/
theorem falls_back : ∃ parsed, parseCronExpression String.toLower "30 2 * * *" = .ok parsed ∧
    ¬MovesOn autumn parsed 1792890600000 := by
  obtain ⟨parsed, hparsed, hmatch⟩ := exists_parsed String.toLower "30 2 * * *"
    (fun parsed => candidateMatches parsed (autumn.localTime 1792888200000)) (by decide +kernel)
  refine ⟨parsed, hparsed, fun h => ?_⟩
  have hcandidate : candidates autumn 1792890600000 20 = some 1792888200000 := by decide +kernel
  obtain ⟨r, hr⟩ := exists_ok_of_hit (by decide) (by decide) ⟨_, hcandidate, hmatch⟩
  have hrepeats : Repeats autumn parsed 1792890600000 :=
    ⟨autumn.localTime 1792888200000, by decide, by decide, hmatch, _, by decide, rfl⟩
  have := h.later r hr
  have := le_of_repeats hr hrepeats
  omega

end Velocious.CronSchedule
