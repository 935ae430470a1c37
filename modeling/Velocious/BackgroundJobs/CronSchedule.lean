/-
  When a cron expression fires next (`background-jobs/cron-expression.js`): `nextCronFireDate`.

  * A `Date` is its time value in milliseconds, none for an invalid date; `getMinutes` and the other
    getters are taken of local time, and the setters go through it and back.
  * The time zone is a parameter (`Zone`).
-/
import Velocious.BackgroundJobs.CronExpression
import Velocious.Foundation.IsoDate
import Velocious.Foundation.LocalTime

namespace Velocious.CronSchedule

open Foundation Velocious.CronExpression

/-! ## Dates -/

def timeClip (t : ℤ) : Option ℤ := if |t| ≤ maxTime then some t else none

section
variable (z : Zone)

/-- `date.getMinutes()`, of what the clock shows; the other getters likewise. -/
def getMinutes (local_ : ℤ) : ℤ := local_ / 60000 % 60
def getHours (local_ : ℤ) : ℤ := local_ / 3600000 % 24
def getDate (local_ : ℤ) : ℤ := (civilDate (local_ / 86400000)).day
/-- from 0 on -/
def getMonth (local_ : ℤ) : ℤ := (civilDate (local_ / 86400000)).month - 1
/-- from 0 for Sunday on; 1970-01-01 is a Thursday -/
def getDay (local_ : ℤ) : ℤ := (local_ / 86400000 + 4) % 7

def setSeconds (seconds ms : ℤ) (date : Option ℤ) : Option ℤ :=
  date.bind fun t => timeClip (z.utc (z.localTime t / 60000 * 60000 + seconds * 1000 + ms))

def setMinutes (minutes : ℤ) (date : Option ℤ) : Option ℤ :=
  date.bind fun t => timeClip (z.utc (z.localTime t / 3600000 * 3600000 + minutes * 60000 +
    z.localTime t % 60000))

/-! ## The search -/

/-- `5 * 366 * 24 * 60` -/
def MAX_NEXT_FIRE_ITERATIONS : ℕ := 5 * 366 * 24 * 60

variable (parsed : ParsedCron)

/-- `candidateMatches`, by what the clock shows. -/
def candidateMatches (local_ : ℤ) : Bool :=
  if getMinutes local_ ∉ parsed.minute then false
  else if getHours local_ ∉ parsed.hour then false
  else if getMonth local_ + 1 ∉ parsed.month then false
  else
    let dayOfMonthMatch := decide (getDate local_ ∈ parsed.dayOfMonth)
    let dayOfWeekMatch := decide (getDay local_ ∈ parsed.dayOfWeek)
    if parsed.dayOfMonthRestricted && parsed.dayOfWeekRestricted then
      dayOfMonthMatch || dayOfWeekMatch
    else if parsed.dayOfMonthRestricted then dayOfMonthMatch
    else if parsed.dayOfWeekRestricted then dayOfWeekMatch
    else true

/-- `candidate.setMinutes(candidate.getMinutes() + 1)` -/
def advance (candidate : Option ℤ) : Option ℤ :=
  candidate.bind fun t => setMinutes z (getMinutes (z.localTime t) + 1) (some t)

/-- The loop; an invalid date matches nothing. -/
def search : ℕ → Option ℤ → Except String ℤ
  | 0, _ => .error ("Cron expression \"" ++ parsed.expression ++ "\" never matches")
  | iterations + 1, candidate =>
    match candidate with
    | some t =>
      if candidateMatches parsed (z.localTime t) then .ok t
      else search iterations (advance z candidate)
    | none => search iterations (advance z candidate)

def nextCronFireDate (start : ℤ) : Except String ℤ :=
  search z parsed MAX_NEXT_FIRE_ITERATIONS (advance z (setSeconds z 0 0 (timeClip start)))

/-- The candidates, from the minute of `start` on. -/
def candidates (start : ℤ) : ℕ → Option ℤ
  | 0 => setSeconds z 0 0 (timeClip start)
  | n + 1 => advance z (candidates start n)

variable {z parsed}

def Hit (z : Zone) (parsed : ParsedCron) (candidate : Option ℤ) : Prop :=
  ∃ t, candidate = some t ∧ candidateMatches parsed (z.localTime t) = true

variable {start t : ℤ}

variable {n : ℕ}

theorem search_ok {r : ℤ} {k : ℕ} : search z parsed n (candidates z start k) = .ok r ↔
      ∃ i < n, candidates z start (k + i) = some r ∧ Hit z parsed (candidates z start (k + i)) ∧
        ∀ j < i, ¬Hit z parsed (candidates z start (k + j)) := by
  induction n generalizing k with
  | zero => simp [search]
  | succ n ih =>
  have hfirst : Hit z parsed (candidates z start k) →
      (search z parsed (n + 1) (candidates z start k) = .ok r ↔ candidates z start k = some r) := by
    rintro ⟨t, ht, hmatch⟩
    simp [search, ht, hmatch]
  have hnext : ¬Hit z parsed (candidates z start k) →
      search z parsed (n + 1) (candidates z start k) =
        search z parsed n (candidates z start (k + 1)) := by
    intro hno
    have hstep : candidates z start (k + 1) = advance z (candidates z start k) := rfl
    rw [hstep]
    cases hc : candidates z start k with
    | none => rfl
    | some t => exact if_neg fun hmatch => hno ⟨t, hc, hmatch⟩
  by_cases hhit : Hit z parsed (candidates z start k)
  · rw [hfirst hhit]
    constructor
    · exact fun h => ⟨0, by omega, h, hhit, by simp⟩
    · rintro ⟨i, -, hi, -, hbefore⟩
      rcases Nat.eq_zero_or_pos i with rfl | hpos
      · exact hi
      · exact absurd hhit (hbefore 0 hpos)
  · rw [hnext hhit, ih]
    constructor
    · rintro ⟨i, hi, heq, hmatch, hbefore⟩
      refine ⟨i + 1, by omega, ?_, ?_, fun j hj => ?_⟩
      · rwa [← add_assoc, add_right_comm]
      · rwa [← add_assoc, add_right_comm]
      · cases j with
        | zero => exact hhit
        | succ j =>
          rw [← add_assoc, add_right_comm]
          exact hbefore j (by omega)
    · rintro ⟨i, hi, heq, hmatch, hbefore⟩
      cases i with
      | zero => exact absurd hmatch hhit
      | succ i =>
        rw [← add_assoc, add_right_comm] at heq hmatch
        refine ⟨i, by omega, heq, hmatch, fun j hj => ?_⟩
        have := hbefore (j + 1) (by omega)
        rwa [← add_assoc, add_right_comm] at this

/-- **The first matching candidate is returned.** -/
theorem nextCronFireDate_ok {r : ℤ} : nextCronFireDate z parsed start = .ok r ↔
      ∃ n, n ≠ 0 ∧ n ≤ MAX_NEXT_FIRE_ITERATIONS ∧ candidates z start n = some r ∧
        candidateMatches parsed (z.localTime r) = true ∧
        ∀ m, m ≠ 0 → m < n → ¬Hit z parsed (candidates z start m) := by
  have hsearch : nextCronFireDate z parsed start =
      search z parsed MAX_NEXT_FIRE_ITERATIONS (candidates z start 1) := rfl
  rw [hsearch, search_ok]
  constructor
  · rintro ⟨i, hi, heq, ⟨t, ht, hmatch⟩, hbefore⟩
    have hr : t = r := Option.some.inj (ht.symm.trans heq)
    refine ⟨1 + i, by omega, by omega, heq, hr ▸ hmatch, fun m hm hlt => ?_⟩
    have := hbefore (m - 1) (by omega)
    rwa [show 1 + (m - 1) = m by omega] at this
  · rintro ⟨n, hn, hle, heq, hmatch, hbefore⟩
    rw [show n = 1 + (n - 1) by omega] at heq
    exact ⟨n - 1, by omega, heq, ⟨r, heq, hmatch⟩, fun j hj => hbefore (1 + j) (by omega) (by omega)⟩

/-- **It is returned if there is one**, among as many as the search tries. -/
theorem exists_ok_of_hit (hn : n ≠ 0) (hle : n ≤ MAX_NEXT_FIRE_ITERATIONS)
    (h : Hit z parsed (candidates z start n)) : ∃ r, nextCronFireDate z parsed start = .ok r := by
  classical
  have hexists : ∃ m, m ≠ 0 ∧ Hit z parsed (candidates z start m) := ⟨n, hn, h⟩
  obtain ⟨hm, t, ht, hmatch⟩ := Nat.find_spec hexists
  refine ⟨t, nextCronFireDate_ok.mpr ⟨Nat.find hexists, hm, ?_, ht, hmatch, fun m hm' hlt hhit => ?_⟩⟩
  · exact (Nat.find_min' hexists ⟨hn, h⟩).trans hle
  · exact Nat.find_min hexists hlt ⟨hm', hhit⟩

theorem timeClip_eq_some {u : ℤ} : timeClip t = some u ↔ |t| ≤ maxTime ∧ u = t := by
  simp [timeClip, eq_comm]

theorem candidates_zero (h : candidates z start 0 = some t) :
    t = z.utc (z.localTime start / 60000 * 60000) := by
  obtain ⟨s, hs, hset⟩ := Option.bind_eq_some_iff.mp h
  obtain ⟨-, rfl⟩ := timeClip_eq_some.mp hs
  obtain ⟨-, rfl⟩ := timeClip_eq_some.mp hset
  simp

theorem candidates_succ_iff : candidates z start (n + 1) = some t ↔
      ∃ s, candidates z start n = some s ∧ t = z.utc (z.localTime s + msMinute) ∧
        |t| ≤ maxTime := by
  have hclock : ∀ s, z.localTime s / 3600000 * 3600000 + (getMinutes (z.localTime s) + 1) * 60000 +
      z.localTime s % 60000 = z.localTime s + msMinute := by
    intro s
    unfold getMinutes msMinute
    omega
  have hstep : candidates z start (n + 1) =
      (candidates z start n).bind fun s => timeClip (z.utc (z.localTime s + msMinute)) := by
    refine congrArg _ (funext fun s => ?_)
    rw [← hclock]
    rfl
  rw [hstep, Option.bind_eq_some_iff]
  refine exists_congr fun s => and_congr_right fun _ => ?_
  rw [timeClip_eq_some]
  constructor
  · rintro ⟨hle, rfl⟩
    exact ⟨rfl, hle⟩
  · rintro ⟨rfl, hle⟩
    exact ⟨hle, rfl⟩

theorem candidates_succ (h : candidates z start (n + 1) = some t) :
    ∃ s, candidates z start n = some s ∧ t = z.utc (z.localTime s + msMinute) := by
  obtain ⟨s, hs, ht, -⟩ := candidates_succ_iff.mp h
  exact ⟨s, hs, ht⟩

theorem first_candidate (h : candidates z start n = some t) : z.First t := by
  cases n with
  | zero => exact candidates_zero h ▸ Zone.first_utc _
  | succ n =>
    obtain ⟨s, -, rfl⟩ := candidates_succ h
    exact Zone.first_utc _

/-- **A step of the search advances the candidate.** -/
theorem lt_candidates_succ {s : ℤ} (hs : candidates z start n = some s)
    (ht : candidates z start (n + 1) = some t) : s < t := by
  obtain ⟨u, hu, rfl⟩ := candidates_succ ht
  cases hs.symm.trans hu
  exact Zone.lt_utc_add (first_candidate hs) (by decide)

theorem candidates_isSome {m : ℕ} (hle : m ≤ n)
    (ht : candidates z start n = some t) : ∃ s, candidates z start m = some s := by
  induction n generalizing t with
  | zero =>
    obtain rfl : m = 0 := by omega
    exact ⟨t, ht⟩
  | succ n ih =>
    rcases eq_or_lt_of_le hle with rfl | hlt
    · exact ⟨t, ht⟩
    · obtain ⟨s, hs, -⟩ := candidates_succ ht
      exact ih (by omega) hs

end

end Velocious.CronSchedule
