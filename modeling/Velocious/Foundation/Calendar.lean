/-
  How dates recur in the Gregorian calendar.

  * A year that begins in March has 365 days, or 366 of which the last is 29 February
    (`isLeapDay_iff`); `dayOfYear_yearStart`: its days count from `yearStart`.
-/
import Velocious.Foundation.IsoDate

namespace Foundation

def marchDay (days : ℤ) : ℤ := dayOfYear ((days + 719468) % 146097)

/-- The first day of a year that begins in March. -/
def yearStart (year : ℤ) : ℤ :=
  year / 400 * 146097 + (year % 400 * 365 + year % 400 / 4 - year % 400 / 100) - 719468

/-- 29 February -/
def IsLeapDay (date : CivilDate) : Prop := date.month = 2 ∧ date.day = 29

/-- The weekday of a day, from 0 for Sunday on. -/
def weekday (days : ℤ) : ℤ := (days + 4) % 7

theorem civilDate_congr {days days' : ℤ} (h : marchDay days = marchDay days') :
    (civilDate days).month = (civilDate days').month ∧
      (civilDate days).day = (civilDate days').day := by
  unfold marchDay at h
  simp only [civilDate, h, and_self]

theorem marchDay_bounds (days : ℤ) : 0 ≤ marchDay days ∧ marchDay days ≤ 365 :=
  dayOfYear_bounds (by omega) (by omega)

theorem isLeapDay_iff (days : ℤ) : IsLeapDay (civilDate days) ↔ marchDay days = 365 := by
  obtain ⟨h0, h365⟩ := marchDay_bounds days
  have hmonth : (civilDate days).month =
      if (5 * marchDay days + 2) / 153 < 10 then (5 * marchDay days + 2) / 153 + 3
      else (5 * marchDay days + 2) / 153 - 9 := rfl
  have hday : (civilDate days).day =
      marchDay days - (153 * ((5 * marchDay days + 2) / 153) + 2) / 5 + 1 := rfl
  unfold IsLeapDay
  rw [hmonth, hday]
  constructor
  · split <;> omega
  · intro h
    rw [h]
    decide

theorem yearStart_succ (year : ℤ) :
    yearStart year + 365 ≤ yearStart (year + 1) ∧ yearStart (year + 1) ≤ yearStart year + 366 := by
  unfold yearStart
  have hcases : (year + 1) / 400 = year / 400 ∧ (year + 1) % 400 = year % 400 + 1 ∨
      (year + 1) / 400 = year / 400 + 1 ∧ (year + 1) % 400 = 0 ∧ year % 400 = 399 := by omega
  rcases hcases with ⟨h1, h2⟩ | ⟨h1, h2, h3⟩
  · rw [h2]
    constructor <;> omega
  · rw [h2, h3]
    constructor <;> omega

theorem dayOfYear_yearStart {year k : ℤ} (h0 : 0 ≤ year) (h400 : year < 400) (hk : 0 ≤ k)
    (hk' : k ≤ 364) : dayOfYear (year * 365 + year / 4 - year / 100 + k) = k := by
  have hyear : yearOfEra (year * 365 + year / 4 - year / 100 + k) = year := by
    -- century, leap cycle and year
    obtain ⟨c, q, s, hc, hq, hs, hyear⟩ : ∃ c q s, (0 ≤ c ∧ c ≤ 3) ∧ (0 ≤ q ∧ q ≤ 24) ∧
        (0 ≤ s ∧ s ≤ 3) ∧ year = 100 * c + 4 * q + s :=
      ⟨year / 100, year % 100 / 4, year % 4, by omega, by omega, by omega, by omega⟩
    obtain ⟨doe, hdoe⟩ : ∃ doe, doe = 36524 * c + 1461 * q + 365 * s + k := ⟨_, rfl⟩
    have hsum : year * 365 + year / 4 - year / 100 + k = doe := by omega
    have h1 : doe / 36524 = c := by omega
    have h2 : doe / 146096 = 0 := by omega
    rw [hsum, yearOfEra]
    omega
  unfold dayOfYear
  omega

theorem marchDay_yearStart {year k : ℤ} (hk : 0 ≤ k) (hk' : k ≤ 364) :
    marchDay (yearStart year + k) = k := by
  have hmod : (yearStart year + k + 719468) % 146097 =
      year % 400 * 365 + year % 400 / 4 - year % 400 / 100 + k := by
    unfold yearStart
    omega
  rw [marchDay, hmod, dayOfYear_yearStart (by omega) (by omega) hk hk']

theorem exists_year (days : ℤ) : ∃ year, days = yearStart year + marchDay days := by
  obtain ⟨doe, hdoe⟩ : ∃ doe, doe = (days + 719468) % 146097 := ⟨_, rfl⟩
  obtain ⟨h0, h400⟩ := @yearOfEra_bounds doe (by omega) (by omega)
  have hday : marchDay days =
      doe - (365 * yearOfEra doe + yearOfEra doe / 4 - yearOfEra doe / 100) := by
    rw [hdoe]
    rfl
  refine ⟨(days + 719468) / 146097 * 400 + yearOfEra doe, ?_⟩
  have h2 : ((days + 719468) / 146097 * 400 + yearOfEra doe) % 400 = yearOfEra doe := by
    omega
  rw [yearStart, h2]
  omega

theorem exists_marchDay {k : ℤ} (hk : 0 ≤ k) (hk' : k ≤ 364) (days : ℤ) :
    ∃ year, days < yearStart year + k ∧ yearStart year + k ≤ days + 366 := by
  obtain ⟨year, hyear⟩ := exists_year days
  obtain ⟨hshort, hlong⟩ := yearStart_succ year
  obtain ⟨h0, h365⟩ := marchDay_bounds days
  rcases lt_or_ge (marchDay days) k with hlt | hge
  · exact ⟨year, by omega, by omega⟩
  · have hnext : days < yearStart (year + 1) := by
      by_contra hpast
      -- only the first day of the next year could be that late, and it is another day of the year
      have hfirst : marchDay (yearStart (year + 1) + 0) = 0 := marchDay_yearStart le_rfl (by omega)
      rw [show yearStart (year + 1) + 0 = days by omega] at hfirst
      omega
    exact ⟨year + 1, by omega, by omega⟩

/-- **A date comes again within 366 days, but for 29 February.** -/
theorem exists_same_date {date : ℤ} (h : ¬IsLeapDay (civilDate date)) (days : ℤ) :
    ∃ next, days < next ∧ next ≤ days + 366 ∧
      (civilDate next).month = (civilDate date).month ∧
      (civilDate next).day = (civilDate date).day := by
  rw [isLeapDay_iff] at h
  obtain ⟨h0, h365⟩ := marchDay_bounds date
  obtain ⟨year, hlt, hle⟩ := exists_marchDay h0 (by omega) days
  exact ⟨_, hlt, hle, civilDate_congr (marchDay_yearStart h0 (by omega))⟩

theorem exists_month {month : ℤ} (h1 : 1 ≤ month) (h12 : month ≤ 12) (days : ℤ) :
    ∃ next, days < next ∧ next ≤ days + 366 ∧
      ∀ j, 0 ≤ j → j ≤ 6 → (civilDate (next + j)).month = month := by
  obtain ⟨m, hm⟩ : ∃ m, m = if 2 < month then month - 3 else month + 9 := ⟨_, rfl⟩
  obtain ⟨year, hlt, hle⟩ := exists_marchDay (k := (153 * m + 2) / 5) (by omega) (by omega) days
  refine ⟨_, hlt, hle, fun j hj hj' => ?_⟩
  have hmonth : ∀ d, (civilDate d).month =
      if (5 * marchDay d + 2) / 153 < 10 then (5 * marchDay d + 2) / 153 + 3
      else (5 * marchDay d + 2) / 153 - 9 := fun _ => rfl
  have hday : marchDay (yearStart year + (153 * m + 2) / 5 + j) = (153 * m + 2) / 5 + j := by
    rw [add_assoc, marchDay_yearStart (by omega) (by omega)]
  have hsame : (5 * ((153 * m + 2) / 5 + j) + 2) / 153 = m := by omega
  rw [hmonth, hday]
  split at hm <;> omega

/-- **Every weekday comes again in every month**, within 372 days. -/
theorem exists_weekday {month day : ℤ} (h1 : 1 ≤ month) (h12 : month ≤ 12) (hday : 0 ≤ day)
    (hday' : day ≤ 6) (days : ℤ) :
    ∃ next, days < next ∧ next ≤ days + 372 ∧ (civilDate next).month = month ∧
      weekday next = day := by
  obtain ⟨first, hlt, hle, hmonth⟩ := exists_month h1 h12 days
  refine ⟨first + (day - (first + 4)) % 7, by omega, by omega, hmonth _ (by omega) (by omega), ?_⟩
  unfold weekday
  omega

/-- **After 400 years the calendar repeats.** -/
theorem add_cycles (days n : ℤ) :
    (civilDate (days + n * 146097)).month = (civilDate days).month ∧
      (civilDate (days + n * 146097)).day = (civilDate days).day ∧
      weekday (days + n * 146097) = weekday days := by
  have hday : marchDay (days + n * 146097) = marchDay days := by
    unfold marchDay
    congr 1
    omega
  refine ⟨(civilDate_congr hday).1, (civilDate_congr hday).2, ?_⟩
  unfold weekday
  omega

end Foundation
