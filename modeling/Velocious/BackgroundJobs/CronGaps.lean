/-
  Whether `nextCronFireDate` finds the next match, at a constant offset from UTC.

  * `FindsLeast`: the least matching minute after the date asked for is returned if there is one, and
    the search gives up only if there is none.
  * Between two matching days lie at most 372 days, unless all of them are 29 February
    (`exists_dayMatches`).
-/
import Velocious.BackgroundJobs.CronSchedule
import Velocious.Foundation.Calendar
import Mathlib.Order.Bounds.Basic

namespace Velocious.CronSchedule

open Foundation Velocious.CronExpression

/-! ## Days that match -/

section
variable (parsed : ParsedCron)

def DayRule (date day : ℤ) : Prop :=
  if parsed.dayOfMonthRestricted && parsed.dayOfWeekRestricted then
    date ∈ parsed.dayOfMonth ∨ day ∈ parsed.dayOfWeek
  else if parsed.dayOfMonthRestricted then date ∈ parsed.dayOfMonth
  else if parsed.dayOfWeekRestricted then day ∈ parsed.dayOfWeek
  else True

def DayMatches (days : ℤ) : Prop :=
  (civilDate days).month ∈ parsed.month ∧ DayRule parsed (civilDate days).day (weekday days)

variable {parsed}

theorem candidateMatches_iff {l : ℤ} : candidateMatches parsed l = true ↔
    getMinutes l ∈ parsed.minute ∧ getHours l ∈ parsed.hour ∧ DayMatches parsed (l / 86400000) := by
  have hmonth : getMonth l + 1 = (civilDate (l / 86400000)).month := sub_add_cancel _ _
  have hdate : getDate l = (civilDate (l / 86400000)).day := rfl
  have hday : getDay l = weekday (l / 86400000) := rfl
  unfold candidateMatches DayMatches DayRule
  split_ifs <;> simp_all

theorem DayRule.or {date day : ℤ} (h : DayRule parsed date day) :
    (∀ day', DayRule parsed date day') ∨ ∀ date', DayRule parsed date' day := by
  unfold DayRule at *
  split_ifs at h ⊢
  · rcases h with h | h
    · exact .inl fun _ => .inl h
    · exact .inr fun _ => .inr h
  · exact .inl fun _ => h
  · exact .inr fun _ => h
  · exact .inl fun _ => trivial

/-- **Between two matching days lie at most 372**, unless one matches on 29 February alone. -/
theorem exists_dayMatches {days : ℤ} (h : DayMatches parsed days)
    (hleap : ¬IsLeapDay (civilDate days)) (from_ : ℤ) :
    ∃ next, from_ < next ∧ next ≤ from_ + 372 ∧ DayMatches parsed next := by
  obtain ⟨hmonth, hrule⟩ := h
  rcases hrule.or with hdate | hday
  · obtain ⟨next, hlt, hle, hsame, hsame'⟩ := exists_same_date hleap from_
    exact ⟨next, hlt, by omega, hsame ▸ hmonth, hsame' ▸ hdate _⟩
  · obtain ⟨⟨h1, h12⟩, -⟩ := civilDate_bounds days
    obtain ⟨next, hlt, hle, hsame, hsame'⟩ := exists_weekday h1 h12
      (show 0 ≤ weekday days by unfold weekday; omega)
      (show weekday days ≤ 6 by unfold weekday; omega) from_
    exact ⟨next, hlt, hle, hsame ▸ hmonth, hsame' ▸ hday _⟩

theorem exists_dayMatches_later {days : ℤ} (h : DayMatches parsed days) (from_ : ℤ) :
    ∃ next, from_ < next ∧ DayMatches parsed next := by
  obtain ⟨hmonth, hday, hweekday⟩ := add_cycles days ((from_ - days) / 146097 + 1)
  refine ⟨days + ((from_ - days) / 146097 + 1) * 146097, by omega, ?_⟩
  unfold DayMatches
  rwa [hmonth, hday, hweekday]

theorem candidateMatches_on {l days : ℤ} (h : candidateMatches parsed l = true)
    (hdays : DayMatches parsed days) :
    candidateMatches parsed (days * 86400000 + l % 86400000 / 60000 * 60000) = true := by
  obtain ⟨hminute, hhour, -⟩ := candidateMatches_iff.mp h
  refine candidateMatches_iff.mpr ⟨?_, ?_, ?_⟩
  · have : getMinutes (days * 86400000 + l % 86400000 / 60000 * 60000) = getMinutes l := by
      unfold getMinutes
      omega
    rwa [this]
  · have : getHours (days * 86400000 + l % 86400000 / 60000 * 60000) = getHours l := by
      unfold getHours
      omega
    rwa [this]
  · have : (days * 86400000 + l % 86400000 / 60000 * 60000) / 86400000 = days := by omega
    rwa [this]

end

/-! ## The search at a constant offset -/

section
variable (offset : ℤ) (parsed : ParsedCron) (start : TimeValue)

def minuteStart : ℤ := (start.ms + offset) / 60000 * 60000 - offset

/-- The minutes after the date asked for that match. -/
def matching : Set ℤ :=
  {t | start.ms < t ∧ (t + offset) % 60000 = 0 ∧ candidateMatches parsed (t + offset) = true}

/-- The `n`th candidate, where it is a date. -/
def nthMinute (n : ℕ) : ℤ := minuteStart offset start + n * 60000

theorem minuteStart_le : minuteStart offset start ≤ start.ms ∧
    start.ms < minuteStart offset start + 60000 := by
  unfold minuteStart
  omega

variable {offset parsed start}

theorem mem_matching {t : ℤ} : t ∈ matching offset parsed start ↔
    ∃ n : ℕ, n ≠ 0 ∧ t = nthMinute offset start n ∧
      candidateMatches parsed (t + offset) = true := by
  obtain ⟨hle, hlt⟩ := minuteStart_le offset start
  constructor
  · rintro ⟨hlater, hwhole, hmatch⟩
    refine ⟨((t - minuteStart offset start) / 60000).toNat, ?_, ?_, hmatch⟩
    · unfold minuteStart at *
      omega
    · unfold nthMinute minuteStart at *
      omega
  · rintro ⟨n, hn, rfl, hmatch⟩
    refine ⟨?_, ?_, hmatch⟩
    · unfold nthMinute
      omega
    · unfold nthMinute minuteStart
      omega

theorem fixed_utc (l : ℤ) : (Zone.fixed offset).utc l = l - offset := rfl

theorem fixed_localTime (t : ℤ) : (Zone.fixed offset).localTime t = t + offset := rfl

/-- **The candidates are the minutes, as long as these are dates.** -/
theorem candidates_fixed {n : ℕ} {t : ℤ} :
    candidates (.fixed offset) start.ms n = some t ↔
      t = nthMinute offset start n ∧ -maxTime ≤ minuteStart offset start ∧
        nthMinute offset start n ≤ maxTime := by
  have hclip : timeClip start.ms = some start.ms := if_pos start.bound
  have hzero : nthMinute offset start 0 = minuteStart offset start := by simp [nthMinute]
  induction n generalizing t with
  | zero =>
    have hset : candidates (.fixed offset) start.ms 0 = timeClip (minuteStart offset start) := by
      simp [candidates, hclip, setSeconds, fixed_utc, fixed_localTime, minuteStart]
    rw [hset, timeClip_eq_some, abs_le]
    omega
  | succ n ih =>
    have hnext : nthMinute offset start (n + 1) = nthMinute offset start n + 60000 := by
      unfold nthMinute
      push_cast
      ring
    have hstart : minuteStart offset start ≤ nthMinute offset start n := by
      unfold nthMinute
      omega
    rw [candidates_succ_iff]
    simp only [ih, fixed_utc, fixed_localTime, msMinute, abs_le]
    constructor
    · rintro ⟨s, ⟨rfl, hlow, -⟩, rfl, -, hhigh⟩
      exact ⟨by omega, hlow, by omega⟩
    · rintro ⟨rfl, hlow, hhigh⟩
      exact ⟨_, ⟨rfl, hlow, by omega⟩, by omega, by omega, hhigh⟩

variable (offset parsed start)

/-- The next match is found. -/
structure FindsLeast : Prop where
  least : (matching offset parsed start).Nonempty →
    ∃ r, IsLeast (matching offset parsed start) r ∧
      nextCronFireDate (.fixed offset) parsed start.ms = .ok r
  never : ∀ message, nextCronFireDate (.fixed offset) parsed start.ms = .error message →
    matching offset parsed start = ∅

def LeapDaysOnly : Prop :=
  ∀ l, candidateMatches parsed l = true → IsLeapDay (civilDate (l / 86400000))

/-- There is a match, and the search does not come to it. -/
def Misses : Prop :=
  (∃ l, candidateMatches parsed l = true) ∧
    ( -- the minute of the date asked for is no date
      minuteStart offset start < -maxTime ∨
      -- no match is a date
      (∀ t ∈ matching offset parsed start, maxTime < t) ∨
      -- only leap days match, and none of those that are searched
      LeapDaysOnly parsed ∧ ∀ t ∈ matching offset parsed start,
        minuteStart offset start + 5 * 366 * 86400000 < t)

variable {offset parsed start}

theorem exists_matching_soon (h : ¬LeapDaysOnly parsed) :
    ∃ t ∈ matching offset parsed start, t ≤ minuteStart offset start + 5 * 366 * 86400000 := by
  unfold LeapDaysOnly at h
  push Not at h
  obtain ⟨l, hmatch, hleap⟩ := h
  obtain ⟨next, hnext, hnext', hday⟩ := exists_dayMatches (candidateMatches_iff.mp hmatch).2.2 hleap
    ((minuteStart offset start + offset) / 86400000)
  refine ⟨next * 86400000 + l % 86400000 / 60000 * 60000 - offset, ⟨?_, ?_, ?_⟩, ?_⟩
  · unfold minuteStart at *
    omega
  · omega
  · rw [sub_add_cancel]
    exact candidateMatches_on hmatch hday
  · omega

/-- **Where there is a match, there is one after every date.** -/
theorem matching_nonempty (h : ∃ l, candidateMatches parsed l = true) :
    (matching offset parsed start).Nonempty := by
  obtain ⟨l, hmatch⟩ := h
  obtain ⟨next, hnext, hday⟩ := exists_dayMatches_later (candidateMatches_iff.mp hmatch).2.2
    ((minuteStart offset start + offset) / 86400000)
  refine ⟨next * 86400000 + l % 86400000 / 60000 * 60000 - offset, ?_, ?_, ?_⟩
  · unfold minuteStart at *
    omega
  · omega
  · rw [sub_add_cancel]
    exact candidateMatches_on hmatch hday

theorem isLeast_of_ok {r : ℤ} (h : nextCronFireDate (.fixed offset) parsed start.ms = .ok r) :
    IsLeast (matching offset parsed start) r ∧ -maxTime ≤ minuteStart offset start ∧ r ≤ maxTime ∧
      r ≤ minuteStart offset start + 5 * 366 * 86400000 := by
  obtain ⟨n, hn, hcap, hr, hmatch, hbefore⟩ := nextCronFireDate_ok.mp h
  obtain ⟨rfl, hlow, hhigh⟩ := candidates_fixed.mp hr
  refine ⟨⟨mem_matching.mpr ⟨n, hn, rfl, hmatch⟩, fun t ht => ?_⟩, hlow, hhigh, ?_⟩
  · obtain ⟨m, hm, rfl, hmatch'⟩ := mem_matching.mp ht
    by_contra hlt
    have hmn : m < n := by
      unfold nthMinute at hlt
      omega
    refine hbefore m hm hmn ⟨_, candidates_fixed.mpr ⟨rfl, hlow, by omega⟩, hmatch'⟩
  · unfold MAX_NEXT_FIRE_ITERATIONS at hcap
    unfold nthMinute
    omega

/-- **A match that is a date and among the minutes that are searched leads to an answer.** -/
theorem exists_ok {t : ℤ} (ht : t ∈ matching offset parsed start)
    (hlow : -maxTime ≤ minuteStart offset start) (hhigh : t ≤ maxTime)
    (hcap : t ≤ minuteStart offset start + 5 * 366 * 86400000) :
    ∃ r, nextCronFireDate (.fixed offset) parsed start.ms = .ok r := by
  obtain ⟨n, hn, rfl, hmatch⟩ := mem_matching.mp ht
  refine exists_ok_of_hit hn ?_ ⟨_, candidates_fixed.mpr ⟨rfl, hlow, hhigh⟩, hmatch⟩
  unfold MAX_NEXT_FIRE_ITERATIONS
  unfold nthMinute at hcap
  omega

theorem Misses.not_findsLeast (h : Misses offset parsed start) :
    ¬FindsLeast offset parsed start := by
  intro hfinds
  obtain ⟨hmatch, hwhere⟩ := h
  obtain ⟨r, -, hr⟩ := hfinds.least (matching_nonempty hmatch)
  obtain ⟨hleast, hlow, hhigh, hcap⟩ := isLeast_of_ok hr
  rcases hwhere with hbefore | hafter | ⟨-, hlate⟩
  · omega
  · have := hafter r hleast.1
    omega
  · have := hlate r hleast.1
    omega

variable (offset parsed start)

/-- **Where the search finds the next match.** -/
theorem findsLeast_iff : FindsLeast offset parsed start ↔ ¬Misses offset parsed start := by
  constructor
  · exact fun h hmisses => hmisses.not_findsLeast h
  · intro h
    have hanswer : (matching offset parsed start).Nonempty →
        ∃ r, nextCronFireDate (.fixed offset) parsed start.ms = .ok r := by
      rintro ⟨t, ht⟩
      have hmatch : ∃ l, candidateMatches parsed l = true := ⟨_, ht.2.2⟩
      have hlow : -maxTime ≤ minuteStart offset start := by
        by_contra hbefore
        exact h ⟨hmatch, .inl (by omega)⟩
      obtain ⟨u, hu, hdate⟩ : ∃ u ∈ matching offset parsed start, u ≤ maxTime := by
        by_contra hnone
        push Not at hnone
        exact h ⟨hmatch, .inr (.inl hnone)⟩
      obtain ⟨w, hw, hsoon⟩ : ∃ w ∈ matching offset parsed start,
          w ≤ minuteStart offset start + 5 * 366 * 86400000 := by
        by_cases hleap : LeapDaysOnly parsed
        · by_contra hnone
          push Not at hnone
          exact h ⟨hmatch, .inr (.inr ⟨hleap, hnone⟩)⟩
        · exact exists_matching_soon hleap
      -- the earlier of the two is a date and is searched
      rcases le_total u w with huw | hwu
      · exact exists_ok hu hlow hdate (huw.trans hsoon)
      · exact exists_ok hw hlow (hwu.trans hdate) hsoon
    constructor
    · intro hne
      obtain ⟨r, hr⟩ := hanswer hne
      exact ⟨r, (isLeast_of_ok hr).1, hr⟩
    · intro message hmessage
      by_contra hne
      obtain ⟨r, hr⟩ := hanswer (Set.nonempty_iff_ne_empty.mpr hne)
      rw [hmessage] at hr
      cases hr

theorem no_leapDay_before_2101 : ∀ n < 1832, marchDay (46081 + (n : ℕ)) ≠ 365 := by
  decide +kernel

/-- From 2096-03-01 on the next 29 February is later than the search looks. -/
theorem century_missed : ∃ parsed, parseCronExpression String.toLower "0 0 29 2 *" = .ok parsed ∧
    ¬FindsLeast 0 parsed ⟨3981398400000, by decide⟩ := by
  obtain ⟨parsed, hparsed, htest⟩ := exists_parsed String.toLower "0 0 29 2 *"
    (fun parsed => decide (parsed.month = {2} ∧ parsed.dayOfMonth = {29} ∧
      parsed.dayOfMonthRestricted = true ∧ parsed.dayOfWeekRestricted = false) &&
      candidateMatches parsed 4233686400000) (by decide +kernel)
  rw [Bool.and_eq_true, decide_eq_true_iff] at htest
  obtain ⟨⟨hmonth, hdate, hrestricted, hrestricted'⟩, hmatch⟩ := htest
  have hleap : LeapDaysOnly parsed := by
    intro l hl
    obtain ⟨-, -, hmonth', hrule⟩ := candidateMatches_iff.mp hl
    rw [hmonth, Finset.mem_singleton] at hmonth'
    simp only [DayRule, hrestricted, hrestricted', hdate, Finset.mem_singleton] at hrule
    exact ⟨hmonth', hrule⟩
  refine ⟨parsed, hparsed, Misses.not_findsLeast ⟨⟨_, hmatch⟩, .inr (.inr ⟨hleap, fun t ht => ?_⟩)⟩⟩
  by_contra hsoon
  have hday := (isLeapDay_iff _).mp (hleap _ ht.2.2)
  have hlater := ht.1
  unfold minuteStart at hsoon
  dsimp only at hsoon hlater
  refine no_leapDay_before_2101 ((t + 0) / 86400000 - 46081).toNat (by omega) ?_
  rwa [show (46081 : ℤ) + (((t + 0) / 86400000 - 46081).toNat : ℕ) = (t + 0) / 86400000 by omega]

end

end Velocious.CronSchedule
