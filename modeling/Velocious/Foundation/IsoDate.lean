/-
  The ISO text of a time value: `toISOString`, and the format in which `Date.parse` reads it.
-/
import Velocious.Foundation.Javascript

namespace Foundation

open List

/-! ## The calendar -/

/-- A date of the Gregorian calendar. -/
structure CivilDate where
  year : ℤ
  month : ℤ
  day : ℤ

/-- The year of an era that a day of it lies in. -/
def yearOfEra (doe : ℤ) : ℤ := (doe - doe / 1460 + doe / 36524 - doe / 146096) / 365

def dayOfYear (doe : ℤ) : ℤ :=
  doe - (365 * yearOfEra doe + yearOfEra doe / 4 - yearOfEra doe / 100)

theorem yearOfEra_bounds {doe : ℤ} (h : 0 ≤ doe) (h' : doe < 146097) :
    0 ≤ yearOfEra doe ∧ yearOfEra doe < 400 := by
  unfold yearOfEra
  constructor <;> omega

theorem dayOfYear_bounds {doe : ℤ} (h : 0 ≤ doe) (h' : doe < 146097) :
    0 ≤ dayOfYear doe ∧ dayOfYear doe ≤ 365 := by
  have hlast : (0 ≤ doe / 36524 ∧ doe / 36524 ≤ 3 ∧ doe / 146096 = 0) ∨ doe = 146096 := by omega
  rcases hlast with hlast | rfl
  · have hyear : yearOfEra doe = (doe - doe / 1460 + doe / 36524 - doe / 146096) / 365 := rfl
    -- the quotient by 36524 is the century, and that by 1460 the leap cycle or the one after it
    have hcycle : doe / 1460 = yearOfEra doe / 4 ∨ doe / 1460 = yearOfEra doe / 4 + 1 := by omega
    unfold dayOfYear
    rcases hcycle with hc | hc <;> omega
  · decide

/-- The date of a day, counted from 1970-01-01: years begin in March, 400 of them are an era. -/
def civilDate (days : ℤ) : CivilDate :=
  let doe := (days + 719468) % 146097
  let mp := (5 * dayOfYear doe + 2) / 153
  let month := if mp < 10 then mp + 3 else mp - 9
  { year := yearOfEra doe + (days + 719468) / 146097 * 400 + if month ≤ 2 then 1 else 0
    month
    day := dayOfYear doe - (153 * mp + 2) / 5 + 1 }

def dayNumber (date : CivilDate) : ℤ :=
  let y := date.year - if date.month ≤ 2 then 1 else 0
  let mp := if 2 < date.month then date.month - 3 else date.month + 9
  y / 400 * 146097 + (y % 400 * 365 + y % 400 / 4 - y % 400 / 100 +
    ((153 * mp + 2) / 5 + date.day - 1)) - 719468

/-- **A day number is the one of its date.** -/
theorem dayNumber_civilDate (days : ℤ) : dayNumber (civilDate days) = days := by
  obtain ⟨doe, hdoe⟩ : ∃ doe, doe = (days + 719468) % 146097 := ⟨_, rfl⟩
  have hdoe0 : 0 ≤ doe ∧ doe < 146097 := by omega
  have hyear := yearOfEra_bounds hdoe0.1 hdoe0.2
  have hday := dayOfYear_bounds hdoe0.1 hdoe0.2
  obtain ⟨mp, hmp⟩ : ∃ mp, mp = (5 * dayOfYear doe + 2) / 153 := ⟨_, rfl⟩
  have hdef : dayOfYear doe =
      doe - (365 * yearOfEra doe + yearOfEra doe / 4 - yearOfEra doe / 100) := rfl
  simp only [dayNumber, civilDate, ← hdoe, ← hmp]
  have hmonth : (if 2 < (if mp < 10 then mp + 3 else mp - 9) then (if mp < 10 then mp + 3 else mp - 9) - 3
      else (if mp < 10 then mp + 3 else mp - 9) + 9) = mp := by
    split <;> omega
  have hyoe : (yearOfEra doe + (days + 719468) / 146097 * 400) % 400 = yearOfEra doe := by
    omega
  rw [hmonth, add_sub_cancel_right, hyoe]
  omega

theorem civilDate_bounds (days : ℤ) :
    (1 ≤ (civilDate days).month ∧ (civilDate days).month ≤ 12) ∧
      1 ≤ (civilDate days).day ∧ (civilDate days).day ≤ 31 := by
  have hday := @dayOfYear_bounds ((days + 719468) % 146097) (by omega) (by omega)
  simp only [civilDate]
  refine ⟨?_, ?_⟩
  · split <;> omega
  · constructor <;> omega

theorem civilDate_year {days : ℤ} (h : |days| ≤ 100000000) :
    -999999 ≤ (civilDate days).year ∧ (civilDate days).year ≤ 999999 := by
  have hyear := @yearOfEra_bounds ((days + 719468) % 146097) (by omega) (by omega)
  have hbounds := abs_le.mp h
  simp only [civilDate]
  constructor <;> omega

/-! ## Digits -/

/-- The last `width` decimal digits of a number. -/
def padDigits : ℕ → ℕ → List Char
  | 0, _ => []
  | width + 1, n => padDigits width (n / 10) ++ [(n % 10).digitChar]

/-- A number of `width` digits, and what follows it. -/
def readDigits (width : ℕ) (cs : List Char) : Option (ℕ × List Char) :=
  if (cs.take width).length = width ∧ (cs.take width).all Char.isDigit then
    some (Nat.ofDigitChars 10 (cs.take width) 0, cs.drop width)
  else none

/-- A number of `width` digits after a separator, and what follows it. -/
def readField (separator : Char) (width : ℕ) : List Char → Option (ℕ × List Char)
  | c :: cs => if c = separator then readDigits width cs else none
  | [] => none

theorem isDigit_digitChar : ∀ n < 10, (n.digitChar).isDigit = true := by
  decide

theorem length_padDigits (width n : ℕ) : (padDigits width n).length = width := by
  induction width generalizing n with
  | zero => rfl
  | succ width ih => simp [padDigits, ih]

theorem all_padDigits (width n : ℕ) : (padDigits width n).all Char.isDigit = true := by
  induction width generalizing n with
  | zero => rfl
  | succ width ih =>
    rw [padDigits, all_append, ih]
    simp [isDigit_digitChar (n % 10) (Nat.mod_lt n (by decide))]

theorem ofDigitChars_padDigits {width n : ℕ} (h : n < 10 ^ width) :
    Nat.ofDigitChars 10 (padDigits width n) 0 = n := by
  induction width generalizing n with
  | zero =>
    obtain rfl : n = 0 := by simpa using h
    rfl
  | succ width ih =>
    have hdiv : n / 10 < 10 ^ width := by
      omega
    rw [padDigits, Nat.ofDigitChars_append, ih hdiv,
      Nat.ofDigitChars_cons_digitChar_of_lt_ten (Nat.mod_lt n (by decide)), Nat.ofDigitChars_nil]
    omega

theorem readDigits_pad {width n : ℕ} (h : n < 10 ^ width) (rest : List Char) :
    readDigits width (padDigits width n ++ rest) = some (n, rest) := by
  have htake : (padDigits width n ++ rest).take width = padDigits width n :=
    take_left' (length_padDigits width n)
  have hdrop : (padDigits width n ++ rest).drop width = rest :=
    drop_left' (length_padDigits width n)
  rw [readDigits, htake, hdrop, if_pos ⟨length_padDigits width n, all_padDigits width n⟩,
    ofDigitChars_padDigits h]

theorem readField_pad {width n : ℕ} (c : Char) (h : n < 10 ^ width) (rest : List Char) :
    readField c width (c :: (padDigits width n ++ rest)) = some (n, rest) :=
  (if_pos rfl).trans (readDigits_pad h rest)

/-! ## The text -/

/-- The largest distance of a time value from 1970. -/
def maxTime : ℤ := 8640000000000000

/-- A time value, in milliseconds. -/
structure TimeValue where
  ms : ℤ
  bound : |ms| ≤ maxTime
  deriving DecidableEq

/-- A year of the ISO text: four digits, or a sign and six of them. -/
def yearText (year : ℤ) : List Char :=
  if 0 ≤ year ∧ year ≤ 9999 then padDigits 4 year.toNat
  else (if year < 0 then '-' else '+') :: padDigits 6 year.natAbs

def isoText (t : TimeValue) : List Char :=
  let date := civilDate (t.ms / 86400000)
  let ms := (t.ms % 86400000).toNat
  yearText date.year ++ '-' :: (padDigits 2 date.month.toNat ++ '-' ::
    (padDigits 2 date.day.toNat ++ 'T' :: (padDigits 2 (ms / 3600000) ++ ':' ::
      (padDigits 2 (ms / 60000 % 60) ++ ':' :: (padDigits 2 (ms / 1000 % 60) ++ '.' ::
        (padDigits 3 (ms % 1000) ++ ['Z']))))))

def readYear : List Char → Option (ℤ × List Char)
  | '-' :: cs => do
    let (year, cs) ← readDigits 6 cs
    if year = 0 then none else some (-year, cs)
  | '+' :: cs => (readDigits 6 cs).map fun (year, cs) => (year, cs)
  | cs => (readDigits 4 cs).map fun (year, cs) => (year, cs)

def timeOf (year : ℤ) (month day hour minute second milli : ℕ) : Option TimeValue :=
  let ms := dayNumber ⟨year, month, day⟩ * 86400000 +
    (hour * 3600000 + minute * 60000 + second * 1000 + milli : ℕ)
  if 1 ≤ month ∧ month ≤ 12 ∧ 1 ≤ day ∧ day ≤ 31 ∧ minute < 60 ∧ second < 60 ∧
      (hour < 24 ∨ hour = 24 ∧ minute = 0 ∧ second = 0 ∧ milli = 0) then
    if h : |ms| ≤ maxTime then some ⟨ms, h⟩ else none
  else none

def parseIso (cs : List Char) : Option TimeValue := do
  let (year, cs) ← readYear cs
  let (month, cs) ← readField '-' 2 cs
  let (day, cs) ← readField '-' 2 cs
  let (hour, cs) ← readField 'T' 2 cs
  let (minute, cs) ← readField ':' 2 cs
  let (second, cs) ← readField ':' 2 cs
  let (milli, cs) ← readField '.' 3 cs
  if cs = ['Z'] then timeOf year month day hour minute second milli else none

theorem readYear_digit {c : Char} {cs : List Char} (hc : c.isDigit = true) :
    readYear (c :: cs) = (readDigits 4 (c :: cs)).map fun (year, cs) => ((year : ℤ), cs) := by
  unfold readYear
  split
  · rename_i heq
    obtain ⟨rfl, -⟩ := List.cons.inj heq
    exact absurd hc (by decide)
  · rename_i heq
    obtain ⟨rfl, -⟩ := List.cons.inj heq
    exact absurd hc (by decide)
  · rfl

theorem readYear_yearText {year : ℤ} (h : -999999 ≤ year ∧ year ≤ 999999) (cs : List Char) :
    readYear (yearText year ++ cs) = some (year, cs) := by
  unfold yearText
  split
  · have hpad := @readDigits_pad 4 year.toNat (by omega) cs
    obtain ⟨c, digits, hcons⟩ : ∃ c digits, padDigits 4 year.toNat = c :: digits :=
      exists_cons_of_length_eq_add_one (length_padDigits 4 year.toNat)
    have hc : c.isDigit = true :=
      all_eq_true.mp (all_padDigits 4 year.toNat) c (hcons ▸ mem_cons_self)
    rw [hcons] at hpad ⊢
    rw [cons_append, readYear_digit hc, ← cons_append, hpad]
    have hyear : (year.toNat : ℤ) = year := by omega
    simp [hyear]
  · have hpad := @readDigits_pad 6 year.natAbs (by omega) cs
    by_cases hneg : year < 0
    · have hyear : (year.natAbs : ℤ) = -year := by omega
      have hne : year.natAbs ≠ 0 := by omega
      simp [readYear, hneg, hpad, hyear, hne]
    · have hyear : (year.natAbs : ℤ) = year := by omega
      simp [readYear, hneg, hpad, hyear]

theorem timeOf_civilDate (t : TimeValue) {ms : ℕ} (hms : ms = (t.ms % 86400000).toNat) :
    timeOf (civilDate (t.ms / 86400000)).year (civilDate (t.ms / 86400000)).month.toNat
      (civilDate (t.ms / 86400000)).day.toNat (ms / 3600000) (ms / 60000 % 60) (ms / 1000 % 60)
      (ms % 1000) = some t := by
  obtain ⟨hmonth, hday⟩ := civilDate_bounds (t.ms / 86400000)
  have hnumber := dayNumber_civilDate (t.ms / 86400000)
  generalize civilDate (t.ms / 86400000) = date at hmonth hday hnumber ⊢
  obtain ⟨year, month, day⟩ := date
  dsimp only at hmonth hday ⊢
  have hmonthNat : (month.toNat : ℤ) = month := by omega
  have hdayNat : (day.toNat : ℤ) = day := by omega
  have htime : t.ms / 86400000 * 86400000 + ((ms / 3600000 * 3600000 + ms / 60000 % 60 * 60000 +
      ms / 1000 % 60 * 1000 + ms % 1000 : ℕ) : ℤ) = t.ms := by omega
  have hvalid : 1 ≤ month.toNat ∧ month.toNat ≤ 12 ∧ 1 ≤ day.toNat ∧ day.toNat ≤ 31 ∧
      ms / 60000 % 60 < 60 ∧ ms / 1000 % 60 < 60 ∧ (ms / 3600000 < 24 ∨ ms / 3600000 = 24 ∧
        ms / 60000 % 60 = 0 ∧ ms / 1000 % 60 = 0 ∧ ms % 1000 = 0) := by omega
  rw [timeOf, hmonthNat, hdayNat, hnumber, htime, if_pos hvalid, dif_pos t.bound]

/-- **A time value is read back from its ISO text.** -/
theorem parseIso_isoText (t : TimeValue) : parseIso (isoText t) = some t := by
  have hdays : |t.ms / 86400000| ≤ 100000000 := by
    have hbound := abs_le.mp t.bound
    rw [maxTime] at hbound
    exact abs_le.mpr (by omega)
  obtain ⟨hmonth, hday⟩ := civilDate_bounds (t.ms / 86400000)
  refine Option.bind_eq_some_iff.mpr ⟨_, readYear_yearText (civilDate_year hdays) _, ?_⟩
  refine Option.bind_eq_some_iff.mpr ⟨_, readField_pad '-' (by omega) _, ?_⟩
  refine Option.bind_eq_some_iff.mpr ⟨_, readField_pad '-' (by omega) _, ?_⟩
  refine Option.bind_eq_some_iff.mpr ⟨_, readField_pad 'T' (by omega) _, ?_⟩
  refine Option.bind_eq_some_iff.mpr ⟨_, readField_pad ':' (by omega) _, ?_⟩
  refine Option.bind_eq_some_iff.mpr ⟨_, readField_pad ':' (by omega) _, ?_⟩
  refine Option.bind_eq_some_iff.mpr ⟨_, readField_pad '.' (by omega) _, ?_⟩
  exact (if_pos rfl).trans (timeOf_civilDate t rfl)

end Foundation
