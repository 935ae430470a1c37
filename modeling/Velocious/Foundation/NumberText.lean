/-
  `Number(text)` of a text without white space, where `Number.isInteger` holds of the result.

  * `numberInteger` is that integer: a decimal literal (with a sign, a fraction and an exponent)
    rounded to the nearest double, or a hexadecimal, octal or binary one.
  * Decimal digits are read as the number they spell: `numberInteger_digits`. From `2 ^ 53` on it
    may be rounded, and does not come below `2 ^ 53`: `numberInteger_large`.
-/
import Velocious.Foundation.Doubles
import Velocious.Foundation.ParseInt

namespace Foundation

open List

/-- `a / b` rounded to an integer, ties to even. -/
def nearest (a b : ℕ) : ℕ :=
  if b < 2 * (a % b) ∨ (2 * (a % b) = b ∧ a / b % 2 = 1) then a / b + 1 else a / b

/-- Up to `2 ^ -1075`, half of the least positive double, a number is rounded to zero. -/
def subnormalBits : ℕ := 1075

/-- The double nearest to `a / b`, where it is an integer. -/
def integerNearest (a b : ℕ) : Option ℕ :=
  if a < b then
    if a * 2 ^ subnormalBits ≤ b then some 0 else if (2 ^ 54 - 1) * b ≤ a * 2 ^ 54 then some 1 else none
  else if (a / b).log2 < 52 then
    -- such doubles have a fraction of `52 - log2` bits
    let unit := 2 ^ (52 - (a / b).log2)
    if nearest (a * unit) b % unit = 0 then some (nearest (a * unit) b / unit) else none
  else
    let unit := 2 ^ ((a / b).log2 - 52)
    let n := nearest a (b * unit) * unit
    if n.log2 < 1024 then some n else none

/-- The exponent part of a decimal literal. -/
def readExponent : List Char → Option ℤ
  | [] => some 0
  | c :: cs =>
    let digits := dropSign cs
    if (c = 'e' ∨ c = 'E') ∧ digits ≠ [] ∧ digits.all Char.isDigit then
      let n : ℤ := Nat.ofDigitChars 10 digits 0
      some (if cs.head? = some '-' then -n else n)
    else none

/-- A decimal literal without a sign. -/
def unsignedInteger (cs : List Char) : Option ℕ :=
  let whole := cs.takeWhile Char.isDigit
  let rest := cs.dropWhile Char.isDigit
  let (fraction, rest) := match rest with
    | '.' :: rest => (rest.takeWhile Char.isDigit, rest.dropWhile Char.isDigit)
    | _ => ([], rest)
  if whole ++ fraction = [] then none
  else (readExponent rest).bind fun e =>
    let exponent := e - fraction.length
    integerNearest (Nat.ofDigitChars 10 (whole ++ fraction) 0 * 10 ^ exponent.toNat)
      (10 ^ (-exponent).toNat)

/-- The digits of a hexadecimal, octal or binary literal. -/
def radixInteger (radix : ℕ) (digits : List Char) : Option ℤ :=
  if digits ≠ [] ∧ digits.all (isDigit radix) then
    (integerNearest (digitsValue radix digits) 1).map fun n : ℕ => (n : ℤ)
  else none

def decimalInteger (cs : List Char) : Option ℤ :=
  (unsignedInteger (dropSign cs)).map fun n : ℕ => if cs.head? = some '-' then -(n : ℤ) else n

/-- `Number(text)`, where `Number.isInteger` holds of it. -/
def numberInteger : List Char → Option ℤ
  | [] => some 0
  | '0' :: c :: cs =>
    if c = 'x' ∨ c = 'X' then radixInteger 16 cs
    else if c = 'o' ∨ c = 'O' then radixInteger 8 cs
    else if c = 'b' ∨ c = 'B' then radixInteger 2 cs
    else decimalInteger ('0' :: c :: cs)
  | cs => decimalInteger cs

/-! ## Decimal digits -/

theorem nearest_mul {b : ℕ} (hb : 0 < b) (n : ℕ) : nearest (n * b) b = n := by
  unfold nearest
  rw [Nat.mul_mod_left, Nat.mul_div_cancel n hb, if_neg (by omega)]

theorem le_nearest {a b n : ℕ} (hb : 0 < b) (h : n * b ≤ a) : n ≤ nearest a b := by
  have hdiv : n ≤ a / b := (Nat.le_div_iff_mul_le hb).mpr h
  unfold nearest
  split <;> omega

theorem integerNearest_small {n : ℕ} (h : n < 2 ^ 53) : integerNearest n 1 = some n := by
  unfold integerNearest
  split
  · obtain rfl : n = 0 := by omega
    simp
  · rw [Nat.div_one]
    split
    · have hunit : 0 < 2 ^ (52 - n.log2) := by positivity
      dsimp only
      rw [← Nat.mul_one (n * 2 ^ (52 - n.log2)), nearest_mul Nat.one_pos, Nat.mul_mod_left,
        if_pos rfl, Nat.mul_div_cancel n hunit]
    · have hlog : n.log2 = 52 := by
        have := (Nat.log2_lt (by omega)).mpr h
        omega
      have hone : nearest n 1 = n := by simpa using nearest_mul Nat.one_pos n
      simp [hlog, hone]

theorem integerNearest_large {n m : ℕ} (h : 2 ^ 53 ≤ n) (hm : integerNearest n 1 = some m) :
    2 ^ 53 ≤ m := by
  have hlog : 53 ≤ n.log2 := (Nat.le_log2 (by omega)).mpr h
  have hpow : 2 ^ 53 * 2 ^ (n.log2 - 53) ≤ n := by
    rw [← pow_add]
    exact (Nat.le_log2 (by omega)).mp (by omega)
  have hsplit : 2 ^ (n.log2 - 52) = 2 * 2 ^ (n.log2 - 53) := by
    rw [← pow_succ']
    congr 1
    omega
  have hge : 2 ^ 52 ≤ nearest n (2 ^ (n.log2 - 52)) := by
    apply le_nearest (by positivity)
    omega
  unfold integerNearest at hm
  rw [if_neg (by omega), Nat.div_one, if_neg (by omega)] at hm
  simp only [one_mul, Option.ite_none_right_eq_some, Option.some.injEq] at hm
  obtain ⟨-, rfl⟩ := hm
  have hunit : 0 < 2 ^ (n.log2 - 53) := by positivity
  nlinarith

theorem charDigit_ne {c d : Char} (hc : c.isDigit = true) (hd : d.isDigit = false) : c ≠ d := by
  rintro rfl
  simp [hc] at hd

variable {ds : List Char}

section
variable (hne : ds ≠ []) (hall : ds.all Char.isDigit = true)
include hne hall

theorem numberInteger_eq : numberInteger ds =
      (integerNearest (Nat.ofDigitChars 10 ds 0) 1).map fun n : ℕ => (n : ℤ) := by
  obtain ⟨c, cs, rfl⟩ := exists_cons_of_ne_nil hne
  have hdigit : ∀ d ∈ c :: cs, d.isDigit = true := all_eq_true.mp hall
  have hc := hdigit c mem_cons_self
  have hdecimal : decimalInteger (c :: cs) =
      (integerNearest (Nat.ofDigitChars 10 (c :: cs) 0) 1).map fun n : ℕ => (n : ℤ) := by
    have hminus : c ≠ '-' := charDigit_ne hc (by decide)
    have hsign : dropSign (c :: cs) = c :: cs := by
      unfold dropSign
      split <;> simp_all
    have htake : (c :: cs).takeWhile Char.isDigit = c :: cs :=
      takeWhile_eq_self_iff.mpr hdigit
    have hdrop : (c :: cs).dropWhile Char.isDigit = [] :=
      dropWhile_eq_nil_iff.mpr hdigit
    unfold decimalInteger unsignedInteger
    rw [hsign, htake, hdrop]
    simp [readExponent, hminus]
  unfold numberInteger
  split
  · contradiction
  · rename_i d ds heq
    obtain ⟨rfl, rfl⟩ := List.cons.inj heq
    have hd := hdigit d (by simp)
    have hletter : ∀ l : Char, l.isDigit = false → d ≠ l := fun l hl => charDigit_ne hd hl
    rw [if_neg (by simp [hletter 'x' (by decide), hletter 'X' (by decide)]),
      if_neg (by simp [hletter 'o' (by decide), hletter 'O' (by decide)]),
      if_neg (by simp [hletter 'b' (by decide), hletter 'B' (by decide)]), hdecimal]
  · exact hdecimal

/-- **Digits are read as the number they spell**, up to `2 ^ 53`. -/
theorem numberInteger_digits (hlt : Nat.ofDigitChars 10 ds 0 < 2 ^ 53) :
    numberInteger ds = some (Nat.ofDigitChars 10 ds 0 : ℤ) := by
  rw [numberInteger_eq hne hall, integerNearest_small hlt]
  rfl

theorem numberInteger_large (hge : 2 ^ 53 ≤ Nat.ofDigitChars 10 ds 0) {n : ℤ}
    (hn : numberInteger ds = some n) :
    2 ^ 53 ≤ n := by
  rw [numberInteger_eq hne hall, Option.map_eq_some_iff] at hn
  obtain ⟨m, hm, rfl⟩ := hn
  exact_mod_cast integerNearest_large hge hm

end

end Foundation
