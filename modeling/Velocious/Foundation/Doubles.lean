/-
  JavaScript numbers in the arithmetic of integers.

  * `ofInt` is the number nearest to an integer, ties to even, and `Number.isSafeInteger` is
    `isSafe`.
  * An integer is kept up to `2 ^ 53`: `ofInt_of_safe`. A number that is safe was rounded from
    itself: `isSafe_ofInt`.
-/
import Mathlib.Tactic

namespace Foundation

/-- A number that integers and their sums give: fractions do not occur. -/
inductive Double where
  | finite (n : ℤ)
  | infinity (negative : Bool)
  | nan
  deriving DecidableEq, Repr

namespace Double

/-- `Number.MAX_SAFE_INTEGER` -/
def maxSafe : ℤ := 2 ^ 53 - 1

/-- A natural number rounded to 53 significant bits, ties to even. -/
def roundNat (m : ℕ) : ℕ :=
  if m < 2 ^ 53 then m
  else
    let unit := 2 ^ (m.log2 - 52)
    if unit < 2 * (m % unit) ∨ (2 * (m % unit) = unit ∧ m / unit % 2 = 1) then
      (m / unit + 1) * unit
    else m / unit * unit

/-- The number nearest to an integer. -/
def ofInt (n : ℤ) : Double :=
  if 1024 ≤ (roundNat n.natAbs).log2 then infinity (n < 0)
  else finite (n.sign * roundNat n.natAbs)

/-- `Number.isSafeInteger` -/
def isSafe : Double → Bool
  | finite n => decide (|n| ≤ maxSafe)
  | infinity _ | nan => false

/-- `a + b` -/
def add : Double → Double → Double
  | finite a, finite b => ofInt (a + b)
  | nan, _ | _, nan => nan
  | infinity s, infinity t => if s = t then infinity s else nan
  | infinity s, finite _ | finite _, infinity s => infinity s

/-- `Math.max(a, b)` -/
def max : Double → Double → Double
  | finite a, finite b => finite (Max.max a b)
  | nan, _ | _, nan => nan
  | infinity false, _ | _, infinity false => infinity false
  | infinity true, x | x, infinity true => x

/-- `Math.min(a, b)` -/
def min : Double → Double → Double
  | finite a, finite b => finite (Min.min a b)
  | nan, _ | _, nan => nan
  | infinity true, _ | _, infinity true => infinity true
  | infinity false, x | x, infinity false => x

/-- An integer that is a number: it is rounded to itself. -/
def IsExact (n : ℤ) : Prop := ofInt n = finite n

theorem roundNat_of_lt {m : ℕ} (h : m < 2 ^ 53) : roundNat m = m := if_pos h

theorem le_roundNat {m : ℕ} (h : 2 ^ 53 ≤ m) : 2 ^ 53 ≤ roundNat m := by
  have hm : m ≠ 0 := by omega
  have hlog : 53 ≤ m.log2 := (Nat.le_log2 hm).mpr h
  have hpow : 2 ^ 52 * 2 ^ (m.log2 - 52) ≤ m := by
    rw [← pow_add]
    exact (Nat.le_log2 hm).mp (by omega)
  have hdiv : 2 ^ 52 ≤ m / 2 ^ (m.log2 - 52) := (Nat.le_div_iff_mul_le (by positivity)).mpr hpow
  have hunit : 2 ^ 1 ≤ 2 ^ (m.log2 - 52) := Nat.pow_le_pow_right (by omega) (by omega)
  have hfloor : 2 ^ 53 ≤ m / 2 ^ (m.log2 - 52) * 2 ^ (m.log2 - 52) :=
    calc 2 ^ 53 = 2 ^ 52 * 2 ^ 1 := by norm_num
      _ ≤ m / 2 ^ (m.log2 - 52) * 2 ^ (m.log2 - 52) := Nat.mul_le_mul hdiv hunit
  unfold roundNat
  rw [if_neg (by omega)]
  dsimp only
  split
  · exact hfloor.trans (Nat.mul_le_mul_right _ (Nat.le_succ _))
  · exact hfloor

theorem ofInt_of_safe {n : ℤ} (h : |n| ≤ maxSafe) : ofInt n = finite n := by
  have hlt : n.natAbs < 2 ^ 53 := by
    rw [maxSafe, Int.abs_eq_natAbs] at h
    omega
  have hsmall : ¬1024 ≤ n.natAbs.log2 := by
    rcases eq_or_ne n.natAbs 0 with hzero | hzero
    · simp [hzero]
    · exact fun hlarge => absurd ((Nat.log2_lt hzero).mpr hlt) (by omega)
  rw [ofInt, roundNat_of_lt hlt, if_neg hsmall]
  exact congrArg finite (Int.sign_mul_natAbs n)

theorem isSafe_ofInt {n : ℤ} : (ofInt n).isSafe = true ↔ |n| ≤ maxSafe := by
  constructor
  · intro h
    by_contra hn
    have hge : 2 ^ 53 ≤ n.natAbs := by
      rw [maxSafe, Int.abs_eq_natAbs] at hn
      omega
    have hround := le_roundNat hge
    have hsign : |n.sign| = 1 := by
      rcases lt_trichotomy n 0 with hneg | rfl | hpos
      · rw [Int.sign_eq_neg_one_of_neg hneg]
        rfl
      · simp at hge
      · rw [Int.sign_eq_one_of_pos hpos]
        rfl
    unfold ofInt at h
    split at h
    · cases h
    · have habs : |n.sign * (roundNat n.natAbs : ℤ)| ≤ maxSafe := of_decide_eq_true h
      rw [abs_mul, hsign, Nat.abs_cast] at habs
      unfold maxSafe at habs
      omega
  · intro h
    rw [ofInt_of_safe h]
    exact decide_eq_true h

end Double

end Foundation
