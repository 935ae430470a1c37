/-
  The operators of JavaScript on 32-bit integers: each reads the last 32 bits of its operands, and
  all but `>>>` give a signed integer.
-/
import Mathlib.Tactic

namespace Foundation.Bitwise

/-- The bits that `ToInt32` and `ToUint32` keep. -/
def bits (x : ℤ) : BitVec 32 := BitVec.ofInt 32 x

/-- `x & y` -/
def bitAnd (x y : ℤ) : ℤ := (bits x &&& bits y).toInt

/-- `x | y` -/
def bitOr (x y : ℤ) : ℤ := (bits x ||| bits y).toInt

/-- `x ^ y` -/
def bitXor (x y : ℤ) : ℤ := (bits x ^^^ bits y).toInt

/-- `~x` -/
def bitNot (x : ℤ) : ℤ := (~~~bits x).toInt

/-- `x << n` -/
def shiftLeft (x : ℤ) (n : ℕ) : ℤ := (bits x <<< (n % 32)).toInt

/-- `x >>> n` -/
def unsignedShiftRight (x : ℤ) (n : ℕ) : ℤ := (bits x >>> (n % 32)).toNat

@[simp] theorem bits_toInt (x : BitVec 32) : bits x.toInt = x := BitVec.ofInt_toInt

@[simp] theorem bits_toNat (x : BitVec 32) : bits x.toNat = x := by
  simp [bits]

theorem bits_natCast (n : ℕ) : bits n = BitVec.ofNat 32 n := BitVec.ofInt_natCast 32 n

@[simp] theorem bits_add (x y : ℤ) : bits (x + y) = bits x + bits y := BitVec.ofInt_add x y

@[simp] theorem bits_bitAnd (x y : ℤ) : bits (bitAnd x y) = bits x &&& bits y := bits_toInt _

@[simp] theorem bits_bitOr (x y : ℤ) : bits (bitOr x y) = bits x ||| bits y := bits_toInt _

@[simp] theorem bits_bitXor (x y : ℤ) : bits (bitXor x y) = bits x ^^^ bits y := bits_toInt _

@[simp] theorem bits_bitNot (x : ℤ) : bits (bitNot x) = ~~~bits x := bits_toInt _

@[simp] theorem bits_shiftLeft (x : ℤ) (n : ℕ) : bits (shiftLeft x n) = bits x <<< (n % 32) :=
  bits_toInt _

@[simp] theorem bits_unsignedShiftRight (x : ℤ) (n : ℕ) :
    bits (unsignedShiftRight x n) = bits x >>> (n % 32) := bits_toNat _

theorem bitOr_natCast {m n : ℕ} (hm : m < 2 ^ 31) (hn : n < 2 ^ 31) : bitOr m n = (m ||| n : ℕ) := by
  have hlt : m ||| n < 2 ^ 31 := Nat.or_lt_two_pow hm hn
  have hor : (bits m ||| bits n).toNat = m ||| n := by
    rw [bits_natCast, bits_natCast, BitVec.toNat_or, BitVec.toNat_ofNat, BitVec.toNat_ofNat,
      Nat.mod_eq_of_lt (by omega), Nat.mod_eq_of_lt (by omega)]
  rw [bitOr, BitVec.toInt_eq_toNat_of_lt (by omega), hor]

theorem unsignedShiftRight_natCast (m n : ℕ) :
    unsignedShiftRight m n = (m % 2 ^ 32 / 2 ^ (n % 32) : ℕ) := by
  rw [unsignedShiftRight, bits_natCast, BitVec.toNat_ushiftRight, BitVec.toNat_ofNat,
    Nat.shiftRight_eq_div_pow]

end Foundation.Bitwise
