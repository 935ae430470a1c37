/-
  JavaScript's `parseInt`.

  It skips white space, a sign and, for radix 16 or none, a `0x`; then it reads
  the digits that follow and ignores the rest. `parseInt_digits`: on digits
  alone it reads their number, which is exact here.
-/
import Velocious.Foundation.Javascript
import Mathlib.Data.List.TakeWhile

namespace Foundation

open List

def digitValue (radix : ℕ) (c : Char) : Option ℕ :=
  let value :=
    if '0' ≤ c ∧ c ≤ '9' then some (c.toNat - '0'.toNat)
    else if 'a' ≤ c ∧ c ≤ 'z' then some (c.toNat - 'a'.toNat + 10)
    else if 'A' ≤ c ∧ c ≤ 'Z' then some (c.toNat - 'A'.toNat + 10)
    else none
  value.filter (· < radix)

def isDigit (radix : ℕ) (c : Char) : Bool := (digitValue radix c).isSome

def digitsValue (radix : ℕ) (s : List Char) : ℕ :=
  s.foldl (fun n c => n * radix + (digitValue radix c).getD 0) 0

/-- The radix that `parseInt` reads digits in, and where it reads them. -/
def parseRadix (radix : Option ℕ) : List Char → ℕ × List Char
  | '0' :: 'x' :: s => if radix.getD 16 = 16 then (16, s) else (radix.getD 10, '0' :: 'x' :: s)
  | '0' :: 'X' :: s => if radix.getD 16 = 16 then (16, s) else (radix.getD 10, '0' :: 'X' :: s)
  | s => (radix.getD 10, s)

def dropSign : List Char → List Char
  | '-' :: s => s
  | '+' :: s => s
  | s => s

/-- `parseInt(s, radix)`; `none` for `NaN`. -/
def parseInt (radix : Option ℕ) (s : String) : Option ℤ :=
  let s := s.toList.dropWhile isJsSpace
  let (r, digits) := parseRadix radix (dropSign s)
  let digits := digits.takeWhile (isDigit r)
  if digits = [] then none
  else if s.head? = some '-' then some (-(digitsValue r digits : ℤ))
  else some (digitsValue r digits : ℤ)

/-- From here on a number of `k + 54` bits is rounded up to one more bit. -/
def roundedUpFrom (k : ℕ) : ℕ := 2 ^ (k + 54) - 2 ^ k

/-- `2 ^ 1024 - 2 ^ 970`: an integer from here on is rounded to `Infinity`. -/
def infinityFrom : ℕ := roundedUpFrom 970

/-- `Number.isFinite`, of an integer that `parseInt` reads. -/
def isFiniteInteger (n : ℤ) : Bool := n.natAbs < infinityFrom

theorem lt_roundedUpFrom {n : ℕ} (h : n < 2 ^ 54 - 1) (k : ℕ) : n < roundedUpFrom k :=
  calc n < 1 * (2 ^ 54 - 1) := by rwa [one_mul]
    _ ≤ 2 ^ k * (2 ^ 54 - 1) := Nat.mul_le_mul_right _ Nat.one_le_two_pow
    _ = roundedUpFrom k := by rw [roundedUpFrom, Nat.mul_sub, ← pow_add, mul_one]

theorem isFiniteInteger_of_le {n : ℕ} (h : n ≤ 2 ^ 53) : isFiniteInteger n = true := by
  rw [isFiniteInteger, Int.natAbs_natCast, decide_eq_true_eq]
  exact lt_roundedUpFrom (h.trans_lt (by decide)) 970

theorem char_le_iff {c d : Char} : c ≤ d ↔ c.toNat ≤ d.toNat := Iff.rfl

theorem isDigit_range {r : ℕ} (hr : r ≤ 16) {c : Char} (hc : isDigit r c = true) :
    (48 ≤ c.toNat ∧ c.toNat ≤ 57) ∨ (97 ≤ c.toNat ∧ c.toNat ≤ 102) ∨
      (65 ≤ c.toNat ∧ c.toNat ≤ 70) := by
  have ha : ('a' : Char).toNat = 97 := rfl
  have hA : ('A' : Char).toNat = 65 := rfl
  unfold isDigit digitValue at hc
  simp only [char_le_iff] at hc
  split at hc
  · exact .inl ‹_›
  split at hc
  · have hlt : c.toNat - 97 + 10 < r := by simpa using hc
    omega
  split at hc
  · have hlt : c.toNat - 65 + 10 < r := by simpa using hc
    omega
  · cases hc

theorem isDigit_plain {r : ℕ} (hr : r ≤ 16) {c : Char} (hc : isDigit r c = true) :
    isJsSpace c = false ∧ c ≠ '-' ∧ c ≠ '+' ∧ c ≠ 'x' ∧ c ≠ 'X' := by
  have hrange := isDigit_range hr hc
  have hne : ∀ d : Char, c = d → c.toNat = d.toNat := fun _ h => congrArg Char.toNat h
  refine ⟨?_, fun h => ?_, fun h => ?_, fun h => ?_, fun h => ?_⟩
  · rw [isJsSpace, Bool.or_eq_false_iff]
    simp only [mem_cons, not_mem_nil, or_false, decide_eq_false_iff_not,
      Bool.and_eq_false_iff]
    omega
  · have := hne _ h
    simp at this
    omega
  · have := hne _ h
    simp at this
    omega
  · have := hne _ h
    simp at this
    omega
  · have := hne _ h
    simp at this
    omega

/-- **Digits are read as the number they spell.** -/
theorem parseInt_digits {radix : Option ℕ} (hr : radix.getD 10 ≤ 16) {s : String}
    (hne : s ≠ "") (hdigits : ∀ c ∈ s.toList, isDigit (radix.getD 10) c = true) :
    parseInt radix s = some (digitsValue (radix.getD 10) s.toList : ℤ) := by
  obtain ⟨c, cs, hs⟩ : ∃ c cs, s.toList = c :: cs := by
    cases h : s.toList with
    | nil => exact absurd (String.toList_eq_nil_iff.mp h) hne
    | cons c cs => exact ⟨c, cs, rfl⟩
  rw [hs] at hdigits
  obtain ⟨hspace, hminus, hplus, -, -⟩ := isDigit_plain hr (hdigits c mem_cons_self)
  have hdrop : (c :: cs).dropWhile isJsSpace = c :: cs := by
    rw [dropWhile_cons, hspace]
    rfl
  have hsign : dropSign (c :: cs) = c :: cs := by
    unfold dropSign
    split
    · exact absurd (List.cons.inj ‹_›).1 hminus
    · exact absurd (List.cons.inj ‹_›).1 hplus
    · rfl
  have hradix : parseRadix radix (c :: cs) = (radix.getD 10, c :: cs) := by
    unfold parseRadix
    split
    · rename_i rest h
      have hx := (isDigit_plain hr (hdigits 'x' (by simp [h]))).2.2.2.1
      exact absurd rfl hx
    · rename_i rest h
      have hx := (isDigit_plain hr (hdigits 'X' (by simp [h]))).2.2.2.2
      exact absurd rfl hx
    · rfl
  have htake : (c :: cs).takeWhile (isDigit (radix.getD 10)) = c :: cs :=
    takeWhile_eq_self_iff.mpr hdigits
  have hhead : (c :: cs).head? ≠ some '-' := fun h => hminus (Option.some.inj h)
  unfold parseInt
  rw [hs, hdrop]
  simp only [hsign, hradix, htake, if_neg (cons_ne_nil c cs), if_neg hhead]

end Foundation
