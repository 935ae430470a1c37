/-
  SHA-256 as FIPS 180-4 defines it, over messages of bits.

  * `pad`: the message, a one, the fewest zeros that leave 64 bits of a block, and the length of
    the message.
  * `schedule`, `round`, `compress`: the message schedule, the working variables, and the
    intermediate hash values; `digest` is the last of them and `hexDigest` its text.
  * `constants_cubeRoots`, `initial_squareRoots`: the tables are the first 32 bits of the fractional
    parts of the roots of primes.
-/
import Velocious.Foundation.Loops

namespace Foundation.Sha256

open List

abbrev Word := BitVec 32

/-! ## Bits -/

/-- The last `width` bits of a number, the most significant one first. -/
def bitsOf : ℕ → ℕ → List Bool
  | 0, _ => []
  | width + 1, n => bitsOf width (n / 2) ++ [decide (n % 2 = 1)]

def valueOf (bits : List Bool) : ℕ := bits.foldl (fun n b => 2 * n + b.toNat) 0

/-- The whole pieces of `size` elements. -/
def pieces {α : Type*} (size : ℕ) (l : List α) : List (List α) :=
  (List.range (l.length / size)).map fun i => (l.drop (size * i)).take size

@[simp] theorem length_bitsOf (width n : ℕ) : (bitsOf width n).length = width := by
  induction width generalizing n with
  | zero => rfl
  | succ width ih => simp [bitsOf, ih]

theorem bitsOf_add (width width' n : ℕ) :
    bitsOf (width + width') n = bitsOf width (n / 2 ^ width') ++ bitsOf width' n := by
  induction width' generalizing n with
  | zero => simp [bitsOf]
  | succ width' ih =>
    rw [← add_assoc, bitsOf, ih, bitsOf, Nat.div_div_eq_div_mul, ← pow_succ', append_assoc]

theorem bitsOf_mod (width n : ℕ) : bitsOf width (n % 2 ^ width) = bitsOf width n := by
  induction width generalizing n with
  | zero => rfl
  | succ width ih =>
    have hhalf : n % 2 ^ (width + 1) / 2 = n / 2 % 2 ^ width := by
      rw [pow_succ', Nat.mod_mul_right_div_self]
    have hlast : n % 2 ^ (width + 1) % 2 = n % 2 := Nat.mod_mod_of_dvd n (Dvd.intro_left _ rfl)
    rw [bitsOf, hhalf, hlast, ih, bitsOf]

theorem foldl_bits (bits : List Bool) (n : ℕ) :
    bits.foldl (fun n b => 2 * n + b.toNat) n = n * 2 ^ bits.length + valueOf bits := by
  induction bits using List.reverseRecOn with
  | nil => simp [valueOf]
  | append_singleton bits b ih =>
    simp only [valueOf, foldl_append, foldl_cons, foldl_nil, length_append,
      length_singleton] at ih ⊢
    rw [ih]
    ring

theorem valueOf_append (bits bits' : List Bool) :
    valueOf (bits ++ bits') = valueOf bits * 2 ^ bits'.length + valueOf bits' := by
  rw [valueOf, foldl_append, foldl_bits]
  rfl

theorem valueOf_bitsOf (width n : ℕ) : valueOf (bitsOf width n) = n % 2 ^ width := by
  induction width generalizing n with
  | zero => simp [bitsOf, valueOf, Nat.mod_one]
  | succ width ih =>
    have hbit : valueOf [decide (n % 2 = 1)] = n % 2 := by
      rcases Nat.mod_two_eq_zero_or_one n with h | h <;> simp [h, valueOf]
    have hsplit : n % 2 ^ (width + 1) = 2 * (n / 2 % 2 ^ width) + n % 2 := by
      rw [pow_succ', Nat.mod_mul]
      omega
    rw [bitsOf, valueOf_append, ih, length_singleton]
    omega

theorem pieces_flatMap {α β : Type*} {code : α → List β} {width : ℕ} (hpos : 0 < width)
    (hcode : ∀ a, (code a).length = width) (size : ℕ) (l : List α) :
    pieces (width * size) (l.flatMap code) = (pieces size l).map (List.flatMap code) := by
  unfold pieces
  rw [length_flatMap_code hcode, Nat.mul_div_mul_left _ _ hpos, map_map]
  refine map_congr_left fun i _ => ?_
  rw [mul_assoc, drop_flatMap_code hcode, take_flatMap_code hcode]
  rfl

/-- The number of zeros between the one and the length. -/
def zeros (length : ℕ) : ℕ := (959 - length % 512) % 512

/-- The message up to a multiple of 512 bits. -/
def pad (message : List Bool) : List Bool :=
  message ++ true :: (List.replicate (zeros message.length) false ++ bitsOf 64 message.length)

/-! ## Functions and constants -/

def ch (x y z : Word) : Word := (x &&& y) ^^^ (~~~x &&& z)

def maj (x y z : Word) : Word := (x &&& y) ^^^ (x &&& z) ^^^ (y &&& z)

def bigSigma0 (x : Word) : Word := x.rotateRight 2 ^^^ x.rotateRight 13 ^^^ x.rotateRight 22

def bigSigma1 (x : Word) : Word := x.rotateRight 6 ^^^ x.rotateRight 11 ^^^ x.rotateRight 25

def smallSigma0 (x : Word) : Word := x.rotateRight 7 ^^^ x.rotateRight 18 ^^^ (x >>> 3)

def smallSigma1 (x : Word) : Word := x.rotateRight 17 ^^^ x.rotateRight 19 ^^^ (x >>> 10)

/-- The constants of the 64 rounds. -/
def constants : List Word := [
  0x428a2f98, 0x71374491, 0xb5c0fbcf, 0xe9b5dba5, 0x3956c25b, 0x59f111f1, 0x923f82a4, 0xab1c5ed5,
  0xd807aa98, 0x12835b01, 0x243185be, 0x550c7dc3, 0x72be5d74, 0x80deb1fe, 0x9bdc06a7, 0xc19bf174,
  0xe49b69c1, 0xefbe4786, 0x0fc19dc6, 0x240ca1cc, 0x2de92c6f, 0x4a7484aa, 0x5cb0a9dc, 0x76f988da,
  0x983e5152, 0xa831c66d, 0xb00327c8, 0xbf597fc7, 0xc6e00bf3, 0xd5a79147, 0x06ca6351, 0x14292967,
  0x27b70a85, 0x2e1b2138, 0x4d2c6dfc, 0x53380d13, 0x650a7354, 0x766a0abb, 0x81c2c92e, 0x92722c85,
  0xa2bfe8a1, 0xa81a664b, 0xc24b8b70, 0xc76c51a3, 0xd192e819, 0xd6990624, 0xf40e3585, 0x106aa070,
  0x19a4c116, 0x1e376c08, 0x2748774c, 0x34b0bcb5, 0x391c0cb3, 0x4ed8aa4a, 0x5b9cca4f, 0x682e6ff3,
  0x748f82ee, 0x78a5636f, 0x84c87814, 0x8cc70208, 0x90befffa, 0xa4506ceb, 0xbef9a3f7, 0xc67178f2]

/-- The first 64 primes. -/
def primes : List ℕ := (List.range 312).filter fun n => 2 ≤ n ∧ ∀ d ∈ List.range 18, 2 ≤ d → d < n →
  n % d ≠ 0

/-- `word` begins the fractional part of the `degree`-th root of `n`. -/
def IsRootFraction (degree n : ℕ) (word : Word) : Prop :=
  ∃ whole < n, (whole * 2 ^ 32 + word.toNat) ^ degree ≤ n * 2 ^ (32 * degree) ∧
    n * 2 ^ (32 * degree) < (whole * 2 ^ 32 + word.toNat + 1) ^ degree

instance (degree n : ℕ) (word : Word) : Decidable (IsRootFraction degree n word) :=
  inferInstanceAs (Decidable (∃ _ < _, _))

theorem constants_cubeRoots : List.Forall₂ (IsRootFraction 3) primes constants := by
  decide +kernel

/-! ## Hashing -/

/-- The eight working variables. -/
structure Working (α : Type*) where
  a : α
  b : α
  c : α
  d : α
  e : α
  f : α
  g : α
  h : α

namespace Working

variable {α β γ : Type*}

def toList (v : Working α) : List α := [v.a, v.b, v.c, v.d, v.e, v.f, v.g, v.h]

def map (φ : α → β) (v : Working α) : Working β :=
  ⟨φ v.a, φ v.b, φ v.c, φ v.d, φ v.e, φ v.f, φ v.g, φ v.h⟩

def zipWith (φ : α → β → γ) (v : Working α) (w : Working β) : Working γ :=
  ⟨φ v.a w.a, φ v.b w.b, φ v.c w.c, φ v.d w.d, φ v.e w.e, φ v.f w.f, φ v.g w.g, φ v.h w.h⟩

end Working

def initial : Working Word where
  a := 0x6a09e667
  b := 0xbb67ae85
  c := 0x3c6ef372
  d := 0xa54ff53a
  e := 0x510e527f
  f := 0x9b05688c
  g := 0x1f83d9ab
  h := 0x5be0cd19

theorem initial_squareRoots :
    List.Forall₂ (IsRootFraction 2) (primes.take 8) initial.toList := by
  decide +kernel

def wordsOf (block : List Bool) : List Word :=
  (pieces 32 block).map fun bits => BitVec.ofNat 32 (valueOf bits)

def nextWord (w : List Word) : Word :=
  smallSigma1 (w.getD (w.length - 2) 0) + w.getD (w.length - 7) 0 +
    smallSigma0 (w.getD (w.length - 15) 0) + w.getD (w.length - 16) 0

/-- The message schedule after `n` more words. -/
def scheduleUpTo (block : List Word) : ℕ → List Word
  | 0 => block
  | n + 1 => scheduleUpTo block n ++ [nextWord (scheduleUpTo block n)]

def schedule (block : List Word) : List Word := scheduleUpTo block 48

def round (v : Working Word) (kw : Word × Word) : Working Word :=
  let t1 := v.h + bigSigma1 v.e + ch v.e v.f v.g + kw.1 + kw.2
  let t2 := bigSigma0 v.a + maj v.a v.b v.c
  { a := t1 + t2, b := v.a, c := v.b, d := v.c, e := v.d + t1, f := v.e, g := v.f, h := v.g }

/-- The next intermediate hash value. -/
def compress (hash : Working Word) (block : List Word) : Working Word :=
  ((constants.zip (schedule block)).foldl round hash).zipWith (· + ·) hash

def digest (message : List Bool) : Working Word :=
  (pieces 512 (pad message)).foldl (fun hash block => compress hash (wordsOf block)) initial

/-- The last `width` hexadecimal digits of a number. -/
def hexDigits : ℕ → ℕ → List Char
  | 0, _ => []
  | width + 1, n => hexDigits width (n / 16) ++ [(n % 16).digitChar]

def hexDigest (message : List Bool) : String :=
  .ofList ((digest message).toList.flatMap fun word => hexDigits 8 word.toNat)

end Foundation.Sha256
