/-
  SHA-256 in plain JavaScript (src/utils/sha256-hex.js): numbers are integers, signed where an
  operator makes them so, and `words` is one array that every block writes over.
-/
import Mathlib
import Velocious.Foundation.Bitwise
import Velocious.Foundation.Sha256

namespace Velocious.Sha256Hex

open Foundation Foundation.Bitwise Foundation.Sha256 List

/-! ## The function -/

def SHA256_INITIAL_HASH : Working ℤ where
  a := 0x6a09e667
  b := 0xbb67ae85
  c := 0x3c6ef372
  d := 0xa54ff53a
  e := 0x510e527f
  f := 0x9b05688c
  g := 0x1f83d9ab
  h := 0x5be0cd19

def SHA256_K : List ℤ := [
  0x428a2f98, 0x71374491, 0xb5c0fbcf, 0xe9b5dba5,
  0x3956c25b, 0x59f111f1, 0x923f82a4, 0xab1c5ed5,
  0xd807aa98, 0x12835b01, 0x243185be, 0x550c7dc3,
  0x72be5d74, 0x80deb1fe, 0x9bdc06a7, 0xc19bf174,
  0xe49b69c1, 0xefbe4786, 0x0fc19dc6, 0x240ca1cc,
  0x2de92c6f, 0x4a7484aa, 0x5cb0a9dc, 0x76f988da,
  0x983e5152, 0xa831c66d, 0xb00327c8, 0xbf597fc7,
  0xc6e00bf3, 0xd5a79147, 0x06ca6351, 0x14292967,
  0x27b70a85, 0x2e1b2138, 0x4d2c6dfc, 0x53380d13,
  0x650a7354, 0x766a0abb, 0x81c2c92e, 0x92722c85,
  0xa2bfe8a1, 0xa81a664b, 0xc24b8b70, 0xc76c51a3,
  0xd192e819, 0xd6990624, 0xf40e3585, 0x106aa070,
  0x19a4c116, 0x1e376c08, 0x2748774c, 0x34b0bcb5,
  0x391c0cb3, 0x4ed8aa4a, 0x5b9cca4f, 0x682e6ff3,
  0x748f82ee, 0x78a5636f, 0x84c87814, 0x8cc70208,
  0x90befffa, 0xa4506ceb, 0xbef9a3f7, 0xc67178f2]

/-- The bytes of one character. -/
def characterBytes (codePoint : ℤ) : List ℤ :=
  if codePoint ≤ 0x7f then [codePoint]
  else if codePoint ≤ 0x7ff then
    [bitOr 0xc0 (unsignedShiftRight codePoint 6), bitOr 0x80 (bitAnd codePoint 0x3f)]
  else if codePoint ≤ 0xffff then
    [bitOr 0xe0 (unsignedShiftRight codePoint 12), bitOr 0x80 (bitAnd (unsignedShiftRight codePoint 6) 0x3f),
      bitOr 0x80 (bitAnd codePoint 0x3f)]
  else
    [bitOr 0xf0 (unsignedShiftRight codePoint 18), bitOr 0x80 (bitAnd (unsignedShiftRight codePoint 12) 0x3f),
      bitOr 0x80 (bitAnd (unsignedShiftRight codePoint 6) 0x3f), bitOr 0x80 (bitAnd codePoint 0x3f)]

def utf8Bytes (value : String) : List ℤ := value.toList.flatMap fun c => characterBytes c.toNat

/-- Adds unsigned 32-bit integers. -/
def add32 (values : List ℤ) : ℤ := values.foldl (fun sum value => unsignedShiftRight (sum + value) 0) 0

def rotateRight (value : ℤ) (bits : ℕ) : ℤ :=
  bitOr (unsignedShiftRight value bits) (shiftLeft value (32 - bits))

/-- `while (padded.length % 64 !== 56) padded.push(0)`, at most `fuel` times. -/
def pushZeros : ℕ → List ℤ → List ℤ
  | 0, padded => padded
  | fuel + 1, padded =>
    if padded.length % 64 ≠ 56 then pushZeros fuel (padded ++ [0]) else padded

def lengthBytes (value : ℤ) : List ℤ :=
  [bitAnd (unsignedShiftRight value 24) 0xff, bitAnd (unsignedShiftRight value 16) 0xff,
    bitAnd (unsignedShiftRight value 8) 0xff, bitAnd value 0xff]

def paddedBytes (bytes : List ℤ) : List ℤ :=
  let bitLength : ℤ := bytes.length * 8
  let highLength := bitLength / 0x100000000
  let lowLength := unsignedShiftRight bitLength 0
  pushZeros 64 (bytes ++ [0x80]) ++ [highLength, lowLength].flatMap lengthBytes

/-- The first loop over `words`: the block at `offset`. -/
def readWords (padded : List ℤ) (offset : ℕ) (words : List ℤ) : List ℤ :=
  (List.range 16).foldl (fun words i =>
    let index := offset + i * 4
    words.set i (unsignedShiftRight (bitOr (bitOr (bitOr (shiftLeft (padded.getD index 0) 24)
      (shiftLeft (padded.getD (index + 1) 0) 16)) (shiftLeft (padded.getD (index + 2) 0) 8))
      (padded.getD (index + 3) 0)) 0)) words

/-- One turn of the second loop over `words`. -/
def extendWord (words : List ℤ) (i : ℕ) : List ℤ :=
  let w15 := words.getD (i - 15) 0
  let w2 := words.getD (i - 2) 0
  let s0 := bitXor (bitXor (rotateRight w15 7) (rotateRight w15 18)) (unsignedShiftRight w15 3)
  let s1 := bitXor (bitXor (rotateRight w2 17) (rotateRight w2 19)) (unsignedShiftRight w2 10)
  words.set i (add32 [words.getD (i - 16) 0, s0, words.getD (i - 7) 0, s1])

/-- The second loop over `words`. -/
def extendWords (words : List ℤ) : List ℤ := (List.range' 16 48).foldl extendWord words

/-- One turn of the loop over the working variables. -/
def round (words : List ℤ) (v : Working ℤ) (i : ℕ) : Working ℤ :=
  let s1 := bitXor (bitXor (rotateRight v.e 6) (rotateRight v.e 11)) (rotateRight v.e 25)
  let ch := bitXor (bitAnd v.e v.f) (bitAnd (bitNot v.e) v.g)
  let temp1 := add32 [v.h, s1, ch, SHA256_K.getD i 0, words.getD i 0]
  let s0 := bitXor (bitXor (rotateRight v.a 2) (rotateRight v.a 13)) (rotateRight v.a 22)
  let maj := bitXor (bitXor (bitAnd v.a v.b) (bitAnd v.a v.c)) (bitAnd v.b v.c)
  let temp2 := add32 [s0, maj]
  { a := add32 [temp1, temp2], b := v.a, c := v.b, d := v.c, e := add32 [v.d, temp1], f := v.e,
    g := v.f, h := v.g }

/-- One turn of the loop over the blocks. -/
def blockStep (padded : List ℤ) (state : List ℤ × Working ℤ) (block : ℕ) : List ℤ × Working ℤ :=
  let words := extendWords (readWords padded (64 * block) state.1)
  let v := (List.range 64).foldl (round words) state.2
  (words, state.2.zipWith (fun value added => add32 [value, added]) v)

/-- `value.toString(16).padStart(8, "0")` -/
def hexText (value : ℤ) : List Char := (Nat.toDigits 16 value.toNat).leftpad 8 '0'

/-- `sha256Hex`. The slots of `words` are written before they are read. -/
def sha256Hex (message : String) : String :=
  let padded := paddedBytes (utf8Bytes message)
  let state := (List.range ((padded.length + 63) / 64)).foldl (blockStep padded)
    (List.replicate 64 0, SHA256_INITIAL_HASH)
  .ofList (state.2.toList.flatMap hexText)

/-! ## Words -/

theorem bits_add32 (values : List ℤ) : bits (add32 values) = (values.map bits).sum := by
  have hfold : ∀ sum : ℤ, bits (values.foldl (fun sum value =>
      unsignedShiftRight (sum + value) 0) sum) = bits sum + (values.map bits).sum := by
    intro sum
    induction values generalizing sum with
    | nil => simp
    | cons value values ih => simp [ih, BitVec.add_assoc]
  simpa [add32, bits] using hfold 0

theorem bits_rotateRight (value : ℤ) {n : ℕ} (h : 0 < n ∧ n < 32) :
    bits (rotateRight value n) = (bits value).rotateRight n := by
  rw [rotateRight, bits_bitOr, bits_unsignedShiftRight, bits_shiftLeft, BitVec.rotateRight_def,
    Nat.mod_eq_of_lt h.2, Nat.mod_eq_of_lt (by omega)]

theorem bits_getD (l : List ℤ) (i : ℕ) : bits (l.getD i 0) = (l.map bits).getD i 0 := by
  rw [getD_eq_getElem?_getD, getD_eq_getElem?_getD, getElem?_map]
  cases l[i]? <;> rfl

theorem bits_SHA256_K : SHA256_K.map bits = constants := by
  decide +kernel

theorem bits_initial : SHA256_INITIAL_HASH.map bits = initial := by
  simp only [Working.map, initial, Working.mk.injEq]
  decide

/-- **A round** is the standard's, with its constant and its word. -/
theorem round_bits (words : List ℤ) (v : Working ℤ) (i : ℕ) :
    (round words v i).map bits =
      Sha256.round (v.map bits) (constants.getD i 0, (words.map bits).getD i 0) := by
  simp [-getD_eq_getElem?_getD, round, Sha256.round, Working.map, bits_add32, bits_rotateRight,
    bits_getD, bits_SHA256_K, bigSigma0, bigSigma1, ch, maj, BitVec.add_assoc]

variable {words : List ℤ}

theorem rounds_bits (hwords : words.length = 64) (v : Working ℤ) :
    ((List.range 64).foldl (round words) v).map bits =
      (constants.zip (words.map bits)).foldl Sha256.round (v.map bits) := by
  have hlength : (constants.zip (words.map bits)).length = 64 := by
    rw [length_zip, length_map, hwords]
    rfl
  rw [← foldl_range (f := fun v i => Sha256.round v (constants.getD i 0, (words.map bits).getD i 0))
    (constants.zip (words.map bits)), hlength]
  · exact (foldl_hom (Working.map bits) fun v i => (round_bits words v i).symm).symm
  · intro v i kw hkw
    obtain ⟨hk, hw⟩ := getElem?_zip_eq_some.mp hkw
    rw [getD_eq_getElem?_getD, getD_eq_getElem?_getD, hk, hw]
    rfl

theorem length_extendWord (words : List ℤ) (i : ℕ) : (extendWord words i).length = words.length :=
  length_set

theorem extendWord_bits {i : ℕ} (hi : 16 ≤ i) (hlt : i < words.length) :
    ((extendWord words i).take (i + 1)).map bits =
      (words.take i).map bits ++ [nextWord ((words.take i).map bits)] := by
  have hlength : ((words.take i).map bits).length = i := by
    rw [length_map, length_take]
    omega
  have hget : ∀ j < i, bits (words.getD j 0) = ((words.take i).map bits).getD j 0 := by
    intro j hj
    rw [← bits_getD, getD_eq_getElem?_getD, getD_eq_getElem?_getD,
      getElem?_take_of_lt hj]
  rw [extendWord, take_succ_set hlt, map_append, nextWord, hlength, ← hget _ (by omega),
    ← hget _ (by omega), ← hget _ (by omega), ← hget _ (by omega)]
  simp only [map_cons, bits_add32, bits_bitXor, bits_rotateRight,
    bits_unsignedShiftRight, smallSigma0, smallSigma1, sum_cons, Nat.reduceLT, and_self]
  ac_rfl

theorem extendWords_bits (hlength : words.length = 64) : (extendWords words).length = 64 ∧
      (extendWords words).map bits = schedule ((words.take 16).map bits) := by
  have hloop : ∀ n ≤ 48, ((List.range' 16 n).foldl extendWord words).length = 64 ∧
      (((List.range' 16 n).foldl extendWord words).take (16 + n)).map bits =
        scheduleUpTo ((words.take 16).map bits) n := by
    intro n hn
    induction n with
    | zero => exact ⟨hlength, rfl⟩
    | succ n ih =>
      obtain ⟨hlen, hbits⟩ := ih (by omega)
      rw [range'_concat, foldl_append, foldl_cons, foldl_nil, one_mul]
      refine ⟨(length_extendWord _ _).trans hlen, ?_⟩
      rw [← add_assoc, extendWord_bits (by omega) (by omega), hbits, scheduleUpTo]
  obtain ⟨hlen, hbits⟩ := hloop 48 le_rfl
  exact ⟨hlen, by rwa [take_of_length_le (by omega)] at hbits⟩

/-! ## Bytes -/

def numbers (bytes : List ℕ) : List ℤ := bytes.map Nat.cast

def byteBits (bytes : List ℕ) : List Bool := bytes.flatMap (bitsOf 8)

theorem bitAnd_mask (mask k : ℕ) (hmask : mask = 2 ^ k - 1) (hk : k ≤ 31) (m : ℕ) :
    bitAnd m mask = (m % 2 ^ k : ℕ) := by
  have hpow : 2 ^ k ≤ 2 ^ 31 := Nat.pow_le_pow_right (by decide) hk
  have hand : (bits m &&& bits mask).toNat = m % 2 ^ k := by
    rw [bits_natCast, bits_natCast, BitVec.toNat_and, BitVec.toNat_ofNat, BitVec.toNat_ofNat,
      Nat.mod_eq_of_lt (a := mask) (by omega), hmask, Nat.and_two_pow_sub_one_eq_mod,
      Nat.mod_mod_of_dvd _ (pow_dvd_pow 2 (by omega))]
  rw [bitAnd, BitVec.toInt_eq_toNat_of_lt (by omega), hand]

theorem bitOr_marker {m : ℕ} (marker a k : ℕ) (hmarker : marker = a * 2 ^ k) (hm : m < 2 ^ k)
    (hlt : marker < 2 ^ 31) (hk : k ≤ 31) : bitOr marker m = (m + marker : ℕ) := by
  have hpow : 2 ^ k ≤ 2 ^ 31 := Nat.pow_le_pow_right (by decide) hk
  rw [bitOr_natCast hlt (by omega), hmarker, ← Nat.shiftLeft_eq, ← Nat.shiftLeft_add_eq_or_of_lt hm,
    Nat.add_comm]

theorem continuation (m : ℕ) : bitOr 0x80 (bitAnd m 0x3f) = (m % 64 + 0x80 : ℕ) := by
  have hmask : bitAnd m 0x3f = (m % 64 : ℕ) := bitAnd_mask 0x3f 6 rfl (by decide) m
  rw [hmask]
  exact bitOr_marker 0x80 2 6 rfl (by omega) (by decide) (by decide)

theorem characterBytes_eq (c : Char) :
    characterBytes c.toNat = numbers ((String.utf8EncodeChar c).map UInt8.toNat) := by
  have hvalid : c.toNat < 0x110000 := by
    have hc : c.toNat < 0xD800 ∨ 0xDFFF < c.toNat ∧ c.toNat < 0x110000 := c.valid
    omega
  have hshift : ∀ n < 32, unsignedShiftRight c.toNat n = (c.toNat / 2 ^ n : ℕ) := by
    intro n hn
    rw [unsignedShiftRight_natCast, Nat.mod_eq_of_lt hn, Nat.mod_eq_of_lt (by omega)]
  have hbyte : ∀ n < 256, (UInt8.ofNat n).toNat = n := by
    intro n hn
    rw [UInt8.toNat_ofNat']
    omega
  have hval : c.val.toNat = c.toNat := rfl
  unfold characterBytes String.utf8EncodeChar
  rw [hval]
  generalize c.toNat = n at *
  by_cases h1 : n ≤ 0x7f
  · have h1' : (n : ℤ) ≤ 0x7f := by exact_mod_cast h1
    rw [if_pos h1, if_pos h1']
    simp [numbers, hbyte n (by omega)]
  have h1' : ¬ (n : ℤ) ≤ 0x7f := by exact_mod_cast h1
  by_cases h2 : n ≤ 0x7ff
  · have h2' : (n : ℤ) ≤ 0x7ff := by exact_mod_cast h2
    have hlead : bitOr 0xc0 (n / 2 ^ 6 : ℕ) = (n / 64 % 32 + 0xc0 : ℕ) := by
      rw [Nat.mod_eq_of_lt (a := n / 64) (b := 32) (by omega)]
      exact bitOr_marker 0xc0 3 6 rfl (by omega) (by decide) (by decide)
    rw [if_neg h1', if_pos h2', if_neg h1, if_pos h2, hshift 6 (by decide), hlead, continuation]
    simp only [numbers, map_cons, map_nil, hbyte (n / 64 % 32 + 0xc0) (by omega),
      hbyte (n % 64 + 0x80) (by omega)]
  have h2' : ¬ (n : ℤ) ≤ 0x7ff := by exact_mod_cast h2
  by_cases h3 : n ≤ 0xffff
  · have h3' : (n : ℤ) ≤ 0xffff := by exact_mod_cast h3
    have hlead : bitOr 0xe0 (n / 2 ^ 12 : ℕ) = (n / 4096 % 16 + 0xe0 : ℕ) := by
      rw [Nat.mod_eq_of_lt (a := n / 4096) (b := 16) (by omega)]
      exact bitOr_marker 0xe0 7 5 rfl (by omega) (by decide) (by decide)
    rw [if_neg h1', if_neg h2', if_pos h3', if_neg h1, if_neg h2, if_pos h3, hshift 12 (by decide),
      hshift 6 (by decide), hlead, continuation, continuation]
    simp only [map_cons, hbyte (n / 4096 % 16 + 0xe0) (by omega),
      hbyte (n / 64 % 64 + 0x80) (by omega), hbyte (n % 64 + 0x80) (by omega)]
    rfl
  · have h3' : ¬ (n : ℤ) ≤ 0xffff := by exact_mod_cast h3
    have hlead : bitOr 0xf0 (n / 2 ^ 18 : ℕ) = (n / 262144 % 8 + 0xf0 : ℕ) := by
      rw [Nat.mod_eq_of_lt (a := n / 262144) (b := 8) (by omega)]
      exact bitOr_marker 0xf0 15 4 rfl (by omega) (by decide) (by decide)
    rw [if_neg h1', if_neg h2', if_neg h3', if_neg h1, if_neg h2, if_neg h3, hshift 18 (by decide),
      hshift 12 (by decide), hshift 6 (by decide), hlead, continuation, continuation, continuation]
    simp only [map_cons, hbyte (n / 262144 % 8 + 0xf0) (by omega),
      hbyte (n / 4096 % 64 + 0x80) (by omega), hbyte (n / 64 % 64 + 0x80) (by omega),
      hbyte (n % 64 + 0x80) (by omega)]
    rfl

theorem utf8Bytes_eq (s : String) :
    utf8Bytes s = numbers (s.toUTF8.data.toList.map UInt8.toNat) := by
  have hbytes : s.toUTF8.data.toList = s.toList.flatMap String.utf8EncodeChar := by
    rw [String.toUTF8_eq_toByteArray, ← String.utf8Encode_toList, List.utf8Encode,
      data_toByteArray]
  rw [hbytes, numbers, map_flatMap, map_flatMap]
  exact flatMap_congr fun c _ => characterBytes_eq c

/-! ## Padding -/

theorem pushZeros_eq (fuel : ℕ) (padded : List ℤ) (h : (120 - padded.length % 64) % 64 ≤ fuel) :
    pushZeros fuel padded = padded ++ List.replicate ((120 - padded.length % 64) % 64) 0 := by
  induction fuel generalizing padded with
  | zero =>
    have hzero : (120 - padded.length % 64) % 64 = 0 := by omega
    simp [pushZeros, hzero]
  | succ fuel ih =>
    rw [pushZeros]
    split
    · have hlength : (padded ++ [(0 : ℤ)]).length = padded.length + 1 := length_append
      have hone : (120 - padded.length % 64) % 64 = (120 - (padded.length + 1) % 64) % 64 + 1 := by
        omega
      rw [ih _ (by rw [hlength]; omega), hlength, hone, append_assoc]
      rfl
    · have hzero : (120 - padded.length % 64) % 64 = 0 := by omega
      simp [hzero]

def zeroBytes (length : ℕ) : ℕ := (120 - (length + 1) % 64) % 64

def sizeBytes (size : ℕ) : List ℕ :=
  [size / 2 ^ 56 % 256, size / 2 ^ 48 % 256, size / 2 ^ 40 % 256, size / 2 ^ 32 % 256,
    size / 2 ^ 24 % 256, size / 2 ^ 16 % 256, size / 2 ^ 8 % 256, size % 256]

/-- The bytes up to a multiple of 64. -/
def padBytes (bytes : List ℕ) : List ℕ :=
  bytes ++ 0x80 :: (List.replicate (zeroBytes bytes.length) 0 ++ sizeBytes (bytes.length * 8))

theorem lengthBytes_eq (n : ℕ) : lengthBytes n =
    numbers [n / 2 ^ 24 % 256, n / 2 ^ 16 % 256, n / 2 ^ 8 % 256, n % 256] := by
  have hbyte : ∀ m : ℕ, bitAnd m 0xff = (m % 256 : ℕ) :=
    fun m => bitAnd_mask 0xff 8 rfl (by decide) m
  have hdiv : ∀ k ≤ 24, n % 2 ^ 32 / 2 ^ k % 256 = n / 2 ^ k % 256 := by
    intro k hk
    have hpow : 2 ^ 32 = 2 ^ k * 2 ^ (32 - k) := by rw [← pow_add, Nat.add_sub_cancel' (by omega)]
    rw [hpow, Nat.mod_mul_right_div_self]
    exact Nat.mod_mod_of_dvd _ (pow_dvd_pow 2 (n := 32 - k) (m := 8) (by omega))
  simp only [lengthBytes, unsignedShiftRight_natCast, hbyte, hdiv 24 (by decide),
    hdiv 16 (by decide), hdiv 8 (by decide)]
  rfl

theorem sizeBytes_eq (n : ℕ) : sizeBytes n =
    [n / 2 ^ 32 / 2 ^ 24 % 256, n / 2 ^ 32 / 2 ^ 16 % 256, n / 2 ^ 32 / 2 ^ 8 % 256,
      n / 2 ^ 32 % 256] ++
    [n % 2 ^ 32 / 2 ^ 24 % 256, n % 2 ^ 32 / 2 ^ 16 % 256, n % 2 ^ 32 / 2 ^ 8 % 256,
      n % 2 ^ 32 % 256] := by
  simp only [sizeBytes, cons_append, nil_append, List.cons.injEq, and_true, true_and]
  refine ⟨?_, ?_, ?_, ?_, ?_, ?_, ?_⟩ <;> omega

theorem paddedBytes_eq (bytes : List ℕ) : paddedBytes (numbers bytes) = numbers (padBytes bytes) := by
  have hlength : (numbers bytes).length = bytes.length := length_map _
  have hbits : ((numbers bytes).length : ℤ) * 8 = (bytes.length * 8 : ℕ) := by
    rw [hlength]
    exact (Nat.cast_mul _ _).symm
  have hhigh : ((bytes.length * 8 : ℕ) : ℤ) / 0x100000000 = (bytes.length * 8 / 2 ^ 32 : ℕ) := by
    norm_cast
  have hlow : unsignedShiftRight ((bytes.length * 8 : ℕ) : ℤ) 0 = (bytes.length * 8 % 2 ^ 32 : ℕ) := by
    rw [unsignedShiftRight_natCast]
    simp
  have hpush := pushZeros_eq 64 (numbers bytes ++ [0x80])
    (by omega)
  simp only [paddedBytes, hbits, hhigh, hlow, flatMap_cons, lengthBytes_eq, hpush]
  rw [padBytes, sizeBytes_eq]
  simp [numbers, zeroBytes]

theorem length_padBytes (bytes : List ℕ) : (padBytes bytes).length % 64 = 0 := by
  simp only [padBytes, length_append, length_cons, length_replicate, sizeBytes,
    length_nil, zeroBytes]
  omega

variable {bytes : List ℕ}

theorem padBytes_lt (h : ∀ b ∈ bytes, b < 256) : ∀ b ∈ padBytes bytes, b < 256 := by
  intro b hb
  simp only [padBytes, sizeBytes, mem_append, mem_cons, mem_replicate,
    not_mem_nil, or_false] at hb
  rcases hb with hb | rfl | ⟨-, rfl⟩ | hb
  · exact h b hb
  · decide
  · decide
  · omega

/-- **The padding** is the standard's. -/
theorem byteBits_padBytes (bytes : List ℕ) : byteBits (padBytes bytes) = pad (byteBits bytes) := by
  have hlength : (byteBits bytes).length = 8 * bytes.length :=
    length_flatMap_code (length_bitsOf 8) bytes
  have hzeros : zeros (8 * bytes.length) = 7 + 8 * zeroBytes bytes.length := by
    unfold zeros zeroBytes
    omega
  have hreplicate : ∀ n, byteBits (List.replicate n 0) = List.replicate (8 * n) false := by
    intro n
    induction n with
    | zero => rfl
    | succ n ih =>
      rw [replicate_succ, byteBits, flatMap_cons, ← byteBits, ih, Nat.mul_succ, Nat.add_comm,
        replicate_add]
      rfl
  have hsize : byteBits (sizeBytes (bytes.length * 8)) = bitsOf 64 (8 * bytes.length) := by
    rw [Nat.mul_comm]
    have hmod : ∀ m, bitsOf 8 (m % 256) = bitsOf 8 m := bitsOf_mod 8
    simp only [byteBits, sizeBytes, flatMap_cons, flatMap_nil, hmod, append_nil]
    rw [bitsOf_add 8 56, bitsOf_add 8 48, bitsOf_add 8 40, bitsOf_add 8 32, bitsOf_add 8 24,
      bitsOf_add 8 16, bitsOf_add 8 8]
  rw [pad, hlength, hzeros, replicate_add, ← hreplicate, ← hsize, padBytes]
  simp [byteBits, bitsOf]

theorem or_eq_add {x y : ℕ} (a k : ℕ) (hx : x = a * 2 ^ k) (hy : y < 2 ^ k) : x ||| y = x + y := by
  rw [hx, ← Nat.shiftLeft_eq, Nat.shiftLeft_add_eq_or_of_lt hy]

theorem word_of_bytes {b₀ b₁ b₂ b₃ : ℕ} (h₀ : b₀ < 256) (h₁ : b₁ < 256) (h₂ : b₂ < 256)
    (h₃ : b₃ < 256) :
    BitVec.ofNat 32 b₀ <<< 24 ||| BitVec.ofNat 32 b₁ <<< 16 ||| BitVec.ofNat 32 b₂ <<< 8 |||
      BitVec.ofNat 32 b₃ = BitVec.ofNat 32 (valueOf (byteBits [b₀, b₁, b₂, b₃])) := by
  have hvalue : valueOf (byteBits [b₀, b₁, b₂, b₃]) =
      b₀ * 2 ^ 24 + b₁ * 2 ^ 16 + b₂ * 2 ^ 8 + b₃ := by
    simp only [byteBits, flatMap_cons, flatMap_nil, append_nil, valueOf_append,
      valueOf_bitsOf, length_append, length_bitsOf]
    omega
  apply BitVec.eq_of_toNat_eq
  simp only [hvalue, BitVec.toNat_or, BitVec.toNat_shiftLeft, BitVec.toNat_ofNat, Nat.shiftLeft_eq]
  rw [Nat.mod_eq_of_lt (a := b₀) (by omega), Nat.mod_eq_of_lt (a := b₁) (by omega),
    Nat.mod_eq_of_lt (a := b₂) (by omega), Nat.mod_eq_of_lt (a := b₃) (by omega),
    Nat.mod_eq_of_lt (a := b₀ * 2 ^ 24) (by omega), Nat.mod_eq_of_lt (a := b₁ * 2 ^ 16) (by omega),
    Nat.mod_eq_of_lt (a := b₂ * 2 ^ 8) (by omega),
    or_eq_add (y := b₁ * 2 ^ 16) b₀ 24 rfl (by omega),
    or_eq_add (y := b₂ * 2 ^ 8) (b₀ * 2 ^ 8 + b₁) 16 (by omega) (by omega),
    or_eq_add (y := b₃) (b₀ * 2 ^ 16 + b₁ * 2 ^ 8 + b₂) 8 (by omega) (by omega),
    Nat.mod_eq_of_lt (by omega)]

theorem take_four {l : List ℕ} {k : ℕ} (h : k + 4 ≤ l.length) : (l.drop k).take 4 =
    [l.getD k 0, l.getD (k + 1) 0, l.getD (k + 2) 0, l.getD (k + 3) 0] := by
  have hget : ∀ j (hj : j < l.length), l.getD j 0 = l[j] := fun j hj => by simp [hj]
  rw [drop_eq_getElem_cons (by omega), drop_eq_getElem_cons (by omega),
    drop_eq_getElem_cons (by omega), drop_eq_getElem_cons (by omega), hget _ (by omega),
    hget _ (by omega), hget _ (by omega), hget _ (by omega)]
  rfl

section
variable (hbytes : ∀ b ∈ bytes, b < 256) {block : ℕ} (hblock : 64 * block + 64 ≤ bytes.length)
include hbytes hblock

theorem readWords_bits (hwords : words.length = 64) :
    (readWords (numbers bytes) (64 * block) words).length = 64 ∧
      ((readWords (numbers bytes) (64 * block) words).take 16).map bits =
        wordsOf (byteBits ((bytes.drop (64 * block)).take 64)) := by
  refine ⟨(length_foldl_set _ _ _).trans hwords, ?_⟩
  have hget : ∀ j < bytes.length, bits ((numbers bytes).getD j 0) = BitVec.ofNat 32 (bytes.getD j 0) := by
    intro j hj
    rw [← bits_natCast]
    simp [numbers, hj]
  have hlt : ∀ j, bytes.getD j 0 < 256 := by
    intro j
    by_cases hj : j < bytes.length
    · simpa [hj] using hbytes _ (getElem_mem hj)
    · simp [hj]
  have hlength : ((bytes.drop (64 * block)).take 64).length = 64 := by
    rw [length_take, length_drop]
    omega
  have hpieces : pieces 32 (byteBits ((bytes.drop (64 * block)).take 64)) =
      (pieces 4 ((bytes.drop (64 * block)).take 64)).map byteBits :=
    pieces_flatMap (by decide) (length_bitsOf 8) 4 _
  rw [readWords, Foundation.foldl_set (by omega), map_map, wordsOf, hpieces, pieces, hlength, map_map,
    map_map]
  refine map_congr_left fun i hi => ?_
  have hi : i < 16 := mem_range.mp hi
  have hpiece : (((bytes.drop (64 * block)).take 64).drop (4 * i)).take 4 =
      (bytes.drop (64 * block + i * 4)).take 4 := by
    rw [drop_take, take_take, drop_drop, Nat.min_eq_left (by omega), Nat.mul_comm 4 i]
  simp only [Function.comp_apply, hpiece, take_four (show 64 * block + i * 4 + 4 ≤ bytes.length by omega),
    bits_unsignedShiftRight, bits_bitOr, bits_shiftLeft, hget _ (show 64 * block + i * 4 < _ by omega),
    hget _ (show 64 * block + i * 4 + 1 < _ by omega),
    hget _ (show 64 * block + i * 4 + 2 < _ by omega),
    hget _ (show 64 * block + i * 4 + 3 < _ by omega)]
  exact word_of_bytes (hlt _) (hlt _) (hlt _) (hlt _)

/-- **A block** gives the standard's next intermediate hash value. -/
theorem blockStep_bits {state : List ℤ × Working ℤ}
    (hwords : state.1.length = 64) :
    (blockStep (numbers bytes) state block).1.length = 64 ∧
      (blockStep (numbers bytes) state block).2.map bits =
        compress (state.2.map bits) (wordsOf (byteBits ((bytes.drop (64 * block)).take 64))) := by
  obtain ⟨hlength, hread⟩ := readWords_bits hbytes hblock hwords
  obtain ⟨hextended, hschedule⟩ := extendWords_bits hlength
  rw [hread] at hschedule
  have hrounds := rounds_bits hextended state.2
  rw [hschedule] at hrounds
  simp only [blockStep, compress, ← hrounds]
  refine ⟨hextended, ?_⟩
  simp [Working.zipWith, Working.map, bits_add32, BitVec.add_comm]

end

/-! ## The text -/

/-- A number that `>>> 0` gave. -/
def IsUnsigned (x : ℤ) : Prop := ∃ n < 2 ^ 32, x = (n : ℕ)

theorem isUnsigned_add32 (a b : ℤ) : IsUnsigned (add32 [a, b]) :=
  ⟨_, BitVec.isLt _, rfl⟩

theorem leftpad_toDigits {width n : ℕ} (hpos : 0 < width) (h : n < 16 ^ width) :
    (Nat.toDigits 16 n).leftpad width '0' = hexDigits width n := by
  have hzeros : ∀ width, hexDigits width 0 = List.replicate width '0' := by
    intro width
    induction width with
    | zero => rfl
    | succ width ih =>
      rw [hexDigits, ih, replicate_succ']
      rfl
  induction width generalizing n with
  | zero => omega
  | succ width ih =>
    by_cases hlt : n < 16
    · rw [Nat.toDigits_of_lt_base hlt, hexDigits, Nat.div_eq_of_lt hlt, hzeros, Nat.mod_eq_of_lt hlt]
      simp [List.leftpad]
    · have hdiv : n / 16 < 16 ^ width := by
        omega
      have hwidth : 0 < width := by
        rcases Nat.eq_zero_or_pos width with rfl | hwidth
        · omega
        · exact hwidth
      rw [Nat.toDigits_of_base_le (by decide) (by omega), hexDigits, ← ih hwidth hdiv]
      simp [List.leftpad]

theorem hexText_eq {x : ℤ} (h : IsUnsigned x) : hexText x = hexDigits 8 (bits x).toNat := by
  obtain ⟨n, hn, rfl⟩ := h
  rw [bits_natCast, BitVec.toNat_ofNat, Nat.mod_eq_of_lt hn]
  exact leftpad_toDigits (by decide) (by omega)

def utf8Bits (s : String) : List Bool := s.toUTF8.data.toList.flatMap fun b => bitsOf 8 b.toNat

theorem blocks_bits (hbytes : ∀ b ∈ bytes, b < 256) (n : ℕ)
    (hn : 64 * n ≤ bytes.length) {state : List ℤ × Working ℤ} (hwords : state.1.length = 64) :
    ((List.range n).foldl (blockStep (numbers bytes)) state).1.length = 64 ∧
      ((List.range n).foldl (blockStep (numbers bytes)) state).2.map bits =
        ((List.range n).map fun i => byteBits ((bytes.drop (64 * i)).take 64)).foldl
          (fun hash block => compress hash (wordsOf block)) (state.2.map bits) := by
  induction n with
  | zero => exact ⟨hwords, rfl⟩
  | succ n ih =>
    obtain ⟨hlength, hhash⟩ := ih (by omega)
    rw [range_succ, map_append, foldl_append, foldl_append, ← hhash]
    exact blockStep_bits hbytes (by omega) hlength

theorem blockStep_unsigned (padded : List ℤ) (state : List ℤ × Working ℤ) (block : ℕ) :
    ∀ x ∈ (blockStep padded state block).2.toList, IsUnsigned x := by
  simp [blockStep, Working.zipWith, Working.toList, isUnsigned_add32]

theorem blocks_unsigned (padded : List ℤ) (n : ℕ) (words : List ℤ) :
    ∀ x ∈ ((List.range n).foldl (blockStep padded) (words, SHA256_INITIAL_HASH)).2.toList,
      IsUnsigned x := by
  cases n with
  | zero =>
    have hinitial : ∀ x ∈ SHA256_INITIAL_HASH.toList, 0 ≤ x ∧ x < 2 ^ 32 := by decide
    intro x hx
    obtain ⟨hnonneg, hlt⟩ := hinitial x hx
    exact ⟨x.toNat, by omega, by omega⟩
  | succ n =>
    rw [range_succ, foldl_append]
    exact blockStep_unsigned _ _ _

/-- **SHA-256 of a string** is the standard's digest of its UTF-8 encoding. -/
theorem sha256Hex_eq (s : String) : sha256Hex s = hexDigest (utf8Bits s) := by
  obtain ⟨bytes, hdef⟩ : ∃ bytes, bytes = padBytes (s.toUTF8.data.toList.map UInt8.toNat) := ⟨_, rfl⟩
  have hpadded : paddedBytes (utf8Bytes s) = numbers bytes := by
    rw [utf8Bytes_eq, paddedBytes_eq, hdef]
  have hmod : bytes.length % 64 = 0 := hdef ▸ length_padBytes _
  have hcount : ((numbers bytes).length + 63) / 64 = bytes.length / 64 := by
    rw [numbers, length_map]
    omega
  have hbytes : ∀ b ∈ bytes, b < 256 := by
    rw [hdef]
    refine padBytes_lt fun b hb => ?_
    obtain ⟨byte, -, rfl⟩ := mem_map.mp hb
    exact byte.toNat_lt
  have hbits : byteBits bytes = pad (utf8Bits s) := by
    rw [hdef, byteBits_padBytes, utf8Bits, byteBits, flatMap_map]
  have hpieces : pieces 512 (pad (utf8Bits s)) =
      (List.range (bytes.length / 64)).map fun i => byteBits ((bytes.drop (64 * i)).take 64) := by
    rw [← hbits]
    refine (pieces_flatMap (by decide) (length_bitsOf 8) 64 bytes).trans ?_
    rw [pieces, map_map]
    rfl
  obtain ⟨-, hhash⟩ := blocks_bits hbytes (bytes.length / 64) (by omega)
    (show (List.replicate 64 (0 : ℤ), SHA256_INITIAL_HASH).1.length = 64 from length_replicate)
  rw [bits_initial, ← hpieces] at hhash
  have hunsigned := blocks_unsigned (numbers bytes) (bytes.length / 64) (List.replicate 64 0)
  rw [sha256Hex, hpadded, hexDigest, digest, ← hhash, hcount]
  generalize ((List.range (bytes.length / 64)).foldl (blockStep (numbers bytes))
    (List.replicate 64 0, SHA256_INITIAL_HASH)).2 = hash at hunsigned
  have htext : (hash.map bits).toList = hash.toList.map bits := rfl
  rw [htext, flatMap_map]
  exact congrArg String.ofList (flatMap_congr fun x hx => hexText_eq (hunsigned x hx))

example : sha256Hex "abc" = "ba7816bf8f01cfea414140de5dae2223b00361a396177a9cb410ff61f20015ad" := by
  decide +kernel

end Velocious.Sha256Hex
