/-
  `btoa` and `atob`, on bytes.

  `atob_padded`: sextets come back from their text, if there are not one too many, and
  `unpack_sextets`: bytes come back from their sextets.
-/
import Mathlib.Tactic

namespace Foundation

open List

def base64Alphabet : List Char :=
  "ABCDEFGHIJKLMNOPQRSTUVWXYZabcdefghijklmnopqrstuvwxyz0123456789+/".toList

def base64Char (n : ℕ) : Char := base64Alphabet.getD n 'A'

def base64Value? (c : Char) : Option ℕ := base64Alphabet.idxOf? c

theorem base64Value?_char : ∀ n < 64, base64Value? (base64Char n) = some n := by
  decide +kernel

/-- The six-bit digits of a sequence of bytes. -/
def sextets : List ℕ → List ℕ
  | [] => []
  | [a] => [a / 4, a % 4 * 16]
  | [a, b] => [a / 4, a % 4 * 16 + b / 16, b % 16 * 4]
  | a :: b :: c :: bytes =>
    a / 4 :: (a % 4 * 16 + b / 16) :: (b % 16 * 4 + c / 64) :: c % 64 :: sextets bytes

/-- The bytes of a sequence of six-bit digits; the bits left over are dropped. -/
def unpack : List ℕ → List ℕ
  | a :: b :: c :: d :: digits =>
    (a * 4 + b / 16) :: (b % 16 * 16 + c / 4) :: (c % 4 * 64 + d) :: unpack digits
  | [a, b, c] => [a * 4 + b / 16, b % 16 * 16 + c / 4]
  | [a, b] => [a * 4 + b / 16]
  | [_] | [] => []

theorem unpack_sextets {bytes : List ℕ} (h : ∀ b ∈ bytes, b < 256) :
    unpack (sextets bytes) = bytes := by
  fun_induction sextets bytes with
  | case1 => rfl
  | case2 a =>
    simp only [unpack, List.cons.injEq, and_true]
    omega
  | case3 a b =>
    have hb : b < 256 := h b (by simp)
    simp only [unpack, List.cons.injEq, and_true]
    constructor
    · omega
    · omega
  | case4 a b c bytes ih =>
    have hb : b < 256 := h b (by simp)
    have hc : c < 256 := h c (by simp)
    rw [unpack, ih fun x hx => h x (by simp [hx])]
    simp only [List.cons.injEq, and_true]
    refine ⟨?_, ?_, ?_⟩
    · omega
    · omega
    · omega

theorem sextets_lt {bytes : List ℕ} (h : ∀ b ∈ bytes, b < 256) : ∀ n ∈ sextets bytes, n < 64 := by
  fun_induction sextets bytes with
  | case1 => simp
  | case2 a =>
    have ha : a < 256 := h a (by simp)
    simp only [mem_cons, not_mem_nil, or_false]
    omega
  | case3 a b =>
    have ha : a < 256 := h a (by simp)
    have hb : b < 256 := h b (by simp)
    simp only [mem_cons, not_mem_nil, or_false]
    omega
  | case4 a b c bytes ih =>
    have ha : a < 256 := h a (by simp)
    have hb : b < 256 := h b (by simp)
    have hc : c < 256 := h c (by simp)
    simp only [mem_cons, forall_eq_or_imp]
    refine ⟨by omega, by omega, by omega, by omega, ih fun x hx => h x (by simp [hx])⟩

theorem sextets_length (bytes : List ℕ) : (sextets bytes).length % 4 ≠ 1 := by
  fun_induction sextets bytes with
  | case1 => simp
  | case2 a => simp
  | case3 a b => simp
  | case4 a b c bytes ih =>
    simp only [length_cons]
    omega

/-- `text.padEnd(Math.ceil(text.length / 4) * 4, "=")`. -/
def padBase64 (text : List Char) : List Char :=
  text ++ List.replicate ((text.length + 3) / 4 * 4 - text.length) '='

def btoa (bytes : List ℕ) : List Char := padBase64 ((sextets bytes).map base64Char)

/-- One or two trailing signs removed. -/
def dropPadding (text : List Char) : List Char :=
  match text.reverse with
  | '=' :: '=' :: rest => rest.reverse
  | '=' :: rest => rest.reverse
  | _ => text

/-- `atob`; `none` where it throws. -/
def atob (text : List Char) : Option (List ℕ) :=
  let text := text.filter fun c => c.toNat ∉ [0x9, 0xA, 0xC, 0xD, 0x20]
  let text := if text.length % 4 = 0 then dropPadding text else text
  if text.length % 4 = 1 then none else (text.mapM base64Value?).map unpack

theorem base64Char_visible : ∀ n < 64, (base64Char n).toNat ∉ [0x9, 0xA, 0xC, 0xD, 0x20] ∧
    base64Char n ≠ '=' := by
  decide +kernel

variable {digits : List ℕ}

section
variable (hlt : ∀ n ∈ digits, n < 64)
include hlt

theorem dropPadding_padded (hlen : digits.length % 4 ≠ 1) :
    dropPadding (padBase64 (digits.map base64Char)) = digits.map base64Char := by
  have hlast : ∀ c, (digits.map base64Char).reverse.head? = some c → c ≠ '=' := by
    intro c hc
    have hmem : c ∈ digits.map base64Char := mem_reverse.mp (mem_of_mem_head? hc)
    obtain ⟨n, hn, rfl⟩ := mem_map.mp hmem
    exact (base64Char_visible n (hlt n hn)).2
  have hpad : ∀ k, k < 3 → dropPadding (digits.map base64Char ++ List.replicate k '=') =
      digits.map base64Char := by
    intro k hk
    unfold dropPadding
    rcases hrev : (digits.map base64Char).reverse with _ | ⟨c, rest⟩
    · have hnil : digits.map base64Char = [] := reverse_eq_nil_iff.mp hrev
      rw [hnil]
      interval_cases k <;> rfl
    · have hc : c ≠ '=' := hlast c (by rw [hrev]; rfl)
      have htext : digits.map base64Char = (c :: rest).reverse := by
        rw [← hrev, reverse_reverse]
      rw [htext]
      interval_cases k
      · simp [hc]
      · simp [hc]
      · simp [List.replicate]
  rw [padBase64, length_map]
  exact hpad _ (by omega)

theorem mapM_base64Value? :
    (digits.map base64Char).mapM base64Value? = some digits := by
  induction digits with
  | nil => rfl
  | cons n digits ih =>
    rw [map_cons, mapM_cons, base64Value?_char n (hlt n mem_cons_self),
      ih fun m hm => hlt m (mem_cons_of_mem n hm)]
    rfl

/-- **Digits come back from their padded text.** -/
theorem atob_padded (hlen : digits.length % 4 ≠ 1) :
    atob (padBase64 (digits.map base64Char)) = some (unpack digits) := by
  have hfilter : (padBase64 (digits.map base64Char)).filter
      (fun c => c.toNat ∉ [0x9, 0xA, 0xC, 0xD, 0x20]) = padBase64 (digits.map base64Char) := by
    refine filter_eq_self.mpr fun c hc => decide_eq_true ?_
    rcases mem_append.mp hc with hc | hc
    · obtain ⟨n, hn, rfl⟩ := mem_map.mp hc
      exact (base64Char_visible n (hlt n hn)).1
    · rw [eq_of_mem_replicate hc]
      decide
  have hmultiple : (padBase64 (digits.map base64Char)).length % 4 = 0 := by
    rw [padBase64, length_append, length_replicate]
    omega
  unfold atob
  simp only [hfilter, hmultiple, if_true, dropPadding_padded hlt hlen, length_map, hlen,
    if_false, mapM_base64Value? hlt, Option.map_some]

end

end Foundation
