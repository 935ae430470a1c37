/-
  Lines of text, and the texts of JSON values as lines.

  * `lineFramer` takes one line off a text, up to a line feed.
  * `newline_notMem_write` and `trimChars_write`: the text of a JSON value holds no line feed, and
    `trim` leaves it as it is.
-/
import Velocious.Foundation.Framing
import Velocious.Foundation.JsonText

namespace Foundation

open List

/-- The first line of a text, and what follows its line feed. -/
def nextLine : List Char → Option (List Char × List Char)
  | [] => none
  | c :: cs =>
    if c = '\n' then some ([], cs)
    else (nextLine cs).map fun next => (c :: next.1, next.2)

theorem nextLine_append {line : List Char} (h : '\n' ∉ line) (rest : List Char) :
    nextLine (line ++ '\n' :: rest) = some (line, rest) := by
  induction line with
  | nil => rfl
  | cons c line ih =>
    rw [mem_cons, not_or] at h
    rw [cons_append, nextLine, if_neg (Ne.symm h.1), ih h.2, Option.map_some]

theorem nextLine_eq_some {b line rest : List Char} :
    nextLine b = some (line, rest) ↔ '\n' ∉ line ∧ b = line ++ '\n' :: rest := by
  constructor
  · intro h
    induction b generalizing line with
    | nil => cases h
    | cons c b ih =>
      rw [nextLine] at h
      split at h
      · rename_i hc
        cases h
        exact ⟨not_mem_nil, by rw [hc, nil_append]⟩
      · rename_i hc
        obtain ⟨next, hnext, hline⟩ := Option.map_eq_some_iff.mp h
        cases hline
        obtain ⟨hfree, hb⟩ := ih hnext
        refine ⟨?_, by rw [cons_append, ← hb]⟩
        rw [mem_cons, not_or]
        exact ⟨Ne.symm hc, hfree⟩
  · rintro ⟨hfree, rfl⟩
    exact nextLine_append hfree rest

def lineFramer : Framer Char (List Char) where
  next := nextLine
  shorter h := by
    obtain ⟨-, rfl⟩ := nextLine_eq_some.mp h
    simp only [length_append, length_cons]
    omega
  extend c h := by
    obtain ⟨hfree, rfl⟩ := nextLine_eq_some.mp h
    rw [append_assoc, cons_append]
    exact nextLine_append hfree _

def trimChars (cs : List Char) : List Char :=
  ((cs.dropWhile isJsSpace).reverse.dropWhile isJsSpace).reverse

theorem trimChars_eq_self {cs : List Char} (hfirst : ∀ c, cs.head? = some c → isJsSpace c = false)
    (hlast : ∀ c, cs.getLast? = some c → isJsSpace c = false) : trimChars cs = cs := by
  have hkeep : ∀ {xs : List Char}, (∀ c, xs.head? = some c → isJsSpace c = false) →
      xs.dropWhile isJsSpace = xs := by
    intro xs h
    cases xs with
    | nil => rfl
    | cons x xs => rw [dropWhile_cons_of_neg (by simp [h x rfl])]
  rw [trimChars, hkeep hfirst, hkeep, reverse_reverse]
  intro c hc
  rw [head?_reverse] at hc
  exact hlast c hc

/-- A character that is printed, in ASCII. -/
def Printable (c : Char) : Prop := 0x21 ≤ c.toNat ∧ c.toNat ≤ 0x7E

theorem Printable.notSpace {c : Char} (h : Printable c) : isJsSpace c = false := by
  obtain ⟨hlow, hhigh⟩ := h
  rw [← Bool.not_eq_true]
  intro hspace
  simp only [isJsSpace, Bool.or_eq_true, Bool.and_eq_true, decide_eq_true_eq, mem_cons,
    not_mem_nil, or_false] at hspace
  omega

theorem printable_of_number {c : Char} (h : isNumberChar c = true) : Printable c := by
  simp only [isNumberChar, Char.isDigit, Bool.or_eq_true, Bool.and_eq_true, decide_eq_true_eq] at h
  rcases h with (((⟨hlow, hhigh⟩ | rfl) | rfl) | rfl) | rfl
  · have hlow' : 48 ≤ c.toNat := hlow
    have hhigh' : c.toNat ≤ 57 := hhigh
    exact ⟨by omega, by omega⟩
  all_goals exact ⟨by decide, by decide⟩

namespace JsValue

/-! ## The text of a value -/

theorem newline_notMem_quoteChar (c : Char) : '\n' ∉ Json.quoteChar c := by
  have hdigit : ∀ n < 16, '\n' ≠ Json.hexDigit n := by decide
  have hlast := hdigit (c.toNat % 16) (by omega)
  unfold Json.quoteChar
  split_ifs
  all_goals simp_all [Ne.symm]
  exact hdigit (c.toNat / 16) (by omega)

theorem newline_notMem_quoteChars (s : String) : '\n' ∉ quoteChars s := by
  simp [quoteChars, newline_notMem_quoteChar]

theorem newline_notMem_writeItems {items : List JsValue} (h : ∀ v ∈ items, '\n' ∉ write v) :
    '\n' ∉ writeItems items := by
  induction items with
  | nil => simp [writeItems]
  | cons v items ih =>
    rw [forall_mem_cons] at h
    cases items with
    | nil => simp [writeItems, h.1]
    | cons w items => simp [writeItems, h.1, ih h.2]

theorem newline_notMem_writeFields {fields : List (String × JsValue)}
    (h : ∀ f ∈ fields, '\n' ∉ write f.2) : '\n' ∉ writeFields fields := by
  induction fields with
  | nil => simp [writeFields]
  | cons f fields ih =>
    rw [forall_mem_cons] at h
    cases fields with
    | nil => simp [writeFields, h.1, newline_notMem_quoteChars]
    | cons g fields => simp [writeFields, h.1, newline_notMem_quoteChars, ih h.2]

theorem newline_notMem_write (v : JsValue) : '\n' ∉ write v := by
  induction v using induct with
  | null => decide
  | bool b => cases b <;> decide
  | num x =>
    cases x with
    | finite text => exact fun h => absurd (text.number _ h) (by decide)
    | negativeZero => decide
    | nan => decide
    | infinity negative => exact (by decide : '\n' ∉ "null".toList)
  | str s => exact newline_notMem_quoteChars s
  | arr items ih => simp [write, newline_notMem_writeItems ih]
  | obj o fields ih => simp [write, newline_notMem_writeFields ih]

theorem writeItems_last (items : List JsValue) : ∃ cs, writeItems items = cs ++ [']'] := by
  induction items with
  | nil => exact ⟨[], rfl⟩
  | cons v items ih =>
    cases items with
    | nil => exact ⟨write v, rfl⟩
    | cons w items =>
      obtain ⟨cs, hcs⟩ := ih
      exact ⟨write v ++ ',' :: cs, by simp [writeItems, hcs]⟩

theorem writeFields_last (fields : List (String × JsValue)) :
    ∃ cs, writeFields fields = cs ++ ['\x7d'] := by
  induction fields with
  | nil => exact ⟨[], rfl⟩
  | cons f fields ih =>
    cases fields with
    | nil => exact ⟨quoteChars f.1 ++ ':' :: write f.2, by simp [writeFields]⟩
    | cons g fields =>
      obtain ⟨cs, hcs⟩ := ih
      exact ⟨quoteChars f.1 ++ ':' :: (write f.2 ++ ',' :: cs), by simp [writeFields, hcs]⟩

theorem write_first {v : JsValue} {c : Char} (h : (write v).head? = some c) : Printable c := by
  cases v with
  | null =>
    cases h
    exact ⟨by decide, by decide⟩
  | bool b =>
    cases b with
    | true | false =>
      cases h
      exact ⟨by decide, by decide⟩
  | num x =>
    cases x with
    | finite text => exact printable_of_number (text.number c (mem_of_head? h))
    | negativeZero | nan | infinity _ =>
      cases h
      exact ⟨by decide, by decide⟩
  | str _ | arr _ | obj _ _ =>
    cases h
    exact ⟨by decide, by decide⟩

theorem write_last {v : JsValue} {c : Char} (h : (write v).getLast? = some c) : Printable c := by
  have hend : ∀ {cs : List Char} {d : Char}, write v = cs ++ [d] → Printable d → Printable c := by
    intro cs d hwrite hd
    rw [hwrite, getLast?_concat] at h
    exact Option.some.inj h ▸ hd
  cases v with
  | null => exact @hend ['n', 'u', 'l'] 'l' rfl ⟨by decide, by decide⟩
  | bool b =>
    cases b with
    | true => exact @hend ['t', 'r', 'u'] 'e' rfl ⟨by decide, by decide⟩
    | false => exact @hend ['f', 'a', 'l', 's'] 'e' rfl ⟨by decide, by decide⟩
  | num x =>
    cases x with
    | finite text => exact printable_of_number (text.number c (mem_of_getLast? h))
    | negativeZero => exact @hend [] '0' rfl ⟨by decide, by decide⟩
    | nan | infinity _ => exact @hend ['n', 'u', 'l'] 'l' rfl ⟨by decide, by decide⟩
  | str s => exact @hend ('"' :: s.toList.flatMap Json.quoteChar) '"' rfl ⟨by decide, by decide⟩
  | arr items =>
    obtain ⟨cs, hcs⟩ := writeItems_last items
    exact @hend ('[' :: cs) ']' (congrArg ('[' :: ·) hcs) ⟨by decide, by decide⟩
  | obj o fields =>
    obtain ⟨cs, hcs⟩ := writeFields_last fields
    exact @hend ('\x7b' :: cs) '\x7d' (congrArg ('\x7b' :: ·) hcs) ⟨by decide, by decide⟩

theorem trimChars_write (v : JsValue) : trimChars (write v) = write v :=
  trimChars_eq_self (fun _ h => (write_first h).notSpace) fun _ h => (write_last h).notSpace

theorem write_ne_nil (v : JsValue) : write v ≠ [] := by
  cases v with
  | num x =>
    cases x with
    | finite text => exact text.ne_nil
    | negativeZero | nan | infinity _ => exact cons_ne_nil _ _
  | bool b => cases b <;> exact cons_ne_nil _ _
  | null | str _ | arr _ | obj _ _ => exact cons_ne_nil _ _

end JsValue

end Foundation
