/-
  `JSON.parse` on the texts that `JSON.stringify` writes: without white space, and with every
  number as JavaScript writes it, so that a number is read as the number of that text.
-/
import Velocious.Foundation.JsonText
import Mathlib.Data.List.TakeWhile

namespace Foundation

open Json List

/-! ## Strings -/

def hexValue? (c : Char) : Option ℕ :=
  if '0' ≤ c ∧ c ≤ '9' then some (c.toNat - 48)
  else if 'a' ≤ c ∧ c ≤ 'f' then some (c.toNat - 87)
  else if 'A' ≤ c ∧ c ≤ 'F' then some (c.toNat - 55)
  else none

/-- The character that `\c` stands for. -/
def escaped? (c : Char) : Option Char :=
  if c ∈ ['"', '\\', '/', 'b', 'f', 'n', 'r', 't'] then some (unescape c) else none

/-- The characters of a string up to its closing quote, and what follows. -/
def readChars : List Char → Option (List Char × List Char)
  | [] => none
  | '"' :: cs => some ([], cs)
  | '\\' :: 'u' :: h₁ :: h₂ :: h₃ :: h₄ :: cs => do
    let unit := ((← hexValue? h₁) * 16 + (← hexValue? h₂)) * 256 + (← hexValue? h₃) * 16 +
      (← hexValue? h₄)
    let (s, rest) ← readChars cs
    return (Char.ofNat unit :: s, rest)
  | '\\' :: c :: cs => do
    let d ← escaped? c
    let (s, rest) ← readChars cs
    return (d :: s, rest)
  | c :: cs => do
    if c = '\\' ∨ c.toNat < 0x20 then none
    let (s, rest) ← readChars cs
    return (c :: s, rest)

theorem hexValue?_hexDigit : ∀ n < 16, hexValue? (hexDigit n) = some n := by
  decide

theorem escaped?_quoteChar {c d : Char} (h : quoteChar c = ['\\', d]) : escaped? d = some c := by
  have hmem : d ∈ ['"', '\\', '/', 'b', 'f', 'n', 'r', 't'] := by
    unfold quoteChar at h
    grind
  rw [escaped?, if_pos hmem, ← quoteChar_escape h]

theorem not_control {c : Char} (h : quoteChar c = [c]) : ¬ c.toNat < 0x20 := by
  unfold quoteChar at h
  grind

theorem readChars_quoteChar (c : Char) (cs : List Char) :
    readChars (quoteChar c ++ cs) = (readChars cs).map fun r => (c :: r.1, r.2) := by
  have hbind : ∀ d : Char, (do let (s, rest) ← readChars cs; return (d :: s, rest)) =
      (readChars cs).map fun r => (d :: r.1, r.2) := by
    intro d
    cases readChars cs <;> rfl
  rcases quoteChar_cases c with ⟨d, hd, hc⟩ | ⟨hlow, hc⟩ | ⟨hslash, hquote, hc⟩
  · have hknown := escaped?_quoteChar hc
    rw [hc, cons_append, cons_append, readChars, hknown]
    · exact hbind c
    · intro h₁ h₂ h₃ h₄ cs' hu
      exact absurd hu hd
  · have hhigh := hexValue?_hexDigit (c.toNat / 16) (by omega)
    have hlast := hexValue?_hexDigit (c.toNat % 16) (by omega)
    have hzero : hexValue? '0' = some 0 := rfl
    have hunit : ((0 * 16 + 0) * 256 + c.toNat / 16 * 16 + c.toNat % 16) = c.toNat := by omega
    rw [hc]
    simp only [cons_append, readChars, hzero, hhigh, hlast,
      Option.bind_eq_bind, Option.bind_some, hunit, Char.ofNat_toNat]
    exact hbind c
  · rw [hc, cons_append, readChars, if_neg]
    · exact hbind c
    · simp [hslash, not_control hc]
    · exact hquote
    · intro h₁ h₂ h₃ h₄ cs' hu
      exact absurd hu hslash
    · intro d cs' hu
      exact absurd hu hslash
theorem readChars_quote (s : List Char) (rest : List Char) :
    readChars (s.flatMap quoteChar ++ '"' :: rest) = some (s, rest) := by
  induction s with
  | nil => rfl
  | cons c s ih => simp [readChars_quoteChar, ih]

/-! ## Values -/

namespace JsValue

def readNumber (cs : List Char) : Option (JsValue × List Char) :=
  if h : cs.takeWhile isNumberChar = [] then none
  else some (.num (.finite ⟨cs.takeWhile isNumberChar, h, fun _ => mem_takeWhile_imp⟩),
    cs.dropWhile isNumberChar)

mutual

/-- A value, and what follows it. -/
def readValue : ℕ → List Char → Option (JsValue × List Char)
  | 0, _ => none
  | _ + 1, 'n' :: 'u' :: 'l' :: 'l' :: cs => some (.null, cs)
  | _ + 1, 't' :: 'r' :: 'u' :: 'e' :: cs => some (.bool true, cs)
  | _ + 1, 'f' :: 'a' :: 'l' :: 's' :: 'e' :: cs => some (.bool false, cs)
  | _ + 1, '"' :: cs => (readChars cs).map fun r => (.str (.ofList r.1), r.2)
  | _ + 1, '[' :: ']' :: cs => some (.arr [], cs)
  | fuel + 1, '[' :: cs => (readItems fuel cs).map fun r => (.arr r.1, r.2)
  | _ + 1, '\x7b' :: '\x7d' :: cs => some (.obj true [], cs)
  | fuel + 1, '\x7b' :: cs => (readFields fuel cs).map fun r => (.obj true r.1, r.2)
  | _ + 1, cs => readNumber cs

/-- One or more items, up to the closing bracket. -/
def readItems : ℕ → List Char → Option (List JsValue × List Char)
  | 0, _ => none
  | fuel + 1, cs => do
    match ← readValue fuel cs with
    | (v, ']' :: rest) => return ([v], rest)
    | (v, ',' :: rest) =>
      let (items, rest) ← readItems fuel rest
      return (v :: items, rest)
    | _ => none

/-- One or more fields, up to the closing brace. -/
def readFields : ℕ → List Char → Option (List (String × JsValue) × List Char)
  | 0, _ => none
  | fuel + 1, '"' :: cs => do
    let (k, rest) ← readChars cs
    match rest with
    | ':' :: rest =>
      match ← readValue fuel rest with
      | (v, '\x7d' :: rest) => return ([(.ofList k, v)], rest)
      | (v, ',' :: rest) =>
        let (fields, rest) ← readFields fuel rest
        return ((.ofList k, v) :: fields, rest)
      | _ => none
    | _ => none
  | _ + 1, _ => none

end

def parse (text : List Char) : Option JsValue :=
  match readValue (2 * text.length) text with
  | some (v, []) => some v
  | _ => none

/-- What `readValue` reads of a value's text. -/
def Reads (v : JsValue) : Prop := ∀ fuel rest, 2 * (write v).length ≤ fuel → Ends rest →
  readValue fuel (write v ++ rest) = some (v, rest)

theorem readNumber_chars (x : NumberText) {rest : List Char} (hrest : Ends rest) :
    readNumber (x.chars ++ rest) = some (.num (.finite x), rest) := by
  have hhead : rest.takeWhile isNumberChar = [] ∧ rest.dropWhile isNumberChar = rest := by
    cases rest with
    | nil => exact ⟨rfl, rfl⟩
    | cons c rest => simp [hrest c rfl]
  have htake : (x.chars ++ rest).takeWhile isNumberChar = x.chars := by
    rw [takeWhile_append_of_pos x.number, hhead.1, append_nil]
  have hdrop : (x.chars ++ rest).dropWhile isNumberChar = rest := by
    rw [dropWhile_append_of_pos x.number, hhead.2]
  unfold readNumber
  simp only [htake, hdrop]
  rw [dif_neg x.ne_nil]

variable {v : JsValue}

theorem write_length_pos (h : isWritten v = true) : 0 < (write v).length := by
  obtain ⟨c, s, hwrite, -⟩ := write_begins h
  rw [hwrite]
  exact Nat.succ_pos _

theorem readItems_write {items : List JsValue} (hne : items ≠ []) (hreads : ∀ v ∈ items, Reads v)
    (fuel : ℕ) (rest : List Char) (hfuel : 2 * (writeItems items).length ≤ fuel) :
    readItems fuel (writeItems items ++ rest) = some (items, rest) := by
  induction items generalizing fuel with
  | nil => exact absurd rfl hne
  | cons v items ih =>
    rw [writeItems_cons, length_append] at hfuel
    have hpos : 0 < (restItems items).length := by cases items <;> simp [restItems]
    obtain ⟨fuel, rfl⟩ := Nat.exists_eq_add_of_le' (show 1 ≤ fuel by omega)
    have hv := hreads v mem_cons_self fuel (restItems items ++ rest) (by omega)
      (ends_restItems items rest)
    rw [writeItems_cons, append_assoc, readItems, hv]
    cases items with
    | nil => rfl
    | cons w items =>
      have hlength : (restItems (w :: items)).length = (writeItems (w :: items)).length + 1 := rfl
      have hitems := ih (by simp) (fun u hu => hreads u (mem_cons_of_mem v hu))
        fuel (by omega)
      simp [restItems, hitems]

theorem readFields_write {fields : List (String × JsValue)} (hne : fields ≠ [])
    (hreads : ∀ f ∈ fields, Reads f.2) (fuel : ℕ) (rest : List Char)
    (hfuel : 2 * (writeFields fields).length ≤ fuel) :
    readFields fuel (writeFields fields ++ rest) = some (fields, rest) := by
  induction fields generalizing fuel with
  | nil => exact absurd rfl hne
  | cons f fields ih =>
    rw [writeFields_cons, length_append, length_cons, length_append] at hfuel
    obtain ⟨fuel, rfl⟩ := Nat.exists_eq_add_of_le' (show 1 ≤ fuel by omega)
    have hv := hreads f mem_cons_self fuel (restFields fields ++ rest) (by omega)
      (ends_restFields fields rest)
    have hkey := readChars_quote f.1.toList (':' :: (write f.2 ++ (restFields fields ++ rest)))
    have htext : writeFields (f :: fields) ++ rest = '"' :: (f.1.toList.flatMap Json.quoteChar ++
        '"' :: ':' :: (write f.2 ++ (restFields fields ++ rest))) := by
      simp [writeFields_cons, quoteChars]
    rw [htext, readFields, hkey]
    simp only [Option.bind_eq_bind, Option.bind_some, hv, String.ofList_toList]
    cases fields with
    | nil => rfl
    | cons g fields =>
      have hlength : (restFields (g :: fields)).length = (writeFields (g :: fields)).length + 1 := rfl
      have hfields := ih (by simp) (fun u hu => hreads u (mem_cons_of_mem f hu))
        fuel (by omega)
      simp [restFields, hfields]

theorem readValue_number {c : Char} (hc : isNumberChar c = true) (fuel : ℕ) (cs : List Char) :
    readValue (fuel + 1) (c :: cs) = readNumber (c :: cs) := by
  have hne : ∀ d, isNumberChar d = false → c ≠ d := by
    rintro d hd rfl
    exact absurd hc (by simp [hd])
  have hn := hne 'n' (by decide)
  have ht := hne 't' (by decide)
  have hf := hne 'f' (by decide)
  have hquote := hne '"' (by decide)
  have harr := hne '[' (by decide)
  have hobj := hne '\x7b' (by decide)
  rw [readValue] <;> simp_all

theorem readValue_items {c : Char} (hc : c ≠ ']') (fuel : ℕ) (cs : List Char) :
    readValue (fuel + 1) ('[' :: c :: cs) =
      (readItems fuel (c :: cs)).map fun r => (.arr r.1, r.2) := by
  rw [readValue]
  simp [hc]

theorem reads (hv : all isWritten v = true) : Reads v := by
  induction v using induct with
  | null =>
    intro fuel rest hfuel hrest
    obtain ⟨fuel, rfl⟩ := Nat.exists_eq_add_of_le' (show 1 ≤ fuel by simp [write] at hfuel; omega)
    rfl
  | bool b =>
    intro fuel rest hfuel hrest
    obtain ⟨fuel, rfl⟩ := Nat.exists_eq_add_of_le' (show 1 ≤ fuel by
      cases b <;> simp [write] at hfuel <;> omega)
    cases b <;> rfl
  | num x =>
    intro fuel rest hfuel hrest
    cases x with
    | finite x =>
      have hpos := write_length_pos (v := .num (.finite x)) rfl
      obtain ⟨fuel, rfl⟩ := Nat.exists_eq_add_of_le' (show 1 ≤ fuel by omega)
      obtain ⟨c, s, hcons⟩ := exists_cons_of_ne_nil x.ne_nil
      have hc := x.number c (hcons ▸ mem_cons_self)
      have hnumber := readNumber_chars x hrest
      rw [write, NumberValue.write]
      rw [hcons] at hnumber ⊢
      rw [cons_append, readValue_number hc, ← cons_append, hnumber]
    | negativeZero | nan | infinity _ => cases hv
  | str s =>
    intro fuel rest hfuel hrest
    obtain ⟨fuel, rfl⟩ := Nat.exists_eq_add_of_le' (show 1 ≤ fuel by
      simp [write, quoteChars] at hfuel; omega)
    have hchars := readChars_quote s.toList rest
    simp [write, quoteChars, readValue, hchars]
  | arr items ih =>
    intro fuel rest hfuel hrest
    obtain ⟨fuel, rfl⟩ := Nat.exists_eq_add_of_le' (show 1 ≤ fuel by simp [write] at hfuel; omega)
    have hitems := (all_arr.mp hv).2
    cases items with
    | nil => rfl
    | cons w items =>
      have hread := readItems_write (by simp) (fun u hu => ih u hu (hitems u hu)) fuel rest
        (by simp [write] at hfuel; omega)
      obtain ⟨c, s, hwrite, hbegins⟩ := write_begins (all_head (hitems w mem_cons_self))
      have hc : c ≠ ']' := by
        rintro rfl
        exact not_begins_close hbegins
      have htext : write (.arr (w :: items)) ++ rest =
          '[' :: c :: (s ++ (restItems items ++ rest)) := by
        simp [write, writeItems_cons, hwrite]
      have hitem : writeItems (w :: items) ++ rest = c :: (s ++ (restItems items ++ rest)) := by
        simp [writeItems_cons, hwrite]
      rw [hitem] at hread
      rw [htext, readValue_items hc, hread]
      rfl
  | obj o fields ih =>
    intro fuel rest hfuel hrest
    obtain ⟨fuel, rfl⟩ := Nat.exists_eq_add_of_le' (show 1 ≤ fuel by simp [write] at hfuel; omega)
    obtain ⟨ho, hfields⟩ := all_obj.mp hv
    obtain rfl : o = true := ho
    cases fields with
    | nil => rfl
    | cons f fields =>
      have hread := readFields_write (by simp) (fun g hg => ih g hg (hfields g hg)) fuel rest
        (by simp [write] at hfuel; omega)
      have hfield : writeFields (f :: fields) ++ rest = '"' :: (f.1.toList.flatMap Json.quoteChar ++
          '"' :: ':' :: (write f.2 ++ (restFields fields ++ rest))) := by
        simp [writeFields_cons, quoteChars]
      have htext : write (.obj true (f :: fields)) ++ rest =
          '\x7b' :: (writeFields (f :: fields) ++ rest) := rfl
      rw [hfield] at hread
      rw [htext, hfield]
      rw [readValue, hread]
      · rfl
      · simp

/-- **A value is read from its text**, if its numbers are finite and its objects ordinary. -/
theorem parse_of_written (hv : all isWritten v = true) : parse (write v) = some v := by
  have hread := reads hv (2 * (write v).length) [] le_rfl nofun
  rw [append_nil] at hread
  rw [parse, hread]

/-- **What is read back** from the text of a value. -/
theorem parse_write (v : JsValue) : parse (write v) = some (viaJson v) := by
  rw [← write_viaJson, parse_of_written (written_viaJson v)]

end JsValue

end Foundation
