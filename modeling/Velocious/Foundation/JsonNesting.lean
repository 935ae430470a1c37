/-
  Where the text of a JSON value begins, read from behind.

  `nest` follows the quotes and brackets of a text. The text of a value leaves it where it was, so
  that the text of an object, which is closed only at its end, contains no colon with the text of an
  object behind it up to its own end: `colon_object_inj`.
-/
import Velocious.Foundation.JsonText

namespace Foundation

open List

namespace JsValue

/-- Outside strings, inside one, or behind a backslash in one; at a depth of brackets. -/
inductive Nest where
  | outside (depth : ℕ)
  | inside (depth : ℕ)
  | escape (depth : ℕ)
  | bad
  deriving DecidableEq

def Nest.step (s : Nest) (c : Char) : Nest :=
  match s with
  | outside depth =>
    if c = '"' then inside depth
    else if c = '\\' then bad
    else if c = '[' ∨ c = '\x7b' then outside (depth + 1)
    else if c = ']' ∨ c = '\x7d' then if depth = 0 then bad else outside (depth - 1)
    else outside depth
  | inside depth => if c = '"' then outside depth else if c = '\\' then escape depth else inside depth
  | escape depth => inside depth
  | bad => bad

/-- The quotes and brackets of a text. -/
def nest (s : Nest) (cs : List Char) : Nest := cs.foldl Nest.step s

theorem nest_append (s : Nest) (cs ds : List Char) : nest s (cs ++ ds) = nest (nest s cs) ds :=
  foldl_append

theorem nest_cons (s : Nest) (c : Char) (cs : List Char) : nest s (c :: cs) = nest (s.step c) cs :=
  rfl

theorem nest_bad (cs : List Char) : nest .bad cs = .bad := by
  induction cs with
  | nil => rfl
  | cons c cs ih => exact ih

/-- A character that is no quote, backslash or bracket. -/
def isInner (c : Char) : Bool := c ∉ ['"', '\\', '[', ']', '\x7b', '\x7d']

theorem nest_inner {cs : List Char} (h : ∀ c ∈ cs, isInner c = true) (depth : ℕ) :
    nest (.outside depth) cs = .outside depth := by
  induction cs with
  | nil => rfl
  | cons c cs ih =>
    rw [forall_mem_cons] at h
    have hc : Nest.step (.outside depth) c = .outside depth := by
      simp_all [isInner, Nest.step]
    rw [nest_cons, hc, ih h.2]

theorem nest_quoteChar (c : Char) (depth : ℕ) :
    nest (.inside depth) (Json.quoteChar c) = .inside depth := by
  have hhex : ∀ n < 16, Json.hexDigit n ≠ '"' ∧ Json.hexDigit n ≠ '\\' := by decide
  rcases quoteChar_cases c with ⟨d, -, h⟩ | ⟨hlt, h⟩ | ⟨hslash, hquote, h⟩
  · simp [h, nest, Nest.step]
  · obtain ⟨h₁, h₂⟩ := hhex (c.toNat / 16) (by omega)
    obtain ⟨h₃, h₄⟩ := hhex (c.toNat % 16) (by omega)
    simp [h, nest, Nest.step, h₁, h₂, h₃, h₄]
  · simp [h, nest, Nest.step, hslash, hquote]

theorem nest_quoteChars (s : String) (depth : ℕ) :
    nest (.outside depth) (quoteChars s) = .outside depth := by
  have hchars : ∀ cs : List Char,
      nest (.inside depth) (cs.flatMap Json.quoteChar) = .inside depth := by
    intro cs
    induction cs with
    | nil => rfl
    | cons c cs ih => rw [flatMap_cons, nest_append, nest_quoteChar, ih]
  rw [quoteChars, cons_append, nest_cons, nest_append]
  simp only [Nest.step, if_true, hchars]
  rfl

theorem isInner_of_number {c : Char} (h : isNumberChar c = true) : isInner c = true := by
  simp only [isInner, decide_eq_true_eq]
  intro hmem
  simp only [mem_cons, not_mem_nil, or_false] at hmem
  rcases hmem with rfl | rfl | rfl | rfl | rfl | rfl <;> exact absurd h (by decide)

theorem nest_writeItems {items : List JsValue}
    (h : ∀ v ∈ items, ∀ depth, nest (.outside depth) (write v) = .outside depth) (depth : ℕ) :
    nest (.outside (depth + 1)) (writeItems items) = .outside depth := by
  induction items with
  | nil => rfl
  | cons v items ih =>
    rw [forall_mem_cons] at h
    rw [writeItems_cons, nest_append, h.1]
    cases items with
    | nil => rfl
    | cons w items => exact ih h.2

theorem nest_writeFields {fields : List (String × JsValue)}
    (h : ∀ f ∈ fields, ∀ depth, nest (.outside depth) (write f.2) = .outside depth) (depth : ℕ) :
    nest (.outside (depth + 1)) (writeFields fields) = .outside depth := by
  induction fields with
  | nil => rfl
  | cons f fields ih =>
    rw [forall_mem_cons] at h
    have hcolon : Nest.step (.outside (depth + 1)) ':' = .outside (depth + 1) := rfl
    rw [writeFields_cons, nest_append, nest_quoteChars, nest_cons, hcolon, nest_append, h.1]
    cases fields with
    | nil => rfl
    | cons g fields => exact ih h.2

/-- **The text of a value leaves the nesting where it was.** -/
theorem nest_write (v : JsValue) (depth : ℕ) : nest (.outside depth) (write v) = .outside depth := by
  induction v using induct generalizing depth with
  | null => rfl
  | bool b => cases b <;> rfl
  | num x =>
    cases x with
    | finite text => exact nest_inner (fun c hc => isInner_of_number (text.number c hc)) depth
    | negativeZero | nan | infinity _ => rfl
  | str s => exact nest_quoteChars s depth
  | arr items ih => exact nest_writeItems ih depth
  | obj o fields ih => exact nest_writeFields ih depth

theorem writeFields_body (fields : List (String × JsValue)) : ∃ body,
    writeFields fields = body ++ ['\x7d'] ∧
      ∀ depth, nest (.outside depth) body = .outside depth := by
  induction fields with
  | nil => exact ⟨[], rfl, fun _ => rfl⟩
  | cons f fields ih =>
    have hfield : ∀ (cs : List Char) (depth : ℕ),
        nest (.outside depth) (quoteChars f.1 ++ ':' :: (write f.2 ++ cs)) =
          nest (.outside depth) cs := by
      intro cs depth
      have hcolon : Nest.step (.outside depth) ':' = .outside depth := rfl
      rw [nest_append, nest_quoteChars, nest_cons, hcolon, nest_append, nest_write]
    rw [writeFields_cons]
    cases fields with
    | nil =>
      refine ⟨quoteChars f.1 ++ ':' :: (write f.2 ++ []), ?_, fun depth => ?_⟩
      · simp [restFields]
      · rw [hfield]
        rfl
    | cons g fields =>
      obtain ⟨body, hbody, hnest⟩ := ih
      refine ⟨quoteChars f.1 ++ ':' :: (write f.2 ++ ',' :: body), ?_, fun depth => ?_⟩
      · simp [restFields, hbody]
      · have hcomma : Nest.step (.outside depth) ',' = .outside depth := rfl
        rw [hfield, nest_cons, hcomma, hnest]

/-- One reading of a text takes for inside strings what the other takes for outside. -/
def Turned (p q : Nest) : Prop :=
  p = .bad ∨ q = .bad ∨ (∃ a b, p = .outside a ∧ q = .inside b) ∨
    ∃ a b, p = .inside a ∧ q = .outside b

theorem Turned.step {p q : Nest} (h : Turned p q) (c : Char) : Turned (p.step c) (q.step c) := by
  rcases h with rfl | rfl | ⟨a, b, rfl, rfl⟩ | ⟨a, b, rfl, rfl⟩
  · exact .inl rfl
  · exact .inr (.inl rfl)
  · by_cases hquote : c = '"'
    · exact .inr (.inr (.inr ⟨a, b, by simp [Nest.step, hquote], by simp [Nest.step, hquote]⟩))
    by_cases hslash : c = '\\'
    · exact .inl (by simp [Nest.step, hslash])
    · simp only [Nest.step, hquote, hslash, if_false]
      split
      · exact .inr (.inr (.inl ⟨_, _, rfl, rfl⟩))
      split
      · split
        · exact .inl rfl
        · exact .inr (.inr (.inl ⟨_, _, rfl, rfl⟩))
      · exact .inr (.inr (.inl ⟨_, _, rfl, rfl⟩))
  · by_cases hquote : c = '"'
    · exact .inr (.inr (.inl ⟨a, b, by simp [Nest.step, hquote], by simp [Nest.step, hquote]⟩))
    by_cases hslash : c = '\\'
    · exact .inr (.inl (by simp [Nest.step, hslash]))
    · simp only [Nest.step, hquote, hslash, if_false]
      split
      · exact .inr (.inr (.inr ⟨_, _, rfl, rfl⟩))
      split
      · split
        · exact .inr (.inl rfl)
        · exact .inr (.inr (.inr ⟨_, _, rfl, rfl⟩))
      · exact .inr (.inr (.inr ⟨_, _, rfl, rfl⟩))

theorem Turned.nest {p q : Nest} (h : Turned p q) (cs : List Char) :
    Turned (nest p cs) (nest q cs) := by
  induction cs generalizing p q with
  | nil => exact h
  | cons c cs ih => exact ih (h.step c)

theorem not_colon_object {o o' : Bool} {fields fields' : List (String × JsValue)} {cs : List Char} :
    write (.obj o fields) ≠ cs ++ ':' :: write (.obj o' fields') := by
  intro h
  obtain ⟨body, hbody, hnest⟩ := writeFields_body fields
  obtain ⟨body', hbody', hnest'⟩ := writeFields_body fields'
  simp only [write, hbody, hbody'] at h
  cases cs with
  | nil => simp at h
  | cons c cs =>
    have hinner : body = cs ++ ':' :: '\x7b' :: body' := by
      have htail : body ++ ['\x7d'] = (cs ++ ':' :: '\x7b' :: body') ++ ['\x7d'] := by
        rw [(List.cons.inj h).2]
        simp
      exact append_cancel_right htail
    have hend := hnest 0
    rw [hinner, nest_append, nest_cons, nest_cons] at hend
    have hturned : ∀ depth, JsValue.nest (.inside depth) body' ≠ .outside 0 := by
      intro depth heq
      have hturn : Turned (.outside 0) (.inside depth) := .inr (.inr (.inl ⟨_, _, rfl, rfl⟩))
      have hbodies := hturn.nest body'
      rw [hnest', heq] at hbodies
      simp [Turned] at hbodies
    cases hq : JsValue.nest (.outside 0) cs with
    | outside depth =>
      rw [hq] at hend
      have hbrace : ((Nest.outside depth).step ':').step '\x7b' = .outside (depth + 1) := rfl
      rw [hbrace, hnest'] at hend
      simp at hend
    | inside depth =>
      rw [hq] at hend
      exact hturned depth hend
    | escape depth =>
      rw [hq] at hend
      exact hturned depth hend
    | bad =>
      rw [hq] at hend
      have hbad : ((Nest.bad).step ':').step '\x7b' = .bad := rfl
      rw [hbad, nest_bad] at hend
      cases hend

/-- **A text ends with a colon and an object's text in one way.** -/
theorem colon_object_inj {o o' : Bool} {fields fields' : List (String × JsValue)}
    {cs ds : List Char}
    (h : cs ++ ':' :: write (.obj o fields) = ds ++ ':' :: write (.obj o' fields')) :
    cs = ds ∧ write (.obj o fields) = write (.obj o' fields') := by
  rcases append_eq_append_iff.mp h with ⟨es, hds, hes⟩ | ⟨es, hcs, hes⟩
  · cases es with
    | nil => exact ⟨by simpa using hds.symm, (List.cons.inj hes).2⟩
    | cons e es => exact absurd (List.cons.inj hes).2 not_colon_object
  · cases es with
    | nil => exact ⟨by simpa using hcs, (List.cons.inj hes).2.symm⟩
    | cons e es => exact absurd (List.cons.inj hes).2 not_colon_object

end JsValue

end Foundation
