/-
  The values that a program builds from JSON, and the text that `JSON.stringify` writes for
  them.

  A finite number is known by its text, so it is kept as that text. `JSON.parse` also makes
  -0 and, from a literal too large, an infinity, and neither is written as it was read. An
  object remembers whether its prototype is the ordinary one.

  * `orderEntries`: the order in which an object lists keys that were sorted before they
    were assigned.
  * `viaJson`: what comes out of `JSON.parse(JSON.stringify(value))`.
-/
import Velocious.Foundation.Javascript

namespace Foundation

open List

attribute [local instance (high)] List.decidableBAll

section
variable {α β : Type*} {code : α → List β}

/-- A code by words, none a prefix of another. -/
structure WordCode (code : α → List β) : Prop where
  ne_nil : ∀ a, code a ≠ []
  inj : ∀ {a b s t}, code a ++ s = code b ++ t → a = b

theorem WordCode.append_inj (h : WordCode code) {a b : α} {s t : List β}
    (heq : code a ++ s = code b ++ t) : a = b ∧ s = t := by
  obtain rfl := h.inj heq
  exact ⟨rfl, append_cancel_left heq⟩

theorem WordCode.flatMap_inj (h : WordCode code) (stop : List β → Prop)
    (hstop : ∀ a s, ¬ stop (code a ++ s)) {l m : List α} {s t : List β} (hs : stop s) (ht : stop t)
    (heq : l.flatMap code ++ s = m.flatMap code ++ t) : l = m ∧ s = t := by
  induction l generalizing m with
  | nil =>
    cases m with
    | nil => exact ⟨rfl, heq⟩
    | cons b m =>
      rw [flatMap_nil, nil_append, flatMap_cons, append_assoc] at heq
      exact absurd (heq ▸ hs) (hstop b _)
  | cons a l ih =>
    cases m with
    | nil =>
      rw [flatMap_nil, nil_append, flatMap_cons, append_assoc] at heq
      exact absurd (heq.symm ▸ ht) (hstop a _)
    | cons b m =>
      rw [flatMap_cons, append_assoc, flatMap_cons, append_assoc] at heq
      obtain ⟨rfl, hrest⟩ := h.append_inj heq
      obtain ⟨rfl, rfl⟩ := ih hrest
      exact ⟨rfl, rfl⟩

end

/-! ## Strings -/

theorem utf16Units_wordCode : WordCode utf16Units where
  ne_nil c := by
    unfold utf16Units
    split <;> simp
  inj {a b s t} heq := by
    have ha : a.toNat < 0xD800 ∨ 0xDFFF < a.toNat ∧ a.toNat < 0x110000 := a.valid
    have hb : b.toNat < 0xD800 ∨ 0xDFFF < b.toNat ∧ b.toNat < 0x110000 := b.valid
    refine Char.toNat_inj.mp ?_
    -- the first unit of a pair is a surrogate, which no single unit is
    unfold utf16Units at heq
    split at heq
    · split at heq
      · simp only [cons_append, List.cons.injEq] at heq
        exact heq.1
      · simp only [cons_append, List.cons.injEq] at heq
        omega
    · split at heq
      · simp only [cons_append, List.cons.injEq] at heq
        omega
      · simp only [cons_append, List.cons.injEq] at heq
        omega

theorem codeUnits_inj {s t : String} (h : codeUnits s = codeUnits t) : s = t := by
  have heq : s.toList.flatMap utf16Units ++ [] = t.toList.flatMap utf16Units ++ [] := by
    simpa [codeUnits] using h
  have hlist := (utf16Units_wordCode.flatMap_inj (· = [])
    (fun a s h => utf16Units_wordCode.ne_nil a (append_eq_nil_iff.mp h).1) rfl rfl heq).1
  exact String.ext hlist

theorem hexDigit_inj : ∀ m < 16, ∀ n < 16, Json.hexDigit m = Json.hexDigit n → m = n := by
  decide

theorem quoteChar_cases (c : Char) :
    (∃ d, d ≠ 'u' ∧ Json.quoteChar c = ['\\', d]) ∨
      (c.toNat < 32 ∧ Json.quoteChar c =
        ['\\', 'u', '0', '0', Json.hexDigit (c.toNat / 16), Json.hexDigit (c.toNat % 16)]) ∨
      (c ≠ '\\' ∧ c ≠ '"' ∧ Json.quoteChar c = [c]) := by
  unfold Json.quoteChar
  split
  · exact .inl ⟨'"', by decide, rfl⟩
  split
  · exact .inl ⟨'\\', by decide, rfl⟩
  split
  · exact .inl ⟨'b', by decide, rfl⟩
  split
  · exact .inl ⟨'f', by decide, rfl⟩
  split
  · exact .inl ⟨'n', by decide, rfl⟩
  split
  · exact .inl ⟨'r', by decide, rfl⟩
  split
  · exact .inl ⟨'t', by decide, rfl⟩
  split
  · exact .inr (.inl ⟨‹_›, rfl⟩)
  · exact .inr (.inr ⟨‹_›, ‹_›, rfl⟩)

/-- The character that an escape stands for. -/
def unescape : Char → Char
  | 'b' => Char.ofNat 0x8
  | 'f' => Char.ofNat 0xC
  | 'n' => '\n'
  | 'r' => '\r'
  | 't' => '\t'
  | d => d

theorem quoteChar_escape {c d : Char} (h : Json.quoteChar c = ['\\', d]) : c = unescape d := by
  unfold Json.quoteChar at h
  split at h
  · cases h
    assumption
  split at h
  · cases h
    assumption
  split at h
  · rename_i hc
    cases h
    exact Char.toNat_inj.mp hc
  split at h
  · rename_i hc
    cases h
    exact Char.toNat_inj.mp hc
  split at h
  · cases h
    assumption
  split at h
  · cases h
    assumption
  split at h
  · cases h
    assumption
  split at h
  · cases h
  · cases h

theorem quoteChar_wordCode : WordCode Json.quoteChar where
  ne_nil c := by
    rcases quoteChar_cases c with ⟨d, -, h⟩ | ⟨-, h⟩ | ⟨-, -, h⟩
    · simp [h]
    · simp [h]
    · simp [h]
  inj {a b s t} heq := by
    rcases quoteChar_cases a with ⟨d, hd, ha⟩ | ⟨hlow, ha⟩ | ⟨hslash, -, ha⟩
    · rcases quoteChar_cases b with ⟨d', -, hb⟩ | ⟨-, hb⟩ | ⟨hslash', -, hb⟩
      · rw [ha, hb] at heq
        cases heq
        rw [quoteChar_escape ha, quoteChar_escape hb]
      · rw [ha, hb] at heq
        cases heq
        exact absurd rfl hd
      · rw [ha, hb] at heq
        cases heq
        exact absurd rfl hslash'
    · rcases quoteChar_cases b with ⟨d', hd', hb⟩ | ⟨hlow', hb⟩ | ⟨hslash', -, hb⟩
      · rw [ha, hb] at heq
        cases heq
        exact absurd rfl hd'
      · rw [ha, hb] at heq
        simp only [cons_append, List.cons.injEq, true_and] at heq
        have hhigh := hexDigit_inj _ (by omega) _ (by omega) heq.1
        have hlast := hexDigit_inj _ (by omega) _ (by omega) heq.2.1
        refine Char.toNat_inj.mp ?_
        omega
      · rw [ha, hb] at heq
        cases heq
        exact absurd rfl hslash'
    · rcases quoteChar_cases b with ⟨d', -, hb⟩ | ⟨-, hb⟩ | ⟨-, -, hb⟩
      · rw [ha, hb] at heq
        cases heq
        exact absurd rfl hslash
      · rw [ha, hb] at heq
        cases heq
        exact absurd rfl hslash
      · rw [ha, hb] at heq
        cases heq
        rfl

def quoteChars (s : String) : List Char := '"' :: s.toList.flatMap Json.quoteChar ++ ['"']

theorem quoteChars_inj {a b : String} {s t : List Char}
    (heq : quoteChars a ++ s = quoteChars b ++ t) : a = b ∧ s = t := by
  have hbody : a.toList.flatMap Json.quoteChar ++ ('"' :: s) =
      b.toList.flatMap Json.quoteChar ++ ('"' :: t) := by
    simpa [quoteChars] using heq
  have hstop : ∀ (c : Char) (r : List Char), ¬ (Json.quoteChar c ++ r).head? = some '"' := by
    intro c r
    rcases quoteChar_cases c with ⟨d, -, h⟩ | ⟨-, h⟩ | ⟨-, hquote, h⟩
    · simp [h]
    · simp [h]
    · simpa [h] using hquote
  obtain ⟨hab, hrest⟩ := quoteChar_wordCode.flatMap_inj (·.head? = some '"') hstop rfl rfl hbody
  exact ⟨String.ext hab, (List.cons.inj hrest).2⟩

/-! ## Values -/

def isNumberChar (c : Char) : Bool := c.isDigit || c = '-' || c = '+' || c = '.' || c = 'e'

/-- The text of a finite number. -/
structure NumberText where
  chars : List Char
  ne_nil : chars ≠ []
  number : ∀ c ∈ chars, isNumberChar c = true

/-- A number: -0, `NaN` and the infinities are not written as they are read. -/
inductive NumberValue where
  | finite (text : NumberText)
  | negativeZero
  | nan
  | infinity (negative : Bool)

/-- A value; the fields of an object in enumeration order, and whether its prototype is
    `Object.prototype`. -/
inductive JsValue where
  | null
  | bool (b : Bool)
  | num (x : NumberValue)
  | str (s : String)
  | arr (items : List JsValue)
  | obj (ordinary : Bool) (fields : List (String × JsValue))

namespace NumberValue

def write : NumberValue → List Char
  | finite text => text.chars
  | negativeZero => ['0']
  | nan | infinity _ => "null".toList

def isFinite : NumberValue → Bool
  | finite _ => true
  | negativeZero | nan | infinity _ => false

end NumberValue

namespace JsValue

theorem induct {P : JsValue → Prop} (null : P .null) (bool : ∀ b, P (.bool b))
    (num : ∀ x, P (.num x)) (str : ∀ s, P (.str s))
    (arr : ∀ items, (∀ v ∈ items, P v) → P (.arr items))
    (obj : ∀ o fields, (∀ f ∈ fields, P f.2) → P (.obj o fields)) (v : JsValue) : P v :=
  JsValue.rec (motive_1 := P) (motive_2 := fun items => ∀ v ∈ items, P v)
    (motive_3 := fun fields => ∀ f ∈ fields, P f.2) (motive_4 := fun f => P f.2)
    null bool num str (fun items h => arr items h) (fun o fields h => obj o fields h)
    nofun (fun _ _ hv hitems => forall_mem_cons.mpr ⟨hv, hitems⟩)
    nofun (fun _ _ hf hfields => forall_mem_cons.mpr ⟨hf, hfields⟩)
    (fun _ _ h => h) v

mutual

/-- `p` holds of the value and of every value inside it. -/
def all (p : JsValue → Bool) : JsValue → Bool
  | .arr items => p (.arr items) && allItems p items
  | .obj o fields => p (.obj o fields) && allFields p fields
  | v => p v

def allItems (p : JsValue → Bool) : List JsValue → Bool
  | [] => true
  | v :: items => all p v && allItems p items

def allFields (p : JsValue → Bool) : List (String × JsValue) → Bool
  | [] => true
  | (_, v) :: fields => all p v && allFields p fields

end

section
variable {p q : JsValue → Bool}

theorem all_arr {items : List JsValue} :
    all p (.arr items) = true ↔ p (.arr items) = true ∧ ∀ v ∈ items, all p v = true := by
  have hitems : ∀ items : List JsValue, allItems p items = true ↔ ∀ v ∈ items, all p v = true := by
    intro items
    induction items with
    | nil => simp [allItems]
    | cons v items ih => simp [allItems, ih]
  rw [all, Bool.and_eq_true, hitems]

theorem all_obj {o : Bool} {fields : List (String × JsValue)} :
    all p (.obj o fields) = true ↔ p (.obj o fields) = true ∧ ∀ f ∈ fields, all p f.2 = true := by
  have hfields : ∀ fields : List (String × JsValue),
      allFields p fields = true ↔ ∀ f ∈ fields, all p f.2 = true := by
    intro fields
    induction fields with
    | nil => simp [allFields]
    | cons f fields ih => simp [allFields, ih]
  rw [all, Bool.and_eq_true, hfields]

variable {v : JsValue}

theorem all_head (h : all p v = true) : p v = true := by
  cases v with
  | arr items => exact (all_arr.mp h).1
  | obj o fields => exact (all_obj.mp h).1
  | null => exact h
  | bool b => exact h
  | num x => exact h
  | str s => exact h

theorem all_of_and {r : JsValue → Bool} (h : ∀ v, p v = true → q v = true → r v = true)
    (hp : all p v = true) (hq : all q v = true) : all r v = true := by
  induction v using induct with
  | arr items ih =>
    obtain ⟨hv, hitems⟩ := all_arr.mp hp
    obtain ⟨hv', hitems'⟩ := all_arr.mp hq
    exact all_arr.mpr ⟨h _ hv hv', fun v hmem => ih v hmem (hitems v hmem) (hitems' v hmem)⟩
  | obj o fields ih =>
    obtain ⟨hv, hfields⟩ := all_obj.mp hp
    obtain ⟨hv', hfields'⟩ := all_obj.mp hq
    exact all_obj.mpr ⟨h _ hv hv', fun f hf => ih f hf (hfields f hf) (hfields' f hf)⟩
  | null => exact h _ hp hq
  | bool b => exact h _ hp hq
  | num x => exact h _ hp hq
  | str s => exact h _ hp hq

theorem all_imp (hpq : ∀ v, p v = true → q v = true) (h : all p v = true) :
    all q v = true := all_of_and (fun v hv _ => hpq v hv) h h

end

mutual

/-- The value with its leaves and, from the inside out, its objects replaced. -/
def rebuild (leaf : JsValue → JsValue) (node : Bool → List (String × JsValue) → JsValue) :
    JsValue → JsValue
  | .arr items => .arr (rebuildItems leaf node items)
  | .obj o fields => node o (rebuildFields leaf node fields)
  | v => leaf v

def rebuildItems (leaf : JsValue → JsValue) (node : Bool → List (String × JsValue) → JsValue) :
    List JsValue → List JsValue
  | [] => []
  | v :: items => rebuild leaf node v :: rebuildItems leaf node items

def rebuildFields (leaf : JsValue → JsValue) (node : Bool → List (String × JsValue) → JsValue) :
    List (String × JsValue) → List (String × JsValue)
  | [] => []
  | (k, v) :: fields => (k, rebuild leaf node v) :: rebuildFields leaf node fields

end

section
variable (leaf : JsValue → JsValue) (node : Bool → List (String × JsValue) → JsValue)

theorem rebuild_arr (items : List JsValue) :
    rebuild leaf node (.arr items) = .arr (items.map (rebuild leaf node)) := by
  have hitems : ∀ items, rebuildItems leaf node items = items.map (rebuild leaf node) := by
    intro items
    induction items with
    | nil => rfl
    | cons v items ih => rw [rebuildItems, ih, map_cons]
  rw [rebuild, hitems]

theorem rebuild_obj (o : Bool) (fields : List (String × JsValue)) :
    rebuild leaf node (.obj o fields) =
      node o (fields.map fun f => (f.1, rebuild leaf node f.2)) := by
  have hfields : ∀ fields, rebuildFields leaf node fields =
      fields.map fun f => (f.1, rebuild leaf node f.2) := by
    intro fields
    induction fields with
    | nil => rfl
    | cons f fields ih => rw [rebuildFields, ih, map_cons]
  rw [rebuild, hfields]

end

/-! ## Texts -/

mutual

def write : JsValue → List Char
  | .null => "null".toList
  | .bool b => if b then "true".toList else "false".toList
  | .num x => x.write
  | .str s => quoteChars s
  | .arr items => '[' :: writeItems items
  | .obj _ fields => '\x7b' :: writeFields fields

def writeItems : List JsValue → List Char
  | [] => [']']
  | [v] => write v ++ [']']
  | v :: w :: items => write v ++ ',' :: writeItems (w :: items)

def writeFields : List (String × JsValue) → List Char
  | [] => ['\x7d']
  | [(k, v)] => quoteChars k ++ ':' :: (write v ++ ['\x7d'])
  | (k, v) :: f :: fields => quoteChars k ++ ':' :: (write v ++ ',' :: writeFields (f :: fields))

end

/-- A finite number, an ordinary object, or another value: its text says all about it. -/
def isWritten : JsValue → Bool
  | .num x => x.isFinite
  | .obj o _ => o
  | .null | .bool _ | .str _ | .arr _ => true

/-- What follows a value: nothing that would go on with a number. -/
def Ends (s : List Char) : Prop := ∀ c, s.head? = some c → isNumberChar c = false

theorem ends_of {c : Char} (s : List Char) (hc : isNumberChar c = false) : Ends (c :: s) := by
  intro d hd
  cases hd
  exact hc

def Begins : JsValue → Char → Prop
  | .null, c => c = 'n'
  | .bool _, c => c = 't' ∨ c = 'f'
  | .num _, c => isNumberChar c = true
  | .str _, c => c = '"'
  | .arr _, c => c = '['
  | .obj _ _, c => c = '\x7b'

variable {v : JsValue}

theorem write_begins (h : isWritten v = true) : ∃ c s, write v = c :: s ∧ Begins v c := by
  cases v with
  | null => exact ⟨_, _, rfl, rfl⟩
  | bool b =>
    cases b with
    | true => exact ⟨_, _, rfl, .inl rfl⟩
    | false => exact ⟨_, _, rfl, .inr rfl⟩
  | num x =>
    cases x with
    | finite text =>
      obtain ⟨c, s, hcons⟩ := exists_cons_of_ne_nil text.ne_nil
      exact ⟨c, s, hcons, text.number c (hcons ▸ mem_cons_self)⟩
    | negativeZero => cases h
    | nan => cases h
    | infinity negative => cases h
  | str s => exact ⟨_, _, rfl, rfl⟩
  | arr items => exact ⟨_, _, rfl, rfl⟩
  | obj o fields => exact ⟨_, _, rfl, rfl⟩

theorem not_begins_close : ¬ Begins v ']' := by
  cases v <;> simp [Begins, isNumberChar]

def kind : JsValue → ℕ
  | .null => 0
  | .bool _ => 1
  | .num _ => 2
  | .str _ => 3
  | .arr _ => 4
  | .obj _ _ => 5

/-- The kind of value that a character begins. -/
def kindAt (c : Char) : ℕ :=
  if c = 'n' then 0
  else if c = 't' ∨ c = 'f' then 1
  else if c = '"' then 3
  else if c = '[' then 4
  else if c = '\x7b' then 5
  else 2

theorem kind_of_begins {c : Char} (h : Begins v c) : v.kind = kindAt c := by
  cases v with
  | null =>
    obtain rfl : c = 'n' := h
    rfl
  | bool b =>
    rcases h with rfl | rfl
    · rfl
    · rfl
  | num x =>
    have hc : isNumberChar c = true := h
    unfold kindAt
    rw [if_neg (by rintro rfl; exact absurd hc (by decide)),
      if_neg (by rintro (rfl | rfl) <;> exact absurd hc (by decide)),
      if_neg (by rintro rfl; exact absurd hc (by decide)),
      if_neg (by rintro rfl; exact absurd hc (by decide)),
      if_neg (by rintro rfl; exact absurd hc (by decide))]
    rfl
  | str s =>
    obtain rfl : c = '"' := h
    rfl
  | arr items =>
    obtain rfl : c = '[' := h
    rfl
  | obj o fields =>
    obtain rfl : c = '\x7b' := h
    rfl

variable {s t : List Char}

theorem numberText_inj {x y : NumberText} (hs : Ends s) (ht : Ends t)
    (heq : x.chars ++ s = y.chars ++ t) : x = y ∧ s = t := by
  have htake : ∀ (z : NumberText) (r : List Char), Ends r →
      (z.chars ++ r).takeWhile isNumberChar = z.chars := by
    intro z r hr
    rw [takeWhile_append_of_pos z.number]
    cases r with
    | nil => simp
    | cons c r => simp [hr c rfl]
  have hchars : x.chars = y.chars := by rw [← htake x s hs, heq, htake y t ht]
  obtain ⟨xs, hne, hnum⟩ := x
  obtain ⟨ys, hne', hnum'⟩ := y
  obtain rfl : xs = ys := hchars
  exact ⟨rfl, append_cancel_left heq⟩

/-- The text of `v` is not the beginning of another value's. -/
def Apart (v : JsValue) : Prop := ∀ w {s t : List Char}, all isWritten w = true → Ends s → Ends t →
  write v ++ s = write w ++ t → v = w ∧ s = t

/-- The rest of an array's text after an item. -/
def restItems : List JsValue → List Char
  | [] => [']']
  | v :: items => ',' :: writeItems (v :: items)

theorem writeItems_cons (v : JsValue) (items : List JsValue) :
    writeItems (v :: items) = write v ++ restItems items := by
  cases items <;> rfl

theorem ends_restItems (items : List JsValue) (s : List Char) : Ends (restItems items ++ s) := by
  cases items with
  | nil => exact ends_of s (by decide)
  | cons v items => exact ends_of _ (by decide)

theorem writeItems_ne_close {items : List JsValue}
    (hv : all isWritten v = true) : writeItems (v :: items) ++ s ≠ ']' :: t := by
  intro heq
  obtain ⟨c, r, hwrite, hbegins⟩ := write_begins (all_head hv)
  rw [writeItems_cons, hwrite] at heq
  obtain rfl : c = ']' := (List.cons.inj heq).1
  exact not_begins_close hbegins

theorem writeItems_inj {items items' : List JsValue}
    (hapart : ∀ v ∈ items, Apart v) (hv : ∀ v ∈ items, all isWritten v = true)
    (hw : ∀ v ∈ items', all isWritten v = true)
    (heq : writeItems items ++ s = writeItems items' ++ t) : items = items' ∧ s = t := by
  induction items generalizing items' s t with
  | nil =>
    cases items' with
    | nil => exact ⟨rfl, (List.cons.inj heq).2⟩
    | cons w items' =>
      exact absurd heq.symm (writeItems_ne_close (hw w mem_cons_self))
  | cons v items ih =>
    cases items' with
    | nil => exact absurd heq (writeItems_ne_close (hv v mem_cons_self))
    | cons w items' =>
      rw [writeItems_cons, writeItems_cons, append_assoc, append_assoc] at heq
      obtain ⟨rfl, hrest⟩ := hapart v mem_cons_self w (hw w mem_cons_self)
        (ends_restItems items s) (ends_restItems items' t) heq
      cases items with
      | nil =>
        cases items' with
        | nil => exact ⟨rfl, (List.cons.inj hrest).2⟩
        | cons w' items' => cases (List.cons.inj hrest).1
      | cons v' items =>
        cases items' with
        | nil => cases (List.cons.inj hrest).1
        | cons w' items' =>
          obtain ⟨hitems, hst⟩ := ih (fun u hu => hapart u (mem_cons_of_mem v hu))
            (fun u hu => hv u (mem_cons_of_mem v hu))
            (fun u hu => hw u (mem_cons_of_mem v hu)) (List.cons.inj hrest).2
          rw [hitems]
          exact ⟨rfl, hst⟩

/-- The rest of an object's text after a field. -/
def restFields : List (String × JsValue) → List Char
  | [] => ['\x7d']
  | f :: fields => ',' :: writeFields (f :: fields)

theorem writeFields_cons (f : String × JsValue) (fields : List (String × JsValue)) :
    writeFields (f :: fields) = quoteChars f.1 ++ ':' :: (write f.2 ++ restFields fields) := by
  cases fields <;> rfl

theorem ends_restFields (fields : List (String × JsValue)) (s : List Char) :
    Ends (restFields fields ++ s) := by
  cases fields with
  | nil => exact ends_of s (by decide)
  | cons f fields => exact ends_of _ (by decide)

theorem writeFields_ne_close {f : String × JsValue} {fields : List (String × JsValue)} :
    writeFields (f :: fields) ++ s ≠ '\x7d' :: t := by
  intro heq
  rw [writeFields_cons] at heq
  cases (List.cons.inj heq).1

theorem writeFields_inj {fields fields' : List (String × JsValue)}
    (hapart : ∀ f ∈ fields, Apart f.2)
    (hw : ∀ f ∈ fields', all isWritten f.2 = true)
    (heq : writeFields fields ++ s = writeFields fields' ++ t) : fields = fields' ∧ s = t := by
  induction fields generalizing fields' s t with
  | nil =>
    cases fields' with
    | nil => exact ⟨rfl, (List.cons.inj heq).2⟩
    | cons f' fields' => exact absurd heq.symm writeFields_ne_close
  | cons f fields ih =>
    cases fields' with
    | nil => exact absurd heq writeFields_ne_close
    | cons f' fields' =>
      rw [writeFields_cons, writeFields_cons, append_assoc, append_assoc] at heq
      obtain ⟨hkey, hvalue⟩ := quoteChars_inj heq
      have hvalue : write f.2 ++ (restFields fields ++ s) =
          write f'.2 ++ (restFields fields' ++ t) := by
        rw [← append_assoc, ← append_assoc]
        exact (List.cons.inj hvalue).2
      obtain ⟨hsame, hrest⟩ := hapart f mem_cons_self f'.2 (hw f' mem_cons_self)
        (ends_restFields fields s) (ends_restFields fields' t) hvalue
      obtain rfl : f = f' := Prod.ext hkey hsame
      cases fields with
      | nil =>
        cases fields' with
        | nil => exact ⟨rfl, (List.cons.inj hrest).2⟩
        | cons g' fields' => cases (List.cons.inj hrest).1
      | cons g fields =>
        cases fields' with
        | nil => cases (List.cons.inj hrest).1
        | cons g' fields' =>
          obtain ⟨hfields, hst⟩ := ih (fun u hu => hapart u (mem_cons_of_mem f hu))
            (fun u hu => hw u (mem_cons_of_mem f hu)) (List.cons.inj hrest).2
          rw [hfields]
          exact ⟨rfl, hst⟩

theorem kind_eq {w : JsValue} (hv : all isWritten v = true)
    (hw : all isWritten w = true) (heq : write v ++ s = write w ++ t) : v.kind = w.kind := by
  obtain ⟨c, r, hwrite, hbegins⟩ := write_begins (all_head hv)
  obtain ⟨c', r', hwrite', hbegins'⟩ := write_begins (all_head hw)
  rw [hwrite, hwrite'] at heq
  obtain rfl : c = c' := (List.cons.inj heq).1
  rw [kind_of_begins hbegins, kind_of_begins hbegins']

theorem apart (hv : all isWritten v = true) : Apart v := by
  induction v using induct with
  | null =>
    intro w s t hw hs ht heq
    have hkind := kind_eq hv hw heq
    cases w with
    | null => exact ⟨rfl, append_cancel_left heq⟩
    | bool _ | num _ | str _ | arr _ | obj _ _ => cases hkind
  | bool b =>
    intro w s t hw hs ht heq
    have hkind := kind_eq hv hw heq
    cases w with
    | bool b' =>
      cases b with
      | true =>
        cases b' with
        | true => exact ⟨rfl, append_cancel_left heq⟩
        | false => cases (List.cons.inj heq).1
      | false =>
        cases b' with
        | true => cases (List.cons.inj heq).1
        | false => exact ⟨rfl, append_cancel_left heq⟩
    | null | num _ | str _ | arr _ | obj _ _ => cases hkind
  | num x =>
    intro w s t hw hs ht heq
    have hkind := kind_eq hv hw heq
    cases w with
    | num y =>
      cases x with
      | finite x =>
        cases y with
        | finite y =>
          obtain ⟨rfl, rfl⟩ := numberText_inj hs ht heq
          exact ⟨rfl, rfl⟩
        | negativeZero | nan | infinity _ => cases hw
      | negativeZero | nan | infinity _ => cases hv
    | null | bool _ | str _ | arr _ | obj _ _ => cases hkind
  | str a =>
    intro w s t hw hs ht heq
    have hkind := kind_eq hv hw heq
    cases w with
    | str b =>
      obtain ⟨rfl, rfl⟩ := quoteChars_inj heq
      exact ⟨rfl, rfl⟩
    | null | bool _ | num _ | arr _ | obj _ _ => cases hkind
  | arr items ih =>
    intro w s t hw hs ht heq
    have hkind := kind_eq hv hw heq
    cases w with
    | arr items' =>
      have hitems := (all_arr.mp hv).2
      obtain ⟨rfl, rfl⟩ := writeItems_inj (fun v hmem => ih v hmem (hitems v hmem)) hitems
        (all_arr.mp hw).2 (List.cons.inj heq).2
      exact ⟨rfl, rfl⟩
    | null | bool _ | num _ | str _ | obj _ _ => cases hkind
  | obj o fields ih =>
    intro w s t hw hs ht heq
    have hkind := kind_eq hv hw heq
    cases w with
    | obj o' fields' =>
      obtain ⟨ho, hfields⟩ := all_obj.mp hv
      obtain ⟨ho', hfields'⟩ := all_obj.mp hw
      obtain ⟨rfl, rfl⟩ := writeFields_inj (fun f hmem => ih f hmem (hfields f hmem)) hfields'
        (List.cons.inj heq).2
      have hsame : o = o' := by
        rw [show o = true from ho, show o' = true from ho']
      rw [hsame]
      exact ⟨rfl, rfl⟩
    | null | bool _ | num _ | str _ | arr _ => cases hkind

/-- **The text of a value determines it**, if its numbers are finite and its objects ordinary. -/
theorem write_inj {w : JsValue} (hv : all isWritten v = true) (hw : all isWritten w = true)
    (heq : write v = write w) : v = w := by
  have hends : Ends [] := nofun
  exact (apart hv w hw hends hends (congrArg (· ++ []) heq)).1

/-! ## Truthiness -/

/-- Whether `Boolean(value)`; the number zero is written `0`. -/
def isTruthy : JsValue → Bool
  | .null => false
  | .bool b => b
  | .num (.finite text) => text.chars ≠ ['0']
  | .num .negativeZero | .num .nan => false
  | .num (.infinity _) => true
  | .str s => s ≠ ""
  | .arr _ | .obj _ _ => true

/-- `value || null`. -/
def valueOrNull (v : JsValue) : JsValue := if isTruthy v then v else .null

end JsValue

/-! ## Entries of an object -/

section
variable {α β : Type*}

/-- The entries in the order of `Object.keys(value).sort()`. -/
def sortEntries (entries : List (String × α)) : List (String × α) :=
  entries.insertionSort fun f g => codeUnitLE f.1 g.1

/-- The entries of an object built by assigning `entries` in order to `{}`: array indices
    first, ascending, then the other keys in assignment order. -/
def ownEntries (entries : List (String × α)) : List (String × α) :=
  (entries.filter fun f => (arrayIndex? f.1).isSome).insertionSort
      (fun f g => (arrayIndex? f.1).getD 0 ≤ (arrayIndex? g.1).getD 0)
    ++ entries.filter fun f => (arrayIndex? f.1).isNone

/-- The entries of an object built by assigning sorted entries. -/
def orderEntries (entries : List (String × α)) : List (String × α) :=
  ownEntries (sortEntries entries)

def valueAt? (name : String) (entries : List (String × α)) : Option α :=
  (entries.find? fun f => f.1 = name).map Prod.snd

theorem sortEntries_perm (entries : List (String × α)) : (sortEntries entries).Perm entries :=
  perm_insertionSort _ _

theorem ownEntries_perm (entries : List (String × α)) : (ownEntries entries).Perm entries := by
  have hsort := perm_insertionSort
    (fun f g : String × α => (arrayIndex? f.1).getD 0 ≤ (arrayIndex? g.1).getD 0)
    (entries.filter fun f => (arrayIndex? f.1).isSome)
  have hnone : (fun f : String × α => (arrayIndex? f.1).isNone) =
      fun f => !(arrayIndex? f.1).isSome := by
    funext f
    cases arrayIndex? f.1 <;> rfl
  unfold ownEntries
  rw [hnone]
  exact (hsort.append_right _).trans (filter_append_perm _ _)

theorem orderEntries_perm (entries : List (String × α)) : (orderEntries entries).Perm entries :=
  (ownEntries_perm _).trans (sortEntries_perm entries)

theorem codeUnitLE_iff {a b : String} : codeUnitLE a b = true ↔ codeUnits a ≤ codeUnits b := by
  rw [codeUnitLE, Bool.not_eq_true', decide_eq_false_iff_not, not_lt]

theorem codeUnitLE_total (a b : String) : codeUnitLE a b = true ∨ codeUnitLE b a = true := by
  rcases le_total (codeUnits a) (codeUnits b) with h | h
  · exact .inl (codeUnitLE_iff.mpr h)
  · exact .inr (codeUnitLE_iff.mpr h)

theorem codeUnitLE_trans {a b c : String} (hab : codeUnitLE a b = true)
    (hbc : codeUnitLE b c = true) : codeUnitLE a c = true :=
  codeUnitLE_iff.mpr ((codeUnitLE_iff.mp hab).trans (codeUnitLE_iff.mp hbc))

theorem codeUnitLE_antisymm {a b : String} (hab : codeUnitLE a b = true)
    (hba : codeUnitLE b a = true) : a = b :=
  codeUnits_inj (le_antisymm (codeUnitLE_iff.mp hab) (codeUnitLE_iff.mp hba))

/-- The order of entries by their keys. -/
def KeyLE (f g : String × α) : Prop := codeUnitLE f.1 g.1 = true

theorem pairwise_sortEntries (entries : List (String × α)) :
    (sortEntries entries).Pairwise KeyLE := by
  have htotal : Std.Total fun f g : String × α => codeUnitLE f.1 g.1 = true :=
    ⟨fun f g => codeUnitLE_total f.1 g.1⟩
  have htrans : IsTrans (String × α) fun f g => codeUnitLE f.1 g.1 = true :=
    ⟨fun f g h hfg hgh => codeUnitLE_trans hfg hgh⟩
  exact pairwise_insertionSort (fun f g : String × α => codeUnitLE f.1 g.1 = true) entries

variable {entries l m : List (String × α)}

theorem eq_of_key (hkeys : (entries.map Prod.fst).Nodup)
    {f g : String × α} (hf : f ∈ entries) (hg : g ∈ entries) (hkey : f.1 = g.1) : f = g :=
  inj_on_of_nodup_map hkeys hf hg hkey

theorem sortEntries_eq_of_perm (hkeys : (l.map Prod.fst).Nodup)
    (hperm : l.Perm m) : sortEntries l = sortEntries m := by
  refine List.Perm.eq_of_pairwise ?_ (pairwise_sortEntries l) (pairwise_sortEntries m)
    ((sortEntries_perm l).trans (hperm.trans (sortEntries_perm m).symm))
  intro f g hf hg hfg hgf
  exact eq_of_key hkeys ((sortEntries_perm l).mem_iff.mp hf)
    (hperm.mem_iff.mpr ((sortEntries_perm m).mem_iff.mp hg)) (codeUnitLE_antisymm hfg hgf)

theorem orderEntries_eq_of_perm (hkeys : (l.map Prod.fst).Nodup)
    (hperm : l.Perm m) : orderEntries l = orderEntries m :=
  congrArg ownEntries (sortEntries_eq_of_perm hkeys hperm)

theorem keys_orderEntries (hkeys : (entries.map Prod.fst).Nodup) :
    ((orderEntries entries).map Prod.fst).Nodup :=
  ((orderEntries_perm entries).map Prod.fst).nodup_iff.mpr hkeys

theorem orderEntries_orderEntries (hkeys : (entries.map Prod.fst).Nodup) :
    orderEntries (orderEntries entries) = orderEntries entries :=
  orderEntries_eq_of_perm (keys_orderEntries hkeys) (orderEntries_perm entries)

theorem sortEntries_map (g : α → β) (entries : List (String × α)) :
    sortEntries (entries.map fun f => (f.1, g f.2)) =
      (sortEntries entries).map fun f => (f.1, g f.2) :=
  (map_insertionSort _ _ (fun f : String × α => (f.1, g f.2)) entries
    fun _ _ _ _ => Iff.rfl).symm

section
variable (p : String × α → Bool) (hkeys : (entries.map Prod.fst).Nodup)
include p hkeys

theorem keys_filter : ((entries.filter p).map Prod.fst).Nodup :=
  hkeys.sublist (filter_sublist.map Prod.fst)

theorem filter_sortEntries :
    (sortEntries entries).filter p = sortEntries (entries.filter p) := by
  have hperm : ((sortEntries entries).filter p).Perm (sortEntries (entries.filter p)) :=
    ((sortEntries_perm entries).filter p).trans (sortEntries_perm _).symm
  refine List.Perm.eq_of_pairwise ?_ ((pairwise_sortEntries entries).filter p)
    (pairwise_sortEntries _) hperm
  intro f g hf hg hfg hgf
  refine eq_of_key hkeys ((sortEntries_perm entries).mem_iff.mp (mem_of_mem_filter hf)) ?_
    (codeUnitLE_antisymm hfg hgf)
  exact mem_of_mem_filter ((sortEntries_perm _).mem_iff.mp hg)

end

theorem orderEntries_map (g : α → β) (entries : List (String × α)) :
    orderEntries (entries.map fun f => (f.1, g f.2)) =
      (orderEntries entries).map fun f => (f.1, g f.2) := by
  have hown : ∀ l : List (String × α), ownEntries (l.map fun f => (f.1, g f.2)) =
      (ownEntries l).map fun f => (f.1, g f.2) := by
    intro l
    unfold ownEntries
    rw [map_append, filter_map, filter_map]
    congr 1
    exact (map_insertionSort _ _ (fun f : String × α => (f.1, g f.2)) _
      fun _ _ _ _ => Iff.rfl).symm
  rw [orderEntries, sortEntries_map, hown]
  rfl

theorem valueAt?_eq_some {name : String} {a : α} (hkeys : (entries.map Prod.fst).Nodup) :
    valueAt? name entries = some a ↔ (name, a) ∈ entries := by
  unfold valueAt?
  constructor
  · intro h
    obtain ⟨⟨k, b⟩, hfind, rfl⟩ := Option.map_eq_some_iff.mp h
    have hkey := find?_some hfind
    obtain rfl : k = name := of_decide_eq_true hkey
    exact mem_of_find?_eq_some hfind
  · intro hmem
    obtain ⟨f, hfind⟩ : ∃ f, entries.find? (fun f => f.1 = name) = some f :=
      Option.isSome_iff_exists.mp (find?_isSome.mpr ⟨_, hmem, decide_eq_true rfl⟩)
    have hkey := find?_some hfind
    rw [hfind, eq_of_key hkeys (mem_of_find?_eq_some hfind) hmem (of_decide_eq_true hkey)]
    rfl

theorem valueAt?_eq_of_perm {name : String}
    (hkeys : (l.map Prod.fst).Nodup) (hperm : l.Perm m) : valueAt? name l = valueAt? name m := by
  have hkeys' := (hperm.map Prod.fst).nodup_iff.mp hkeys
  refine Option.ext fun a => ?_
  rw [valueAt?_eq_some hkeys, valueAt?_eq_some hkeys', hperm.mem_iff]

theorem valueAt?_map (name : String) (g : α → β) (entries : List (String × α)) :
    valueAt? name (entries.map fun f => (f.1, g f.2)) = (valueAt? name entries).map g := by
  unfold valueAt?
  rw [find?_map, Option.map_map, Option.map_map]
  rfl

end

namespace JsValue

/-- The value of a field (`undefined` is `none`). -/
def field? (name : String) : JsValue → Option JsValue
  | .obj _ fields => valueAt? name fields
  | .null | .bool _ | .num _ | .str _ | .arr _ => none

theorem all_field {p : JsValue → Bool} {v w : JsValue} {name : String} (h : all p v = true)
    (hfield : v.field? name = some w) : all p w = true := by
  cases v with
  | obj o fields =>
    obtain ⟨f, hfind, rfl⟩ := Option.map_eq_some_iff.mp hfield
    exact (all_obj.mp h).2 f (mem_of_find?_eq_some hfind)
  | null | bool _ | num _ | str _ | arr _ => cases hfield

/-! ## Relabelling -/

/-- `null`, a boolean, a number or a string. -/
def isScalar : JsValue → Bool
  | .null | .bool _ | .num _ | .str _ => true
  | .arr _ | .obj _ _ => false

def relabel (leaf : JsValue → JsValue) (flag : Bool → Bool) (v : JsValue) : JsValue :=
  rebuild leaf (fun o fields => .obj (flag o) fields) v

section
variable {leaf : JsValue → JsValue} {flag : Bool → Bool}

variable {v : JsValue}

theorem relabel_scalar (hv : v.isScalar = true) : relabel leaf flag v = leaf v := by
  cases v with
  | arr items => cases hv
  | obj o fields => cases hv
  | null | bool _ | num _ | str _ => rfl

theorem relabel_arr (items : List JsValue) :
    relabel leaf flag (.arr items) = .arr (items.map (relabel leaf flag)) := rebuild_arr _ _ items

theorem relabel_obj (o : Bool) (fields : List (String × JsValue)) :
    relabel leaf flag (.obj o fields) =
      .obj (flag o) (fields.map fun f => (f.1, relabel leaf flag f.2)) := rebuild_obj _ _ o fields

theorem writeItems_congr {items : List JsValue} {g : JsValue → JsValue}
    (h : ∀ v ∈ items, write (g v) = write v) : writeItems (items.map g) = writeItems items := by
  induction items with
  | nil => rfl
  | cons v items ih =>
    have hitems := ih fun u hu => h u (mem_cons_of_mem v hu)
    rw [map_cons, writeItems_cons, h v mem_cons_self]
    cases items with
    | nil => rfl
    | cons w items => exact congrArg (write v ++ ',' :: ·) hitems

theorem writeFields_congr {fields : List (String × JsValue)} {g : JsValue → JsValue}
    (h : ∀ f ∈ fields, write (g f.2) = write f.2) :
    writeFields (fields.map fun f => (f.1, g f.2)) = writeFields fields := by
  induction fields with
  | nil => rfl
  | cons f fields ih =>
    have hfields := ih fun u hu => h u (mem_cons_of_mem f hu)
    rw [map_cons, writeFields_cons, h f mem_cons_self]
    cases fields with
    | nil => rfl
    | cons f' fields =>
      exact congrArg (fun s => quoteChars f.1 ++ ':' :: (write f.2 ++ ',' :: s)) hfields

theorem write_relabel (hleaf : ∀ v, v.isScalar = true → write (leaf v) = write v) (v : JsValue) :
    write (relabel leaf flag v) = write v := by
  induction v using induct with
  | arr items ih =>
    rw [relabel_arr]
    exact congrArg ('[' :: ·) (writeItems_congr ih)
  | obj o fields ih =>
    rw [relabel_obj]
    exact congrArg ('\x7b' :: ·) (writeFields_congr ih)
  | null => exact hleaf _ rfl
  | bool b => exact hleaf _ rfl
  | num x => exact hleaf _ rfl
  | str s => exact hleaf _ rfl

theorem all_relabel {p : JsValue → Bool}
    (hscalar : ∀ v, v.isScalar = true → p v = true → all p (leaf v) = true)
    (harr : ∀ (items : List JsValue) (g : JsValue → JsValue), p (.arr items) = true →
      p (.arr (items.map g)) = true)
    (hobj : ∀ (o : Bool) (fields : List (String × JsValue)) (g : JsValue → JsValue),
      p (.obj o fields) = true → p (.obj (flag o) (fields.map fun f => (f.1, g f.2))) = true)
    (h : all p v = true) : all p (relabel leaf flag v) = true := by
  induction v using induct with
  | arr items ih =>
    obtain ⟨hp, hitems⟩ := all_arr.mp h
    rw [relabel_arr]
    exact all_arr.mpr ⟨harr items _ hp, forall_mem_map.mpr fun v hv => ih v hv (hitems v hv)⟩
  | obj o fields ih =>
    obtain ⟨hp, hfields⟩ := all_obj.mp h
    rw [relabel_obj]
    exact all_obj.mpr ⟨hobj o fields _ hp,
      forall_mem_map.mpr fun f hf => ih f hf (hfields f hf)⟩
  | null => exact hscalar _ rfl h
  | bool b => exact hscalar _ rfl h
  | num x => exact hscalar _ rfl h
  | str s => exact hscalar _ rfl h

theorem relabel_eq_self {p : JsValue → Bool}
    (hleaf : ∀ v, v.isScalar = true → p v = true → leaf v = v)
    (hflag : ∀ o fields, p (.obj o fields) = true → flag o = o) (h : all p v = true) :
    relabel leaf flag v = v := by
  induction v using induct with
  | arr items ih =>
    obtain ⟨-, hitems⟩ := all_arr.mp h
    have hmap : items.map (relabel leaf flag) = items :=
      (map_congr_left fun v hv => ih v hv (hitems v hv)).trans (map_id items)
    rw [relabel_arr, hmap]
  | obj o fields ih =>
    obtain ⟨ho, hfields⟩ := all_obj.mp h
    have hfield : ∀ f ∈ fields, (f.1, relabel leaf flag f.2) = f := fun f hf =>
      Prod.ext rfl (ih f hf (hfields f hf))
    have hmap : fields.map (fun f => (f.1, relabel leaf flag f.2)) = fields :=
      (map_congr_left (g := id) hfield).trans (map_id fields)
    rw [relabel_obj, hmap, hflag o fields ho]
  | null => exact hleaf _ rfl h
  | bool b => exact hleaf _ rfl h
  | num x => exact hleaf _ rfl h
  | str s => exact hleaf _ rfl h

end

/-! ## Through a text -/

def zeroText : NumberText := ⟨['0'], by decide, by decide⟩

/-- Not an object of another prototype. -/
def isOrdinary : JsValue → Bool
  | .obj o _ => o
  | .null | .bool _ | .num _ | .str _ | .arr _ => true

def rereadScalar : JsValue → JsValue
  | .num .negativeZero => .num (.finite zeroText)
  | .num .nan | .num (.infinity _) => .null
  | v => v

/-- `JSON.parse(JSON.stringify(value))`. -/
def viaJson (v : JsValue) : JsValue := relabel rereadScalar (fun _ => true) v

variable {v : JsValue}

theorem rereadScalar_scalar (hv : v.isScalar = true) : (rereadScalar v).isScalar = true := by
  unfold rereadScalar
  split
  · rfl
  · rfl
  · rfl
  · exact hv

theorem write_rereadScalar (v : JsValue) : write (rereadScalar v) = write v := by
  unfold rereadScalar
  split
  · rfl
  · rfl
  · rfl
  · rfl

theorem write_viaJson (v : JsValue) : write (viaJson v) = write v :=
  write_relabel (fun w _ => write_rereadScalar w) v

theorem written_viaJson (v : JsValue) : all isWritten (viaJson v) = true := by
  induction v using induct with
  | arr items ih =>
    rw [viaJson, relabel_arr]
    exact all_arr.mpr ⟨rfl, forall_mem_map.mpr ih⟩
  | obj o fields ih =>
    rw [viaJson, relabel_obj]
    exact all_obj.mpr ⟨rfl, forall_mem_map.mpr ih⟩
  | num x =>
    cases x with
    | finite _ | negativeZero | nan | infinity _ => rfl
  | null | bool _ | str _ => rfl

theorem viaJson_of_written (h : all isWritten v = true) : viaJson v = v := by
  refine relabel_eq_self (fun w _ hw => ?_) (fun o fields ho => Eq.symm ho) h
  unfold rereadScalar
  split
  · cases hw
  · cases hw
  · cases hw
  · rfl

theorem viaJson_eq_of_write_eq {w : JsValue} (h : write v = write w) : viaJson v = viaJson w := by
  refine write_inj (written_viaJson v) (written_viaJson w) ?_
  rw [write_viaJson, write_viaJson, h]

/-- Neither `null` nor a number that is 0 or not finite. -/
def isPlain : JsValue → Bool
  | .null => false
  | .num (.finite text) => text.chars ≠ ['0']
  | .num .negativeZero | .num .nan | .num (.infinity _) => false
  | .bool _ | .str _ | .arr _ | .obj _ _ => true

/-- Another scalar of the same text, if there is one. -/
def twinScalar : JsValue → JsValue
  | .null => .num (.infinity false)
  | .num (.finite text) => if text.chars = ['0'] then .num .negativeZero else .num (.finite text)
  | .num .negativeZero => .num (.finite zeroText)
  | .num .nan | .num (.infinity _) => .null
  | v => v

/-- Another value of the same text, if there is one. -/
def twin (v : JsValue) : JsValue := relabel twinScalar id v

theorem twinScalar_scalar (hv : v.isScalar = true) : (twinScalar v).isScalar = true := by
  unfold twinScalar
  split
  · rfl
  · split
    · rfl
    · rfl
  · rfl
  · rfl
  · rfl
  · exact hv

theorem write_twinScalar (v : JsValue) : write (twinScalar v) = write v := by
  unfold twinScalar
  split
  · rfl
  · split
    · rename_i hzero
      exact hzero.symm
    · rfl
  · rfl
  · rfl
  · rfl
  · rfl

theorem plain_of_twin (h : twin v = v) : all isPlain v = true := by
  induction v using induct with
  | arr items ih =>
    rw [twin, relabel_arr] at h
    refine all_arr.mpr ⟨rfl, fun v hv => ih v hv ?_⟩
    exact map_inj_left.mp ((arr.inj h).trans (map_id items).symm) v hv
  | obj o fields ih =>
    rw [twin, relabel_obj] at h
    refine all_obj.mpr ⟨rfl, fun f hf => ih f hf ?_⟩
    exact congrArg Prod.snd
      (map_inj_left.mp ((obj.inj h).2.trans (map_id fields).symm) f hf)
  | null => cases h
  | num x =>
    cases x with
    | finite text =>
      refine decide_eq_true fun hzero => ?_
      have hneg : twin (.num (.finite text)) = .num .negativeZero := if_pos hzero
      rw [hneg] at h
      cases h
    | negativeZero | nan | infinity _ => cases h
  | bool b => rfl
  | str s => rfl

theorem viaJson_of_plain (hplain : all isPlain (viaJson v) = true)
    (hordinary : all isOrdinary v = true) : viaJson v = v := by
  induction v using induct with
  | arr items ih =>
    rw [viaJson, relabel_arr] at hplain ⊢
    have hitems := (all_arr.mp hplain).2
    have hmap : items.map viaJson = items := (map_congr_left (g := id) fun v hv =>
      ih v hv (hitems _ (mem_map_of_mem hv)) ((all_arr.mp hordinary).2 v hv)).trans
        (map_id items)
    exact congrArg arr hmap
  | obj o fields ih =>
    obtain ⟨ho, hfields⟩ := all_obj.mp hordinary
    rw [viaJson, relabel_obj] at hplain ⊢
    have hall := (all_obj.mp hplain).2
    have hfield : ∀ f ∈ fields, (f.1, viaJson f.2) = f := fun f hf =>
      Prod.ext rfl (ih f hf (hall (f.1, viaJson f.2) (mem_map_of_mem hf)) (hfields f hf))
    have hmap : fields.map (fun f => (f.1, viaJson f.2)) = fields :=
      (map_congr_left (g := id) hfield).trans (map_id fields)
    obtain rfl : o = true := ho
    exact congrArg (obj true) hmap
  | num x =>
    cases x with
    | finite text => rfl
    | negativeZero | nan | infinity _ => cases hplain
  | null => rfl
  | bool b => rfl
  | str s => rfl

end JsValue

end Foundation
