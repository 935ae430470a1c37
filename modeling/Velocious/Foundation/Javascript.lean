/-
  The JavaScript values a server program reads and writes: numbers, strings
  and JSON, as far as such code looks at them.

  * A number is an integer written in digits, another finite number (kept as
    its floor, whether it is an integer, and the text `JSON.stringify` writes
    for it), `NaN` or an infinity.
  * Strings are Lean strings; lengths and comparisons are those of UTF-16 code
    units, as in JavaScript.
  * `Json.stringify` is `JSON.stringify` on values without `undefined`; the
    fields of an object stand in the order `Object.keys` lists them.
-/
import Mathlib.Data.List.Sort
import Mathlib.Tactic

namespace Foundation

/-- A JavaScript number. -/
inductive JsNumber where
  | int (n : ℤ)
  /-- any other finite number: `floor`, whether it is an integer, its text -/
  | real (floor : ℤ) (integral : Bool) (text : String)
  | nan
  | infinity (negative : Bool)
  deriving DecidableEq, Repr

namespace JsNumber

def maxSafeInteger : ℤ := 2 ^ 53 - 1

/-- `Math.floor`, on the finite numbers. -/
def floor? : JsNumber → Option ℤ
  | int n => some n
  | real floor _ _ => some floor
  | nan | infinity _ => none

/-- The value of a number for which `Number.isInteger` holds. -/
def integer? : JsNumber → Option ℤ
  | int n => some n
  | real floor true _ => some floor
  | real _ false _ | nan | infinity _ => none

/-- The value of a number for which `Number.isSafeInteger` holds. -/
def safeInteger? (x : JsNumber) : Option ℤ :=
  x.integer?.filter fun n => -maxSafeInteger ≤ n && n ≤ maxSafeInteger

/-- The text `JSON.stringify` writes. -/
def text : JsNumber → String
  | int n => toString n
  | real _ _ text => text
  | nan | infinity _ => "null"

end JsNumber

/-! ## Strings -/

/-- The UTF-16 code units of a character. -/
def utf16Units (c : Char) : List ℕ :=
  if c.toNat < 0x10000 then [c.toNat]
  else [0xD800 + (c.toNat - 0x10000) / 0x400, 0xDC00 + (c.toNat - 0x10000) % 0x400]

def codeUnits (s : String) : List ℕ := s.toList.flatMap utf16Units

def jsLength (s : String) : ℕ := (codeUnits s).length

/-- `value || null`. -/
def orNull (value : Option String) : Option String := value.filter (· ≠ "")

def startsWith (s start : String) : Bool := start.toList.isPrefixOf s.toList

/-- The white space and line terminators that `trim` removes. -/
def isJsSpace (c : Char) : Bool :=
  c.toNat ∈ [0x9, 0xA, 0xB, 0xC, 0xD, 0x20, 0xA0, 0x1680, 0x2028, 0x2029, 0x202F, 0x205F, 0x3000,
    0xFEFF] || (0x2000 ≤ c.toNat && c.toNat ≤ 0x200A)

def trim (s : String) : String :=
  .ofList ((s.toList.dropWhile isJsSpace).reverse.dropWhile isJsSpace).reverse

theorem orNull_eq_some {value : Option String} {s : String} :
    orNull value = some s ↔ value = some s ∧ s ≠ "" := by
  simp [orNull]

theorem startsWith_append (s t : String) : startsWith (s ++ t) s = true := by
  simp [startsWith]

/-! ## JSON -/

/-- A JSON value; the fields of an object in enumeration order. -/
inductive Json where
  | null
  | bool (b : Bool)
  | num (x : JsNumber)
  | str (s : String)
  | arr (items : List Json)
  | obj (fields : List (String × Json))

namespace Json

def hexDigit (n : ℕ) : Char := if n < 10 then .ofNat (48 + n) else .ofNat (87 + n)

/-- One character inside a quoted JSON string. -/
def quoteChar (c : Char) : List Char :=
  if c = '"' then ['\\', '"']
  else if c = '\\' then ['\\', '\\']
  else if c.toNat = 0x8 then ['\\', 'b']
  else if c.toNat = 0xC then ['\\', 'f']
  else if c = '\n' then ['\\', 'n']
  else if c = '\r' then ['\\', 'r']
  else if c = '\t' then ['\\', 't']
  else if c.toNat < 0x20 then ['\\', 'u', '0', '0', hexDigit (c.toNat / 16), hexDigit (c.toNat % 16)]
  else [c]

def quote (s : String) : String := .ofList ('"' :: s.toList.flatMap quoteChar ++ ['"'])

mutual

def stringify : Json → String
  | .null => "null"
  | .bool b => if b then "true" else "false"
  | .num x => x.text
  | .str s => quote s
  | .arr items => "[" ++ stringifyItems items ++ "]"
  | .obj fields => "\x7b" ++ stringifyFields fields ++ "\x7d"

def stringifyItems : List Json → String
  | [] => ""
  | [v] => stringify v
  | v :: w :: items => stringify v ++ "," ++ stringifyItems (w :: items)

def stringifyFields : List (String × Json) → String
  | [] => ""
  | [(k, v)] => quote k ++ ":" ++ stringify v
  | (k, v) :: f :: fields => quote k ++ ":" ++ stringify v ++ "," ++ stringifyFields (f :: fields)

end

/-- The value of a field (`undefined` is `none`). -/
def field? (name : String) : Json → Option Json
  | .obj fields => (fields.find? fun f => f.1 = name).map Prod.snd
  | _ => none

end Json

/-- The value of an array-index key: canonical digits below `2 ^ 32 - 1`. -/
def arrayIndex? (k : String) : Option ℕ :=
  let digits := k.toList
  let n := digits.foldl (fun n c => 10 * n + (c.toNat - 48)) 0
  if digits ≠ [] && digits.all (fun c => 48 ≤ c.toNat && c.toNat ≤ 57)
      && (digits.length = 1 || digits.head? ≠ some '0') && n < 2 ^ 32 - 1
  then some n else none

/-- The order of `Array.prototype.sort` on strings. -/
def codeUnitLE (a b : String) : Bool := !decide (codeUnits b < codeUnits a)

/-- The fields of an object built by assigning `fields` in order to `{}`: array
    indices first, ascending, then the other keys in assignment order. -/
def ownFields (fields : List (String × Json)) : List (String × Json) :=
  (fields.filter fun f => (arrayIndex? f.1).isSome).insertionSort
      (fun f g => (arrayIndex? f.1).getD 0 ≤ (arrayIndex? g.1).getD 0)
    ++ fields.filter fun f => (arrayIndex? f.1).isNone

end Foundation
