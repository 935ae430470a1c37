/-
  Cron expressions (`background-jobs/cron-expression.js`): the parser of five fields and of the
  shortcuts.

  * `toLowerCase` is a parameter. A field is its characters; the sets are finite sets of integers.
  * A number is what `Number(text)` gives where it is an integer (`numberInteger`), and
    `value += step` is the sum rounded to a double.
  * The loop over the values of a part runs with fuel, of which a turn for every value of the field
    and one more is enough (`addValues_ok`, in `CronReading`).
-/
import Velocious.Foundation.NumberText
import Mathlib.Data.Finset.Insert
import Mathlib.Data.List.Basic

namespace Velocious.CronExpression

open Foundation

/-! ## Data -/

def MONTH_NAMES : List String :=
  ["jan", "feb", "mar", "apr", "may", "jun", "jul", "aug", "sep", "oct", "nov", "dec"]

def DAY_NAMES : List String := ["sun", "mon", "tue", "wed", "thu", "fri", "sat"]

def SHORTCUTS : List (String × String) :=
  [("@hourly", "0 * * * *"),
   ("@daily", "0 0 * * *"),
   ("@midnight", "0 0 * * *"),
   ("@weekly", "0 0 * * 0"),
   ("@monthly", "0 0 1 * *"),
   ("@yearly", "0 0 1 1 *"),
   ("@annually", "0 0 1 1 *")]

/-- What a plain object answers that it has no field for: no string. -/
def inheritedKeys : List String :=
  ["constructor", "__defineGetter__", "__defineSetter__", "hasOwnProperty", "__lookupGetter__",
   "__lookupSetter__", "isPrototypeOf", "propertyIsEnumerable", "toString", "valueOf", "__proto__",
   "toLocaleString"]

/-- A field of the expression: of values below 60, with names in letters. -/
structure FieldSpec where
  name : String
  min : ℤ
  max : ℤ
  names : List String
  small : 0 ≤ min ∧ min ≤ max ∧ max < 60 := by decide
  named : ∀ name ∈ names, name ≠ "" ∧ name.toList.all Char.isAlpha = true := by decide
  fits : min + names.length ≤ max + 1 := by decide

namespace FieldSpec

def minute : FieldSpec := { name := "minute", min := 0, max := 59, names := [] }
def hour : FieldSpec := { name := "hour", min := 0, max := 23, names := [] }
def dayOfMonth : FieldSpec := { name := "dayOfMonth", min := 1, max := 31, names := [] }
def month : FieldSpec := { name := "month", min := 1, max := 12, names := MONTH_NAMES }

/-- 7 is normalized to 0 after parsing. -/
def dayOfWeek : FieldSpec := { name := "dayOfWeek", min := 0, max := 7, names := DAY_NAMES }

end FieldSpec

/-- A parsed expression. -/
structure ParsedCron where
  minute : Finset ℤ
  hour : Finset ℤ
  dayOfMonth : Finset ℤ
  month : Finset ℤ
  dayOfWeek : Finset ℤ
  dayOfMonthRestricted : Bool
  dayOfWeekRestricted : Bool
  expression : String
  deriving DecidableEq

/-- What the parser throws. -/
inductive CronError where
  | blank
  | split
  | fieldCount (count : ℕ)
  | emptyPart (field : String)
  | outOfRange (value : ℤ) (field : String)
  | step (value : List Char) (field : String)
  | range (start stop : ℤ) (field : String)
  | emptyValue (field : String)
  | value (value : List Char) (field : String)
  deriving DecidableEq

/-- The text of an error; `text` writes a number. -/
def CronError.message (text : ℤ → String) (expression : String) : CronError → String
  | blank => "Invalid cron expression: " ++ expression
  | split => "expanded.split is not a function"
  | fieldCount count => "Invalid cron expression \"" ++ expression ++
      "\": expected 5 fields, got " ++ text count
  | emptyPart field => "Invalid " ++ field ++ " field in cron expression \"" ++ expression ++ "\""
  | outOfRange found field => "Value " ++ text found ++ " out of range for " ++ field ++
      " in cron expression \"" ++ expression ++ "\""
  | step raw field => "Invalid step \"" ++ String.ofList raw ++ "\" for " ++ field ++
      " in cron expression \"" ++ expression ++ "\""
  | range start stop field => "Range start " ++ text start ++ " > end " ++ text stop ++ " for " ++
      field ++ " in cron expression \"" ++ expression ++ "\""
  | emptyValue field => "Invalid " ++ field ++ " value in cron expression \"" ++ expression ++ "\""
  | value raw field => "Invalid " ++ field ++ " value \"" ++ String.ofList raw ++
      "\" in cron expression \"" ++ expression ++ "\""

/-! ## Fields -/

section
variable (fieldSpec : FieldSpec)

def parseValue (rawValue : List Char) : Except CronError ℤ :=
  if rawValue = [] then .error (.emptyValue fieldSpec.name)
  else match fieldSpec.names.idxOf? (String.ofList rawValue) with
    | some namedIndex => .ok (namedIndex + fieldSpec.min)
    | none => match numberInteger rawValue with
      | some value => .ok value
      | none => .error (.value rawValue fieldSpec.name)

def parseRange (rangePart : List Char) (hasStep : Bool) : Except CronError (ℤ × ℤ) :=
  if rangePart = ['*'] then .ok (fieldSpec.min, fieldSpec.max)
  else if '-' ∈ rangePart then do
    let dashIndex := rangePart.idxOf '-'
    let start ← parseValue fieldSpec (rangePart.take dashIndex)
    let stop ← parseValue fieldSpec (rangePart.drop (dashIndex + 1))
    if stop < start then .error (.range start stop fieldSpec.name) else .ok (start, stop)
  else do
    let value ← parseValue fieldSpec rangePart
    -- `N/step` is `N-max/step`
    .ok (value, if hasStep then fieldSpec.max else value)

def parseStep (value : List Char) : Except CronError ℤ :=
  match numberInteger value with
  | some step => if step ≤ 0 then .error (.step value fieldSpec.name) else .ok step
  | none => .error (.step value fieldSpec.name)

/-- `for (let value = start; value <= end; value += step)` -/
def addValues (stop step : ℤ) : ℕ → ℤ → Finset ℤ → Except CronError (Finset ℤ)
  | 0, _, result => .ok result
  | fuel + 1, value, result =>
    if stop < value then .ok result
    else if value < fieldSpec.min ∨ fieldSpec.max < value then
      .error (.outOfRange value fieldSpec.name)
    else match Double.ofInt (value + step) with
      | .finite next => addValues stop step fuel next (insert value result)
      | .infinity _ | .nan => .ok (insert value result)

/-- A turn for every value of the field, and one that ends the loop. -/
def FieldSpec.turns : ℕ := (fieldSpec.max - fieldSpec.min + 2).toNat

def addPartValues (part : List Char) (result : Finset ℤ) : Except CronError (Finset ℤ) :=
  match part.splitOn '/' with
  | rangePart :: rest =>
    if part = [] then .error (.emptyPart fieldSpec.name)
    else do
      let step ← match rest with
        | [] => .ok 1
        | stepPart :: _ => parseStep fieldSpec stepPart
      let (start, stop) ← parseRange fieldSpec rangePart (rest ≠ [])
      addValues fieldSpec stop step fieldSpec.turns start result
  | [] => .error (.emptyPart fieldSpec.name)

/-- The parts of a field, one after another. -/
def addParts : List (List Char) → Finset ℤ → Except CronError (Finset ℤ)
  | [], result => .ok result
  | part :: parts, result => do
    let result ← addPartValues fieldSpec part result
    addParts parts result

def parseField (field : List Char) : Except CronError (Finset ℤ) :=
  addParts fieldSpec (field.splitOn ',') ∅

end

/-- `dayOfWeek.delete(7)` and `dayOfWeek.add(0)`. -/
def normalizeDayOfWeek (dayOfWeek : Finset ℤ) : Finset ℤ :=
  if 7 ∈ dayOfWeek then insert 0 (dayOfWeek.erase 7) else dayOfWeek

/-- `text.split(/\s+/)` -/
def splitSpaces : List Char → List (List Char)
  | [] => [[]]
  | c :: cs =>
    if isJsSpace c then
      -- a run of white space is one separator
      if cs.head?.any isJsSpace then splitSpaces cs else [] :: splitSpaces cs
    else match splitSpaces cs with
      | word :: words => (c :: word) :: words
      | [] => [[c]]

section
variable (toLowerCase : String → String)

/-- `SHORTCUTS[trimmed] || trimmed` -/
def expand (trimmed : String) : Except CronError String :=
  match SHORTCUTS.lookup trimmed with
  | some expanded => .ok expanded
  | none => if trimmed ∈ inheritedKeys then .error .split else .ok trimmed

def parseCronExpression (expression : String) : Except CronError ParsedCron :=
  if trim expression = "" then .error .blank
  else do
    let expanded ← expand (toLowerCase (trim expression))
    match splitSpaces expanded.toList with
    | [minuteField, hourField, dayOfMonthField, monthField, dayOfWeekField] => do
      let minute ← parseField .minute minuteField
      let hour ← parseField .hour hourField
      let dayOfMonth ← parseField .dayOfMonth dayOfMonthField
      let month ← parseField .month monthField
      let dayOfWeek ← parseField .dayOfWeek dayOfWeekField
      .ok { minute, hour, dayOfMonth, month
            dayOfWeek := normalizeDayOfWeek dayOfWeek
            dayOfMonthRestricted := dayOfMonthField ≠ ['*']
            dayOfWeekRestricted := dayOfWeekField ≠ ['*']
            expression }
    | fields => .error (.fieldCount fields.length)

theorem exists_parsed (expression : String) (test : ParsedCron → Bool)
    (h : (parseCronExpression toLowerCase expression).toOption.any test = true) :
    ∃ parsed, parseCronExpression toLowerCase expression = .ok parsed ∧ test parsed = true := by
  cases hparse : parseCronExpression toLowerCase expression with
  | error e => simp [hparse, Except.toOption] at h
  | ok parsed => exact ⟨parsed, rfl, by simpa [hparse, Except.toOption] using h⟩

end

end Velocious.CronExpression
