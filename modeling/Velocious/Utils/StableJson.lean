/-
  The canonical text of the JSON values that jobs, scopes and versions hold: their
  numbers are those of `JsNumber`, and every object has the ordinary prototype.
-/
import Velocious.Utils.StableJsonCanonical

namespace Velocious

open Foundation

/-- A number as it is written; a text that is none is not a number. -/
def numberValue (x : JsNumber) : NumberValue :=
  match x with
  | .int _ | .real _ _ _ =>
    if h : x.text.toList ≠ [] ∧ x.text.toList.all isNumberChar = true then
      .finite ⟨x.text.toList, h.1, List.all_eq_true.mp h.2⟩
    else .nan
  | .nan => .nan
  | .infinity negative => .infinity negative

mutual

def toJsValue : Json → JsValue
  | .null => .null
  | .bool b => .bool b
  | .num x => .num (numberValue x)
  | .str s => .str s
  | .arr items => .arr (toJsValues items)
  | .obj fields => .obj true (toJsFields fields)

def toJsValues : List Json → List JsValue
  | [] => []
  | v :: items => toJsValue v :: toJsValues items

def toJsFields : List (String × Json) → List (String × JsValue)
  | [] => []
  | (k, v) :: fields => (k, toJsValue v) :: toJsFields fields

end

def stableJsonStringify (value : Json) : String :=
  .ofList (StableJson.stableJsonStringify (toJsValue value))

example : stableJsonStringify (.obj [("b", .num (.int 12)), ("__proto__", .null), ("7", .str "x")]) =
    "\x7b\"7\":\"x\",\"b\":12\x7d" := by
  decide +kernel

end Velocious
