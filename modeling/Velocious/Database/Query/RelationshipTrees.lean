/-
  Join and preload descriptors, and the trees that they are normalized to.

  * A descriptor is a name, an array of names and objects, or an object of flags and descriptors.
  * `normalize` makes a tree of it: an object of flags and trees; joins and preloads differ in how
    they put a relationship into what they have of it (`Merging`).
  * `Writes` are the relationship paths of a descriptor, and of a tree; `Bare` are those that are
    written with nothing below.
  * `Rearranged`: the entries of an array are permuted, or one is written twice.
-/
import Mathlib.Data.List.Perm.Basic
import Mathlib.Logic.Relation
import Velocious.Foundation.Javascript

namespace Velocious.RelationshipTrees

open Foundation

/-- The entries of a plain object. -/
abbrev Fields := List (String × Json)

/-- `object[name] = value`, for other names than `__proto__` -/
def setField (name : String) (value : Json) : Fields → Fields
  | [] => [(name, value)]
  | field :: fields =>
    if field.1 = name then (name, value) :: fields else field :: setField name value fields

def typeOf : Json → String
  | .null => "object"
  | .bool _ => "boolean"
  | .num _ => "number"
  | .str _ => "string"
  | .arr _ => "object"
  | .obj _ => "object"

def isFalsy : Json → Bool
  | .null => true
  | .bool b => !b
  | .num x => decide (x.integer? = some 0) || decide (x = .nan)
  | .str s => decide (s = "")
  | .arr _ => false
  | .obj _ => false

/-- How a normalizer puts relationships into a result. -/
structure Merging where
  word : String
  addName : Fields → String → Fields
  addRecord : Fields → Fields → Fields
  addField : Fields → String → Json → Fields

mutual

def normalize (m : Merging) : Json → Except String Fields
  | .str s => .ok (if s = "" then [] else [(s, .bool true)])
  | .arr entries => normalizeEntries m [] entries
  | .obj fields => normalizeFields m [] fields
  | join => if isFalsy join then .ok [] else .error ("Invalid " ++ m.word ++ " type: " ++ typeOf join)

def normalizeEntries (m : Merging) (result : Fields) : List Json → Except String Fields
  | [] => .ok result
  | .str entry :: entries => normalizeEntries m (m.addName result entry) entries
  | .obj fields :: entries =>
    match normalizeFields m [] fields with
    | .ok normalized => normalizeEntries m (m.addRecord result normalized) entries
    | .error message => .error message
  | entry :: _ => .error ("Invalid " ++ m.word ++ " entry type: " ++ typeOf entry)

def normalizeFields (m : Merging) (result : Fields) : List (String × Json) → Except String Fields
  | [] => .ok result
  | (key, .bool value) :: fields => normalizeFields m (m.addField result key (.bool value)) fields
  | (key, .null) :: _ => .error ("Invalid " ++ m.word ++ " value for " ++ key ++ ": object")
  | (key, .num _) :: _ => .error ("Invalid " ++ m.word ++ " value for " ++ key ++ ": number")
  | (key, value) :: fields =>
    match normalize m value with
    | .ok normalized => normalizeFields m (m.addField result key (.obj normalized)) fields
    | .error message => .error message

end

/-- `{...existing, ...incoming}` -/
def spread (existing incoming : Fields) : Fields :=
  incoming.foldl (fun result field => setField field.1 field.2 result) existing

def mergeJoinValue (existing : Option Json) (incoming : Json) : Json :=
  match existing, incoming with
  | none, incoming => incoming
  | some (.bool false), incoming => incoming
  | some (.bool true), _ => .bool true
  | some _, .bool true => .bool true
  | some (.obj existing), .obj incoming => .obj (spread existing incoming)
  | some _, incoming => incoming

/-- `result[key] = mergeJoinValue(result[key], value)` -/
def mergeJoinField (result : Fields) (key : String) (value : Json) : Fields :=
  setField key (mergeJoinValue (result.lookup key) value) result

def joining : Merging where
  word := "join"
  addName result name := mergeJoinField result name (.bool true)
  addRecord result normalized :=
    normalized.foldl (fun result field => mergeJoinField result field.1 field.2) result
  addField := mergeJoinField

def normalizeJoinObject : Json → Except String Fields := normalize joining

section Preloads

-- The third-party `incorporate`, which changes its first argument.
variable (incorporate : Fields → Fields → Fields)

def preloading : Merging where
  word := "preload"
  addName result name := setField name (.bool true) result
  addRecord := incorporate
  addField result key value := setField key value result

def normalizePreloadRecord : Json → Except String Fields := normalize (preloading incorporate)

/-- `_preload`, after some calls of `preload`. -/
def preloadCalls (calls : List Json) : Except String Fields :=
  calls.foldlM (fun preload data => (normalizePreloadRecord incorporate data).map (incorporate preload))
    []

end Preloads

mutual

/-- `normalizeNestedPreload`; `none` is `null`. -/
def normalizeNestedPreload : Json → Except String (Option Fields)
  | .null => .ok none
  | .bool _ => .ok none
  | .num x =>
    if isFalsy (.num x) then .ok none else .error "Invalid preload type: number"
  | .str s => .ok (if s = "" then none else some [(s, .bool true)])
  | .arr entries => (normalizeNestedEntries [] entries).map some
  | .obj fields => (normalizeNestedFields [] fields).map some

def normalizeNestedEntries (result : Fields) : List Json → Except String Fields
  | [] => .ok result
  | .str entry :: entries => normalizeNestedEntries (setField entry (.bool true) result) entries
  | .arr items :: entries =>
    match normalizeNestedEntries [] items with
    | .ok normalized => normalizeNestedEntries (spread result normalized) entries
    | .error message => .error message
  | .obj fields :: entries =>
    match normalizeNestedFields [] fields with
    | .ok normalized => normalizeNestedEntries (spread result normalized) entries
    | .error message => .error message
  | entry :: _ => .error ("Invalid preload entry type: " ++ typeOf entry)

def normalizeNestedFields (result : Fields) : List (String × Json) → Except String Fields
  | [] => .ok result
  | (key, .bool value) :: fields => normalizeNestedFields (setField key (.bool value) result) fields
  | (key, value) :: fields =>
    match normalizeNestedPreload value with
    | .ok (some normalized) => normalizeNestedFields (setField key (.obj normalized) result) fields
    | .ok none => .error ("Invalid preload value for " ++ key ++ ": " ++ typeOf value)
    | .error message => .error message

end

/-! ## Paths -/

/-- A relationship path that a descriptor writes. -/
inductive Writes : Json → List String → Prop
  | name {s} : Writes (.str s) [s]
  | entry {entries e p} : e ∈ entries → Writes e p → Writes (.arr entries) p
  | field {fields s d} : (s, d) ∈ fields → Writes (.obj fields) [s]
  | nested {fields s d p} : (s, d) ∈ fields → Writes d p → Writes (.obj fields) (s :: p)

/-- A relationship path that is written as a name or with a flag, by which nothing is below it. -/
inductive Bare : Json → List String → Prop
  | name {s} : Bare (.str s) [s]
  | entry {entries e p} : e ∈ entries → Bare e p → Bare (.arr entries) p
  | flag {fields s b} : (s, .bool b) ∈ fields → Bare (.obj fields) [s]
  | nested {fields s d p} : (s, d) ∈ fields → Bare d p → Bare (.obj fields) (s :: p)

def isFlag : Json → Bool
  | .bool _ => true
  | _ => false

def isArray : Json → Bool
  | .arr _ => true
  | _ => false

/-- Strings, arrays of strings and objects, and objects. Relationship names are not empty, and not
    `__proto__`, by which `result[key] = value` would write no entry. -/
inductive Descriptor : Json → Prop
  | name {s} : s ≠ "" ∧ s ≠ "__proto__" → Descriptor (.str s)
  | array {entries} : (∀ e ∈ entries, Descriptor e) → (∀ e ∈ entries, isArray e = false) →
      Descriptor (.arr entries)
  | object {fields : Fields} :
      (fields.map Prod.fst).Nodup ∧ "__proto__" ∉ fields.map Prod.fst →
      (∀ s d, (s, d) ∈ fields → isFlag d = false → Descriptor d) → Descriptor (.obj fields)

/-- An array with its entries permuted, or with one of them written twice, at any depth. -/
inductive Rearranged : Json → Json → Prop
  | perm {entries entries'} : entries.Perm entries' → Rearranged (.arr entries) (.arr entries')
  | twice {entries e} : e ∈ entries → Rearranged (.arr entries) (.arr (e :: entries))
  | entry {before after e e'} : Rearranged e e' →
      Rearranged (.arr (before ++ e :: after)) (.arr (before ++ e' :: after))
  | field {before after s d d'} : Rearranged d d' →
      Rearranged (.obj (before ++ (s, d) :: after)) (.obj (before ++ (s, d') :: after))

/-- `d'` has the entries of `d`, in any order and any number of times. -/
abbrev Rearrangement : Json → Json → Prop := Relation.ReflTransGen Rearranged

end Velocious.RelationshipTrees
