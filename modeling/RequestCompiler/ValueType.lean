/-!
# Types of values

The five types of a request's values, their names, and the spellings that are read as a type.

* `ValueType.name` is the written name; `ValueType.parse?` reads it back (`parse?_name`), in any
  letter case, and knows three short forms besides: `bool`, `int` and `text`.
* `ValueType.ofName?` accepts the written names alone.
* `ValueType.rank` orders the types: boolean, integer, float, string, list.
-/

namespace RequestCompiler

/-- The type of a value. -/
inductive ValueType where
  | boolean
  | integer
  | float
  | string
  | list
deriving DecidableEq, Repr, Inhabited

namespace ValueType

/-- The written name. -/
def name : ValueType → String
  | .boolean => "boolean"
  | .integer => "integer"
  | .float => "float"
  | .string => "string"
  | .list => "list"

/-- Every type, in ascending order. -/
def all : List ValueType := [.boolean, .integer, .float, .string, .list]

/-- The type with exactly this written name. -/
def ofName? (text : String) : Option ValueType := all.find? fun t => t.name = text

/--
The type a spelling stands for, in any letter case.

Lowering the ASCII letters is enough: every spelling consists of them, and no other letter has a
lower-case form made of letters that occur in a spelling.
-/
def parse? (text : String) : Option ValueType :=
  let lower := text.map Char.toLower
  if lower = "bool" then some .boolean
  else if lower = "int" then some .integer
  else if lower = "text" then some .string
  else ofName? lower

/-- Whether the values are numbers. -/
def isNumber : ValueType → Bool
  | .integer | .float => true
  | _ => false

/-- The place of a type in the order of types. -/
def rank : ValueType → Nat
  | .boolean => 0
  | .integer => 1
  | .float => 2
  | .string => 3
  | .list => 4

/-- Types in ascending order. -/
def sort (types : List ValueType) : List ValueType :=
  types.mergeSort fun a b => a.rank ≤ b.rank

theorem ofName?_name (t : ValueType) : ofName? t.name = some t := by
  cases t <;> decide +kernel

/-- A text is read as a type exactly if it is the name of that type. -/
theorem ofName?_eq_some_iff {text : String} {t : ValueType} :
    ofName? text = some t ↔ text = t.name := by
  constructor
  · intro h
    have hn := List.find?_some h
    exact (of_decide_eq_true hn).symm
  · rintro rfl
    exact ofName?_name t

theorem parse?_name (t : ValueType) : parse? t.name = some t := by
  cases t <;> decide +kernel

theorem rank_inj {a b : ValueType} (h : a.rank = b.rank) : a = b := by
  cases a <;> cases b <;> simp_all [rank]

end ValueType

end RequestCompiler
