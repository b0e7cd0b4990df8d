/-!
# Stored documents

A `Document` is the tree in which requests, overload tables and settings are stored: scalars,
arrays, and objects whose fields keep the order in which they are written. It is what a reader of
JSON text has made of a text. That reader is not modelled: it gives up on texts that are nested too
deeply and on numbers out of its range, while trees are of any depth and numbers of any spelling.

A field is looked up by its key, the first one with that key counting. `textField?` answers `none`
for a field that is absent or of another shape. `flagField?` gives an absent field its default, so
a written `null` is a wrong shape and not an absent field.

Two kinds of thing have more than one spelling.

* A **record** is an object of named fields, or an array of its fields in their declared order.
  `recordFields?` brings both to named fields; an array that stops early leaves the last fields
  absent.
* A **constant** is the text of its name, or an object whose only key is the name and whose value is
  empty. `constant?` reads both. What counts as empty depends on the `Place` of the document.
-/

namespace RequestCompiler

/-- A stored tree. A number keeps the spelling it was written with. -/
inductive Document where
  | null
  | boolean (value : Bool)
  | number (literal : String)
  | text (value : String)
  | array (items : List Document)
  | object (fields : List (String × Document))
deriving Repr, Inhabited

namespace Document

/-- Where a document stands. Constants inside a token have spellings that they lack elsewhere. -/
inductive Place where
  /-- Not in a field of a token. -/
  | outside
  /-- In a field of a token, at any depth. -/
  | inside
deriving DecidableEq, Repr

/-- The fields of an object. -/
def fields? : Document → Option (List (String × Document))
  | .object fields => some fields
  | _ => none

/-- The items of an array. -/
def items? : Document → Option (List Document)
  | .array items => some items
  | _ => none

/-- The value of a text. -/
def text? : Document → Option String
  | .text value => some value
  | _ => none

/-- The value of a boolean. -/
def boolean? : Document → Option Bool
  | .boolean value => some value
  | _ => none

/-- The value of a number that is written with digits alone. -/
def natural? : Document → Option Nat
  | .number literal => if literal.all Char.isDigit then literal.toNat? else none
  | _ => none

/-! ## Constants -/

/-- Whether a document says nothing: `null` does, and inside a token the object without fields. -/
def isEmpty (place : Place) : Document → Bool
  | .null => true
  | .object [] => place = .inside
  | _ => false

/-- The name of a constant. -/
def constant? (place : Place) : Document → Option String
  | .text name => some name
  | .object [(name, value)] => if value.isEmpty place then some name else none
  | _ => none

/-! ## Records -/

/--
The named fields of a record whose fields are declared in this order.

An array gives them in that order and may leave out the last ones, but has no further items. An
object names them itself, and its further fields are kept.
-/
def recordFields? (declared : List String) : Document → Option (List (String × Document))
  | .object fields => some fields
  | .array items => if items.length ≤ declared.length then some (declared.zip items) else none
  | _ => none

/-- The text in a field, which must be there. -/
def textField? (fields : List (String × Document)) (key : String) : Option String :=
  (fields.lookup key).bind text?

/-- The boolean in a field, or the default where the field is absent. -/
def flagField? (fields : List (String × Document)) (key : String) (default : Bool) :
    Option Bool :=
  match fields.lookup key with
  | none => some default
  | some value => value.boolean?

end Document

end RequestCompiler
