import RequestCompiler.ParameterTypes

/-!
# Arguments of a statement

A statement is executed with values for its arguments. Each argument comes from one *use* of the
parameters of the request: a parameter by its name, or a number computed from the bounds of a
slice or a substring.

An `ArgumentBinder` collects the arguments in the order of their first use. The same use gives the
same argument, and the place of an argument in the list is its ordinal (`ordinal_bind`). A use of
a name that is no identifier is refused and changes nothing.
-/

namespace RequestCompiler

/-- What happens if no value is supplied for a parameter. -/
inductive Requiredness where
  /-- Execution fails. -/
  | required
  /-- The zero of its type is taken. -/
  | defaultsToZero
deriving DecidableEq, Repr

/-- A use of parameters in a statement. -/
inductive ParameterUse where
  /-- The value of a parameter. -/
  | named (name : String) (requiredness : Requiredness)
  /-- How many rows a slice leaves out. -/
  | sliceOffset (start : String)
  /-- How many rows a slice keeps. -/
  | sliceLimit (start stop : String)
  /-- Where a substring begins, counted from one. -/
  | substringBegin (start : String)
  /-- How long a substring is. -/
  | substringLength (start stop : String)
deriving DecidableEq, Repr

/-- Whether a name is an ASCII letter or underscore, followed by such and by digits. -/
def isIdentifier (name : String) : Bool :=
  match name.toList with
  | [] => false
  | c :: cs => (c.isAlpha || c == '_') && cs.all fun c => c.isAlphanum || c == '_'

/-- An identifier is not empty, and it begins with no digit. -/
theorem isIdentifier_head {name : String} (h : isIdentifier name = true) :
    ∃ c cs, name.toList = c :: cs ∧ (c.isAlpha = true ∨ c = '_') := by
  unfold isIdentifier at h
  split at h
  · cases h
  · rename_i c cs hn
    rw [Bool.and_eq_true, Bool.or_eq_true, beq_iff_eq] at h
    exact ⟨c, cs, hn, h.1⟩

namespace ParameterUse

/-- The names of the parameters used. -/
def names : ParameterUse → List String
  | .named name _ => [name]
  | .sliceOffset start | .substringBegin start => [start]
  | .sliceLimit start stop | .substringLength start stop => [start, stop]

/-- Whether every name used is an identifier. -/
def isValid (u : ParameterUse) : Bool := u.names.all isIdentifier

/-- What happens if no value is supplied; only a named parameter has a choice. -/
def requiredness : ParameterUse → Requiredness
  | .named _ requiredness => requiredness
  | _ => .required

/-- How the value is computed from the named parameters. -/
def text : ParameterUse → String
  | .named name _ => ":" ++ name
  | .sliceOffset start => ":" ++ start
  | .sliceLimit start stop | .substringLength start stop => ":" ++ stop ++ " - :" ++ start
  | .substringBegin start => ":" ++ start ++ " + 1"

end ParameterUse

/-- An argument: the use it stands for and its type, if that is known. -/
structure Argument where
  use : ParameterUse
  type : Option ValueType
deriving DecidableEq, Repr

/-- The argument for a use: a named parameter has its own type, a bound is an integer. -/
def ParameterTypes.argument (types : ParameterTypes) (use : ParameterUse) : Argument :=
  match use with
  | .named name _ => ⟨use, types.find? name⟩
  | _ => ⟨use, some .integer⟩

/-- The arguments of a statement so far, each once, and the types of its parameters. -/
structure ArgumentBinder where
  types : ParameterTypes
  arguments : List Argument
  nodup : arguments.Nodup
deriving DecidableEq

namespace ArgumentBinder

/-- A binder without arguments. -/
def ofTypes (types : ParameterTypes) : ArgumentBinder := ⟨types, [], List.nodup_nil⟩

/-- The binder with an argument appended, unless it is there already. -/
def bind (b : ArgumentBinder) (a : Argument) : ArgumentBinder :=
  if h : a ∈ b.arguments then b
  else ⟨b.types, b.arguments ++ [a], by
    rw [List.nodup_append]
    refine ⟨b.nodup, by simp, ?_⟩
    rintro x hx y hy rfl
    exact h (List.mem_singleton.mp hy ▸ hx)⟩

/-- The place of an argument. -/
def ordinal (b : ArgumentBinder) (a : Argument) : Nat := b.arguments.idxOf a

/-- Uses parameters: the ordinal of the argument and the binder that holds it. -/
def use? (b : ArgumentBinder) (u : ParameterUse) : Option (Nat × ArgumentBinder) :=
  if u.isValid then
    let a := b.types.argument u
    let b := b.bind a
    some (b.ordinal a, b)
  else none

/-- The type found for a parameter. -/
def typeOf (b : ArgumentBinder) (name : String) : Option ValueType := b.types.find? name

/-- Whether two binders hold the same arguments and types, in whatever order. -/
def Same (a b : ArgumentBinder) : Prop :=
  a.types.SameBindings b.types ∧ a.arguments.length = b.arguments.length ∧
    ∀ x ∈ a.arguments, x ∈ b.arguments

instance (a b : ArgumentBinder) : Decidable (a.Same b) :=
  inferInstanceAs (Decidable (_ ∧ _ ∧ _))

@[simp] theorem types_bind (b : ArgumentBinder) (a : Argument) : (b.bind a).types = b.types := by
  unfold bind; split <;> rfl

theorem mem_bind (b : ArgumentBinder) (a : Argument) : a ∈ (b.bind a).arguments := by
  unfold bind; split
  · assumption
  · simp

/-- An argument stands at its ordinal. -/
theorem ordinal_bind (b : ArgumentBinder) (a : Argument) :
    (b.bind a).arguments[(b.bind a).ordinal a]? = some a := by
  rw [ordinal, List.getElem?_eq_some_iff]
  exact ⟨List.idxOf_lt_length_iff.mpr (mem_bind b a), List.getElem_idxOf _⟩

end ArgumentBinder

end RequestCompiler
