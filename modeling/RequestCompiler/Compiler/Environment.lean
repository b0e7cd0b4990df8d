import RequestCompiler.PropertyResolver
import RequestCompiler.Settings

/-!
# What stays the same during a compilation

A `Compiler` knows the overloads of functions, how properties are read, and its settings.
`Compiler.returnType` is the rule for the type of a call: that of the first overload which accepts
the operands; without one, the policy of the settings decides.
-/

namespace RequestCompiler

/-- What stays the same during a compilation. -/
structure Compiler where
  signatures : SignatureTable
  settings : Settings := {}
  resolver : PropertyResolver := columnResolver

/-- A compiled expression and its type, if that is known. -/
structure Typed where
  expression : Expression
  type : Option ValueType
deriving DecidableEq, Repr

/-- How a message lists the types of operands. -/
def describeTypes (types : List (Option ValueType)) : String :=
  ", ".intercalate (types.map fun
    | some type => type.name
    | none => "untyped")

/-- The type a call has for operands of these types. -/
def Compiler.returnType (c : Compiler) (name : String) (operands : List (Option ValueType)) :
    Except CompileError (Option ValueType) :=
  match (c.signatures.overloads name).find? (·.accepts operands) with
  | some overload => .ok (some overload.returns)
  | none =>
    match c.settings.overloadPolicy with
    | .tolerant => .ok ((c.signatures.overloads name).head?.map (·.returns))
    | .strict => .error (.overloadMismatch name (describeTypes operands))

/-- Under the tolerant policy every call has an answer, if not always a known type. -/
theorem Compiler.returnType_tolerant {c : Compiler} (h : c.settings.overloadPolicy = .tolerant)
    (name : String) (operands : List (Option ValueType)) :
    ∃ type, c.returnType name operands = .ok type := by
  unfold returnType
  split
  · exact ⟨_, rfl⟩
  · rw [h]; exact ⟨_, rfl⟩

end RequestCompiler
