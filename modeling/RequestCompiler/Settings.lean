/-!
# Settings of a compiler

Two choices: what the type of a call is when no overload accepts its operands, and whether the
types of parameters are taken from their positions before compiling.
-/

namespace RequestCompiler

/-- What to do when no overload of a function accepts the operands. -/
inductive OverloadPolicy where
  /-- Go on with what the first declared overload returns. -/
  | tolerant
  /-- Fail. -/
  | strict
deriving DecidableEq, Repr, Inhabited

/-- The choices a compiler is made with. -/
structure Settings where
  overloadPolicy : OverloadPolicy := .tolerant
  inferParameterTypes : Bool := true
deriving DecidableEq, Repr, Inhabited

/-- The same settings under the strict policy. -/
def Settings.strict (s : Settings) : Settings := { s with overloadPolicy := .strict }

end RequestCompiler
