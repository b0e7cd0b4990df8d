import RequestCompiler.Compiler.Environment

/-!
# Compiling expressions

`Compiler.expression` compiles the tokens of an expression at a context. Leading joins are
followed, each under a savepoint; then one token remains, which is a parameter, a property or a
call (`Compiler.operand`). Calls have one, two or three operands, and only the functions of
`unaryOperator?`, `BinaryForm.ofName?` and `substring` are known.

The recursion follows the tokens: an expression is shorter after its first join, and the operands
of a call are parts of the call.
-/

namespace RequestCompiler

open Compilation

/-- The operator of a function with one operand. -/
def unaryOperator? (name : String) : Option UnaryOperator :=
  if name = "length" then some .charLength
  else if name = "uppercase" then some .upper
  else if name = "lowercase" then some .lower
  else if name = "not" then some .not
  else none

/-- What a function with two operands becomes. -/
inductive BinaryForm where
  | operator (operator : BinaryOperator)
  /-- The negation of equality. -/
  | notEqual
deriving DecidableEq, Repr

namespace BinaryForm

/-- The form of a function with two operands. -/
def ofName? (name : String) : Option BinaryForm :=
  if name = "plus" then some (.operator .plus)
  else if name = "minus" then some (.operator .minus)
  else if name = "times" then some (.operator .times)
  else if name = "divides" then some (.operator .divides)
  else if name = "and" then some (.operator .and)
  else if name = "or" then some (.operator .or)
  else if name = "equal" then some (.operator .equal)
  else if name = "notEqual" then some .notEqual
  else if name = "less" then some (.operator .less)
  else if name = "lessEqual" then some (.operator .lessEqual)
  else if name = "greater" then some (.operator .greater)
  else if name = "greaterEqual" then some (.operator .greaterEqual)
  else if name = "match" then some (.operator .regexpBinary)
  else none

/-- The expression for two operands; what is added to a string is appended. -/
def apply (form : BinaryForm) (left right : Typed) : Expression :=
  match form with
  | .notEqual => .not (.binary .equal left.expression right.expression)
  | .operator .plus =>
    if left.type = some .string then .binary .concat left.expression right.expression
    else .binary .plus left.expression right.expression
  | .operator op => .binary op left.expression right.expression

end BinaryForm

/-- The parameter that a bound of a slice or a substring consists of. -/
def boundName (function : String) (position : Nat) (bound : Request) :
    Except CompileError String :=
  match bareParameter? bound with
  | some name => .ok name
  | none => .error (.expectedParameter function position (.atHead bound))

/-- The begin and the length of a substring, as arguments computed from its bounds. -/
def substringBounds (function : String) (start stop : Request) : Compilation (Nat × Nat) := do
  let start ← ofResult (boundName function 1 start)
  let stop ← ofResult (boundName function 2 stop)
  let first ← useParameter (.substringBegin start) start
  let length ← useParameter (.substringLength start stop) stop
  return (first, length)

namespace Compiler

mutual
/-- Compiles an expression at a context. -/
def expression (c : Compiler) (context : Context) (requiredness : Requiredness) :
    List Token → Compilation Typed
  | [] => fail .emptyExpression
  | .join edge :: rest => savepoint context do
    let next ← followJoin context edge
    c.expression next requiredness rest
  | _ :: next :: _ => fail (.unsupportedToken next.kind "the continuation of an expression")
  | [t] => c.operand context requiredness t
termination_by structural tokens => tokens

/-- Compiles an expression that is a single token. -/
def operand (c : Compiler) (context : Context) (requiredness : Requiredness) :
    Token → Compilation Typed
  | .parameter name => do
    let ordinal ← useParameter (.named name requiredness) name
    return ⟨.argument ordinal, ← typeOf name⟩
  | .read property => do
    let (expression, type) ← ofResult (c.resolver property context (← contextual))
    return ⟨expression, some type⟩
  | .call name [argument] =>
    match unaryOperator? name with
    | none => fail (.unknownFunction name 1)
    | some .charLength => do
      let argument ← c.expression context .required argument
      return ⟨.unary .charLength argument.expression, some .integer⟩
    | some operator => do
      let argument ← c.expression context requiredness argument
      let type ← ofResult (c.returnType name [argument.type])
      return ⟨.unary operator argument.expression, type⟩
  | .call name [left, right] =>
    match BinaryForm.ofName? name with
    | none => fail (.unknownFunction name 2)
    | some form => do
      let left ← c.expression context requiredness left
      let right ← c.expression context requiredness right
      let type ← ofResult (c.returnType name [left.type, right.type])
      return ⟨form.apply left right, type⟩
  | .call name [string, start, stop] =>
    if name = "substring" then do
      let string ← c.expression context .required string
      let (start, length) ← substringBounds name start stop
      return ⟨.substring string.expression (.argument start) (.argument length), some .string⟩
    else fail (.unknownFunction name 3)
  | .call name arguments => fail (.unknownFunction name arguments.length)
  | t => fail (.unsupportedToken t.kind "an expression")
termination_by structural t => t
end

/-- Compiles a required expression that must not be known to be anything but a boolean. -/
def predicate (c : Compiler) (context : Context) (tokens : Request) : Compilation Expression := do
  let compiled ← c.expression context .required tokens
  match compiled.type with
  | none | some .boolean => return compiled.expression
  | some type => fail (.typeMismatch .boolean type)

end Compiler

end RequestCompiler
