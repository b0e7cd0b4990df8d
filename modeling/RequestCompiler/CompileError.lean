import RequestCompiler.Token

/-!
# Why a request does not compile

One constructor per cause, with what its message tells. `CompileError.code` is the stable code of a
cause, `CompileError.kind` its class, and `CompileError.message` the text for a reader. The code
settles the class (`kind_eq_of_code_eq`).
-/

namespace RequestCompiler

/-- The class of a cause. -/
inductive ErrorKind where
  /-- The request has a shape that is not accepted. -/
  | malformedRequest
  /-- An operand, a property or a parameter cannot be compiled. -/
  | unresolvableExpression
  /-- No overload accepts the operands. -/
  | overloadMismatch
  /-- A rollback point was left open, or none was there to be released. -/
  | rollbackDiscipline
deriving DecidableEq, Repr

/-- How the class is named. -/
def ErrorKind.text : ErrorKind → String
  | .malformedRequest => "malformed request"
  | .unresolvableExpression => "unresolvable expression"
  | .overloadMismatch => "overload mismatch"
  | .rollbackDiscipline => "rollback discipline"

/-- The cause for which a request does not compile. -/
inductive CompileError where
  /-- There is no token at all. -/
  | emptyRequest
  /-- The request does not begin with a call. -/
  | expectedFunction (found : TokenKind)
  /-- The pipeline does not begin with a table. -/
  | expectedTable (found : TokenKind)
  /-- No function of this name takes that many arguments. -/
  | unknownFunction (name : String) (arity : Nat)
  /-- A method or a stage has a wrong number of arguments. -/
  | arityMismatch (name : String) (expected actual : Nat)
  /-- The leading filter has no argument. -/
  | missingFilterArgument
  /-- A bound is something else than one parameter. -/
  | expectedParameter (name : String) (position : Nat) (found : TokenKind)
  /-- A stage comes after one that it cannot follow. -/
  | unexpectedStage (stage previous : String)
  /-- The method has no use for the stage. -/
  | unsupportedStage (method stage : String)
  /-- There is a subquery already. -/
  | nestedFork
  /-- A token stands where it has no meaning; the role says what was looked for. -/
  | unsupportedToken (found : TokenKind) (role : String)
  /-- An expression has no token. -/
  | emptyExpression
  /-- A parameter's name is no identifier. -/
  | unboundParameter (name : String)
  /-- A property cannot be read or written. -/
  | unresolvedProperty (table column : String)
  /-- An expression is known to have another type than it must. -/
  | typeMismatch (expected actual : ValueType)
  /-- No overload accepts the operands, whose types are listed. -/
  | overloadMismatch (name arguments : String)
  /-- So many rollback points are left; none, if one was to be released. -/
  | rollbackDiscipline (depth : Nat)
deriving DecidableEq, Repr

namespace CompileError

/-- The class a cause belongs to. -/
def kind : CompileError → ErrorKind
  | .emptyRequest | .expectedFunction .. | .expectedTable .. | .unknownFunction ..
  | .arityMismatch .. | .missingFilterArgument | .expectedParameter .. | .unexpectedStage ..
  | .unsupportedStage .. | .nestedFork | .unsupportedToken .. => .malformedRequest
  | .emptyExpression | .unboundParameter .. | .unresolvedProperty .. | .typeMismatch .. =>
    .unresolvableExpression
  | .overloadMismatch .. => .overloadMismatch
  | .rollbackDiscipline .. => .rollbackDiscipline

/-- The stable code of a cause. -/
def code : CompileError → String
  | .emptyRequest => "QUERY_001"
  | .expectedFunction .. => "QUERY_002"
  | .expectedTable .. => "QUERY_003"
  | .unknownFunction .. => "QUERY_004"
  | .arityMismatch .. => "QUERY_005"
  | .missingFilterArgument => "QUERY_006"
  | .expectedParameter .. => "QUERY_007"
  | .unexpectedStage .. => "QUERY_008"
  | .unsupportedStage .. => "QUERY_009"
  | .nestedFork => "QUERY_010"
  | .unsupportedToken .. => "QUERY_011"
  | .emptyExpression => "QUERY_020"
  | .unboundParameter .. => "QUERY_021"
  | .unresolvedProperty .. => "QUERY_022"
  | .typeMismatch .. => "QUERY_023"
  | .overloadMismatch .. => "QUERY_030"
  | .rollbackDiscipline .. => "QUERY_099"

/-- A name between backquotes. -/
def quoted (name : String) : String := "`" ++ name ++ "`"

/-- The message of a cause. -/
def message : CompileError → String
  | .emptyRequest => "request is empty"
  | .expectedFunction found =>
    "expected a function call at the head of the request, found " ++ found.text
  | .expectedTable found => "expected a table at the head of the pipeline, found " ++ found.text
  | .unknownFunction name arity =>
    "unknown function " ++ quoted name ++ " with " ++ toString arity ++ " argument(s)"
  | .arityMismatch name expected actual =>
    "function " ++ quoted name ++ " expects " ++ toString expected ++ " argument(s), got "
      ++ toString actual
  | .missingFilterArgument => "filter requires an argument"
  | .expectedParameter name position found =>
    "argument " ++ toString position ++ " of " ++ quoted name ++ " must be a parameter, found "
      ++ found.text
  | .unexpectedStage stage previous => quoted stage ++ " cannot follow " ++ quoted previous
  | .unsupportedStage method stage =>
    quoted method ++ " does not accept a " ++ quoted stage ++ " stage"
  | .nestedFork => "a forked request cannot be forked again"
  | .unsupportedToken found role => found.text ++ " cannot be compiled as " ++ role
  | .emptyExpression => "empty expression"
  | .unboundParameter name => "parameter " ++ quoted name ++ " cannot be bound"
  | .unresolvedProperty table column =>
    "property " ++ quoted column ++ " of " ++ quoted table ++ " cannot be resolved"
  | .typeMismatch expected actual =>
    "expected a " ++ expected.name ++ " expression, found " ++ actual.name
  | .overloadMismatch name arguments =>
    "no overload of " ++ quoted name ++ " accepts (" ++ arguments ++ ")"
  | .rollbackDiscipline depth => toString depth ++ " rollback point(s) left unreleased"

/-- Causes with one code belong to one class. -/
theorem kind_eq_of_code_eq {a b : CompileError} (h : a.code = b.code) : a.kind = b.kind := by
  cases a <;> cases b <;> simp_all [code, kind]

end CompileError

end RequestCompiler
