import RequestCompiler.Compiler.Stages
import RequestCompiler.Pipeline.Canonical
import RequestCompiler.Statement.Text

/-!
# Compiling requests

`Compiler.compile` compiles a top-level request. The call at its head is first read as one of six
forms (`MethodCall`), which settles how many arguments there are and what each is for. All forms
but an insertion compile the canonical form of a pipeline of rows and then what the form adds to
it: a projection, an aggregate, the assignments of an update, or nothing. All of this runs in one
session, the `Opening` of the request, and `Compiler.calls` are the calls of the builder in it.
-/

namespace RequestCompiler

open Compilation

/-- The call at the head of a request, by what its arguments are for. -/
inductive MethodCall where
  | get (rows projection : Request)
  | count (rows : Request)
  | aggregate (function : AggregateFunction) (rows operand : Request)
  | delete (rows : Request)
  | set (rows assignments : Request)
  | insert (target assignments : Request)

namespace MethodCall

/-- A call with one argument. -/
def withOne (name : String) (arguments : List Request) (call : Request → MethodCall) :
    Except CompileError MethodCall :=
  match arguments with
  | [argument] => .ok (call argument)
  | _ => .error (.arityMismatch name 1 arguments.length)

/-- A call with two arguments. -/
def withTwo (name : String) (arguments : List Request) (call : Request → Request → MethodCall) :
    Except CompileError MethodCall :=
  match arguments with
  | [first, second] => .ok (call first second)
  | _ => .error (.arityMismatch name 2 arguments.length)

/-- Reads a call; an unknown name and a wrong number of arguments are errors. -/
def of (name : String) (arguments : List Request) : Except CompileError MethodCall :=
  match Method.ofName name with
  | .get => withTwo name arguments .get
  | .count => withOne name arguments .count
  | .delete => withOne name arguments .delete
  | .set => withTwo name arguments .set
  | .insert => withTwo name arguments .insert
  | .aggregate =>
    match AggregateFunction.ofName? name with
    | none => .error (.unknownFunction name arguments.length)
    | some function => withTwo name arguments (.aggregate function)

end MethodCall

/-- What executing a statement yields. -/
inductive Output where
  /-- Rows of values of a type. -/
  | list (type : Option ValueType)
  /-- One value of a type. -/
  | value (type : Option ValueType)
  /-- Nothing, as rows are changed. -/
  | mutation
deriving DecidableEq, Repr

/-- A statement, its arguments by ordinal, and what executing it yields. -/
structure CompiledStatement where
  statement : Statement
  parameters : List Argument
  output : Output
deriving DecidableEq, Repr

/-- The pairs of a request that is one assignment list. -/
def assignmentList : Request → Except CompileError (List (Assignment Request))
  | [.assignments pairs] => .ok pairs
  | tokens => .error (.unsupportedToken (.atHead tokens) "the assignments of a write")

/-- The table of a request that is one table. -/
def insertionTarget (name : String) : Request → Except CompileError TableScan
  | [.table scan] => .ok scan
  | .table _ :: stage :: _ => .error (.unsupportedStage name stage.stageName)
  | tokens => .error (.expectedTable (.atHead tokens))

namespace Compiler

/-! ## Assignments -/

/-- The property that an assignment writes. -/
def assignedProperty : Request → Except CompileError Property
  | [.read property] => .ok property
  | tokens => .error (.unsupportedToken (.atHead tokens) "an assigned property")

/-- The column and the type of an assigned property; only a column of the root can be written. -/
def assignedColumn (c : Compiler) (property : Property) :
    Except CompileError (String × ValueType) :=
  match c.resolver property .root none with
  | .error cause => .error cause
  | .ok (.column .root name, type) => .ok (name, type)
  | .ok _ => .error (.unresolvedProperty property.table property.expression)

/-- Compiles one assignment; a property with a zero does not require a value. -/
def assignment (c : Compiler) (context : Context) (pair : Assignment Request) :
    Compilation ColumnValue := do
  let property ← ofResult (assignedProperty pair.property)
  let (column, type) ← ofResult (c.assignedColumn property)
  let requiredness := if property.hasZero then .defaultsToZero else .required
  let value ← c.expression context requiredness pair.value
  let _ ← ofResult (c.returnType "assign" [some type, value.type])
  return ⟨column, value.expression⟩

/-- Compiles assignments, one after the other. -/
def assignments (c : Compiler) (context : Context) :
    List (Assignment Request) → Compilation (List ColumnValue)
  | [] => return []
  | pair :: pairs => do
    let first ← c.assignment context pair
    let rest ← c.assignments context pairs
    return first :: rest

/-! ## Methods -/

/-- Adds the projection of a get. -/
def projection (c : Compiler) (context : Context) (tokens : Request) : Compilation Output := do
  let projected ← c.expression context .required tokens
  perform (.project projected.expression)
  return .list projected.type

/-- Adds the number of rows; rows of a subquery are told apart by their identifier. -/
def rowCount (scan : TableScan) : Compilation Output := do
  perform (.expose .root scan.identifier)
  perform (.project (.aggregateRows .count))
  return .value (some .integer)

/-- Adds an aggregate, whose operand reads the rows through the subquery if there is one. -/
def aggregation (c : Compiler) (name : String) (function : AggregateFunction) (context : Context)
    (tokens : Request) : Compilation Output := do
  let operand ← c.expression context .required tokens
  let type ← ofResult (c.returnType name [operand.type])
  let read ← exposeAll operand.expression
  perform (.project (.aggregate function read))
  return .value type

end Compiler

/-! ## Requests -/

/-- What a finished session becomes: the statement for its builder and its arguments. -/
abbrev Closing := SelectBuilder → List Argument → CompiledStatement

/-- What runs in the session of a request, which is closed by the result. -/
structure Opening where
  table : String
  body : Compilation Closing

namespace Opening

/-- Runs an opening in a new session and finishes the session. -/
def run (o : Opening) (types : ParameterTypes) : Except CompileError CompiledStatement :=
  match o.body (Session.start o.table types) with
  | .error cause _ => .error cause
  | .ok close s =>
    match s.finish with
    | .error cause => .error cause
    | .ok (builder, binder) => .ok (close builder binder.arguments)

/-- The calls of the builder in this session. -/
def calls (o : Opening) (types : ParameterTypes) : List SelectBuilder.Call :=
  o.body.calls (Session.start o.table types)

end Opening

/-- The select statement of a finished builder. -/
def selectStatement (output : Output) (builder : SelectBuilder) (parameters : List Argument) :
    CompiledStatement :=
  ⟨.select builder.main (builder.subquery.map (·.select)), parameters, output⟩

namespace Compiler

/-- Opens a pipeline and, at the context it leads to, what a method adds to it. -/
def overRows (c : Compiler) (name : String) (rows : Request)
    (body : TableScan → Context → Compilation Closing) : Except CompileError Opening :=
  match canonical name rows with
  | .table scan :: stages =>
    .ok {
      table := scan.table
      body := do
        let context ← c.rows name stages
        body scan context }
  | pipeline => .error (.expectedTable (.atHead pipeline))

/-- Opens a method call. -/
def methodCall (c : Compiler) (name : String) : MethodCall → Except CompileError Opening
  | .get rows projection => c.overRows name rows fun _ context => do
    return selectStatement (← c.projection context projection)
  | .count rows => c.overRows name rows fun scan _ => do
    return selectStatement (← rowCount scan)
  | .aggregate function rows operand => c.overRows name rows fun _ context => do
    return selectStatement (← c.aggregation name function context operand)
  | .delete rows => c.overRows name rows fun _ _ => do
    return fun builder parameters => ⟨.delete builder.main, parameters, .mutation⟩
  | .set rows written => c.overRows name rows fun _ context => do
    let pairs ← ofResult (assignmentList written)
    let values ← c.assignments context pairs
    return fun builder parameters => ⟨.update builder.main values, parameters, .mutation⟩
  | .insert target written => do
    let scan ← insertionTarget name target
    let pairs ← assignmentList written
    return {
      table := scan.table
      body := do
        let values ← c.assignments .root pairs
        return fun _ parameters => ⟨.insert scan.table values, parameters, .mutation⟩ }

/-- Opens a top-level request; one that does not get as far as a session fails. -/
def opening (c : Compiler) (request : Request) : Except CompileError Opening := do
  let (name, arguments) ← headCall request
  let call ← MethodCall.of name arguments
  c.methodCall name call

/-- The types that parameters start out with. -/
def parameterTypes (c : Compiler) (request : Request) : ParameterTypes :=
  if c.settings.inferParameterTypes then inferTypes c.signatures request else OrderedMap.empty

/-- Compiles a top-level request. -/
def compile (c : Compiler) (request : Request) : Except CompileError CompiledStatement := do
  let opening ← c.opening request
  opening.run (c.parameterTypes request)

/-- The calls of the builder that compiling a request makes, whether it compiles or fails. -/
def calls (c : Compiler) (request : Request) : List SelectBuilder.Call :=
  match c.opening request with
  | .error _ => []
  | .ok opening => opening.calls (c.parameterTypes request)

end Compiler

end RequestCompiler
