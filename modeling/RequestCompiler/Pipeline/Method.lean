import RequestCompiler.CompileError

/-!
# Methods and operations

The *method* of a request is the function called at its head; it decides what the statement is
for. Any name that is not one of the five known ones counts as an aggregate. The *operations* are
the stages whose places in a pipeline matter to its canonical form: filters, sorts and slices.
-/

namespace RequestCompiler

/-- What a top-level request is for. -/
inductive Method where
  | get
  | delete
  | set
  | insert
  | count
  /-- One value computed from the rows. -/
  | aggregate
deriving DecidableEq, Repr

namespace Method

/-- The method a function name stands for. -/
def ofName (name : String) : Method :=
  if name = "get" then .get
  else if name = "delete" then .delete
  else if name = "set" then .set
  else if name = "insert" then .insert
  else if name = "count" then .count
  else .aggregate

/-- How the method is named. -/
def text : Method → String
  | .get => "get"
  | .delete => "delete"
  | .set => "set"
  | .insert => "insert"
  | .count => "count"
  | .aggregate => "aggregate"

/-- Whether the result is one value. -/
def isScalar : Method → Bool
  | .count | .aggregate => true
  | _ => false

/-- Whether rows are changed. -/
def isWrite : Method → Bool
  | .delete | .set | .insert => true
  | _ => false

/-- Whether the rows are taken together or changed one by one, so that their order cannot show. -/
def ignoresOrder : Method → Bool
  | .count | .aggregate | .set | .delete => true
  | .get | .insert => false

end Method

/-- The stages whose order matters. -/
inductive Operation where
  | filter
  | sort
  | slice
deriving DecidableEq, Repr

namespace Operation

/-- The operations in their usual order. -/
def all : List Operation := [.filter, .sort, .slice]

/-- The operation a function name stands for; both directions of sorting are one operation. -/
def ofName? (name : String) : Option Operation :=
  if name = "filter" then some .filter
  else if name = "sort" ∨ name = "rsort" then some .sort
  else if name = "slice" then some .slice
  else none

/-- The operation a token performs. -/
def of? : Token → Option Operation
  | .call name _ => ofName? name
  | _ => none

end Operation

/-- The call at the head of a top-level request, with its arguments. -/
def headCall : Request → Except CompileError (String × List Request)
  | [] => .error .emptyRequest
  | .call name arguments :: _ => .ok (name, arguments)
  | t :: _ => .error (.expectedFunction t.kind)

end RequestCompiler
