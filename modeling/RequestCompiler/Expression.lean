/-!
# Expressions of a statement

What a request computes from columns and arguments, as a tree. A column belongs to the root table
of a select or to one of its joins, which are numbered from one; an argument is known by its
ordinal; a derived column is one that a subquery hands out under an alias.

`Expression.mapColumns` replaces the columns from left to right while threading a state, and
`Expression.columns` lists them in the same order.
-/

namespace RequestCompiler

/-- Where a column is read: at the root table of a select or at one of its joins. -/
inductive Context where
  | root
  | join (number : Nat)
deriving DecidableEq, Repr, Inhabited

/-- Operators with one operand. -/
inductive UnaryOperator where
  | not
  | upper
  | lower
  | charLength
deriving DecidableEq, Repr

/-- Operators with two operands. -/
inductive BinaryOperator where
  | plus
  | concat
  | minus
  | times
  | divides
  | equal
  | and
  | or
  | less
  | lessEqual
  | greater
  | greaterEqual
  | regexpBinary
deriving DecidableEq, Repr

/-- Functions from many rows to one value. -/
inductive AggregateFunction where
  | count
  | sum
  | average
  | min
  | max
deriving DecidableEq, Repr

/-- The aggregate a method name stands for, counting aside. -/
def AggregateFunction.ofName? (name : String) : Option AggregateFunction :=
  if name = "sum" then some .sum
  else if name = "average" then some .average
  else if name = "min" then some .min
  else if name = "max" then some .max
  else none

/-- What is computed from columns and arguments. -/
inductive Expression where
  /-- A column of the table at a context. -/
  | column (context : Context) (name : String)
  /-- The argument with this ordinal. -/
  | argument (ordinal : Nat)
  | unary (operator : UnaryOperator) (operand : Expression)
  | binary (operator : BinaryOperator) (left right : Expression)
  | substring (string start length : Expression)
  /-- An aggregate of the values of an expression. -/
  | aggregate (function : AggregateFunction) (operand : Expression)
  /-- An aggregate of the rows themselves. -/
  | aggregateRows (function : AggregateFunction)
  /-- A column that the subquery hands out under this alias. -/
  | derived (label : String)
deriving DecidableEq, Repr, Inhabited

namespace Expression

/-- The negation. -/
def not (operand : Expression) : Expression := .unary .not operand

/-- The conjunction. -/
def and (left right : Expression) : Expression := .binary .and left right

/-- The columns from left to right. -/
def columns : Expression → List (Context × String)
  | .column context name => [(context, name)]
  | .argument _ | .aggregateRows _ | .derived _ => []
  | .unary _ operand | .aggregate _ operand => operand.columns
  | .binary _ left right => left.columns ++ right.columns
  | .substring string start length => string.columns ++ start.columns ++ length.columns

/-- Replaces every column, from left to right, by what `f` makes of it and of the state. -/
def mapColumns {σ : Type} (f : Context → String → σ → Expression × σ) :
    Expression → σ → Expression × σ
  | .column context name, s => f context name s
  | .argument ordinal, s => (.argument ordinal, s)
  | .aggregateRows function, s => (.aggregateRows function, s)
  | .derived label, s => (.derived label, s)
  | .unary operator operand, s =>
    let (operand, s) := operand.mapColumns f s
    (.unary operator operand, s)
  | .binary operator left right, s =>
    let (left, s) := left.mapColumns f s
    let (right, s) := right.mapColumns f s
    (.binary operator left right, s)
  | .substring string start length, s =>
    let (string, s) := string.mapColumns f s
    let (start, s) := start.mapColumns f s
    let (length, s) := length.mapColumns f s
    (.substring string start length, s)
  | .aggregate function operand, s =>
    let (operand, s) := operand.mapColumns f s
    (.aggregate function operand, s)

/-- Columns put in their own place leave the expression as it is. -/
theorem mapColumns_column {σ : Type} (e : Expression) (s : σ) :
    e.mapColumns (fun context name s => (.column context name, s)) s = (e, s) := by
  induction e generalizing s <;> simp_all [mapColumns]

end Expression

end RequestCompiler
