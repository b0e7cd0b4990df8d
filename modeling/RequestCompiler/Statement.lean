import RequestCompiler.Select

/-!
# Statements

What a request compiles to. The select of an update or a delete says which rows are changed; the
derived select of a query is the subquery that its main select reads from.
-/

namespace RequestCompiler

/-- A column and the value written to it. -/
structure ColumnValue where
  column : String
  value : Expression
deriving DecidableEq, Repr

/-- A relational statement. -/
inductive Statement where
  | select (main : Select) (derived : Option Select)
  | update (rows : Select) (values : List ColumnValue)
  | delete (rows : Select)
  | insert (table : String) (values : List ColumnValue)
deriving DecidableEq, Repr

end RequestCompiler
