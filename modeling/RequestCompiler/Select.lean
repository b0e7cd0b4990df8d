import RequestCompiler.Expression

/-!
# Selects

A `Select` reads rows from a table, or from the derived table that a subquery makes up, joins
other tables to them, and filters, orders, cuts and projects them.

Joins are numbered from one in the order in which they are added. Adding a join that is there
already, with the same parent, table and condition, gives its number again (`addJoin`).
-/

namespace RequestCompiler

/-- Where the rows of a select come from. -/
inductive Source where
  | table (name : String)
  /-- The subquery of the same statement. -/
  | derived
deriving DecidableEq, Repr

/-- A table joined to the root or to an earlier join. -/
structure Join where
  parent : Context
  number : Nat
  table : String
  condition : String
deriving DecidableEq, Repr

/-- One key of the order of rows. -/
structure Order where
  expression : Expression
  descending : Bool
deriving DecidableEq, Repr

/-- How many rows are left out and how many are kept. -/
structure Limit where
  offset : Expression
  count : Expression
deriving DecidableEq, Repr

/-- One column of the result. -/
structure Projection where
  expression : Expression
  label : Option String := none
deriving DecidableEq, Repr

/-- A query over one source. -/
structure Select where
  source : Source
  joins : List Join := []
  filter : Option Expression := none
  order : List Order := []
  limit : Option Limit := none
  projection : List Projection := []
deriving DecidableEq, Repr

namespace Select

/-- The join with this parent, table and condition. -/
def findJoin? (s : Select) (parent : Context) (table condition : String) : Option Join :=
  s.joins.find? fun j => j.parent = parent ∧ j.table = table ∧ j.condition = condition

/-- Joins a table and gives the number of the join; one that is there already is used again. -/
def addJoin (s : Select) (parent : Context) (table condition : String) : Nat × Select :=
  match s.findJoin? parent table condition with
  | some j => (j.number, s)
  | none =>
    let number := s.joins.length + 1
    (number, { s with joins := s.joins ++ [⟨parent, number, table, condition⟩] })

/-- The select with a predicate in the place of the one it had. -/
def setFilter (s : Select) (predicate : Expression) : Select :=
  { s with filter := some predicate }

/-- The select with a further predicate. -/
def andFilter (s : Select) (predicate : Expression) : Select :=
  { s with filter := some (match s.filter with
    | some known => known.and predicate
    | none => predicate) }

/-- The select with a further, less significant key of the order. -/
def addOrder (s : Select) (expression : Expression) (descending : Bool) : Select :=
  { s with order := s.order ++ [⟨expression, descending⟩] }

/-- The select cut to some of its rows. -/
def setLimit (s : Select) (offset count : Expression) : Select :=
  { s with limit := some ⟨offset, count⟩ }

/-- The select with a further column in its result. -/
def project (s : Select) (expression : Expression) (label : Option String) : Select :=
  { s with projection := s.projection ++ [⟨expression, label⟩] }

end Select

end RequestCompiler
