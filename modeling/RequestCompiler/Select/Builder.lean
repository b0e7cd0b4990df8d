import RequestCompiler.CompileError
import RequestCompiler.Select

/-!
# Building the selects of a statement

A `SelectBuilder` holds the main select and, once it has been forked, a subquery: the select built
up to the fork, over whose rows a new main select continues.

Joins, predicates, order and limit go to the *active* select, which is the subquery where there is
one. Columns of the result always go to the main select. A main select over a subquery reads the
subquery's columns under aliases that `expose` hands out: `c0`, `c1` and so on, one for each
column, in the order of their first exposure.
-/

namespace RequestCompiler

/-- The alias under which the subquery hands out its column at this place. -/
def exposedAlias (index : Nat) : String := "c" ++ toString index

/-- A subquery and the columns of it that have been exposed. -/
structure Subquery where
  select : Select
  exposed : List (Context × String) := []
deriving DecidableEq, Repr

namespace Subquery

/-- Exposes a column: the expression that reads it outside, and the subquery that hands it out. -/
def expose (q : Subquery) (context : Context) (name : String) : Expression × Subquery :=
  let label := exposedAlias (q.exposed.idxOf (context, name))
  if (context, name) ∈ q.exposed then (.derived label, q)
  else
    (.derived label,
      ⟨q.select.project (.column context name) (some label), q.exposed ++ [(context, name)]⟩)

end Subquery

/-- The selects of a statement under construction. -/
structure SelectBuilder where
  main : Select
  subquery : Option Subquery := none
deriving DecidableEq, Repr

namespace SelectBuilder

/-- A builder that reads a table. -/
def ofTable (table : String) : SelectBuilder := { main := { source := .table table } }

/-- Whether there is a subquery. -/
def isForked (b : SelectBuilder) : Bool := b.subquery.isSome

/-- The select that joins, predicates, order and limit go to. -/
def active (b : SelectBuilder) : Select :=
  match b.subquery with
  | some q => q.select
  | none => b.main

/-- The builder with another active select. -/
def withActive (b : SelectBuilder) (s : Select) : SelectBuilder :=
  match b.subquery with
  | some q => { b with subquery := some { q with select := s } }
  | none => { b with main := s }

/-- Joins a table in the active select. -/
def addJoin (b : SelectBuilder) (parent : Context) (table condition : String) :
    Nat × SelectBuilder :=
  let (number, s) := b.active.addJoin parent table condition
  (number, b.withActive s)

/-- Replaces the predicate of the active select. -/
def setFilter (b : SelectBuilder) (predicate : Expression) : SelectBuilder :=
  b.withActive (b.active.setFilter predicate)

/-- Adds a predicate to the active select. -/
def andFilter (b : SelectBuilder) (predicate : Expression) : SelectBuilder :=
  b.withActive (b.active.andFilter predicate)

/-- Adds a key to the order of the active select. -/
def addOrder (b : SelectBuilder) (expression : Expression) (descending : Bool) : SelectBuilder :=
  b.withActive (b.active.addOrder expression descending)

/-- Cuts the active select. -/
def setLimit (b : SelectBuilder) (offset count : Expression) : SelectBuilder :=
  b.withActive (b.active.setLimit offset count)

/-- Adds a column to the result. -/
def project (b : SelectBuilder) (expression : Expression) : SelectBuilder :=
  { b with main := b.main.project expression none }

/-- Makes what was built the subquery of a new main select; a subquery has none of its own. -/
def fork (b : SelectBuilder) : Except CompileError SelectBuilder :=
  match b.subquery with
  | some _ => .error .nestedFork
  | none => .ok { main := { source := .derived }, subquery := some { select := b.main } }

/-- The expression that reads a column of the active select from the main select. -/
def expose (b : SelectBuilder) (context : Context) (name : String) : Expression × SelectBuilder :=
  match b.subquery with
  | none => (.column context name, b)
  | some q =>
    let (e, q) := q.expose context name
    (e, { b with subquery := some q })

/-- Reads an expression over the active select from the main select. -/
def exposeAll (b : SelectBuilder) (e : Expression) : Expression × SelectBuilder :=
  e.mapColumns (fun context name b => b.expose context name) b

/-! ## Steps of construction as data -/

/-- One step of construction. -/
inductive Step where
  | addJoin (parent : Context) (table condition : String)
  | setFilter (predicate : Expression)
  | andFilter (predicate : Expression)
  | addOrder (expression : Expression) (descending : Bool)
  | setLimit (offset count : Expression)
  | project (expression : Expression)
  | fork
  | expose (context : Context) (name : String)
deriving DecidableEq, Repr

/-- What a step answers with. -/
inductive Answer where
  | done
  | joined (number : Nat)
  | exposed (expression : Expression)
deriving DecidableEq, Repr

/-- Performs a step; one that fails leaves no builder behind. -/
def perform (b : SelectBuilder) : Step → Except CompileError (Answer × SelectBuilder)
  | .addJoin parent table condition =>
    let (number, b) := b.addJoin parent table condition
    .ok (.joined number, b)
  | .setFilter predicate => .ok (.done, b.setFilter predicate)
  | .andFilter predicate => .ok (.done, b.andFilter predicate)
  | .addOrder expression descending => .ok (.done, b.addOrder expression descending)
  | .setLimit offset count => .ok (.done, b.setLimit offset count)
  | .project expression => .ok (.done, b.project expression)
  | .fork => b.fork.map fun b => (.done, b)
  | .expose context name =>
    let (e, b) := b.expose context name
    .ok (.exposed e, b)

/-- The builder behind a step; one that fails changes nothing. -/
def after (b : SelectBuilder) (step : Step) : SelectBuilder :=
  match b.perform step with
  | .ok (_, b') => b'
  | .error _ => b

/-- A call of a builder: what is built as it is made, and the step that is asked for. -/
structure Call where
  builder : SelectBuilder
  step : Step
deriving DecidableEq, Repr

/-- The calls by which steps are taken, one after the other. -/
def calls (b : SelectBuilder) : List Step → List Call
  | [] => []
  | step :: steps => ⟨b, step⟩ :: (b.after step).calls steps

/-! ## The active select -/

@[simp] theorem active_withActive (b : SelectBuilder) (s : Select) :
    (b.withActive s).active = s := by
  unfold withActive active
  cases b.subquery <;> rfl

@[simp] theorem withActive_active (b : SelectBuilder) : b.withActive b.active = b := by
  obtain ⟨main, subquery⟩ := b
  cases subquery <;> rfl

@[simp] theorem withActive_withActive (b : SelectBuilder) (s s' : Select) :
    (b.withActive s).withActive s' = b.withActive s' := by
  obtain ⟨main, subquery⟩ := b
  cases subquery <;> rfl

@[simp] theorem isForked_withActive (b : SelectBuilder) (s : Select) :
    (b.withActive s).isForked = b.isForked := by
  unfold withActive isForked
  cases b.subquery <;> rfl

/-- Without a fork, exposing changes neither the expression nor the builder. -/
theorem exposeAll_of_not_forked {b : SelectBuilder} (h : b.isForked = false) (e : Expression) :
    b.exposeAll e = (e, b) := by
  have hn : b.subquery = none := by
    unfold isForked at h
    cases hb : b.subquery <;> simp_all
  have hexpose (context : Context) (name : String) :
      b.expose context name = (.column context name, b) := by
    simp [expose, hn]
  unfold exposeAll
  induction e <;> simp_all [Expression.mapColumns]

end SelectBuilder

end RequestCompiler
