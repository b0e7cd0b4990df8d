import RequestCompiler.Session

/-!
# Scripts of a session

Everything that can be done to a session, as data: `Step` lists the operations, a savepoint being
one that holds steps of its own, and `Session.perform` carries a step out. A step that fails
changes nothing and does not stop the steps after it, so a script can drive a session into every
state that its operations can reach.

`Session.performAll` lists what each step came to together with the session after it.
-/

namespace RequestCompiler

namespace Session

/-- How a savepoint ends. -/
inductive Ending where
  /-- With success: what was done is kept. -/
  | success
  /-- With a failure: what was done is undone. -/
  | failure (cause : CompileError)
  /-- Without either: what was done is undone. -/
  | abandoned
deriving DecidableEq, Repr

/-- What the end of a savepoint came to. -/
inductive Ended where
  | kept
  | undone
  | failed (cause : CompileError)
deriving DecidableEq, Repr

/-- An operation on a session. -/
inductive Step where
  | followJoin (context : Context) (edge : JoinEdge)
  | setPoint (context : Context)
  | clearPoint
  | rollback
  | savepoint (context : Context) (steps : List Step) (ending : Ending)
  | use (use : ParameterUse)
  | typeOf (name : String)
  | listArguments
  | listSelects
  | build (step : SelectBuilder.Step)
deriving Repr

/-- What a step came to. -/
inductive Outcome where
  | done
  | failed (cause : CompileError)
  | joined (number : Nat)
  | restored (context : Context)
  | bound (ordinal : Option Nat)
  | typed (type : Option ValueType)
  | arguments (arguments : List Argument)
  | selects (main : Select) (subquery : Option Select)
  | exposed (expression : Expression)
  | savepoint (steps : List (Outcome × Session)) (ended : Ended)

/-- Ends a savepoint. -/
def close (s : Session) : Ending → Ended × Session
  | .success =>
    match s.clearPoint with
    | .ok s => (.kept, s)
    | .error cause => (.failed cause, s)
  | .failure cause =>
    match s.rollback with
    | .ok (_, s) => (.failed cause, s)
    | .error cause => (.failed cause, s)
  | .abandoned =>
    match s.rollback with
    | .ok (_, s) => (.undone, s)
    | .error _ => (.undone, s)

/-- Performs a step of construction on the builder. -/
def build (s : Session) (step : SelectBuilder.Step) : Outcome × Session :=
  match s.draft.builder.perform step with
  | .ok (.done, b) => (.done, s.withBuilder b)
  | .ok (.joined number, b) => (.joined number, s.withBuilder b)
  | .ok (.exposed e, b) => (.exposed e, s.withBuilder b)
  | .error cause => (.failed cause, s)

mutual
/-- Carries out a step. -/
def perform : Step → Session → Outcome × Session
  | .followJoin context edge, s =>
    let (number, s) := s.followJoin context edge
    (.joined number, s)
  | .setPoint context, s => (.done, s.setPoint context)
  | .clearPoint, s =>
    match s.clearPoint with
    | .ok s => (.done, s)
    | .error cause => (.failed cause, s)
  | .rollback, s =>
    match s.rollback with
    | .ok (context, s) => (.restored context, s)
    | .error cause => (.failed cause, s)
  | .savepoint context steps ending, s =>
    let (trace, s) := performAll steps (s.setPoint context)
    let (ended, s) := s.close ending
    (.savepoint trace ended, s)
  | .use u, s =>
    match s.draft.binder.use? u with
    | some (ordinal, binder) => (.bound (some ordinal), s.withBinder binder)
    | none => (.bound none, s)
  | .typeOf name, s => (.typed (s.draft.binder.typeOf name), s)
  | .listArguments, s => (.arguments s.draft.binder.arguments, s)
  | .listSelects, s =>
    (.selects s.draft.builder.main (s.draft.builder.subquery.map (·.select)), s)
  | .build step, s => s.build step
termination_by structural step => step

/-- Carries out steps one after the other, noting the outcome of each and the session after it. -/
def performAll : List Step → Session → List (Outcome × Session) × Session
  | [], s => ([], s)
  | step :: steps, s =>
    let (outcome, s) := perform step s
    let (trace, last) := performAll steps s
    ((outcome, s) :: trace, last)
termination_by structural steps => steps
end

end Session

end RequestCompiler
