import RequestCompiler.Argument
import RequestCompiler.Select.Builder

/-!
# Sessions

A `Session` is the state of one compilation: a `Draft` of the statement, which is what has been
built and bound so far, and a stack of rollback points, which are earlier drafts. Taking a point
off the stack either keeps the draft (`clearPoint`) or brings the earlier one back (`rollback`).

The context at which a request is being compiled is no part of the session. It is handed on as a
value, and a rollback gives back the one that was handed to the point.

A `Compilation` is a computation over a session. Beside its outcome it keeps a record of the calls
of the builder, from which nothing is taken back. `savepoint` runs a computation over a point of its
own: success keeps the draft, failure restores the one from before and fails with the same cause.
-/

namespace RequestCompiler

/-- The last join followed that was marked contextual, and its number. -/
structure ContextualJoin where
  edge : JoinEdge
  number : Nat
deriving DecidableEq, Repr

/-- What has been built and bound so far. -/
structure Draft where
  builder : SelectBuilder
  binder : ArgumentBinder
  contextual : Option ContextualJoin := none
deriving DecidableEq

/-- An earlier draft, and the context at which it was left. -/
structure RollbackPoint where
  context : Context
  draft : Draft
deriving DecidableEq

/-- A draft and the points it can be rolled back to, the newest first. -/
structure Session where
  draft : Draft
  points : List RollbackPoint := []
deriving DecidableEq

namespace Session

/-- A session that reads a table and binds parameters of these types. -/
def start (table : String) (types : ParameterTypes) : Session :=
  { draft := { builder := .ofTable table, binder := .ofTypes types } }

/-- The number of rollback points. -/
def depth (s : Session) : Nat := s.points.length

/-- The session with another builder. -/
def withBuilder (s : Session) (b : SelectBuilder) : Session :=
  { s with draft := { s.draft with builder := b } }

/-- The session with another binder. -/
def withBinder (s : Session) (b : ArgumentBinder) : Session :=
  { s with draft := { s.draft with binder := b } }

/-- Follows a join and gives its number; a contextual one is remembered. -/
def followJoin (s : Session) (context : Context) (edge : JoinEdge) : Nat × Session :=
  let (number, builder) := s.draft.builder.addJoin context edge.table edge.condition
  let contextual := if edge.contextual then some ⟨edge, number⟩ else s.draft.contextual
  (number, { s with draft := { s.draft with builder, contextual } })

/-- Remembers the draft and a context. -/
def setPoint (s : Session) (context : Context) : Session :=
  { s with points := ⟨context, s.draft⟩ :: s.points }

/-- Forgets the newest point and keeps the draft. -/
def clearPoint (s : Session) : Except CompileError Session :=
  match s.points with
  | [] => .error (.rollbackDiscipline 0)
  | _ :: points => .ok { s with points }

/-- Brings back the draft of the newest point, and gives back its context. -/
def rollback (s : Session) : Except CompileError (Context × Session) :=
  match s.points with
  | [] => .error (.rollbackDiscipline 0)
  | point :: points => .ok (point.context, { draft := point.draft, points })

/-- The finished draft; a point that is still there is an error. -/
def finish (s : Session) : Except CompileError (SelectBuilder × ArgumentBinder) :=
  if s.points.isEmpty then .ok (s.draft.builder, s.draft.binder)
  else .error (.rollbackDiscipline s.depth)

/-- A point that was just set is there to be cleared. -/
theorem clearPoint_setPoint (s : Session) (context : Context) :
    (s.setPoint context).clearPoint = .ok s := rfl

/-- A point that was just set brings its draft and its context back. -/
theorem rollback_setPoint (s : Session) (context : Context) :
    (s.setPoint context).rollback = .ok (context, s) := rfl

end Session

/-! ## Computations over a session -/

/--
A computation over a session. What it did before failing stays done, unless a savepoint undoes it;
the calls of the builder that it made are recorded either way.
-/
structure Compilation (α : Type) where
  /-- How it ends, and the session that it leaves. -/
  outcome : Session → EStateM.Result CompileError Session α
  /-- The calls of the builder up to its end or its failure, undone ones included. -/
  calls : Session → List SelectBuilder.Call

namespace Compilation

instance {α : Type} :
    CoeFun (Compilation α) fun _ => Session → EStateM.Result CompileError Session α where
  coe := outcome

/-- Goes on with the result of a computation; a failure ends both. -/
protected def bind {α β : Type} (x : Compilation α) (f : α → Compilation β) : Compilation β where
  outcome s :=
    match x s with
    | .ok a t => f a t
    | .error cause t => .error cause t
  calls s :=
    x.calls s ++
      match x s with
      | .ok a t => (f a).calls t
      | .error _ _ => []

instance : Monad Compilation where
  pure a := { outcome := fun s => .ok a s, calls := fun _ => [] }
  bind := Compilation.bind

/-- Fails; nothing goes on behind a failure. -/
def fail {α : Type} (cause : CompileError) : Compilation α where
  outcome s := .error cause s
  calls _ := []

/-- A computation that needs no session. -/
def ofResult {α : Type} : Except CompileError α → Compilation α
  | .ok a => pure a
  | .error cause => fail cause

/-- Follows a join to the context it leads to. -/
def followJoin (context : Context) (edge : JoinEdge) : Compilation Context where
  outcome s :=
    let (number, s) := s.followJoin context edge
    .ok (.join number) s
  calls s := [⟨s.draft.builder, .addJoin context edge.table edge.condition⟩]

/-- Uses parameters; a name that is no identifier cannot be bound, and `name` is what to blame. -/
def useParameter (use : ParameterUse) (name : String) : Compilation Nat where
  outcome s :=
    match s.draft.binder.use? use with
    | some (ordinal, binder) => .ok ordinal (s.withBinder binder)
    | none => .error (.unboundParameter name) s
  calls _ := []

/-- The type found for a parameter. -/
def typeOf (name : String) : Compilation (Option ValueType) where
  outcome s := .ok (s.draft.binder.typeOf name) s
  calls _ := []

/-- The contextual join last followed. -/
def contextual : Compilation (Option ContextualJoin) where
  outcome s := .ok s.draft.contextual s
  calls _ := []

/-- Takes a step of construction. -/
def perform (step : SelectBuilder.Step) : Compilation Unit where
  outcome s :=
    match s.draft.builder.perform step with
    | .ok (_, builder) => .ok () (s.withBuilder builder)
    | .error cause => .error cause s
  calls s := [⟨s.draft.builder, step⟩]

/-- Exposes the columns of an expression, from left to right, and gives how it is read outside. -/
def exposeAll (e : Expression) : Compilation Expression where
  outcome s :=
    let (e, builder) := s.draft.builder.exposeAll e
    .ok e (s.withBuilder builder)
  calls s := s.draft.builder.calls (e.columns.map fun column => .expose column.1 column.2)

/-- Runs a computation that is undone if it fails. -/
def savepoint {α : Type} (context : Context) (body : Compilation α) : Compilation α where
  outcome s :=
    match body (s.setPoint context) with
    | .ok a s =>
      match s.clearPoint with
      | .ok s => .ok a s
      | .error cause => .error cause s
    | .error cause s =>
      match s.rollback with
      | .ok (_, s) => .error cause s
      | .error cause => .error cause s
  calls s := body.calls (s.setPoint context)

section Lemmas

variable {α β : Type}

theorem outcome_bind (x : Compilation α) (f : α → Compilation β) (s : Session) :
    (x >>= f) s =
      match x s with
      | .ok a t => f a t
      | .error cause t => .error cause t := rfl

theorem outcome_useParameter (use : ParameterUse) (name : String) (s : Session) :
    useParameter use name s =
      match s.draft.binder.use? use with
      | some (ordinal, binder) => .ok ordinal (s.withBinder binder)
      | none => .error (.unboundParameter name) s := rfl

theorem outcome_perform (step : SelectBuilder.Step) (s : Session) :
    perform step s =
      match s.draft.builder.perform step with
      | .ok (_, builder) => .ok () (s.withBuilder builder)
      | .error cause => .error cause s := rfl

theorem outcome_savepoint (context : Context) (body : Compilation α) (s : Session) :
    savepoint context body s =
      match body (s.setPoint context) with
      | .ok a s =>
        match s.clearPoint with
        | .ok s => .ok a s
        | .error cause => .error cause s
      | .error cause s =>
        match s.rollback with
        | .ok (_, s) => .error cause s
        | .error cause => .error cause s := rfl

/-- A sequence makes the calls of both parts if the first one succeeds. -/
theorem calls_bind_of_ok {x : Compilation α} {f : α → Compilation β} {s t : Session} {a : α}
    (h : x s = .ok a t) : (x >>= f).calls s = x.calls s ++ (f a).calls t := by
  show x.calls s ++ _ = _
  rw [h]

/-- It makes those of the first part if that fails. -/
theorem calls_bind_of_error {x : Compilation α} {f : α → Compilation β} {s t : Session}
    {cause : CompileError} (h : x s = .error cause t) : (x >>= f).calls s = x.calls s := by
  show x.calls s ++ _ = _
  rw [h, List.append_nil]

end Lemmas

end Compilation

end RequestCompiler
