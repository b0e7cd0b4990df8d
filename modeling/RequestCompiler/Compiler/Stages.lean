import RequestCompiler.Compiler.Operand
import RequestCompiler.Pipeline.Method

/-!
# Compiling pipelines

What follows the table of a canonical pipeline: joins, which move the context; a leading filter,
which becomes the predicate; and stages, each at its time. The stages come in four phases, filters
before sorts before a slice before a fork. Filters and sorts may be repeated, a slice and a fork
may not (`Phase.mayFollow`).
-/

namespace RequestCompiler

open Compilation

/-- The part of a pipeline in which a stage has its place. -/
inductive Phase where
  | filter
  | sort
  | slice
  | fork
deriving DecidableEq, Repr

namespace Phase

/-- The place of a phase in the order of phases. -/
def rank : Phase → Nat
  | .filter => 0
  | .sort => 1
  | .slice => 2
  | .fork => 3

/-- The phase of a stage. -/
def ofName? (name : String) : Option Phase :=
  if name = "filter" then some .filter
  else if name = "sort" ∨ name = "rsort" then some .sort
  else if name = "slice" then some .slice
  else if name = "fork" then some .fork
  else none

/-- Whether several stages of the phase may follow one another. -/
def isRepeatable : Phase → Bool
  | .filter | .sort => true
  | .slice | .fork => false

/-- Whether a stage of this phase may come after one of the phase reached. -/
def mayFollow (phase reached : Phase) : Bool :=
  reached.rank < phase.rank || (phase = reached && phase.isRepeatable)

end Phase

namespace Compiler

/-- Follows the joins at the head of a pipeline; gives the context reached and what is left. -/
def leadingJoins : Context → Request → Compilation (Context × Request)
  | context, .join edge :: rest => do
    let next ← followJoin context edge
    leadingJoins next rest
  | context, rest => return (context, rest)

/-- Compiles a filter at the head of the stages; gives the stages that are left. -/
def leadingFilter (c : Compiler) (context : Context) (stages : Request) : Compilation Request :=
  match stages with
  | .call name arguments :: rest =>
    if name = "filter" then
      match arguments with
      | [] => fail .missingFilterArgument
      | [argument] => do
        let predicate ← c.predicate context argument
        perform (.setFilter predicate)
        return rest
      | _ => return stages
    else return stages
  | _ => return stages

/-- Compiles a further filter. -/
def filterStage (c : Compiler) (context : Context) : List Request → Compilation Unit
  | [argument] => do
    let predicate ← c.predicate context argument
    perform (.andFilter predicate)
  | arguments => fail (.arityMismatch "filter" 1 arguments.length)

/-- Compiles a sort, in the direction that its name says. -/
def sortStage (c : Compiler) (context : Context) (stage : String) :
    List Request → Compilation Unit
  | [argument] => do
    let key ← c.expression context .required argument
    perform (.addOrder key.expression (stage == "rsort"))
  | arguments => fail (.arityMismatch stage 1 arguments.length)

/-- Compiles a slice, whose bounds are bare parameters. -/
def sliceStage : List Request → Compilation Unit
  | [start, stop] => do
    let start ← ofResult (boundName "slice" 0 start)
    let stop ← ofResult (boundName "slice" 1 stop)
    let offset ← useParameter (.sliceOffset start) start
    let count ← useParameter (.sliceLimit start stop) stop
    perform (.setLimit (.argument offset) (.argument count))
  | arguments => fail (.arityMismatch "slice" 2 arguments.length)

/-- Compiles a fork, which only methods with a scalar result admit. -/
def forkStage (method stage : String) (arguments : List Request) : Compilation Unit :=
  if !(Method.ofName method).isScalar then fail (.unsupportedStage method stage)
  else if arguments.length ≠ 0 then fail (.arityMismatch "fork" 0 arguments.length)
  else perform .fork

/-- Compiles one stage. -/
def stage (c : Compiler) (method : String) (context : Context) (phase : Phase) (name : String)
    (arguments : List Request) : Compilation Unit :=
  match phase with
  | .filter => c.filterStage context arguments
  | .sort => c.sortStage context name arguments
  | .slice => sliceStage arguments
  | .fork => forkStage method name arguments

/-- Compiles the stages of a pipeline, given the phase reached and the name of the last stage. -/
def stages (c : Compiler) (method : String) (context : Context) :
    Phase → String → Request → Compilation Unit
  | _, _, [] => return ()
  | reached, previous, .call name arguments :: rest =>
    match Phase.ofName? name with
    | none => fail (.unknownFunction name arguments.length)
    | some phase =>
      if phase.mayFollow reached then do
        c.stage method context phase name arguments
        c.stages method context phase name rest
      else fail (.unexpectedStage name previous)
  | _, _, t :: _ => fail (.unsupportedToken t.kind "a pipeline stage")

/-- Compiles what follows the table of a pipeline; gives the context its joins lead to. -/
def rows (c : Compiler) (method : String) (pipeline : Request) : Compilation Context := do
  let (context, rest) ← leadingJoins .root pipeline
  let rest ← c.leadingFilter context rest
  c.stages method context .filter "filter" rest
  return context

end Compiler

end RequestCompiler
