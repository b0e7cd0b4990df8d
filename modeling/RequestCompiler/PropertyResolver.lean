import RequestCompiler.Session
import RequestCompiler.Text.Blank

/-!
# Reading properties

A `PropertyResolver` says by which expression a property is read at a context and which type it
has then. `columnResolver` reads the column that the property names; a property of the table that
the last contextual join leads to is read at that join when the context is the root.

`PropertyResolver.override` puts fixed answers for some properties in front of a resolver.
-/

namespace RequestCompiler

/--
Says how a property is read at a context, given the contextual join last followed. A resolver is a
function of these three: it has no state from call to call, so asked again it answers the same. What
is proved for every resolver is proved for every such function.
-/
abbrev PropertyResolver :=
  Property → Context → Option ContextualJoin → Except CompileError (Expression × ValueType)

/-- Where a property is read: a contextual join takes the place of the root for its own table. -/
def readingContext (table : String) (context : Context) (contextual : Option ContextualJoin) :
    Context :=
  match context, contextual with
  | .root, some followed => if followed.edge.table = table then .join followed.number else .root
  | context, _ => context

/-- Reads a property as the column of its name; a blank name cannot be resolved. -/
def columnResolver : PropertyResolver := fun property context contextual =>
  if isBlank property.expression then
    .error (.unresolvedProperty property.table property.expression)
  else
    .ok (.column (readingContext property.table context contextual) property.expression,
      property.type)

/-- A fixed answer for the property of a table with this expression. -/
structure FixedAnswer where
  table : String
  expression : String
  answer : Except CompileError (Expression × ValueType)

/-- The resolver that gives the first fixed answer for a property, if there is one. -/
def PropertyResolver.override (answers : List FixedAnswer) (resolver : PropertyResolver) :
    PropertyResolver := fun property context contextual =>
  match answers.find? fun a => a.table = property.table ∧ a.expression = property.expression with
  | some fixed => fixed.answer
  | none => resolver property context contextual

/-- Away from the root, a property is read where the context says. -/
theorem readingContext_join (table : String) (number : Nat) (contextual : Option ContextualJoin) :
    readingContext table (.join number) contextual = .join number := by
  cases contextual <;> rfl

end RequestCompiler
