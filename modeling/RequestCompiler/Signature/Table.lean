import RequestCompiler.OrderedMap
import RequestCompiler.Signature

/-!
# Tables of overloads

A `SignatureTable` gives each function name its overloads, the first declared first. Look-ups that
pick an overload take the first that fits, so the order of declaration is part of the table; the
order of the functions among each other is not, and `Same` forgets it.
-/

namespace RequestCompiler

/-- The overloads of every declared function. -/
structure SignatureTable where
  functions : OrderedMap String (List Signature)
deriving DecidableEq

namespace SignatureTable

/-- The table that declares nothing. -/
def empty : SignatureTable := ⟨OrderedMap.empty⟩

/-- Declares further overloads of a function, after the ones it has. -/
def declare (t : SignatureTable) (name : String) (overloads : List Signature) : SignatureTable :=
  ⟨t.functions.alter name fun known => known.getD [] ++ overloads⟩

/-- The overloads of a function, none if it is not declared. -/
def overloads (t : SignatureTable) (name : String) : List Signature :=
  (t.functions.find? name).getD []

/-- The overload with exactly these argument types. -/
def signature? (t : SignatureTable) (name : String) (arguments : List ValueType) :
    Option Signature :=
  (t.overloads name).find? fun s => s.arguments = arguments

/-- Whether a function is declared, be it without overloads. -/
def contains (t : SignatureTable) (name : String) : Bool := t.functions.contains name

/-- The declared names, the first declared first. -/
def names (t : SignatureTable) : List String := t.functions.keys

/-- The number of declared functions. -/
def size (t : SignatureTable) : Nat := t.functions.size

/-- Whether nothing is declared. -/
def isEmpty (t : SignatureTable) : Bool := t.functions.isEmpty

/-- Whether two tables declare the same overloads in the same order under every name. -/
def Same (t u : SignatureTable) : Prop := t.functions.SameBindings u.functions

instance (t u : SignatureTable) : Decidable (t.Same u) :=
  inferInstanceAs (Decidable (t.functions.SameBindings u.functions))

@[simp] theorem overloads_empty (name : String) : empty.overloads name = [] := rfl

/-- A declaration appends to the overloads of its name and leaves all others alone. -/
theorem overloads_declare (t : SignatureTable) (name : String) (added : List Signature)
    (other : String) :
    (t.declare name added).overloads other =
      if other = name then t.overloads other ++ added else t.overloads other := by
  unfold overloads declare
  rw [OrderedMap.find?_alter]
  split
  · rename_i h; subst h; rfl
  · rfl

end SignatureTable

end RequestCompiler
