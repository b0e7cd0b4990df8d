import RequestCompiler.Signature.Table

/-!
# The built-in functions

`SignatureTable.standard` declares the functions every request may use: the top-level methods that
yield rows or one number, the stages of a pipeline, the operators of expressions, and `assign`,
the rule for writing a value into a property.
-/

namespace RequestCompiler

namespace SignatureTable

/-- A list read or ordered by a value of any type but a list. -/
def listByValue : List Signature :=
  [⟨[.list, .boolean], .list⟩, ⟨[.list, .integer], .list⟩, ⟨[.list, .float], .list⟩,
    ⟨[.list, .string], .list⟩]

/-- One number computed from many. -/
def aggregation : List Signature :=
  [⟨[.integer], .float⟩, ⟨[.float], .float⟩]

/-- Arithmetic that stays among the integers as long as both operands do. -/
def arithmetic : List Signature :=
  [⟨[.integer, .integer], .integer⟩, ⟨[.float, .integer], .float⟩, ⟨[.integer, .float], .float⟩,
    ⟨[.float, .float], .float⟩]

/-- Division leaves the integers. -/
def division : List Signature :=
  [⟨[.integer, .integer], .float⟩, ⟨[.float, .integer], .float⟩, ⟨[.integer, .float], .float⟩,
    ⟨[.float, .float], .float⟩]

/-- Comparison of two values of one type. -/
def sameType : List Signature :=
  [⟨[.boolean, .boolean], .boolean⟩, ⟨[.integer, .integer], .boolean⟩,
    ⟨[.float, .float], .boolean⟩, ⟨[.string, .string], .boolean⟩]

/-- Comparison by order, numbers of both kinds with each other. -/
def ordering : List Signature :=
  [⟨[.integer, .integer], .boolean⟩, ⟨[.float, .integer], .boolean⟩,
    ⟨[.integer, .float], .boolean⟩, ⟨[.float, .float], .boolean⟩, ⟨[.string, .string], .boolean⟩]

/-- The connectives. -/
def connective : List Signature := [⟨[.boolean, .boolean], .boolean⟩]

/-- A string made from a string. -/
def stringToString : List Signature := [⟨[.string], .string⟩]

/-- The declarations of the built-in functions, in order. -/
def standardDeclarations : List (String × List Signature) :=
  [("get", listByValue),
    ("average", aggregation),
    ("sum", aggregation),
    ("min", aggregation),
    ("max", aggregation),
    ("filter", [⟨[.list, .boolean], .list⟩]),
    ("sort", listByValue),
    ("slice", [⟨[.list, .integer, .integer], .list⟩]),
    ("not", [⟨[.boolean], .boolean⟩]),
    ("plus", arithmetic ++ [⟨[.string, .string], .string⟩]),
    ("minus", arithmetic),
    ("times", arithmetic),
    ("divides", division),
    ("equal", sameType),
    ("and", connective),
    ("or", connective),
    ("notEqual", sameType),
    ("less", ordering),
    ("lessEqual", ordering),
    ("greater", ordering),
    ("greaterEqual", ordering),
    ("match", [⟨[.string, .string], .boolean⟩]),
    ("lowercase", stringToString),
    ("uppercase", stringToString),
    ("substring", [⟨[.string, .integer, .integer], .string⟩]),
    ("length", [⟨[.string], .integer⟩]),
    ("assign", sameType)]

theorem nodup_standardDeclarations : (standardDeclarations.map Prod.fst).Nodup := by
  simp [standardDeclarations]

/-- The table of the built-in functions. -/
def standard : SignatureTable := ⟨⟨standardDeclarations, nodup_standardDeclarations⟩⟩

/-- A function with an overload is declared. -/
theorem mem_standardDeclarations_of_mem_overloads {name : String} {overload : Signature}
    (h : overload ∈ standard.overloads name) :
    (name, standard.overloads name) ∈ standardDeclarations := by
  unfold overloads at h ⊢
  cases hfind : standard.functions.find? name with
  | none =>
    rw [hfind] at h
    cases h
  | some overloads =>
    obtain ⟨before, after, hentries, -⟩ := List.lookup_eq_some_iff.mp hfind
    have hmem : (name, overloads) ∈ standard.functions.entries := by
      rw [hentries]
      exact List.mem_append_right _ List.mem_cons_self
    exact hmem

end SignatureTable

end RequestCompiler
