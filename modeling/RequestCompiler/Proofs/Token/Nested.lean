import RequestCompiler.Token

/-!
# Tokens at any depth

Calls and assignments hold requests of their own. `nested` lists all tokens of a request from left
to right, each before those inside of it, so that what a request mentions anywhere is a matter of
list membership: the functions it calls (`calledNames`) and its parameters (`parameterNames`), both
of them read off token by token (`collect`). `Throughout` says that all that is read off has some
property, and is opened along the structure of the request.
-/

namespace RequestCompiler

mutual
/-- The tokens of a request, each followed by the tokens inside of it. -/
def nested : List Token → List Token
  | [] => []
  | t :: rest => t :: (nestedIn t ++ nested rest)
termination_by structural tokens => tokens

/-- The tokens inside of a token. -/
def nestedIn : Token → List Token
  | .call _ arguments => nestedInArguments arguments
  | .assignments pairs => nestedInPairs pairs
  | _ => []
termination_by structural t => t

/-- The tokens of arguments, one after the other. -/
def nestedInArguments : List (List Token) → List Token
  | [] => []
  | argument :: rest => nested argument ++ nestedInArguments rest
termination_by structural arguments => arguments

/-- The tokens of properties and values, one after the other. -/
def nestedInPairs : List (Assignment (List Token)) → List Token
  | [] => []
  | ⟨property, value⟩ :: rest => nested property ++ nested value ++ nestedInPairs rest
termination_by structural pairs => pairs
end

/-- What is read off the tokens of a request at any depth, from left to right. -/
def collect (read : Token → Option String) (r : Request) : List String :=
  (nested r).filterMap read

/-- The names of the functions that a request calls anywhere. -/
abbrev calledNames (r : Request) : List String := collect Token.callName? r

/-- The names of the parameters that a request mentions anywhere. -/
abbrev parameterNames (r : Request) : List String := collect Token.parameter? r

theorem nested_eq_flatMap (r : Request) : nested r = r.flatMap fun t => t :: nestedIn t := by
  induction r with
  | nil => rfl
  | cons t r ih => rw [nested, ih, List.flatMap_cons, List.cons_append]

theorem nestedInArguments_eq_flatMap (arguments : List Request) :
    nestedInArguments arguments = arguments.flatMap nested := by
  induction arguments with
  | nil => rfl
  | cons argument rest ih => rw [nestedInArguments, ih, List.flatMap_cons]

theorem nestedIn_call (name : String) (arguments : List Request) :
    nestedIn (.call name arguments) = arguments.flatMap nested := by
  rw [nestedIn, nestedInArguments_eq_flatMap]

theorem nestedIn_assignments (pairs : List (Assignment Request)) :
    nestedIn (.assignments pairs) =
      pairs.flatMap fun pair => nested pair.property ++ nested pair.value := by
  have hpairs : nestedInPairs pairs =
      pairs.flatMap fun pair => nested pair.property ++ nested pair.value := by
    induction pairs with
    | nil => rfl
    | cons pair rest ih => rw [nestedInPairs, ih, List.flatMap_cons]
  rw [nestedIn, hpairs]

/-- All tokens of a call have a property if the call itself has it and those of its operands do. -/
theorem forall_mem_nested_call {P : Token → Prop} {name : String} {operands : List Request} :
    (∀ t ∈ nested [.call name operands], P t) ↔
      P (.call name operands) ∧ ∀ operand ∈ operands, ∀ t ∈ nested operand, P t := by
  rw [nested, nestedIn_call, nested, List.append_nil, List.forall_mem_cons,
    List.forall_mem_flatMap]

section Collect

variable (read : Token → Option String)

theorem collect_eq_flatMap (r : Request) :
    collect read r = r.flatMap fun t => (read t).toList ++ (nestedIn t).filterMap read := by
  have htoken (t : Token) : (t :: nestedIn t).filterMap read =
      (read t).toList ++ (nestedIn t).filterMap read := by
    rw [List.filterMap_cons]
    cases read t <;> rfl
  rw [collect, nested_eq_flatMap, List.filterMap_flatMap]
  simp only [htoken]

theorem collect_singleton (t : Token) :
    collect read [t] = (read t).toList ++ (nestedIn t).filterMap read := by
  rw [collect_eq_flatMap, List.flatMap_singleton]

/-- What is read off a request is what is read off its tokens. -/
theorem collect_eq_flatMap_singleton (r : Request) :
    collect read r = r.flatMap fun t => collect read [t] := by
  simp only [collect_singleton]
  exact collect_eq_flatMap read r

theorem mem_collect_iff {r : Request} {x : String} :
    x ∈ collect read r ↔ ∃ t ∈ r, x ∈ collect read [t] := by
  rw [collect_eq_flatMap_singleton, List.mem_flatMap]

theorem collect_call (name : String) (arguments : List Request) :
    collect read [.call name arguments] =
      (read (.call name arguments)).toList ++ arguments.flatMap (collect read) := by
  rw [collect_singleton, nestedIn_call, List.filterMap_flatMap]
  rfl

theorem collect_assignments (pairs : List (Assignment Request)) :
    collect read [.assignments pairs] = (read (.assignments pairs)).toList ++
      pairs.flatMap fun pair => collect read pair.property ++ collect read pair.value := by
  rw [collect_singleton, nestedIn_assignments, List.filterMap_flatMap]
  simp only [List.filterMap_append, collect]

end Collect

/-! ## Properties at any depth -/

/-- Whether all that is read off the tokens of a request, at any depth, has a property. -/
def Throughout (read : Token → Option String) (P : String → Prop) (r : Request) : Prop :=
  ∀ x ∈ collect read r, P x

namespace Throughout

variable {read : Token → Option String} {P : String → Prop}

theorem nil : Throughout read P [] := fun _ h => by cases h

theorem iff_forall {r : Request} : Throughout read P r ↔ ∀ t ∈ r, Throughout read P [t] := by
  unfold Throughout
  rw [collect_eq_flatMap_singleton, List.forall_mem_flatMap]

theorem append_iff {r s : Request} :
    Throughout read P (r ++ s) ↔ Throughout read P r ∧ Throughout read P s := by
  rw [iff_forall, List.forall_mem_append, ← iff_forall, ← iff_forall]

theorem cons_iff {t : Token} {r : Request} :
    Throughout read P (t :: r) ↔ Throughout read P [t] ∧ Throughout read P r := by
  rw [← List.singleton_append, append_iff]

theorem subset {r s : Request} (hsub : s ⊆ r) (h : Throughout read P r) : Throughout read P s :=
  iff_forall.mpr fun t ht => iff_forall.mp h t (hsub ht)

theorem map {α : Type} {f : α → Token} {l : List α} (h : ∀ x ∈ l, Throughout read P [f x]) :
    Throughout read P (l.map f) :=
  iff_forall.mpr (List.forall_mem_map.mpr h)

theorem call_iff {name : String} {arguments : List Request} :
    Throughout read P [.call name arguments] ↔
      (∀ x ∈ read (.call name arguments), P x) ∧
        ∀ argument ∈ arguments, Throughout read P argument := by
  unfold Throughout
  rw [collect_call, List.forall_mem_append, List.forall_mem_flatMap]
  simp only [Option.mem_toList, Option.mem_def]

theorem assignments_iff {pairs : List (Assignment Request)} :
    Throughout read P [.assignments pairs] ↔
      (∀ x ∈ read (.assignments pairs), P x) ∧
        ∀ pair ∈ pairs, Throughout read P pair.property ∧ Throughout read P pair.value := by
  unfold Throughout
  rw [collect_assignments, List.forall_mem_append, List.forall_mem_flatMap]
  simp only [Option.mem_toList, Option.mem_def, List.forall_mem_append]

/-- A token of which nothing is read, with no tokens inside of it. -/
theorem of_nestedIn_eq_nil {t : Token} (h : nestedIn t = []) (hread : read t = none) :
    Throughout read P [t] := by
  intro x hx
  rw [collect_singleton, h, hread] at hx
  cases hx

end Throughout

end RequestCompiler
