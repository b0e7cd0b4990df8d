import RequestCompiler.Signature.Standard
import RequestCompiler.Proofs.ParameterTypes.Visits

/-!
# Which operands are typed

A parameter that is an operand takes a type from its place in the call (`typedOperands`): a bound
from being one, all others from an overload that is compatible with the operands. Stages have no
such places, and neither do strings whose length is computed or that are cut, so these stay without
a type although their functions have an overload.

* `operand_typed` — wherever a call occurs in the arguments of a request, the parameters in its
  typed places have a type in the end.
* `measured_not_typed` — the operand of a length has none, unless it is found elsewhere.
-/

namespace RequestCompiler

namespace ParameterTypes

/-- The operands of a call that take a type from their places. -/
def typedOperands (name : String) (operands : List Request) : List Request :=
  if name = "substring" then operands.tail
  else if isRowStage name = true ∨ name = "length" ∧ operands.length = 1 then []
  else operands

/-- Whether a call leaves the types of its operands to an overload, and there is one. -/
def HasOverload (signatures : SignatureTable) (name : String) (operands : List Request)
    (types : ParameterTypes) : Prop :=
  ∃ overload ∈ signatures.overloads name,
    overload.compatible (ofOperands signatures operands types).1 = true

instance (signatures : SignatureTable) (name : String) (operands : List Request)
    (types : ParameterTypes) : Decidable (HasOverload signatures name operands types) :=
  inferInstanceAs (Decidable (∃ _ ∈ _, _))

/-- The functions whose bounds are integers, whatever their overloads are. -/
def boundedNames : List String := ["slice", "substring"]

/-! ## Calls -/

section Calls

variable {signatures : SignatureTable} {p : String}

/-- A name has a type after it was given one. -/
theorem exists_find?_bindNew (types : ParameterTypes) (name : String) (type : ValueType) :
    ∃ found, (types.bindNew name type).find? name = some found := by
  rw [OrderedMap.find?_bindNew, if_pos rfl]
  cases types.find? name with
  | none => exact ⟨type, rfl⟩
  | some found => exact ⟨found, rfl⟩

/-- A bare parameter among bounds is typed. -/
theorem exists_find?_ofBounds {bounds : List Request} (h : [.parameter p] ∈ bounds)
    (types : ParameterTypes) :
    ∃ type, (ofBounds signatures bounds types).find? p = some type := by
  induction bounds generalizing types with
  | nil => cases h
  | cons bound rest ih =>
    simp only [ofBounds]
    rcases List.mem_cons.mp h with rfl | h
    · obtain ⟨type, htype⟩ := exists_find?_bindNew types p .integer
      have hrest := walked_bounds (walked_arguments signatures rest) (types.bindNew p .integer)
      exact ⟨type, hrest.kept p type htype⟩
    · split <;> exact ih h _

/-- A bare parameter among operands is typed, if there is a slot for each of them. -/
theorem exists_find?_bindSlots {operands : List Request} (h : [.parameter p] ∈ operands)
    {slots : List ValueType} (hlength : slots.length = operands.length) (types : ParameterTypes) :
    ∃ type, (bindSlots operands slots types).find? p = some type := by
  induction operands generalizing slots types with
  | nil => cases h
  | cons operand rest ih =>
    cases slots with
    | nil => cases hlength
    | cons slot slots =>
      simp only [bindSlots]
      rcases List.mem_cons.mp h with rfl | h
      · obtain ⟨type, htype⟩ := exists_find?_bindNew types p slot
        exact ⟨type, Extends.bindSlots rest slots _ p type htype⟩
      · split <;> exact ih h (Nat.succ.inj hlength) _

theorem length_ofOperands (signatures : SignatureTable) (operands : List Request)
    (types : ParameterTypes) :
    (ofOperands signatures operands types).1.length = operands.length := by
  induction operands generalizing types with
  | nil => rfl
  | cons operand rest ih => exact congrArg (· + 1) (ih _)

/-- The first compatible overload has a slot for each operand. -/
theorem exists_find?_conclude {name : String} {operands : List Request} {types : ParameterTypes}
    (h : [.parameter p] ∈ operands) (hoverload : HasOverload signatures name operands types) :
    ∃ type, (conclude signatures name operands
      (ofOperands signatures operands types)).2.find? p = some type := by
  cases hfind : (signatures.overloads name).find?
      (·.compatible (ofOperands signatures operands types).1) with
  | none =>
    obtain ⟨overload, hmem, hcompatible⟩ := hoverload
    exact absurd hcompatible (List.find?_eq_none.mp hfind overload hmem)
  | some overload =>
    have hcompatible := List.find?_some hfind
    have hlength := ((overload.compatible_iff _).mp hcompatible).1
    rw [length_ofOperands] at hlength
    simp only [conclude, hfind]
    exact exists_find?_bindSlots h hlength _

/-- At the end of a call the parameters in its typed places are typed. -/
theorem exists_find?_ofToken {name : String} {operands : List Request} {types : ParameterTypes}
    (h : [.parameter p] ∈ typedOperands name operands)
    (hoverload : name ∈ boundedNames ∨ HasOverload signatures name operands types) :
    ∃ type, (ofToken signatures (.call name operands) types).2.find? p = some type := by
  by_cases hslice : name = "slice"
  · subst hslice
    exact exists_find?_ofBounds h types
  by_cases hsubstring : name = "substring"
  · subst hsubstring
    cases operands with
    | nil => cases h
    | cons string bounds => exact exists_find?_ofBounds h _
  -- no other function has bounds, so there is an overload
  have hoverload := hoverload.resolve_left (by simp [boundedNames, hslice, hsubstring])
  rw [typedOperands, if_neg hsubstring] at h
  split at h
  · cases h
  rename_i hplaces
  obtain ⟨hstage, hlength⟩ := not_or.mp hplaces
  have hconclude : ofToken signatures (.call name operands) types =
      conclude signatures name operands (ofOperands signatures operands types) := by
    rw [ofToken.eq_def]
    dsimp only
    rw [if_neg hslice, if_neg hstage, if_neg hsubstring]
    split
    · rename_i hname
      split
      · exact absurd ⟨hname, rfl⟩ hlength
      · rfl
    · rfl
  rw [hconclude]
  exact exists_find?_conclude h hoverload

end Calls

end ParameterTypes

open ParameterTypes

/-! ## Requests -/

/--
Inference comes to every call inside of the arguments of a request, at any depth. Let the call be
one with bounds, or let there be an overload that is compatible with what inference returns for its
operands there. Then every bare parameter among its typed operands has a type in the end.
-/
theorem operand_typed {signatures : SignatureTable} {method name p : String}
    {arguments operands : List Request} {rest : Request}
    (hcall : .call name operands ∈ arguments.flatMap nested)
    (hoperand : [.parameter p] ∈ typedOperands name operands) :
    (∃ types, (.call name operands, types) ∈
      visitsInOperands signatures arguments OrderedMap.empty) ∧
    ∀ types, (.call name operands, types) ∈
        visitsInOperands signatures arguments OrderedMap.empty →
      (name ∈ boundedNames ∨ HasOverload signatures name operands types) →
        ∃ type, (inferTypes signatures (.call method arguments :: rest)).find? p = some type := by
  have hwalk := walked_operands (walked_arguments signatures arguments) OrderedMap.empty
  rw [← nestedInArguments_eq_flatMap] at hcall
  refine ⟨hwalk.complete _ hcall rfl, fun types hvisit hoverload => ?_⟩
  obtain ⟨type, htype⟩ := exists_find?_ofToken hoperand hoverload
  exact ⟨type, hwalk.lasting _ hvisit p type htype⟩

/-- The operands of a sum: the age of a person and some years. -/
def agedBy : List Request := [[.read ⟨"people", "age", .integer, false⟩], [.parameter "years"]]

/-- The operands of a substring: the name of a person and where to cut it. -/
def cutName : List Request :=
  [[.read ⟨"people", "name", .string, false⟩], [.parameter "start"], [.parameter "stop"]]

/-- The people who will have passed an age, and their names cut. -/
def cutNames : List Request :=
  [[.table ⟨"people", "id", false⟩,
      .call "filter" [[.call "greater" [[.call "plus" agedBy], [.parameter "limit"]]]]],
    [.assignments [⟨[.read ⟨"people", "name", .string, false⟩], [.call "substring" cutName]⟩]]]

/-- The years have a type from an overload, the end of the names from being a bound. -/
theorem cutNames_operand_typed :
    (∃ type, (inferTypes .standard [.call "set" cutNames]).find? "years" = some type) ∧
      ∃ type, (inferTypes .standard [.call "set" cutNames]).find? "stop" = some type := by
  have hoverload : ∀ v ∈ visitsInOperands .standard cutNames OrderedMap.empty,
      v.1 = .call "plus" agedBy → HasOverload .standard "plus" agedBy v.2 := by
    decide +kernel
  obtain ⟨⟨types, hvisit⟩, hyears⟩ := @operand_typed .standard "set" "plus" "years" cutNames
    agedBy [] (by decide +kernel) (by decide)
  obtain ⟨⟨types', hvisit'⟩, hstop⟩ := @operand_typed .standard "set" "substring" "stop" cutNames
    cutName [] (by decide +kernel) (by decide)
  exact ⟨hyears types hvisit (.inr (hoverload _ hvisit rfl)),
    hstop types' hvisit' (.inl (by decide))⟩

/-! ## An operand without a type -/

/-- People, and how long some text is. -/
def measured : List Request :=
  [[.table ⟨"people", "id", false⟩], [.call "length" [[.parameter "text"]]]]

/-- The length of a parameter leaves it without a type, although there is an overload for it. -/
theorem measured_not_typed :
    (∃ v ∈ visitsInOperands .standard measured OrderedMap.empty,
        v.1 = .call "length" [[.parameter "text"]] ∧
          HasOverload .standard "length" [[.parameter "text"]] v.2) ∧
      (inferTypes .standard [.call "get" measured]).find? "text" = none := by
  decide +kernel

end RequestCompiler
