import RequestCompiler.Signature.Table
import RequestCompiler.Token

/-!
# Types of parameters

A parameter has no type of its own; it takes one from the place where it stands. `inferTypes`
walks the arguments of the top-level call once, from left to right:

* the bounds of a slice or a substring are integers;
* an operand takes its slot in the first overload that is compatible with what is known of all
  operands of the call (`conclude`);
* an assigned value takes the type of its property.

The first type found for a name stays (`OrderedMap.bindNew`). A parameter that nothing constrains
has no entry.
-/

namespace RequestCompiler

/-- The types found for parameters, in the order in which they were found. -/
abbrev ParameterTypes := OrderedMap String ValueType

namespace ParameterTypes

/-- Gives every operand that is a bare parameter the type of its slot. -/
def bindSlots : List Request → List ValueType → ParameterTypes → ParameterTypes
  | argument :: arguments, slot :: slots, types =>
    match bareParameter? argument with
    | some name => bindSlots arguments slots (types.bindNew name slot)
    | none => bindSlots arguments slots types
  | _, _, types => types

/--
What a call yields once the types of its operands are known: the first compatible overload types
the bare parameters among them and gives the type of the result.
-/
def conclude (signatures : SignatureTable) (name : String) (arguments : List Request)
    (known : List (Option ValueType) × ParameterTypes) : Option ValueType × ParameterTypes :=
  match (signatures.overloads name).find? (·.compatible known.1) with
  | none => (none, known.2)
  | some overload => (some overload.returns, bindSlots arguments overload.arguments known.2)

/-- Whether a function is a stage that yields rows and has expressions as arguments. -/
def isRowStage (name : String) : Bool :=
  name == "filter" || name == "sort" || name == "rsort" || name == "fork"

mutual
/-- Types the parameters of one token and answers with the type of what it stands for. -/
def ofToken (signatures : SignatureTable) :
    Token → ParameterTypes → Option ValueType × ParameterTypes
  | .read property, types => (some property.type, types)
  | .parameter name, types => (types.find? name, types)
  | .table _, types => (some .list, types)
  | .join _, types => (none, types)
  | .assignments pairs, types => (none, ofPairs signatures pairs types)
  | .call name arguments, types =>
    if name = "slice" then (some .list, ofBounds signatures arguments types)
    else if isRowStage name then (some .list, (ofOperands signatures arguments types).2)
    else if name = "substring" then
      match arguments with
      | string :: bounds =>
        (some .string, ofBounds signatures bounds (ofRequest signatures string none types).2)
      | [] => conclude signatures name [] ([], types)
    else if name = "length" then
      match arguments with
      | [string] => (some .integer, (ofRequest signatures string none types).2)
      | arguments => conclude signatures name arguments (ofOperands signatures arguments types)
    else conclude signatures name arguments (ofOperands signatures arguments types)
termination_by structural t => t

/-- Types the parameters of a request, whose type is that of its last token, joins aside. -/
def ofRequest (signatures : SignatureTable) :
    List Token → Option ValueType → ParameterTypes → Option ValueType × ParameterTypes
  | [], type, types => (type, types)
  | .join _ :: rest, type, types => ofRequest signatures rest type types
  | t :: rest, _, types =>
    let (type, types) := ofToken signatures t types
    ofRequest signatures rest type types
termination_by structural r => r

/-- Types the parameters of each operand and lists the operands' types. -/
def ofOperands (signatures : SignatureTable) :
    List (List Token) → ParameterTypes → List (Option ValueType) × ParameterTypes
  | [], types => ([], types)
  | operand :: rest, types =>
    let (type, types) := ofRequest signatures operand none types
    let (known, types) := ofOperands signatures rest types
    (type :: known, types)
termination_by structural rs => rs

/-- Types bounds: a bare parameter is an integer, all else is walked. -/
def ofBounds (signatures : SignatureTable) :
    List (List Token) → ParameterTypes → ParameterTypes
  | [], types => types
  | bound :: rest, types =>
    match bareParameter? bound with
    | some name => ofBounds signatures rest (types.bindNew name .integer)
    | none => ofBounds signatures rest (ofRequest signatures bound none types).2
termination_by structural rs => rs

/-- Types assigned values: a bare parameter has the type of its property, all else is walked. -/
def ofPairs (signatures : SignatureTable) :
    List (Assignment (List Token)) → ParameterTypes → ParameterTypes
  | [], types => types
  | ⟨property, value⟩ :: rest, types =>
    let (type, types) := ofRequest signatures property none types
    match bareParameter? value, type with
    | some name, some type => ofPairs signatures rest (types.bindNew name type)
    | _, _ => ofPairs signatures rest (ofRequest signatures value none types).2
termination_by structural ps => ps
end

/-- Types the parameters of arguments, one after the other. -/
def ofArguments (signatures : SignatureTable) (arguments : List Request) : ParameterTypes :=
  (ofOperands signatures arguments OrderedMap.empty).2

end ParameterTypes

/-- The types that the positions of a top-level request's parameters imply. -/
def inferTypes (signatures : SignatureTable) : Request → ParameterTypes
  | .call _ arguments :: _ => ParameterTypes.ofArguments signatures arguments
  | _ => OrderedMap.empty

end RequestCompiler
