import RequestCompiler.Document
import RequestCompiler.Settings
import RequestCompiler.Signature.Table

/-!
# Stored types, overloads and settings

A type is stored as a constant, an overload as a record of `arguments` and `returns`, and a table of
overloads as an object that maps each name to its overloads, whose field order is the order of
declaration. Settings are a record in which every field may be left out.
-/

namespace RequestCompiler

/-- The stored form of a type. -/
def ValueType.encode (t : ValueType) : Document := .text t.name

/-- The type that a document at this place stores. -/
def ValueType.decodeAt? (place : Document.Place) (d : Document) : Option ValueType :=
  (d.constant? place).bind ValueType.ofName?

/-- The type a document stores. -/
def ValueType.decode? (d : Document) : Option ValueType := ValueType.decodeAt? .outside d

/-- Every type stored with its name is read back, wherever it stands. -/
theorem ValueType.decodeAt?_encode (place : Document.Place) (t : ValueType) :
    ValueType.decodeAt? place t.encode = some t :=
  ValueType.ofName?_name t

/-- The type in a field at this place, which must be there. -/
def Document.typeField? (place : Place) (fields : List (String × Document)) (key : String) :
    Option ValueType :=
  (fields.lookup key).bind (ValueType.decodeAt? place)

namespace Signature

/-- The stored form of an overload. -/
def encode (s : Signature) : Document :=
  .object [("arguments", .array (s.arguments.map ValueType.encode)), ("returns", s.returns.encode)]

/-- The overload a document stores. -/
def decode? (d : Document) : Option Signature := do
  let fields ← d.recordFields? ["arguments", "returns"]
  let arguments ← (← (fields.lookup "arguments").bind Document.items?).mapM ValueType.decode?
  return ⟨arguments, ← Document.typeField? .outside fields "returns"⟩

/-- The overloads a document lists. -/
def decodeList? (d : Document) : Option (List Signature) := do
  (← d.items?).mapM decode?

end Signature

namespace SignatureTable

/-- The stored form of a table. -/
def encode (t : SignatureTable) : Document :=
  .object (t.functions.entries.map fun e => (e.1, .array (e.2.map Signature.encode)))

/-- The table a document stores, its functions declared in the order of the fields. -/
def decode? (d : Document) : Option SignatureTable := do
  let entries ← (← d.fields?).mapM fun e => return (e.1, ← Signature.decodeList? e.2)
  return ⟨OrderedMap.ofList entries⟩

end SignatureTable

namespace Settings

/-- The policy with this stored name. -/
def policyOfName? (text : String) : Option OverloadPolicy :=
  if text = "tolerant" then some .tolerant
  else if text = "strict" then some .strict
  else none

/-- The settings a document stores; an absent field has its usual value. -/
def decode? (d : Document) : Option Settings := do
  let fields ← d.recordFields? ["overload_policy", "infer_parameter_types"]
  let overloadPolicy ← match fields.lookup "overload_policy" with
    | none => some OverloadPolicy.tolerant
    | some value => (value.constant? .outside).bind policyOfName?
  return ⟨overloadPolicy, ← Document.flagField? fields "infer_parameter_types" true⟩

end Settings

end RequestCompiler
