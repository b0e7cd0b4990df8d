import RequestCompiler.Stored.Signature
import RequestCompiler.Token

/-!
# Stored requests

A request is stored as an array of tokens, and a token as a record with a tag in front, which says
which of the six kinds of token the other fields describe. In an object the tag is the field `kind`,
in an array it is the first item. Writing makes objects with every field. Reading takes both
spellings of a record; in an object it looks fields up by their keys, so their order does not matter
and further ones are ignored. The fields `args`, `has_zero` and `is_contextual` may be left out
where they hold their default.

A token of the request itself must name its kind. A token inside another one may also number it, in
the order of `TokenKind.stored`.

Reading follows the document: every look-up of a field that holds requests walks down the list of
fields, so each recursive call is on a part of the document at hand. Both directions stop at the
document. Its text, and the limits on depth and numbers of a reader of texts, are not modelled.
-/

namespace RequestCompiler

open Document (Place textField? flagField? typeField?)

/-! ## Writing -/

/-- The fields of a stored property. -/
def Property.encodeFields (p : Property) : List (String × Document) :=
  [("table", .text p.table), ("expression", .text p.expression), ("type", p.type.encode),
    ("has_zero", .boolean p.hasZero)]

/-- The fields of a stored join. -/
def JoinEdge.encodeFields (e : JoinEdge) : List (String × Document) :=
  [("table_b", .text e.table), ("expression", .text e.condition),
    ("is_contextual", .boolean e.contextual)]

/-- The fields of a stored table. -/
def TableScan.encodeFields (s : TableScan) : List (String × Document) :=
  [("table", .text s.table), ("id", .text s.identifier), ("has_zero", .boolean s.hasZero)]

mutual
/-- The stored form of a token, every field written. -/
def Token.encode : Token → Document
  | .call name arguments =>
    .object [("kind", .text "function"), ("name", .text name),
      ("args", .array (Token.encodeArguments arguments))]
  | .read property => .object (("kind", .text "value") :: property.encodeFields)
  | .parameter name => .object [("kind", .text "parameter"), ("name", .text name)]
  | .join edge => .object (("kind", .text "join") :: edge.encodeFields)
  | .table scan => .object (("kind", .text "table") :: scan.encodeFields)
  | .assignments pairs =>
    .object [("kind", .text "assignment_list"), ("pairs", .array (Token.encodePairs pairs))]
termination_by structural t => t

/-- The stored forms of the tokens of a request. -/
def Token.encodeList : List Token → List Document
  | [] => []
  | t :: ts => t.encode :: Token.encodeList ts
termination_by structural ts => ts

/-- The stored forms of the arguments of a call. -/
def Token.encodeArguments : List (List Token) → List Document
  | [] => []
  | r :: rs => .array (Token.encodeList r) :: Token.encodeArguments rs
termination_by structural rs => rs

/-- The stored forms of assigned pairs. -/
def Token.encodePairs : List (Assignment (List Token)) → List Document
  | [] => []
  | ⟨property, value⟩ :: rest =>
    .object [("property", .array (Token.encodeList property)),
      ("value", .array (Token.encodeList value))] :: Token.encodePairs rest
termination_by structural pairs => pairs
end

/-- The stored form of a request. -/
def Request.encode (r : Request) : Document := .array (Token.encodeList r)

/-! ## Reading -/

/-- The kinds of token and their stored names. -/
def TokenKind.stored : List (String × TokenKind) :=
  [("function", .call), ("value", .read), ("parameter", .parameter), ("join", .join),
    ("table", .table), ("assignment_list", .assignments)]

/-- The kind a tag gives: by its stored name or, inside a token, by its number from 0 on. -/
def TokenKind.decode? : Place → Document → Option TokenKind
  | _, .text name => TokenKind.stored.lookup name
  | .inside, tag => do return (← TokenKind.stored[← tag.natural?]?).2
  | .outside, _ => none

/-- The property a record describes. -/
def Property.decode? (d : Document) : Option Property := do
  let fields ← d.recordFields? ["table", "expression", "type", "has_zero"]
  return ⟨← textField? fields "table", ← textField? fields "expression",
    ← typeField? .inside fields "type", ← flagField? fields "has_zero" false⟩

/-- The join a record describes. -/
def JoinEdge.decode? (d : Document) : Option JoinEdge := do
  let fields ← d.recordFields? ["table_b", "expression", "is_contextual"]
  return ⟨← textField? fields "table_b", ← textField? fields "expression",
    ← flagField? fields "is_contextual" false⟩

/-- The table a record describes. -/
def TableScan.decode? (d : Document) : Option TableScan := do
  let fields ← d.recordFields? ["table", "id", "has_zero"]
  return ⟨← textField? fields "table", ← textField? fields "id",
    ← flagField? fields "has_zero" false⟩

/-- The token of a kind without requests of its own that a record describes. -/
def Token.decodeFlat? (kind : TokenKind) (d : Document) : Option Token :=
  match kind with
  | .read => do return .read (← Property.decode? d)
  | .parameter => do return .parameter (← textField? (← d.recordFields? ["name"]) "name")
  | .join => do return .join (← JoinEdge.decode? d)
  | .table => do return .table (← TableScan.decode? d)
  | _ => none

mutual
/-- The token that a document at this place stores. -/
def Token.decodeAt? (place : Place) : Document → Option Token
  | .object fields =>
    match (fields.lookup "kind").bind (TokenKind.decode? place) with
    | some .call => do
      let name ← textField? fields "name"
      let arguments ← Token.argumentsIn? fields
      return .call name arguments
    | some .assignments => do return .assignments (← Token.pairsIn? fields)
    | some kind => Token.decodeFlat? kind (.object fields)
    | none => none
  | .array (tag :: items) =>
    match TokenKind.decode? place tag, items with
    | some .call, [name] => do return .call (← name.text?) []
    | some .call, [name, arguments] => do
      let name ← name.text?
      let arguments ← Token.decodeArguments? arguments
      return .call name arguments
    | some .assignments, [pairs] => do return .assignments (← Token.decodePairs? pairs)
    | some kind, items => Token.decodeFlat? kind (.array items)
    | none, _ => none
  | _ => none
termination_by structural d => d

/-- The arguments in the field `args`; none are given where it is absent. -/
def Token.argumentsIn? : List (String × Document) → Option (List (List Token))
  | [] => some []
  | (key, value) :: rest =>
    if key = "args" then Token.decodeArguments? value else Token.argumentsIn? rest
termination_by structural fields => fields

/-- The arguments a document lists. -/
def Token.decodeArguments? : Document → Option (List (List Token))
  | .array items => Token.decodeArgumentList? items
  | _ => none
termination_by structural d => d

/-- The arguments stored one after the other. -/
def Token.decodeArgumentList? : List Document → Option (List (List Token))
  | [] => some []
  | item :: items => do
    let request ← Token.decodeRequest? .inside item
    let requests ← Token.decodeArgumentList? items
    return request :: requests
termination_by structural items => items

/-- The request that a document at this place stores. -/
def Token.decodeRequest? (place : Place) : Document → Option (List Token)
  | .array items => Token.decodeList? place items
  | _ => none
termination_by structural d => d

/-- The tokens stored one after the other. -/
def Token.decodeList? (place : Place) : List Document → Option (List Token)
  | [] => some []
  | item :: items => do
    let token ← Token.decodeAt? place item
    let tokens ← Token.decodeList? place items
    return token :: tokens
termination_by structural items => items

/-- The pairs in the field `pairs`, which must be there. -/
def Token.pairsIn? : List (String × Document) → Option (List (Assignment (List Token)))
  | [] => none
  | (key, value) :: rest =>
    if key = "pairs" then Token.decodePairs? value else Token.pairsIn? rest
termination_by structural fields => fields

/-- The pairs a document lists. -/
def Token.decodePairs? : Document → Option (List (Assignment (List Token)))
  | .array items => Token.decodePairList? items
  | _ => none
termination_by structural d => d

/-- The pairs stored one after the other. -/
def Token.decodePairList? : List Document → Option (List (Assignment (List Token)))
  | [] => some []
  | item :: items => do
    let pair ← Token.decodePair? item
    let pairs ← Token.decodePairList? items
    return pair :: pairs
termination_by structural items => items

/-- The pair a document stores. -/
def Token.decodePair? : Document → Option (Assignment (List Token))
  | .object fields => do
    let property ← Token.requestIn? "property" fields
    let value ← Token.requestIn? "value" fields
    return ⟨property, value⟩
  | .array [property, value] => do
    let property ← Token.decodeRequest? .inside property
    let value ← Token.decodeRequest? .inside value
    return ⟨property, value⟩
  | _ => none
termination_by structural d => d

/-- The request in a field, which must be there. -/
def Token.requestIn? (wanted : String) : List (String × Document) → Option (List Token)
  | [] => none
  | (key, value) :: rest =>
    if key = wanted then Token.decodeRequest? .inside value else Token.requestIn? wanted rest
termination_by structural fields => fields
end

/-- The token a document stores. -/
def Token.decode? (d : Document) : Option Token := Token.decodeAt? .outside d

/-- The request a document stores. -/
def Request.decode? (d : Document) : Option Request := Token.decodeRequest? .outside d

/-! ## Fields that hold requests are looked up like any other -/

theorem Token.argumentsIn?_eq (fields : List (String × Document)) :
    Token.argumentsIn? fields =
      match fields.lookup "args" with
      | none => some []
      | some value => Token.decodeArguments? value := by
  induction fields with
  | nil => rfl
  | cons field rest ih =>
    obtain ⟨key, value⟩ := field
    rw [Token.argumentsIn?, ih, List.lookup_cons]
    by_cases h : key = "args"
    · simp [h]
    · rw [if_neg h, beq_false_of_ne (Ne.symm h)]

theorem Token.pairsIn?_eq (fields : List (String × Document)) :
    Token.pairsIn? fields = (fields.lookup "pairs").bind Token.decodePairs? := by
  induction fields with
  | nil => rfl
  | cons field rest ih =>
    obtain ⟨key, value⟩ := field
    rw [Token.pairsIn?, ih, List.lookup_cons]
    by_cases h : key = "pairs"
    · simp [h]
    · rw [if_neg h, beq_false_of_ne (Ne.symm h)]

theorem Token.requestIn?_eq (wanted : String) (fields : List (String × Document)) :
    Token.requestIn? wanted fields =
      (fields.lookup wanted).bind (Token.decodeRequest? .inside) := by
  induction fields with
  | nil => rfl
  | cons field rest ih =>
    obtain ⟨key, value⟩ := field
    rw [Token.requestIn?, ih, List.lookup_cons]
    by_cases h : key = wanted
    · simp [h]
    · rw [if_neg h, beq_false_of_ne (Ne.symm h)]

end RequestCompiler
