import RequestCompiler.ValueType

/-!
# Tokens and requests

A request is a list of tokens read from left to right: a table, the joins followed from it and the
stages applied to its rows, or the operands of a function. Calls hold requests as their arguments
and assignment lists hold them as properties and values, so tokens nest to any depth.

* `Token.kind` names the shape of a token, `TokenKind.atHead` the shape a request begins with.
* `bareParameter?` recognises the requests that are one parameter and nothing else.
* Equality of tokens is decidable (`instDecidableEqToken`).
-/

namespace RequestCompiler

/-- A property of the table reached through the joins before it. -/
structure Property where
  table : String
  expression : String
  type : ValueType
  hasZero : Bool := false
deriving DecidableEq, Repr

/-- A step to another table, with the condition that links the two sides. -/
structure JoinEdge where
  table : String
  condition : String
  contextual : Bool := false
deriving DecidableEq, Repr

/-- A table whose rows are read, and the property that identifies them. -/
structure TableScan where
  table : String
  identifier : String
  hasZero : Bool := false
deriving DecidableEq, Repr

/-- A property and the value written to it. -/
structure Assignment (α : Type) where
  property : α
  value : α
deriving DecidableEq, Repr

/-- One node of a request. -/
inductive Token where
  | call (name : String) (arguments : List (List Token))
  | read (property : Property)
  | parameter (name : String)
  | join (edge : JoinEdge)
  | table (scan : TableScan)
  | assignments (pairs : List (Assignment (List Token)))
deriving Repr, Inhabited

/-- Tokens read from left to right. -/
abbrev Request := List Token

/-- The shape of a token, or of the place where a token is missing. -/
inductive TokenKind where
  | call
  | read
  | parameter
  | join
  | table
  | assignments
  | endOfRequest
deriving DecidableEq, Repr

namespace TokenKind

/-- How messages name the shape. -/
def text : TokenKind → String
  | .call => "function"
  | .read => "value"
  | .parameter => "parameter"
  | .join => "join"
  | .table => "table"
  | .assignments => "assignment list"
  | .endOfRequest => "end of request"

end TokenKind

namespace Token

/-- The shape of a token. -/
def kind : Token → TokenKind
  | .call .. => .call
  | .read .. => .read
  | .parameter .. => .parameter
  | .join .. => .join
  | .table .. => .table
  | .assignments .. => .assignments

/-- The name of the called function. -/
def callName? : Token → Option String
  | .call name _ => some name
  | _ => none

/-- The number of arguments of a call. -/
def arity? : Token → Option Nat
  | .call _ arguments => some arguments.length
  | _ => none

/-- The name of a parameter. -/
def parameter? : Token → Option String
  | .parameter name => some name
  | _ => none

/-- Whether the token calls this function, whatever the arguments. -/
def isCall (t : Token) (name : String) : Bool := t.callName? == some name

/-- Whether the token is a join. -/
def isJoin : Token → Bool
  | .join _ => true
  | _ => false

/-- How messages name the token as a stage: a call by its function, all else by its shape. -/
def stageName : Token → String
  | .call name _ => name
  | t => t.kind.text

end Token

/-- The shape a request begins with. -/
def TokenKind.atHead : Request → TokenKind
  | [] => .endOfRequest
  | t :: _ => t.kind

/-- The name of the parameter that makes up the whole request. -/
def bareParameter? : Request → Option String
  | [.parameter name] => some name
  | _ => none

theorem bareParameter?_eq_some_iff {request : Request} {name : String} :
    bareParameter? request = some name ↔ request = [.parameter name] := by
  constructor
  · intro h
    unfold bareParameter? at h
    split at h <;> simp_all
  · rintro rfl
    rfl

/-! ## Equality -/

mutual
/-- Whether two tokens agree in every part. -/
def Token.same : Token → Token → Bool
  | .call name arguments, .call other arguments' =>
    name == other && Token.sameArguments arguments arguments'
  | .read property, .read other => property == other
  | .parameter name, .parameter other => name == other
  | .join edge, .join other => edge == other
  | .table scan, .table other => scan == other
  | .assignments pairs, .assignments pairs' => Token.samePairs pairs pairs'
  | _, _ => false
termination_by structural t => t

/-- Whether two requests agree token by token. -/
def Token.sameRequest : List Token → List Token → Bool
  | [], [] => true
  | t :: ts, u :: us => Token.same t u && Token.sameRequest ts us
  | _, _ => false
termination_by structural ts => ts

/-- Whether two argument lists agree request by request. -/
def Token.sameArguments : List (List Token) → List (List Token) → Bool
  | [], [] => true
  | r :: rs, s :: ss => Token.sameRequest r s && Token.sameArguments rs ss
  | _, _ => false
termination_by structural rs => rs

/-- Whether two assignment lists agree pair by pair. -/
def Token.samePairs :
    List (Assignment (List Token)) → List (Assignment (List Token)) → Bool
  | [], [] => true
  | ⟨p, v⟩ :: as, ⟨q, w⟩ :: bs =>
    (Token.sameRequest p q && Token.sameRequest v w) && Token.samePairs as bs
  | _, _ => false
termination_by structural as => as
end

mutual
theorem Token.same_iff : (t u : Token) → (Token.same t u = true ↔ t = u)
  | .call name arguments, u => by
    cases u <;> simp [Token.same, Token.sameArguments_iff arguments]
  | .read property, u => by cases u <;> simp [Token.same]
  | .parameter name, u => by cases u <;> simp [Token.same]
  | .join edge, u => by cases u <;> simp [Token.same]
  | .table scan, u => by cases u <;> simp [Token.same]
  | .assignments pairs, u => by cases u <;> simp [Token.same, Token.samePairs_iff pairs]

theorem Token.sameRequest_iff : (r s : List Token) → (Token.sameRequest r s = true ↔ r = s)
  | [], s => by cases s <;> simp [Token.sameRequest]
  | t :: ts, s => by
    cases s <;> simp [Token.sameRequest, Token.same_iff t, Token.sameRequest_iff ts]

theorem Token.sameArguments_iff :
    (as bs : List (List Token)) → (Token.sameArguments as bs = true ↔ as = bs)
  | [], bs => by cases bs <;> simp [Token.sameArguments]
  | r :: rs, bs => by
    cases bs <;>
      simp [Token.sameArguments, Token.sameRequest_iff r, Token.sameArguments_iff rs]

theorem Token.samePairs_iff :
    (as bs : List (Assignment (List Token))) → (Token.samePairs as bs = true ↔ as = bs)
  | [], bs => by cases bs <;> simp [Token.samePairs]
  | ⟨p, v⟩ :: as, [] => by simp [Token.samePairs]
  | ⟨p, v⟩ :: as, ⟨q, w⟩ :: bs => by
    simp [Token.samePairs, Token.sameRequest_iff p, Token.sameRequest_iff v,
      Token.samePairs_iff as]
end

instance : DecidableEq Token := fun t u => decidable_of_iff _ (Token.same_iff t u)

end RequestCompiler
