import RequestCompiler.Expression

/-!
# Expressions as text

The text of an expression is compact SQL. Operands of infix operators and of `NOT` stand in
parentheses if and only if they are made with a two-operand operator, concatenation included;
functions delimit their operands themselves. An argument is written `?`, whatever its ordinal.
-/

namespace RequestCompiler

/-- The alias of a join. -/
def joinAlias (number : Nat) : String := "t" ++ toString number

/-- The written operator. -/
def BinaryOperator.text : BinaryOperator → String
  | .plus => "+"
  | .concat => "CONCAT"
  | .minus => "-"
  | .times => "*"
  | .divides => "/"
  | .equal => "="
  | .and => "AND"
  | .or => "OR"
  | .less => "<"
  | .lessEqual => "<="
  | .greater => ">"
  | .greaterEqual => ">="
  | .regexpBinary => "REGEXP BINARY"

/-- The written aggregate. -/
def AggregateFunction.text : AggregateFunction → String
  | .count => "COUNT"
  | .sum => "SUM"
  | .average => "AVG"
  | .min => "MIN"
  | .max => "MAX"

namespace Expression

/-- Whether the expression is made with a two-operand operator. -/
def isBinary : Expression → Bool
  | .binary .. => true
  | _ => false

/-- The text of an expression. -/
def text : Expression → String
  | .column .root name => name
  | .column (.join number) name => joinAlias number ++ "." ++ name
  | .argument _ => "?"
  | .unary .not operand =>
    if operand.isBinary then "NOT (" ++ operand.text ++ ")" else "NOT " ++ operand.text
  | .unary .upper operand => "UPPER(" ++ operand.text ++ ")"
  | .unary .lower operand => "LOWER(" ++ operand.text ++ ")"
  | .unary .charLength operand => "CHAR_LENGTH(" ++ operand.text ++ ")"
  | .binary .concat left right => "CONCAT(" ++ left.text ++ ", " ++ right.text ++ ")"
  | .binary operator left right =>
    (if left.isBinary then "(" ++ left.text ++ ")" else left.text)
      ++ " " ++ operator.text ++ " "
      ++ (if right.isBinary then "(" ++ right.text ++ ")" else right.text)
  | .substring string start length =>
    "SUBSTRING(" ++ string.text ++ " FROM " ++ start.text ++ " FOR " ++ length.text ++ ")"
  | .aggregate function operand => function.text ++ "(" ++ operand.text ++ ")"
  | .aggregateRows function => function.text ++ "(*)"
  | .derived label => label

end Expression

end RequestCompiler
