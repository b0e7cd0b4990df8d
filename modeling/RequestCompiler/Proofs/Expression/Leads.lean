import RequestCompiler.Expression.Text
import RequestCompiler.Proofs.Select.Exposure
import Mathlib.Data.List.Nodup

/-!
# How the text of an expression begins

The text of a column, of an argument, of a negation and of a function begins with a word: the
written column or a keyword (`Expression.Begins`). A word has none of the marks that delimit it, so
it is known from the text and whatever follows it (`cut_word`), and different words are written
differently (`Lead.text_injective`). All other texts are operands around an operator.

* `Begins.letters_eq` — a text that begins with a word is the word and what stands behind it.
* `letters_between` — all other texts are two operands and an operator.
* `cut_operator` — an operator is known from the text and whatever follows it.
-/

namespace RequestCompiler

/-! ## Plain names -/

/-- The characters of plain names. -/
def isPlainChar (c : Char) : Bool := c.isLower || c.isDigit || c == '_'

/-- Whether a name is not empty and has lower-case ASCII letters, digits and underscores only. -/
def IsPlainName (name : String) : Prop :=
  name ≠ "" ∧ ∀ c ∈ name.toList, isPlainChar c = true

instance : DecidablePred IsPlainName := fun name =>
  decidable_of_iff (name ≠ "" ∧ name.toList.all isPlainChar = true)
    (by rw [IsPlainName, List.all_eq_true])

theorem IsPlainName.exists_cons {name : String} (h : IsPlainName name) :
    ∃ c cs, name.toList = c :: cs ∧ isPlainChar c = true := by
  cases hname : name.toList with
  | nil => exact absurd (String.toList_inj.mp (hname.trans String.toList_empty.symm)) h.1
  | cons c cs => exact ⟨c, cs, rfl, h.2 c (hname ▸ List.mem_cons_self)⟩

/-! ## Words and marks -/

/-- The characters that delimit words. -/
def marks : List Char := [' ', '(', ')', ',', '*']

theorem notMem_marks_of_isPlainChar {c : Char} (h : isPlainChar c = true) : c ∉ marks := by
  intro hmark
  simp only [marks, List.mem_cons, List.not_mem_nil, or_false] at hmark
  rcases hmark with rfl | rfl | rfl | rfl | rfl <;> cases h

/-- Whether a rest of a text is empty or begins with a mark. -/
def Breaks (rest : List Char) : Prop := ∀ c ∈ rest.head?, c ∈ marks

theorem Breaks.nil : Breaks [] := fun _ h => by cases h

theorem Breaks.cons {c : Char} (h : c ∈ marks) (rest : List Char) : Breaks (c :: rest) := by
  intro d hd
  cases hd
  exact h

/-- A word is known from a text in which a mark follows it, or nothing. -/
theorem cut_word {u v rest rest' : List Char} (hu : ∀ c ∈ u, c ∉ marks) (hv : ∀ c ∈ v, c ∉ marks)
    (hrest : Breaks rest) (hrest' : Breaks rest') (h : u ++ rest = v ++ rest') :
    u = v ∧ rest = rest' := by
  have hword {w tail : List Char} (hw : ∀ c ∈ w, c ∉ marks) (htail : Breaks tail) :
      (w ++ tail).takeWhile (· ∉ marks) = w := by
    rw [List.takeWhile_append_of_pos (by simpa using hw)]
    cases tail with
    | nil => simp
    | cons c tail =>
      have hc : c ∈ marks := htail c rfl
      simp [hc]
  have hsame : u = v := by rw [← hword hu hrest, h, hword hv hrest']
  exact ⟨hsame, List.append_cancel_left (hsame ▸ h)⟩

/-! ## Keywords -/

/-- What begins with a word of its own. -/
inductive Keyword where
  | argument
  | unary (operator : UnaryOperator)
  | concat
  | substring
  | aggregate (function : AggregateFunction)
deriving DecidableEq

namespace Keyword

/-- The written keyword. -/
def text : Keyword → String
  | .argument => "?"
  | .unary .not => "NOT"
  | .unary .upper => "UPPER"
  | .unary .lower => "LOWER"
  | .unary .charLength => "CHAR_LENGTH"
  | .concat => "CONCAT"
  | .substring => "SUBSTRING"
  | .aggregate function => function.text

/-- Every keyword. -/
def all : List Keyword :=
  [.argument, .unary .not, .unary .upper, .unary .lower, .unary .charLength, .concat, .substring,
    .aggregate .count, .aggregate .sum, .aggregate .average, .aggregate .min, .aggregate .max]

theorem mem_all : (k : Keyword) → k ∈ all
  | .argument | .concat | .substring => by decide
  | .unary operator => by cases operator <;> decide
  | .aggregate function => by cases function <;> decide

theorem text_injective {k k' : Keyword} (h : k.text = k'.text) : k = k' := by
  have hnodup : (all.map text).Nodup := by decide
  exact List.inj_on_of_nodup_map hnodup (mem_all k) (mem_all k') h

/-- A keyword is a word, and unlike names it begins with a capital or with a question mark. -/
theorem text_isWord (k : Keyword) :
    (∃ c cs, k.text.toList = c :: cs ∧ isPlainChar c = false) ∧ ∀ c ∈ k.text.toList, c ∉ marks := by
  have hall : ∀ k ∈ all, (k.text.toList.head?.any fun c => !isPlainChar c) = true ∧
      (k.text.toList.all fun c => !marks.contains c) = true := by decide
  obtain ⟨hhead, hword⟩ := hall k (mem_all k)
  refine ⟨?_, by simpa using hword⟩
  cases hk : k.text.toList with
  | nil =>
    rw [hk] at hhead
    cases hhead
  | cons c cs =>
    rw [hk] at hhead
    exact ⟨c, cs, rfl, by simpa using hhead⟩

end Keyword

/-! ## Leads -/

/-- The word that a text begins with. -/
inductive Lead where
  | keyword (keyword : Keyword)
  | column (context : Context) (name : String)

namespace Lead

/-- The written word. -/
def text : Lead → String
  | .keyword k => k.text
  | .column .root name => name
  | .column (.join number) name => joinAlias number ++ "." ++ name

/-- Whether the name of a column is plain. -/
def IsPlain : Lead → Prop
  | .keyword _ => True
  | .column _ name => IsPlainName name

theorem toList_text_join (number : Nat) (name : String) :
    (Lead.column (.join number) name).text.toList =
      't' :: ((toString number).toList ++ '.' :: name.toList) := by
  simp [text, joinAlias]

theorem isDigit_of_mem_decimal {number : Nat} {c : Char} (h : c ∈ (toString number).toList) :
    c.isDigit = true := by
  have hdigits : (toString number).toList = Nat.toDigits 10 number := Nat.toList_repr
  rw [hdigits] at h
  exact Nat.isDigit_of_mem_toDigits (by decide) (by decide) h

/-- A written column is a word that begins as names do. -/
theorem text_column_isWord (context : Context) {name : String} (h : IsPlainName name) :
    (∃ c cs, (Lead.column context name).text.toList = c :: cs ∧ isPlainChar c = true) ∧
      ∀ c ∈ (Lead.column context name).text.toList, c ∉ marks := by
  have hname (c : Char) (hc : c ∈ name.toList) : c ∉ marks :=
    notMem_marks_of_isPlainChar (h.2 c hc)
  cases context with
  | root => exact ⟨h.exists_cons, hname⟩
  | join number =>
    rw [toList_text_join]
    refine ⟨⟨'t', _, rfl, by decide⟩, ?_⟩
    rw [List.forall_mem_cons, List.forall_mem_append, List.forall_mem_cons]
    refine ⟨by decide, fun c hc => ?_, by decide, hname⟩
    exact notMem_marks_of_isPlainChar (by simp [isPlainChar, isDigit_of_mem_decimal hc])

theorem text_isWord : (a : Lead) → a.IsPlain →
    (∃ c cs, a.text.toList = c :: cs) ∧ ∀ c ∈ a.text.toList, c ∉ marks
  | .keyword k, _ => by
    obtain ⟨⟨c, cs, hk, -⟩, hword⟩ := k.text_isWord
    exact ⟨⟨c, cs, hk⟩, hword⟩
  | .column context name, h => by
    obtain ⟨⟨c, cs, hc, -⟩, hword⟩ := text_column_isWord context h
    exact ⟨⟨c, cs, hc⟩, hword⟩

theorem text_keyword_ne_column {k : Keyword} {context : Context} {name : String}
    (h : IsPlainName name) : (Lead.keyword k).text ≠ (Lead.column context name).text := by
  intro heq
  obtain ⟨⟨c, cs, hk, hcapital⟩, -⟩ := k.text_isWord
  obtain ⟨⟨d, ds, hd, hplain⟩, -⟩ := text_column_isWord context h
  have hsame : k.text.toList = d :: ds := (congrArg String.toList heq).trans hd
  rw [hk, List.cons_eq_cons] at hsame
  rw [hsame.1, hplain] at hcapital
  cases hcapital

theorem dot_notMem_of_isPlainName {name : String} (h : IsPlainName name) : '.' ∉ name.toList :=
  fun hdot => by cases h.2 _ hdot

theorem dot_notMem_decimal (number : Nat) : '.' ∉ (toString number).toList :=
  fun hdot => by cases isDigit_of_mem_decimal hdot

/-- A column is known from its text: the alias of a join stands in front of a dot. -/
theorem text_column_injective {context context' : Context} {name name' : String}
    (h : IsPlainName name) (h' : IsPlainName name')
    (heq : (Lead.column context name).text = (Lead.column context' name').text) :
    context = context' ∧ name = name' := by
  have hdot {number : Nat} {name name' : String} (h : IsPlainName name) :
      (Lead.column .root name).text ≠ (Lead.column (.join number) name').text := by
    intro heq
    have hjoin := congrArg String.toList heq
    rw [toList_text_join] at hjoin
    refine dot_notMem_of_isPlainName h (hjoin ▸ ?_)
    simp
  cases context with
  | root =>
    cases context' with
    | root => exact ⟨rfl, heq⟩
    | join number => exact absurd heq (hdot h)
  | join number =>
    cases context' with
    | root => exact absurd heq.symm (hdot h')
    | join number' =>
      have hchars := congrArg String.toList heq
      rw [toList_text_join, toList_text_join, List.cons_eq_cons,
        List.append_cons_inj_of_notMem (dot_notMem_decimal number) (dot_notMem_of_isPlainName h)]
        at hchars
      obtain ⟨-, hnumber, -, hname⟩ := hchars
      rw [decimal_injective (String.toList_inj.mp hnumber), String.toList_inj.mp hname]
      exact ⟨rfl, rfl⟩

/-- Different words are written differently. -/
theorem text_injective {a b : Lead} (ha : a.IsPlain) (hb : b.IsPlain) (h : a.text = b.text) :
    a = b := by
  cases a with
  | keyword k =>
    cases b with
    | keyword k' => rw [Keyword.text_injective h]
    | column context name => exact absurd h (text_keyword_ne_column hb)
  | column context name =>
    cases b with
    | keyword k => exact absurd h.symm (text_keyword_ne_column ha)
    | column context' name' =>
      obtain ⟨rfl, rfl⟩ := text_column_injective ha hb h
      rfl

end Lead

/-! ## Texts -/

/-- A text in parentheses. -/
def parenthesize (inner : List Char) : List Char := '(' :: (inner ++ [')'])

theorem parenthesize_append_inj {inner inner' rest rest' : List Char} :
    parenthesize inner ++ rest = parenthesize inner' ++ rest' ↔
      inner ++ ')' :: rest = inner' ++ ')' :: rest' := by
  simp [parenthesize]

namespace Expression

/-- The text as a list of characters. -/
def letters (e : Expression) : List Char := e.text.toList

/-- The text as it stands beside an operator. -/
def operandLetters (e : Expression) : List Char :=
  if e.isBinary then parenthesize e.letters else e.letters

theorem operandLetters_of_binary {e : Expression} (h : e.isBinary = true) :
    e.operandLetters = parenthesize e.letters := if_pos h

theorem operandLetters_of_not_binary {e : Expression} (h : e.isBinary = false) :
    e.operandLetters = e.letters := if_neg (Bool.eq_false_iff.mp h)

/-- The first word of a text that begins with a word of its own, and what stands behind it. -/
inductive Begins : Expression → Lead → List Char → Prop where
  | column (context : Context) (name : String) :
      Begins (.column context name) (.column context name) []
  | argument (ordinal : Nat) : Begins (.argument ordinal) (.keyword .argument) []
  | not (operand : Expression) :
      Begins (.unary .not operand) (.keyword (.unary .not)) (' ' :: operand.operandLetters)
  | unary {operator : UnaryOperator} (h : operator ≠ .not) (operand : Expression) :
      Begins (.unary operator operand) (.keyword (.unary operator)) (parenthesize operand.letters)
  | concat (left right : Expression) :
      Begins (.binary .concat left right) (.keyword .concat)
        (parenthesize (left.letters ++ ',' :: ' ' :: right.letters))
  | substring (string start length : Expression) :
      Begins (.substring string start length) (.keyword .substring)
        (parenthesize (string.letters ++
          (" FROM ".toList ++ (start.letters ++ (" FOR ".toList ++ length.letters)))))
  | aggregate (function : AggregateFunction) (operand : Expression) :
      Begins (.aggregate function operand) (.keyword (.aggregate function))
        (parenthesize operand.letters)
  | aggregateRows (function : AggregateFunction) :
      Begins (.aggregateRows function) (.keyword (.aggregate function)) (parenthesize ['*'])

theorem Begins.letters_eq {e : Expression} {a : Lead} {tail : List Char} (h : e.Begins a tail) :
    e.letters = a.text.toList ++ tail := by
  cases h with
  | column context name => cases context <;> exact (List.append_nil _).symm
  | argument _ => exact (List.append_nil _).symm
  | not operand =>
    show (if operand.isBinary then "NOT (" ++ operand.text ++ ")" else
      "NOT " ++ operand.text).toList = "NOT".toList ++ _
    unfold operandLetters
    split <;> simp [letters, parenthesize]
  | unary hop operand =>
    rename_i operator
    cases operator with
    | not => exact absurd rfl hop
    | upper =>
      show ("UPPER(" ++ operand.text ++ ")").toList = "UPPER".toList ++ _
      simp [letters, parenthesize]
    | lower =>
      show ("LOWER(" ++ operand.text ++ ")").toList = "LOWER".toList ++ _
      simp [letters, parenthesize]
    | charLength =>
      show ("CHAR_LENGTH(" ++ operand.text ++ ")").toList = "CHAR_LENGTH".toList ++ _
      simp [letters, parenthesize]
  | concat left right =>
    show ("CONCAT(" ++ left.text ++ ", " ++ right.text ++ ")").toList = "CONCAT".toList ++ _
    simp [letters, parenthesize]
  | substring string start length =>
    show ("SUBSTRING(" ++ string.text ++ " FROM " ++ start.text ++ " FOR " ++ length.text ++
      ")").toList = "SUBSTRING".toList ++ _
    simp [letters, parenthesize]
  | aggregate function operand =>
    show (function.text ++ "(" ++ operand.text ++ ")").toList = function.text.toList ++ _
    simp [letters, parenthesize]
  | aggregateRows function =>
    show (function.text ++ "(*)").toList = function.text.toList ++ _
    simp [parenthesize]

/-- What stands behind the first word begins with a mark, if there is anything. -/
theorem Begins.breaks {e : Expression} {a : Lead} {tail rest : List Char} (h : e.Begins a tail)
    (hrest : Breaks rest) : Breaks (tail ++ rest) := by
  cases h with
  | column _ _ => exact hrest
  | argument _ => exact hrest
  | _ => exact .cons (by decide) _

/-- A text that begins with no word of its own consists of operands around an operator. -/
theorem letters_between {operator : BinaryOperator} (h : operator ≠ .concat)
    (left right : Expression) :
    (Expression.binary operator left right).letters =
      left.operandLetters ++ ' ' :: (operator.text.toList ++ ' ' :: right.operandLetters) := by
  have hoperand (e : Expression) :
      (if e.isBinary then "(" ++ e.text ++ ")" else e.text).toList = e.operandLetters := by
    unfold operandLetters letters parenthesize
    split <;> simp
  have htext : (Expression.binary operator left right).text =
      (if left.isBinary then "(" ++ left.text ++ ")" else left.text) ++ " " ++ operator.text ++
        " " ++ (if right.isBinary then "(" ++ right.text ++ ")" else right.text) := by
    cases operator with
    | concat => exact absurd rfl h
    | _ => rfl
  rw [letters, htext, ← hoperand, ← hoperand]
  simp

end Expression

/-! ## Operators -/

/-- Every operator that stands between its operands. -/
def infixOperators : List BinaryOperator :=
  [.plus, .minus, .times, .divides, .equal, .and, .or, .less, .lessEqual, .greater, .greaterEqual,
    .regexpBinary]

theorem mem_infixOperators {operator : BinaryOperator} (h : operator ≠ .concat) :
    operator ∈ infixOperators := by
  cases operator with
  | concat => exact absurd rfl h
  | _ => decide

/-- An operator is known from a text in which a blank follows it. -/
theorem cut_operator {a b : BinaryOperator} (ha : a ≠ .concat) (hb : b ≠ .concat)
    {rest rest' : List Char}
    (h : a.text.toList ++ ' ' :: rest = b.text.toList ++ ' ' :: rest') : a = b ∧ rest = rest' := by
  -- some operators begin like others, but not together with the blank
  have hfree : ∀ a ∈ infixOperators, ∀ b ∈ infixOperators,
      a.text.toList ++ [' '] <+: b.text.toList ++ [' '] → a = b := by decide
  rw [List.append_cons, List.append_cons b.text.toList] at h
  have hsame : a = b := by
    rcases List.prefix_or_prefix_of_prefix (List.prefix_append _ rest)
      (h ▸ List.prefix_append _ rest') with hpre | hpre
    · exact hfree a (mem_infixOperators ha) b (mem_infixOperators hb) hpre
    · exact (hfree b (mem_infixOperators hb) a (mem_infixOperators ha) hpre).symm
  subst hsame
  exact ⟨rfl, List.append_cancel_left h⟩

/-- No operator begins as the words between the operands of a substring do. -/
theorem head_operator_ne (operator : BinaryOperator) : operator.text.toList.head? ≠ some 'F' := by
  cases operator <;> decide

end RequestCompiler
