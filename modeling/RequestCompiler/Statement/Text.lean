import RequestCompiler.Expression.Text
import RequestCompiler.Statement

/-!
# Statements as text

The text of a statement is compact SQL. In the condition of a join, two placeholders stand for the
aliases of the joined sides; they are filled in one after the other, the parent first, so a
placeholder that came in with an alias is filled in as well.
-/

namespace RequestCompiler

/-! ## Placeholders -/

/--
Replaces every occurrence of a placeholder, found from left to right; occurrences do not overlap.
The first argument counts the characters still to be passed over of an occurrence just replaced.
-/
def substituteFrom (placeholder replacement : List Char) : Nat → List Char → List Char
  | _, [] => []
  | skipped + 1, _ :: rest => substituteFrom placeholder replacement skipped rest
  | 0, c :: rest =>
    if placeholder.isPrefixOf (c :: rest) then
      replacement ++ substituteFrom placeholder replacement (placeholder.length - 1) rest
    else c :: substituteFrom placeholder replacement 0 rest

/-- The text with every occurrence of a placeholder replaced. -/
def substitute (placeholder replacement text : String) : String :=
  String.ofList (substituteFrom placeholder.toList replacement.toList 0 text.toList)

/-- What was passed over of an occurrence is left out. -/
theorem substituteFrom_skipped (placeholder replacement : List Char) (n : Nat) (text : List Char) :
    substituteFrom placeholder replacement n text =
      substituteFrom placeholder replacement 0 (text.drop n) := by
  induction text generalizing n with
  | nil => cases n <;> rfl
  | cons c rest ih =>
    cases n with
    | zero => rfl
    | succ n => rw [substituteFrom, ih, List.drop_succ_cons]

/-- An occurrence at the head is replaced, and the text goes on behind it. -/
theorem substituteFrom_occurrence {placeholder : List Char} (h : placeholder ≠ [])
    (replacement rest : List Char) :
    substituteFrom placeholder replacement 0 (placeholder ++ rest) =
      replacement ++ substituteFrom placeholder replacement 0 rest := by
  obtain ⟨c, cs, rfl⟩ := List.exists_cons_of_ne_nil h
  have hp : (c :: cs).isPrefixOf (c :: (cs ++ rest)) = true :=
    List.isPrefixOf_iff_prefix.mpr ⟨rest, rfl⟩
  rw [List.cons_append, substituteFrom, if_pos hp, substituteFrom_skipped]
  simp

/-- Stands for the alias of the side that is joined to. -/
def parentPlaceholder : String := "\x7bparent\x7d"

/-- Stands for the alias of the joined table. -/
def childPlaceholder : String := "\x7bchild\x7d"

/-! ## Selects -/

/-- The alias of a subquery. -/
def derivedAlias : String := "derived"

/-- How the source is referred to. -/
def Source.reference : Source → String
  | .table name => name
  | .derived => derivedAlias

namespace Select

/-- How the table at a context is referred to. -/
def aliasAt (s : Select) : Context → String
  | .root => s.source.reference
  | .join number => joinAlias number

/-- A join as written in a select. -/
def joinText (s : Select) (j : Join) : String :=
  let condition :=
    substitute childPlaceholder (joinAlias j.number)
      (substitute parentPlaceholder (s.aliasAt j.parent) j.condition)
  " JOIN " ++ j.table ++ " AS " ++ joinAlias j.number ++ " ON " ++ condition

/-- The joins of a select. -/
def joinsText (s : Select) : String := String.join (s.joins.map s.joinText)

/-- One key of the order. -/
def orderText (o : Order) : String :=
  if o.descending then o.expression.text ++ " DESC" else o.expression.text

/-- The predicate, the order and the limit of a select, as far as it has them. -/
def tailText (s : Select) : String :=
  (match s.filter with
    | some predicate => " WHERE " ++ predicate.text
    | none => "")
  ++ (if s.order.isEmpty then ""
    else " ORDER BY " ++ ", ".intercalate (s.order.map orderText))
  ++ (match s.limit with
    | some limit => " LIMIT " ++ limit.count.text ++ " OFFSET " ++ limit.offset.text
    | none => "")

/-- One column of the result. -/
def projectionText (p : Projection) : String :=
  match p.label with
  | some label => p.expression.text ++ " AS " ++ label
  | none => p.expression.text

/-- The columns of the result, `*` if none is named. -/
def projectionsText (s : Select) : String :=
  if s.projection.isEmpty then "*" else ", ".intercalate (s.projection.map projectionText)

/-- A select whose source is written as given. -/
def textFrom (s : Select) (source : String) : String :=
  "SELECT " ++ s.projectionsText ++ " FROM " ++ source ++ s.joinsText ++ s.tailText

/-- A select alone; a derived source is referred to by its alias. -/
def text (s : Select) : String := s.textFrom s.source.reference

/-- A select together with the subquery it reads from, if it reads from one. -/
def textOver (s : Select) (derived : Option Select) : String :=
  match s.source, derived with
  | .derived, some inner => s.textFrom ("(" ++ inner.text ++ ") AS " ++ derivedAlias)
  | _, _ => s.text

end Select

/-! ## Statements -/

/-- A column and its new value. -/
def ColumnValue.text (v : ColumnValue) : String := v.column ++ " = " ++ v.value.text

/-- The text of a statement. -/
def Statement.text : Statement → String
  | .select main derived => main.textOver derived
  | .update rows values =>
    "UPDATE " ++ rows.source.reference ++ rows.joinsText ++ " SET "
      ++ ", ".intercalate (values.map ColumnValue.text) ++ rows.tailText
  | .delete rows => "DELETE FROM " ++ rows.source.reference ++ rows.joinsText ++ rows.tailText
  | .insert table values =>
    "INSERT INTO " ++ table ++ " (" ++ ", ".intercalate (values.map (·.column)) ++ ") VALUES ("
      ++ ", ".intercalate (values.map (·.value.text)) ++ ")"

end RequestCompiler
