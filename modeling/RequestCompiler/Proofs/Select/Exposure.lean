import RequestCompiler.Proofs.AppendNew
import RequestCompiler.Proofs.Select.Growth

/-!
# Reading a subquery from outside

Exposing columns does two things that belong together: the subquery gets one projection for each
column, and outside the column is read under the alias of that projection. Both are determined by
the list of exposed columns, which only grows and never names a column twice.

* `exposeAll_eq` — what exposing the columns of an expression makes of it and of a forked builder.
* `exposeAll_exposing` — the same for a builder of which only exposed columns are projected.
* `countP_exposedProjections` — an alias handed out belongs to exactly one projection.
-/

namespace RequestCompiler

/-! ## Columns and aliases of expressions -/

namespace Expression

/-- The aliases from left to right. -/
def labels : Expression → List String
  | .derived label => [label]
  | .column _ _ | .argument _ | .aggregateRows _ => []
  | .unary _ operand | .aggregate _ operand => operand.labels
  | .binary _ left right => left.labels ++ right.labels
  | .substring string start length => string.labels ++ start.labels ++ length.labels

/-- The expression with its columns replaced. -/
def replaceColumns (f : Context → String → Expression) : Expression → Expression
  | .column context name => f context name
  | .argument ordinal => .argument ordinal
  | .aggregateRows function => .aggregateRows function
  | .derived label => .derived label
  | .unary operator operand => .unary operator (operand.replaceColumns f)
  | .binary operator left right => .binary operator (left.replaceColumns f) (right.replaceColumns f)
  | .substring string start length =>
    .substring (string.replaceColumns f) (start.replaceColumns f) (length.replaceColumns f)
  | .aggregate function operand => .aggregate function (operand.replaceColumns f)

theorem replaceColumns_congr {f g : Context → String → Expression} {e : Expression}
    (h : ∀ column ∈ e.columns, f column.1 column.2 = g column.1 column.2) :
    e.replaceColumns f = e.replaceColumns g := by
  induction e with
  | column context name => exact h (context, name) (List.mem_singleton_self _)
  | argument _ => rfl
  | aggregateRows _ => rfl
  | derived _ => rfl
  | unary operator operand ih =>
    rw [replaceColumns, replaceColumns, ih h]
  | aggregate function operand ih =>
    rw [replaceColumns, replaceColumns, ih h]
  | binary operator left right ihl ihr =>
    have hl := ihl fun column hc => h column (List.mem_append_left _ hc)
    have hr := ihr fun column hc => h column (List.mem_append_right _ hc)
    rw [replaceColumns, replaceColumns, hl, hr]
  | substring string start length ihs ihb ihl =>
    have hs := ihs fun column hc =>
      h column (List.mem_append_left _ (List.mem_append_left _ hc))
    have hb := ihb fun column hc =>
      h column (List.mem_append_left _ (List.mem_append_right _ hc))
    have hl := ihl fun column hc => h column (List.mem_append_right _ hc)
    rw [replaceColumns, replaceColumns, hs, hb, hl]

theorem columns_replaceColumns {f : Context → String → Expression}
    (hf : ∀ context name, (f context name).columns = []) (e : Expression) :
    (e.replaceColumns f).columns = [] := by
  induction e with
  | column context name => exact hf context name
  | argument _ => rfl
  | aggregateRows _ => rfl
  | derived _ => rfl
  | unary _ _ ih => exact ih
  | aggregate _ _ ih => exact ih
  | binary _ _ _ ihl ihr => rw [replaceColumns, columns, ihl, ihr]; rfl
  | substring _ _ _ ihs ihb ihl =>
    rw [replaceColumns, columns, ihs, ihb, ihl]
    rfl

end Expression

/-! ## Aliases -/

/-- A number is known from its digits. -/
theorem decimal_injective {i j : Nat} (h : toString i = toString j) : i = j := by
  have hvalue (n : Nat) : Nat.ofDigitChars 10 (toString n).toList 0 = n := by
    show Nat.ofDigitChars 10 (Nat.repr n).toList 0 = n
    rw [Nat.toList_repr, Nat.ofDigitChars_ten_toDigits]
  rw [← hvalue i, h, hvalue j]

theorem exposedAlias_injective {i j : Nat} (h : exposedAlias i = exposedAlias j) : i = j :=
  decimal_injective (String.append_right_inj "c" |>.mp h)

/-- How an exposed column is read from outside. -/
def readExposed (exposed : List (Context × String)) (context : Context) (name : String) :
    Expression :=
  .derived (exposedAlias (exposed.idxOf (context, name)))

/-- The projections that hand out exposed columns. -/
def exposedProjections (exposed : List (Context × String)) : List Projection :=
  exposed.mapIdx fun i column => ⟨.column column.1 column.2, some (exposedAlias i)⟩

/-- What was replaced for the columns exposed early stays right as more columns are exposed. -/
theorem replaceColumns_readExposed (exposed further : List (Context × String)) (e : Expression) :
    e.replaceColumns (readExposed (appendAllNew exposed e.columns)) =
      e.replaceColumns (readExposed (appendAllNew (appendAllNew exposed e.columns) further)) := by
  refine Expression.replaceColumns_congr ?_
  intro column hc
  have hindex := idxOf_of_prefix (prefix_appendAllNew _ further)
    (subset_appendAllNew exposed e.columns hc)
  unfold readExposed
  rw [hindex]

theorem exposedProjections_concat (exposed : List (Context × String)) (column : Context × String) :
    exposedProjections (exposed ++ [column]) =
      exposedProjections exposed ++
        [⟨.column column.1 column.2, some (exposedAlias exposed.length)⟩] := by
  unfold exposedProjections
  rw [List.mapIdx_append]
  simp

/-- An alias handed out belongs to exactly one projection. -/
theorem countP_exposedProjections {exposed : List (Context × String)} {i : Nat}
    (hi : i < exposed.length) :
    (exposedProjections exposed).countP (·.label = some (exposedAlias i)) = 1 := by
  induction exposed using List.reverseRecOn with
  | nil => cases hi
  | append_singleton exposed column ih =>
    rw [exposedProjections_concat, List.countP_append, List.countP_singleton]
    rw [List.length_append, List.length_singleton] at hi
    -- the alias belongs to the new projection or to exactly one of the others
    rcases Nat.lt_or_eq_of_le (Nat.le_of_lt_succ hi) with hlt | rfl
    · rw [ih hlt, if_neg]
      intro hlabel
      have hlast := exposedAlias_injective (Option.some.inj (of_decide_eq_true hlabel))
      omega
    · have hnone : (exposedProjections exposed).countP
          (·.label = some (exposedAlias exposed.length)) = 0 := by
        rw [List.countP_eq_zero]
        intro p hp hlabel
        obtain ⟨j, hj, rfl⟩ := List.mem_mapIdx.mp hp
        have hsame := exposedAlias_injective (Option.some.inj (of_decide_eq_true hlabel))
        omega
      rw [hnone, if_pos (by simp)]

/-! ## Exposing the columns of an expression -/

namespace Subquery

/-- The subquery that hands out these columns as well. -/
def exposeColumns (q : Subquery) (columns : List (Context × String)) : Subquery :=
  columns.foldl (fun q column => (q.expose column.1 column.2).2) q

theorem exposeColumns_append (q : Subquery) (columns further : List (Context × String)) :
    q.exposeColumns (columns ++ further) = (q.exposeColumns columns).exposeColumns further :=
  List.foldl_append

theorem exposed_expose (q : Subquery) (context : Context) (name : String) :
    (q.expose context name).2.exposed = appendNew q.exposed (context, name) := by
  unfold expose appendNew
  split <;> rfl

theorem exposed_exposeColumns (q : Subquery) (columns : List (Context × String)) :
    (q.exposeColumns columns).exposed = appendAllNew q.exposed columns := by
  induction columns generalizing q with
  | nil => rfl
  | cons column columns ih =>
    show ((q.expose column.1 column.2).2.exposeColumns columns).exposed = _
    rw [ih, exposed_expose]
    rfl

/-- A column is read under the alias of its place among those exposed, be it new or not. -/
theorem expose_fst (q : Subquery) (context : Context) (name : String) :
    (q.expose context name).1 =
      readExposed (appendNew q.exposed (context, name)) context name := by
  unfold expose appendNew readExposed
  by_cases h : (context, name) ∈ q.exposed
  · simp only [h, if_true]
  · simp only [h, if_false, List.idxOf_append, List.idxOf_eq_length h, List.idxOf_cons_self,
      Nat.zero_add]

end Subquery

/-- Exposing the columns of an expression replaces them, and the subquery hands them out. -/
theorem SelectBuilder.exposeAll_eq (main : Select) (q : Subquery) (e : Expression) :
    (SelectBuilder.mk main (some q)).exposeAll e =
      (e.replaceColumns (readExposed (appendAllNew q.exposed e.columns)),
        ⟨main, some (q.exposeColumns e.columns)⟩) := by
  unfold SelectBuilder.exposeAll
  induction e generalizing q with
  | column context name => exact Prod.ext (q.expose_fst context name) rfl
  | argument _ => rfl
  | aggregateRows _ => rfl
  | derived _ => rfl
  | unary operator operand ih => simp only [Expression.mapColumns, ih]; rfl
  | aggregate function operand ih => simp only [Expression.mapColumns, ih]; rfl
  | binary operator left right ihl ihr =>
    simp only [Expression.mapColumns, ihl, ihr, Subquery.exposed_exposeColumns]
    rw [replaceColumns_readExposed q.exposed right.columns left, ← appendAllNew_append,
      ← Subquery.exposeColumns_append]
    rfl
  | substring string start length ihs ihb ihl =>
    simp only [Expression.mapColumns, ihs, ihb, ihl, Subquery.exposed_exposeColumns]
    rw [replaceColumns_readExposed _ length.columns start,
      replaceColumns_readExposed q.exposed (start.columns ++ length.columns) string]
    simp only [← appendAllNew_append, ← Subquery.exposeColumns_append, ← List.append_assoc]
    rfl

/-! ## The subquery -/

/-- The subquery over a select that hands out these columns. -/
def Subquery.exposing (s : Select) (exposed : List (Context × String)) : Subquery where
  select := { s with projection := exposedProjections exposed }
  exposed := exposed

theorem Subquery.expose_exposing (s : Select) (exposed : List (Context × String))
    (context : Context) (name : String) :
    (Subquery.exposing s exposed).expose context name =
      (readExposed (appendNew exposed (context, name)) context name,
        Subquery.exposing s (appendNew exposed (context, name))) := by
  refine Prod.ext (expose_fst _ context name) ?_
  unfold expose appendNew
  by_cases h : (context, name) ∈ exposed
  · simp only [exposing, h, if_true]
  · simp only [exposing, h, if_false, Select.project, exposedProjections_concat,
      List.idxOf_eq_length h]

/-- A forked builder whose subquery hands out these columns. -/
def SelectBuilder.exposing (s : Select) (exposed : List (Context × String)) : SelectBuilder where
  main := { source := .derived }
  subquery := some (Subquery.exposing s exposed)

theorem SelectBuilder.expose_exposing (s : Select) (exposed : List (Context × String))
    (context : Context) (name : String) :
    (SelectBuilder.exposing s exposed).expose context name =
      (readExposed (appendNew exposed (context, name)) context name,
        SelectBuilder.exposing s (appendNew exposed (context, name))) := by
  simp only [expose, exposing, Subquery.expose_exposing]

theorem Subquery.exposeColumns_exposing (s : Select) (exposed columns : List (Context × String)) :
    (Subquery.exposing s exposed).exposeColumns columns =
      Subquery.exposing s (appendAllNew exposed columns) := by
  induction columns generalizing exposed with
  | nil => rfl
  | cons column columns ih =>
    show ((Subquery.exposing s exposed).expose column.1 column.2).2.exposeColumns columns = _
    rw [expose_exposing, ih]
    rfl

theorem SelectBuilder.exposeAll_exposing (s : Select) (exposed : List (Context × String))
    (e : Expression) :
    (SelectBuilder.exposing s exposed).exposeAll e =
      (e.replaceColumns (readExposed (appendAllNew exposed e.columns)),
        SelectBuilder.exposing s (appendAllNew exposed e.columns)) := by
  rw [exposing, exposeAll_eq, Subquery.exposeColumns_exposing]
  rfl

/-- A forked builder begins with no column handed out. -/
theorem SelectBuilder.holding_eq_exposing {s : Select} (h : s.projection = []) :
    SelectBuilder.holding true s = SelectBuilder.exposing s [] := by
  have hselect : { s with projection := [] } = s := by rw [← h]
  show _ = SelectBuilder.mk _ (some (Subquery.mk { s with projection := [] } []))
  rw [hselect]
  rfl

end RequestCompiler
