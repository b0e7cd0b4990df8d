import RequestCompiler.Proofs.Compiler.Requests

/-!
# References of compiled statements

A context is a bare number, and an alias a bare name. With the resolver of columns neither dangles:
the context of a column names a join of the select in which the column is evaluated, and an alias
read by a main select is handed out by the subquery, once.

The invariant of a run is that the context reached, and the contextual join last followed, belong to
the select that is being built. Joins are never removed, so an expression that was in scope stays in
scope.

* `Compiles.scoped` — a compiled expression is in scope at the end of its own compilation.
* `RowsRun.isScoped` — so are the parts of the select that a pipeline builds.
* `compile_scoped` — a compiled statement has no dangling reference.
-/

namespace RequestCompiler

/-! ## Scope -/

/-- An expression in the scope of a select: it reads the select's own tables, and no alias. -/
structure Select.Scopes (s : Select) (e : Expression) : Prop where
  columns : ∀ column ∈ e.columns, s.HasContext column.1
  labels : e.labels = []

namespace Select

/-- Whether everything a select evaluates is in its scope. -/
def IsScoped (s : Select) : Prop := ∀ e ∈ s.expressions, s.Scopes e

/-- How many projections carry a label. -/
def countLabel (s : Select) (label : String) : Nat := s.projection.countP (·.label = some label)

theorem Scopes.mono {s s' : Select} {e : Expression} (hsub : s.joins ⊆ s'.joins)
    (h : s.Scopes e) : s'.Scopes e :=
  ⟨fun column hc => (h.columns column hc).mono hsub, h.labels⟩

theorem Scopes.appendJoins {s : Select} {e : Expression} (h : s.Scopes e) (joins : List Join) :
    (s.appendJoins joins).Scopes e :=
  h.mono (List.subset_append_left s.joins joins)

theorem scopes_argument (s : Select) (ordinal : Nat) : s.Scopes (.argument ordinal) :=
  ⟨fun _ hc => absurd hc (List.not_mem_nil), rfl⟩

theorem scopes_aggregateRows (s : Select) (function : AggregateFunction) :
    s.Scopes (.aggregateRows function) :=
  ⟨fun _ hc => absurd hc (List.not_mem_nil), rfl⟩

theorem Scopes.unary {s : Select} {e : Expression} (h : s.Scopes e) (operator : UnaryOperator) :
    s.Scopes (.unary operator e) := ⟨h.columns, h.labels⟩

theorem Scopes.aggregate {s : Select} {e : Expression} (h : s.Scopes e)
    (function : AggregateFunction) : s.Scopes (.aggregate function e) := ⟨h.columns, h.labels⟩

theorem Scopes.binary {s : Select} {l r : Expression} (hl : s.Scopes l) (hr : s.Scopes r)
    (operator : BinaryOperator) : s.Scopes (.binary operator l r) := by
  refine ⟨fun column hc => ?_, ?_⟩
  · rcases List.mem_append.mp hc with hc | hc
    · exact hl.columns column hc
    · exact hr.columns column hc
  · rw [Expression.labels, hl.labels, hr.labels, List.append_nil]

theorem Scopes.substring {s : Select} {e : Expression} (h : s.Scopes e) (start length : Nat) :
    s.Scopes (.substring e (.argument start) (.argument length)) := by
  refine ⟨fun column hc => ?_, ?_⟩
  · simp only [Expression.columns, List.append_nil] at hc
    exact h.columns column hc
  · simp only [Expression.labels, List.append_nil]
    exact h.labels

/-- A call of two operands has only their columns and aliases, whatever its form. -/
theorem Scopes.apply {s : Select} {l r : Typed} (hl : s.Scopes l.expression)
    (hr : s.Scopes r.expression) (form : BinaryForm) : s.Scopes (form.apply l r) := by
  unfold BinaryForm.apply
  split
  · exact (hl.binary hr .equal).unary .not
  · split
    · exact hl.binary hr .concat
    · exact hl.binary hr .plus
  · exact hl.binary hr _

theorem Scopes.conjunction {s : Select} {ps : List Expression} (h : ∀ p ∈ ps, s.Scopes p) :
    ∀ e ∈ Expression.conjunction ps, s.Scopes e := by
  induction ps using List.reverseRecOn with
  | nil =>
    intro e he
    cases he
  | append_singleton ps p ih =>
    intro e he
    have hp := h p (by simp)
    have hps := ih fun q hq => h q (by simp [hq])
    rw [Expression.conjunction_concat, Option.mem_some_iff] at he
    subst he
    cases hknown : Expression.conjunction ps with
    | none => exact hp
    | some known => exact (hps known hknown).binary hp .and

end Select

/-! ## Statements -/

/-- Whether no reference of a statement dangles. The values of an insertion have no select. -/
def Statement.IsScoped : Statement → Prop
  | .select main none => main.IsScoped
  | .select main (some derived) =>
    derived.IsScoped ∧ main.source = .derived ∧ main.joins = [] ∧
      ∀ e ∈ main.expressions, e.columns = [] ∧ ∀ label ∈ e.labels, derived.countLabel label = 1
  | .update rows values => rows.IsScoped ∧ ∀ value ∈ values, rows.Scopes value.value
  | .delete rows => rows.IsScoped
  | .insert _ _ => True

/-- The aliases behind a replacement are old ones or those that columns were replaced by. -/
theorem mem_labels_replaceColumns {f : Context → String → Expression} {e : Expression}
    {label : String} (h : label ∈ (e.replaceColumns f).labels) :
    label ∈ e.labels ∨ ∃ column ∈ e.columns, label ∈ (f column.1 column.2).labels := by
  induction e with
  | column context name => exact Or.inr ⟨(context, name), List.mem_singleton_self _, h⟩
  | argument _ => exact Or.inl h
  | aggregateRows _ => exact Or.inl h
  | derived _ => exact Or.inl h
  | unary _ _ ih => exact ih h
  | aggregate _ _ ih => exact ih h
  | binary _ left right ihl ihr =>
    rcases List.mem_append.mp h with h | h
    · rcases ihl h with hl | ⟨column, hc, hl⟩
      · exact Or.inl (List.mem_append_left _ hl)
      · exact Or.inr ⟨column, List.mem_append_left _ hc, hl⟩
    · rcases ihr h with hr | ⟨column, hc, hr⟩
      · exact Or.inl (List.mem_append_right _ hr)
      · exact Or.inr ⟨column, List.mem_append_right _ hc, hr⟩
  | substring string start length ihs ihb ihl =>
    simp only [Expression.replaceColumns, Expression.labels, List.mem_append] at h
    simp only [Expression.labels, Expression.columns, List.mem_append]
    rcases h with (h | h) | h
    · rcases ihs h with hs | ⟨column, hc, hs⟩
      · exact Or.inl (Or.inl (Or.inl hs))
      · exact Or.inr ⟨column, Or.inl (Or.inl hc), hs⟩
    · rcases ihb h with hb | ⟨column, hc, hb⟩
      · exact Or.inl (Or.inl (Or.inr hb))
      · exact Or.inr ⟨column, Or.inl (Or.inr hc), hb⟩
    · rcases ihl h with hl | ⟨column, hc, hl⟩
      · exact Or.inl (Or.inr hl)
      · exact Or.inr ⟨column, Or.inr hc, hl⟩

/-- Every expression of a select that was projected to is an old one or the new one. -/
theorem Select.IsScoped.project {s : Select} {e : Expression} (hs : s.IsScoped) (he : s.Scopes e)
    (label : Option String) : (s.project e label).IsScoped := by
  intro x hx
  have hsame : s.joins ⊆ (s.project e label).joins := List.Subset.refl _
  rw [expressions_project, List.mem_append, List.mem_singleton] at hx
  rcases hx with hx | rfl
  · exact (hs x hx).mono hsame
  · exact he.mono hsame

/-- The columns that a subquery hands out are in its scope. -/
theorem Select.IsScoped.exposing {s : Select} (hs : s.IsScoped) (hprojection : s.projection = [])
    {columns : List (Context × String)} (hcolumns : ∀ column ∈ columns, s.HasContext column.1) :
    Select.IsScoped { s with projection := exposedProjections columns } := by
  intro x hx
  have hsame : s.joins ⊆ ({ s with projection := exposedProjections columns } : Select).joins :=
    List.Subset.refl _
  rw [expressions_withProjection hprojection, List.mem_append] at hx
  rcases hx with hx | hx
  · exact (hs x hx).mono hsame
  · obtain ⟨p, hp, rfl⟩ := List.mem_map.mp hx
    obtain ⟨i, hi, rfl⟩ := List.mem_mapIdx.mp hp
    refine ⟨fun column hc => ?_, rfl⟩
    rw [List.mem_singleton.mp hc]
    exact (hcolumns _ (List.getElem_mem hi)).mono hsame

/-- A query is in scope if its expression and the columns handed out for it are. -/
theorem query_isScoped {forked : Bool} {s : Select} {columns : List (Context × String)}
    {e : Expression} (hs : s.IsScoped) (hprojection : s.projection = []) (he : s.Scopes e)
    (hcolumns : ∀ column ∈ columns, s.HasContext column.1)
    (hread : forked = true → e.columns ⊆ columns) : (query forked s columns e).IsScoped := by
  cases forked with
  | false => exact hs.project he none
  | true =>
    refine ⟨hs.exposing hprojection hcolumns, rfl, rfl, ?_⟩
    -- the outer select evaluates one expression, whose columns have all become aliases
    intro x hx
    have hx' : x = e.replaceColumns (readExposed columns) := List.mem_singleton.mp hx
    subst hx'
    refine ⟨Expression.columns_replaceColumns (fun _ _ => rfl) e, fun label hlabel => ?_⟩
    rcases mem_labels_replaceColumns hlabel with h | ⟨column, hc, h⟩
    · rw [he.labels] at h
      cases h
    · rw [List.mem_singleton.mp h]
      exact countP_exposedProjections (List.idxOf_lt_length_of_mem (hread rfl hc))

/-! ## Runs -/

/-- A property is read at the context reached or at the contextual join; both have their place. -/
theorem hasContext_readingContext {s : Select} {context : Context}
    {contextual : Option ContextualJoin} (table : String) (hcontext : s.HasContext context)
    (hcontextual : ∀ followed, contextual = some followed →
      s.HasContext (.join followed.number)) :
    s.HasContext (readingContext table context contextual) := by
  unfold readingContext
  split
  · next followed =>
    split
    · exact hcontextual followed rfl
    · trivial
  · exact hcontext

section Runs

variable {c : Compiler} (hresolver : c.resolver = columnResolver)

include hresolver

/-- What is compiled at a context of a select is in scope once its own joins are there. -/
theorem Compiles.scoped {context : Context} {requiredness : Requiredness} {tokens : List Token}
    {d d' : Draft} {e : Typed} {forked : Bool} {select : Select}
    (h : Compiles c context requiredness tokens d e d') (hd : d.Holds forked select)
    (hcontext : select.HasContext context) :
    ∃ joins, d'.Holds forked (select.appendJoins joins) ∧
      (select.appendJoins joins).Scopes e.expression := by
  induction h generalizing select with
  | @join context requiredness edge rest d d' e h ih =>
    obtain ⟨joins, hd, hnext⟩ := hd.followJoin context edge
    obtain ⟨further, hd, he⟩ := ih hd hnext
    rw [Select.appendJoins_appendJoins] at hd he
    exact ⟨joins ++ further, hd, he⟩
  | parameter h =>
    refine ⟨[], ?_⟩
    rw [Select.appendJoins_nil]
    exact ⟨hd.withBinder _, Select.scopes_argument select _⟩
  | @read context requiredness property d expression type h =>
    rw [hresolver] at h
    refine ⟨[], ?_⟩
    rw [Select.appendJoins_nil, columnResolver_ok h]
    refine ⟨hd, fun column hc => ?_, rfl⟩
    rw [List.mem_singleton.mp hc]
    exact hasContext_readingContext property.table hcontext hd.contextual
  | length h ih =>
    obtain ⟨joins, hd, he⟩ := ih hd hcontext
    exact ⟨joins, hd, he.unary .charLength⟩
  | unary hname hlength h htype ih =>
    obtain ⟨joins, hd, he⟩ := ih hd hcontext
    exact ⟨joins, hd, he.unary _⟩
  | binary hname hleft hright htype ihleft ihright =>
    obtain ⟨joins, hd, hl⟩ := ihleft hd hcontext
    obtain ⟨further, hd, hr⟩ := ihright hd (hcontext.appendJoins joins)
    have hl' := hl.appendJoins further
    rw [Select.appendJoins_appendJoins] at hd hr hl'
    exact ⟨joins ++ further, hd, hl'.apply hr _⟩
  | substring h hfirst hlength ih =>
    obtain ⟨joins, hd, he⟩ := ih hd hcontext
    exact ⟨joins, hd.withBinder _, he.substring _ _⟩

theorem FiltersRun.scoped {context : Context} {arguments : List Request} {s s' : Session}
    {ps qs : List Expression} {forked : Bool} {select : Select}
    (h : FiltersRun c context arguments s ps s') (hs : s.draft.Holds forked select)
    (hfilter : select.filter = Expression.conjunction qs) (hcontext : select.HasContext context) :
    ∀ p ∈ ps, s'.draft.builder.active.Scopes p := by
  induction h generalizing select qs with
  | nil =>
    intro p hp
    cases hp
  | @cons argument rest s t s' p ps hp hrest ih =>
    obtain ⟨e, rfl, hcompiles, -⟩ := compiles_of_predicate_ok c hp
    obtain ⟨joins, ht, he⟩ := hcompiles.scoped hresolver hs hcontext
    have hlast := Select.filter_andFilter (s := select.appendJoins joins) e.expression hfilter
    obtain ⟨further, hend⟩ := hrest.holds (ht.andFilter e.expression) hlast
    -- the predicate is in scope behind its own filter, and later filters take no join away
    intro q hq
    rcases List.mem_cons.mp hq with rfl | hq
    · rw [hend.active]
      exact he.mono (List.subset_append_left (select.appendJoins joins).joins further)
    · exact ih (ht.andFilter e.expression) hlast (hcontext.appendJoins joins) q hq

theorem SortsRun.scoped {context : Context} {sorts : List SortKey} {s s' : Session}
    {os : List Order} {forked : Bool} {select : Select}
    (h : SortsRun c context sorts s os s') (hs : s.draft.Holds forked select)
    (hcontext : select.HasContext context) :
    ∀ o ∈ os, s'.draft.builder.active.Scopes o.expression := by
  induction h generalizing select with
  | nil =>
    intro o ho
    cases ho
  | @cons key rest s t s' e os he hrest ih =>
    obtain ⟨hcompiles, -⟩ := compiles_of_expression_ok c _ he
    obtain ⟨joins, ht, hscoped⟩ := hcompiles.scoped hresolver hs hcontext
    have hnext := ht.addOrder e.expression key.descending
    obtain ⟨further, hend⟩ := hrest.holds hnext
    intro o ho
    rcases List.mem_cons.mp ho with rfl | ho
    · rw [hend.active]
      exact hscoped.mono (List.subset_append_left (select.appendJoins joins).joins further)
    · exact ih hnext (hcontext.appendJoins joins) o ho

theorem AssignmentsRun.scoped {context : Context} {pairs : List (Assignment Request)}
    {d d' : Draft} {values : List ColumnValue} {forked : Bool} {select : Select}
    (h : AssignmentsRun c context pairs d values d') (hd : d.Holds forked select)
    (hcontext : select.HasContext context) :
    ∀ value ∈ values, d'.builder.active.Scopes value.value := by
  induction h generalizing select with
  | nil =>
    intro value hvalue
    cases hvalue
  | @cons property value rest column type d d' d'' e values hcolumn h hrest ih =>
    obtain ⟨joins, hd, he⟩ := h.scoped hresolver hd hcontext
    obtain ⟨further, hend⟩ := hrest.holds hd
    intro x hx
    rcases List.mem_cons.mp hx with rfl | hx
    · rw [hend.active]
      exact he.mono (List.subset_append_left _ further)
    · exact ih hd (hcontext.appendJoins joins) x hx

omit hresolver in
/-- The bounds of a slice are arguments, which any select can evaluate. -/
theorem SliceRun.scoped {slice : Option SliceBounds} {s s' : Session} {limit : Option Limit}
    (h : SliceRun slice s limit s') (select : Select) :
    ∀ l ∈ limit, select.Scopes l.offset ∧ select.Scopes l.count := by
  intro l hl
  cases h with
  | skip => cases hl
  | cut hoffset hcount =>
    cases hl
    exact ⟨select.scopes_argument _, select.scopes_argument _⟩

/-- The parts of a select are in scope when those gathered for it are. -/
theorem StagesRun.isScoped {method : String} {context : Context} {plan : StagePlan}
    {s s' : Session} {gathered : Gathered} {table : String} {joins : List Join}
    (h : StagesRun c method context plan s gathered s')
    (hs : s.draft.Holds false ({ source := .table table, joins := joins } : Select))
    (hcontext : Select.HasContext { source := .table table, joins := joins } context)
    {further : List Join} (hs' : s'.draft.Holds plan.forked (gathered.select table further)) :
    (gathered.select table further).IsScoped := by
  cases h with
  | @intro filters sorts slice forked predicates orders limit _ s₁ s₂ s₃ _ hfilters hsorts hslice
      hfork =>
    have hnone : (none : Option Expression) = Expression.conjunction [] := rfl
    obtain ⟨js, hfiltered⟩ := hfilters.holds hs hnone
    obtain ⟨ks, hsorted⟩ := hsorts.holds hfiltered
    have hforked := hfork.holds (hslice.holds hsorted rfl)
    -- the select at the end is the one that is known, so its joins are all that were added
    have hselect := hforked.active.symm.trans hs'.active
    have hjoins : joins ++ js ++ ks = further := congrArg Select.joins hselect
    have hps := hfilters.scoped hresolver hs hnone hcontext
    rw [hfiltered.active] at hps
    have hos := hsorts.scoped hresolver hfiltered
      (hcontext.mono (List.subset_append_left joins js))
    rw [hsorted.active] at hos
    have hpredicates : ∀ p ∈ predicates,
        (Gathered.select ⟨predicates, orders, limit⟩ table further).Scopes p := fun p hp =>
      (hps p hp).mono (by rw [← hjoins]; exact List.subset_append_left _ ks)
    have horders : ∀ o ∈ orders,
        (Gathered.select ⟨predicates, orders, limit⟩ table further).Scopes o.expression :=
      fun o ho => (hos o ho).mono (by rw [← hjoins]; exact List.Subset.refl _)
    intro x hx
    simp only [Select.expressions, Gathered.select, List.mem_append, Option.mem_toList,
      List.mem_map, List.mem_flatMap, List.mem_cons, List.not_mem_nil, or_false, List.map_nil]
      at hx
    rcases hx with (hx | ⟨o, ho, rfl⟩) | ⟨l, hl, hx⟩
    · exact Select.Scopes.conjunction hpredicates x hx
    · exact horders o ho
    · rcases hx with rfl | rfl
      · exact (hslice.scoped _ l hl).1
      · exact (hslice.scoped _ l hl).2

/-- The select that a pipeline builds is in scope, and the context reached belongs to it. -/
theorem RowsRun.isScoped {name : String} {types : ParameterTypes} {pipeline : Request}
    (run : RowsRun c name types pipeline) :
    ∃ joins, run.final.draft.Holds run.plan.forked (run.gathered.select run.scan.table joins) ∧
      (run.gathered.select run.scan.table joins).HasContext run.context ∧
      (run.gathered.select run.scan.table joins).IsScoped := by
  obtain ⟨joins, hjoined, hcontext⟩ := run.joins.holds (Session.start_holds _ _) trivial
  obtain ⟨further, hfinal⟩ := run.stages.holds hjoined
  refine ⟨_, hfinal, ?_, run.stages.isScoped hresolver hjoined hcontext hfinal⟩
  exact hcontext.mono fun j hj => List.mem_append_left further hj

end Runs

/-- The select at the end of a run is in scope with whatever joins a method adds to it. -/
theorem Draft.Holds.isScoped {d : Draft} {gathered : Gathered} {table : String}
    {joins joins' further : List Join} {forked forked' : Bool}
    (hrows : (gathered.select table joins).IsScoped)
    (hd : d.Holds forked ((gathered.select table joins).appendJoins further))
    (hd' : d.Holds forked' (gathered.select table joins')) :
    (gathered.select table joins').IsScoped := by
  have hselect := hd.active.symm.trans hd'.active
  intro x hx
  rw [← hselect] at hx ⊢
  exact (hrows x hx).appendJoins further

/-- A compiled statement has no dangling reference. -/
theorem compile_scoped {c : Compiler} (hresolver : c.resolver = columnResolver)
    {request : Request} {result : CompiledStatement} (h : c.compile request = .ok result) :
    result.statement.IsScoped := by
  obtain ⟨name, arguments, -, hcompiled⟩ := compiled_of_compile_ok h
  cases hcompiled with
  | get hmethod run hc hd =>
    obtain ⟨joins, hfinal, hcontext, hrows⟩ := run.isScoped hresolver
    obtain ⟨further, hd', he⟩ := hc.scoped hresolver hfinal hcontext
    rw [← hd'.active, hd.active] at he
    exact (hd'.isScoped hrows hd).project he none
  | count hmethod run hd =>
    obtain ⟨joins, hfinal, -, hrows⟩ := run.isScoped hresolver
    rw [← hfinal.active, hd.active] at hrows
    refine query_isScoped hrows rfl (Select.scopes_aggregateRows _ _) ?_
      (fun _ => List.nil_subset _)
    intro column hcolumn
    rw [List.mem_singleton.mp hcolumn]
    trivial
  | aggregate hmethod hfunction run hc hd =>
    obtain ⟨joins, hfinal, hcontext, hrows⟩ := run.isScoped hresolver
    obtain ⟨further, hd', he⟩ := hc.scoped hresolver hfinal hcontext
    rw [← hd'.active, hd.active] at he
    refine query_isScoped (hd'.isScoped hrows hd) rfl (he.aggregate _) ?_ ?_
    · intro column hcolumn
      exact he.columns column (appendAllNew_subset [] _ hcolumn)
    · intro _
      exact subset_appendAllNew [] _
  | delete hmethod run hd =>
    obtain ⟨joins, hfinal, -, hrows⟩ := run.isScoped hresolver
    rw [← hfinal.active, hd.active] at hrows
    exact hrows
  | set hmethod run hv hd =>
    obtain ⟨joins, hfinal, hcontext, hrows⟩ := run.isScoped hresolver
    obtain ⟨further, hd'⟩ := hv.holds hfinal
    have hvalues := hv.scoped hresolver hfinal hcontext
    rw [hd.active] at hvalues
    exact ⟨hd'.isScoped hrows hd, hvalues⟩
  | insert hmethod hv => trivial

theorem pagedSum_scoped : standardCompiler.compile pagedSum = .ok pagedSumCompiled ∧
    pagedSumCompiled.statement.IsScoped := by
  have h : standardCompiler.compile pagedSum = .ok pagedSumCompiled := rfl
  exact ⟨h, compile_scoped rfl h⟩

end RequestCompiler
