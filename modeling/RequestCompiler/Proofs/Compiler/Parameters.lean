import RequestCompiler.Proofs.Compiler.StageAccount
import RequestCompiler.Proofs.Compiler.Uses

/-!
# Parameters of compiled statements

The parameters of a statement are the uses of its request without repetition, in the order in which
they are first used: stage by stage of the canonical pipeline, then in what the method adds. Each
compiled expression refers to the parameters of its own tokens, so none is bound without need and
none is referred to that is not bound.

* `StagesRun.binds`, `AssignmentsRun.binds` — what the parts of a compilation bind.
* `StagesRun.refers`, `AssignmentsRun.ordinals` — and where their expressions refer to it.
* `compile_accounts_for_parameters` — the parameters of a whole statement.
-/

namespace RequestCompiler

/-! ## Uses of a request -/

/-- The uses of the bounds of a slice. -/
def SliceBounds.uses (bounds : SliceBounds) : List ParameterUse :=
  [.sliceOffset bounds.start, .sliceLimit bounds.start bounds.stop]

/-- The uses of parameters in a stage. -/
def stageUses : Token → List ParameterUse
  | .call name arguments =>
    if name = "slice" then
      match arguments with
      | [[.parameter start], [.parameter stop]] => SliceBounds.uses ⟨start, stop⟩
      | _ => []
    else argumentUses .required arguments
  | _ => []

/-- What an assignment to this property requires of its value. -/
def assignedRequiredness : Request → Requiredness
  | [.read property] => if property.hasZero then .defaultsToZero else .required
  | _ => .required

/-- The uses of parameters in an assignment. -/
def assignmentUses (pair : Assignment Request) : List ParameterUse :=
  usesOf (assignedRequiredness pair.property) pair.value

/-- The uses of parameters in the canonical form of a pipeline; an insertion has none. -/
def pipelineUses (name : String) : List Request → List ParameterUse
  | pipeline :: _ =>
    if Method.ofName name = .insert then [] else (canonical name pipeline).flatMap stageUses
  | [] => []

/-- The uses of parameters in each of the expressions that a method adds to its rows. -/
def addedUses (name : String) (arguments : List Request) : List (List ParameterUse) :=
  match Method.ofName name, arguments with
  | .get, [_, operand] | .aggregate, [_, operand] => [usesOf .required operand]
  | .set, [_, [.assignments pairs]] | .insert, [_, [.assignments pairs]] =>
    pairs.map assignmentUses
  | .count, _ => [[]]
  | _, _ => []

/-- The uses of parameters in the arguments of a method call. -/
def requestUses (name : String) (arguments : List Request) : List ParameterUse :=
  pipelineUses name arguments ++ (addedUses name arguments).flatten

/-! ## Runs -/

theorem FiltersRun.binds {c : Compiler} {context : Context} {filters : List Request}
    {s s' : Session} {ps : List Expression} (h : FiltersRun c context filters s ps s') :
    s.draft.binder.Binds (filters.flatMap (usesOf .required)) s'.draft.binder := by
  induction h with
  | nil => exact .nil _
  | cons hp hrest ih =>
    obtain ⟨e, -, hcompiles, -⟩ := compiles_of_predicate_ok c hp
    exact hcompiles.binds.append ih

theorem SortsRun.binds {c : Compiler} {context : Context} {sorts : List SortKey}
    {s s' : Session} {os : List Order} (h : SortsRun c context sorts s os s') :
    s.draft.binder.Binds (sorts.flatMap fun key => usesOf .required key.argument)
      s'.draft.binder := by
  induction h with
  | nil => exact .nil _
  | cons he hrest ih =>
    obtain ⟨hcompiles, -⟩ := compiles_of_expression_ok c _ he
    exact hcompiles.binds.append ih

theorem SliceRun.binds {slice : Option SliceBounds} {s s' : Session} {limit : Option Limit}
    (h : SliceRun slice s limit s') :
    s.draft.binder.Binds (slice.toList.flatMap SliceBounds.uses) s'.draft.binder := by
  cases h with
  | skip => exact .nil _
  | cut hoffset hcount => exact (use?_eq_some hoffset).1.append (use?_eq_some hcount).1

/-- A fork binds nothing. -/
theorem ForkRun.binder {method : String} {forked : Bool} {s s' : Session}
    (h : ForkRun method forked s s') : s'.draft.binder = s.draft.binder := by
  cases h <;> rfl

theorem AssignmentsRun.binds {c : Compiler} {context : Context}
    {pairs : List (Assignment Request)} {d d' : Draft} {values : List ColumnValue}
    (h : AssignmentsRun c context pairs d values d') :
    d.binder.Binds (pairs.flatMap assignmentUses) d'.binder := by
  induction h with
  | nil => exact .nil _
  | cons hcolumn h hrest ih => exact h.binds.append ih

theorem stageUses_filter (argument : Request) :
    stageUses (filterToken argument) = usesOf .required argument := by
  show argumentUses .required [argument] = _
  rw [argumentUses_eq, List.flatMap_singleton]

theorem stageUses_sort (key : SortKey) : stageUses key.token = usesOf .required key.argument := by
  have hargument : argumentUses .required [key.argument] = usesOf .required key.argument := by
    rw [argumentUses_eq, List.flatMap_singleton]
  obtain ⟨descending, argument⟩ := key
  cases descending <;> exact hargument

theorem stageUses_slice (bounds : SliceBounds) : stageUses bounds.token = bounds.uses := rfl

/-- The stages of a plan use parameters in the order of its phases. -/
theorem StagePlan.uses_tokens (plan : StagePlan) :
    plan.tokens.flatMap stageUses =
      plan.filters.flatMap (usesOf .required) ++
        plan.sorts.flatMap (fun key => usesOf .required key.argument) ++
        plan.slice.toList.flatMap SliceBounds.uses := by
  have hfork : (if plan.forked then [Token.call "fork" []] else []).flatMap stageUses = [] := by
    cases plan.forked <;> rfl
  unfold tokens
  simp only [List.flatMap_append, List.flatMap_map, stageUses_filter, stageUses_sort,
    stageUses_slice, hfork, List.append_nil]

theorem StagesRun.binds {c : Compiler} {method : String} {context : Context} {plan : StagePlan}
    {s s' : Session} {gathered : Gathered} (h : StagesRun c method context plan s gathered s') :
    s.draft.binder.Binds (plan.tokens.flatMap stageUses) s'.draft.binder := by
  rw [StagePlan.uses_tokens]
  cases h with
  | intro hfilters hsorts hslice hfork =>
    rw [hfork.binder]
    exact (hfilters.binds.append hsorts.binds).append hslice.binds

/-- Joins in front of the stages use nothing. -/
theorem RowsRun.uses_canonical {c : Compiler} {name : String} {types : ParameterTypes}
    {pipeline : Request} (run : RowsRun c name types pipeline) :
    (canonical name pipeline).flatMap stageUses = run.plan.tokens.flatMap stageUses := by
  have hjoins : (run.edges.map Token.join).flatMap stageUses = [] := by
    rw [List.flatMap_map]
    exact List.flatMap_eq_nil_iff.mpr fun _ _ => rfl
  rw [run.shape, List.flatMap_cons, List.flatMap_append, hjoins]
  rfl

theorem RowsRun.binds {c : Compiler} {name : String} {types : ParameterTypes}
    {pipeline : Request} (run : RowsRun c name types pipeline) :
    (ArgumentBinder.ofTypes types).Binds ((canonical name pipeline).flatMap stageUses)
      run.final.draft.binder := by
  have hstages := run.stages.binds
  rw [run.joins.binder] at hstages
  rw [run.uses_canonical]
  exact hstages

/-! ## Ordinals -/

/-- Whether the expressions gathered by a plan refer to the arguments of their own uses. -/
structure Gathered.Refers (gathered : Gathered) (plan : StagePlan) (types : ParameterTypes)
    (arguments : List Argument) : Prop where
  predicates : gathered.predicates.map Expression.ordinals =
    plan.filters.map fun filter => ordinalsOf types arguments (usesOf .required filter)
  orders : gathered.orders.map (·.expression.ordinals) =
    plan.sorts.map fun key => ordinalsOf types arguments (usesOf .required key.argument)
  limit : gathered.limit.toList.map (fun l => l.offset.ordinals ++ l.count.ordinals) =
    plan.slice.toList.map fun bounds => ordinalsOf types arguments bounds.uses

section Ordinals

variable {c : Compiler} (hresolver : c.resolver = columnResolver) {types : ParameterTypes}
  {arguments : List Argument}

include hresolver

theorem FiltersRun.ordinals {context : Context} {filters : List Request} {s s' : Session}
    {ps : List Expression} (h : FiltersRun c context filters s ps s')
    (htypes : s.draft.binder.types = types) (hpre : s'.draft.binder.arguments <+: arguments) :
    ps.map Expression.ordinals =
      filters.map fun filter => ordinalsOf types arguments (usesOf .required filter) := by
  induction h with
  | nil => rfl
  | cons hp hrest ih =>
    obtain ⟨e, rfl, hcompiles, -⟩ := compiles_of_predicate_ok c hp
    -- the arguments bound by now are a part of those bound by the filters that follow
    have he := hcompiles.ordinals hresolver (hrest.binds.isPrefix.trans hpre)
    have hps := ih (hcompiles.binds.types.trans htypes) hpre
    rw [htypes] at he
    rw [List.map_cons, List.map_cons, he, hps]

theorem SortsRun.ordinals {context : Context} {sorts : List SortKey} {s s' : Session}
    {os : List Order} (h : SortsRun c context sorts s os s')
    (htypes : s.draft.binder.types = types) (hpre : s'.draft.binder.arguments <+: arguments) :
    os.map (·.expression.ordinals) =
      sorts.map fun key => ordinalsOf types arguments (usesOf .required key.argument) := by
  induction h with
  | nil => rfl
  | cons he hrest ih =>
    obtain ⟨hcompiles, -⟩ := compiles_of_expression_ok c _ he
    have he := hcompiles.ordinals hresolver (hrest.binds.isPrefix.trans hpre)
    have hos := ih (hcompiles.binds.types.trans htypes) hpre
    rw [htypes] at he
    rw [List.map_cons, List.map_cons, he, hos]

theorem AssignmentsRun.ordinals {context : Context} {pairs : List (Assignment Request)}
    {d d' : Draft} {values : List ColumnValue} (h : AssignmentsRun c context pairs d values d')
    (htypes : d.binder.types = types) (hpre : d'.binder.arguments <+: arguments) :
    (values.map (·.value)).map Expression.ordinals =
      (pairs.map assignmentUses).map (ordinalsOf types arguments) := by
  induction h with
  | nil => rfl
  | cons hcolumn h hrest ih =>
    have he := h.ordinals hresolver (hrest.binds.isPrefix.trans hpre)
    have hvalues := ih (h.binds.types.trans htypes) hpre
    rw [htypes] at he
    rw [List.map_cons, List.map_cons, hvalues, he]
    rfl

omit hresolver in
theorem SliceRun.ordinals {slice : Option SliceBounds} {s s' : Session} {limit : Option Limit}
    (h : SliceRun slice s limit s') (htypes : s.draft.binder.types = types)
    (hpre : s'.draft.binder.arguments <+: arguments) :
    limit.toList.map (fun l => l.offset.ordinals ++ l.count.ordinals) =
      slice.toList.map fun bounds => ordinalsOf types arguments bounds.uses := by
  cases h with
  | skip => rfl
  | @cut bounds s offset count bound bound' hoffset hcount =>
    obtain ⟨hbind, hordinal⟩ := use?_eq_some hoffset
    obtain ⟨hbind', hordinal'⟩ := use?_eq_some hcount
    have ho := hordinal arguments (hbind'.isPrefix.trans hpre)
    have hc := hordinal' arguments hpre
    rw [hbind.types] at hc
    rw [htypes] at ho hc
    show [[offset] ++ [count]] = [ordinalsOf types arguments ([_] ++ [_])]
    rw [ordinalsOf_append, ho, hc]

theorem StagesRun.refers {method : String} {context : Context} {plan : StagePlan}
    {s s' : Session} {gathered : Gathered} (h : StagesRun c method context plan s gathered s')
    (htypes : s.draft.binder.types = types) (hpre : s'.draft.binder.arguments <+: arguments) :
    gathered.Refers plan types arguments := by
  cases h with
  | intro hfilters hsorts hslice hfork =>
    rw [hfork.binder] at hpre
    have hsorted := hslice.binds.isPrefix.trans hpre
    have hfiltered := hsorts.binds.isPrefix.trans hsorted
    have htypes₁ := hfilters.binds.types.trans htypes
    have htypes₂ := hsorts.binds.types.trans htypes₁
    exact ⟨hfilters.ordinals hresolver htypes hfiltered,
      hsorts.ordinals hresolver htypes₁ hsorted, hslice.ordinals htypes₂ hpre⟩

theorem RowsRun.refers {name : String} {pipeline : Request} (run : RowsRun c name types pipeline)
    (hpre : run.final.draft.binder.arguments <+: arguments) :
    run.gathered.Refers run.plan types arguments :=
  run.stages.refers hresolver (by rw [run.joins.binder]; rfl) hpre

end Ordinals

/-! ## Ordinals of a statement -/

namespace Statement

/-- The expressions that a method adds to its rows. -/
def added : Statement → List Expression
  | .select main _ => main.projection.map (·.expression)
  | .update _ values | .insert _ values => values.map (·.value)
  | .delete _ => []

/-- All expressions of a statement, those of the rows first. -/
def expressions : Statement → List Expression
  | .select main derived => derived.toList.flatMap Select.expressions ++ main.expressions
  | .update rows values => rows.expressions ++ values.map (·.value)
  | .delete rows => rows.expressions
  | .insert _ values => values.map (·.value)

/-- The ordinals of arguments in a statement. -/
def ordinals (s : Statement) : List Nat := s.expressions.flatMap Expression.ordinals

end Statement

theorem ordinalsOf_flatMap {α : Type} (types : ParameterTypes) (arguments : List Argument)
    (f : α → List ParameterUse) (l : List α) :
    ordinalsOf types arguments (l.flatMap f) =
      (l.map fun x => ordinalsOf types arguments (f x)).flatten := by
  induction l with
  | nil => rfl
  | cons x l ih => rw [List.flatMap_cons, ordinalsOf_append, ih]; rfl

theorem ordinalsOf_flatten (types : ParameterTypes) (arguments : List Argument)
    (l : List (List ParameterUse)) :
    ordinalsOf types arguments l.flatten = (l.map (ordinalsOf types arguments)).flatten :=
  List.map_flatten

theorem ordinals_conjunction (ps : List Expression) :
    (Expression.conjunction ps).toList.flatMap Expression.ordinals =
      (ps.map Expression.ordinals).flatten := by
  induction ps using List.reverseRecOn with
  | nil => rfl
  | append_singleton ps p ih =>
    rw [Expression.conjunction_concat, List.map_append, List.flatten_append, ← ih]
    cases Expression.conjunction ps with
    | none => simp
    | some known => simp [Expression.and, Expression.ordinals]

/-- Taken together, the ordinals of a gathered select are those of its stages. -/
theorem Gathered.Refers.ordinals {gathered : Gathered} {plan : StagePlan} {types : ParameterTypes}
    {arguments : List Argument} (h : gathered.Refers plan types arguments) (table : String)
    (joins : List Join) :
    (gathered.select table joins).expressions.flatMap Expression.ordinals =
      ordinalsOf types arguments (plan.tokens.flatMap stageUses) := by
  have horders : (gathered.orders.map (·.expression)).flatMap Expression.ordinals =
      (gathered.orders.map (·.expression.ordinals)).flatten := by
    rw [List.flatMap_map, List.flatMap_def]
  have hlimit : (gathered.limit.toList.flatMap fun l => [l.offset, l.count]).flatMap
      Expression.ordinals =
        (gathered.limit.toList.map fun l => l.offset.ordinals ++ l.count.ordinals).flatten := by
    cases gathered.limit <;> simp
  rw [plan.uses_tokens, ordinalsOf_append, ordinalsOf_append, ordinalsOf_flatMap,
    ordinalsOf_flatMap, ordinalsOf_flatMap, ← h.predicates, ← h.orders, ← h.limit, ← horders,
    ← hlimit, ← ordinals_conjunction]
  simp only [Select.expressions, Gathered.select, List.flatMap_append, List.map_nil,
    List.append_nil]

theorem ordinals_replaceColumns (columns : List (Context × String)) (e : Expression) :
    (e.replaceColumns (readExposed columns)).ordinals = e.ordinals := by
  induction e with
  | column _ _ => rfl
  | argument _ => rfl
  | aggregateRows _ => rfl
  | derived _ => rfl
  | unary _ _ ih => exact ih
  | aggregate _ _ ih => exact ih
  | binary _ _ _ ihl ihr => simp only [Expression.replaceColumns, Expression.ordinals, ihl, ihr]
  | substring _ _ _ ihs ihb ihl =>
    simp only [Expression.replaceColumns, Expression.ordinals, ihs, ihb, ihl]

theorem added_query (forked : Bool) {s : Select} (hs : s.projection = [])
    (columns : List (Context × String)) (e : Expression) :
    (query forked s columns e).added.map Expression.ordinals = [e.ordinals] := by
  cases forked with
  | false =>
    show ((s.projection ++ [_]).map _).map _ = _
    rw [hs]
    rfl
  | true =>
    show [(e.replaceColumns (readExposed columns)).ordinals] = _
    rw [ordinals_replaceColumns]

/-- Columns that are handed out refer to no argument, so only the expression adds ordinals. -/
theorem ordinals_query (forked : Bool) {s : Select} (hs : s.projection = [])
    (columns : List (Context × String)) (e : Expression) :
    (query forked s columns e).ordinals =
      s.expressions.flatMap Expression.ordinals ++
        ((query forked s columns e).added.map Expression.ordinals).flatten := by
  rw [added_query forked hs, List.flatten_singleton]
  cases forked with
  | false =>
    show (s.project e none).expressions.flatMap Expression.ordinals = _
    rw [Select.expressions_project, List.flatMap_append, List.flatMap_singleton]
  | true =>
    have hcolumns : ((exposedProjections columns).map (·.expression)).flatMap
        Expression.ordinals = [] := by
      rw [List.flatMap_map]
      refine List.flatMap_eq_nil_iff.mpr ?_
      intro p hp
      obtain ⟨i, hi, rfl⟩ := List.mem_mapIdx.mp hp
      rfl
    show (([Select.mk _ _ _ _ _ _].flatMap Select.expressions) ++ [_]).flatMap _ = _
    rw [List.flatMap_append, List.flatMap_singleton, List.flatMap_singleton,
      ordinals_replaceColumns, Select.expressions_withProjection hs, List.flatMap_append,
      hcolumns, List.append_nil]

/-! ## Accounts -/

/-- Whether each part of a select refers to the arguments that its own stage uses. -/
structure Select.RefersTo (rows : Select) (types : ParameterTypes) (arguments : List Argument)
    (stages : Request) : Prop where
  filter : ∃ predicates, rows.filter = Expression.conjunction predicates ∧
    predicates.map Expression.ordinals =
      (stages.filter Operation.filter.performedBy).map fun t =>
        ordinalsOf types arguments (stageUses t)
  order : rows.order.map (·.expression.ordinals) =
    (stages.filter Operation.sort.performedBy).map fun t =>
      ordinalsOf types arguments (stageUses t)
  limit : rows.limit.toList.map (fun l => l.offset.ordinals ++ l.count.ordinals) =
    (stages.filter Operation.slice.performedBy).map fun t =>
      ordinalsOf types arguments (stageUses t)

/-- The account of the parameters of a statement that a method call was compiled to. -/
structure ParameterAccount (name : String) (types : ParameterTypes) (arguments : List Request)
    (result : CompiledStatement) : Prop where
  /-- The parameters are the uses without later duplicates. -/
  parameters_eq : result.parameters =
    ((requestUses name arguments).map types.argument).eraseDups
  /-- The expressions of the rows refer to the uses of their stages. -/
  rows : ∀ rows, result.statement.rows? = some rows → ∃ pipeline, arguments.head? = some pipeline ∧
    rows.RefersTo types result.parameters (canonical name pipeline)
  /-- The expressions that a method adds refer to their own uses. -/
  added_eq : result.statement.added.map Expression.ordinals =
    (addedUses name arguments).map (ordinalsOf types result.parameters)
  /-- All in all, nothing else is referred to. -/
  ordinals_eq : result.statement.ordinals =
    ordinalsOf types result.parameters (requestUses name arguments)
  /-- Every parameter is referred to, and every reference has its parameter. -/
  mem_ordinals : ∀ ordinal,
    ordinal ∈ result.statement.ordinals ↔ ordinal < result.parameters.length

theorem RowsRun.refersTo {c : Compiler} {name : String} {types : ParameterTypes}
    {pipeline : Request} {arguments : List Argument} (run : RowsRun c name types pipeline)
    (h : run.gathered.Refers run.plan types arguments) {rows : Select}
    (hfilter : rows.filter = Expression.conjunction run.gathered.predicates)
    (horder : rows.order = run.gathered.orders) (hlimit : rows.limit = run.gathered.limit) :
    rows.RefersTo types arguments (canonical name pipeline) := by
  refine ⟨⟨run.gathered.predicates, hfilter, ?_⟩, ?_, ?_⟩
  · rw [h.predicates, run.filter_canonical, StagePlan.performing, List.map_map]
    simp only [Function.comp_def, stageUses_filter]
  · rw [horder, h.orders, run.filter_canonical, StagePlan.performing, List.map_map]
    simp only [Function.comp_def, stageUses_sort]
  · rw [hlimit, h.limit, run.filter_canonical, StagePlan.performing, List.map_map]
    simp only [Function.comp_def, stageUses_slice]

/-- The ordinals of all that a new binder has bound are the indices of its arguments. -/
theorem mem_ordinalsOf {types : ParameterTypes} {uses : List ParameterUse} {b : ArgumentBinder}
    (h : (ArgumentBinder.ofTypes types).Binds uses b) (ordinal : Nat) :
    ordinal ∈ ordinalsOf types b.arguments uses ↔ ordinal < b.arguments.length := by
  constructor
  · intro hordinal
    obtain ⟨use, huse, rfl⟩ := List.mem_map.mp hordinal
    exact List.idxOf_lt_length_of_mem (h.mem huse)
  · intro hlt
    have hmem : b.arguments[ordinal] ∈ uses.map types.argument := by
      have hsub := appendAllNew_subset [] (uses.map types.argument)
      exact hsub (h.arguments ▸ List.getElem_mem hlt)
    obtain ⟨use, huse, hargument⟩ := List.mem_map.mp hmem
    -- no argument is there twice, so the index of this one is its own
    refine List.mem_map.mpr ⟨use, huse, ?_⟩
    rw [hargument]
    exact b.nodup.idxOf_getElem ordinal hlt

theorem ParameterAccount.of_binds {name : String} {types : ParameterTypes}
    {arguments : List Request} {b : ArgumentBinder} {statement : Statement} {output : Output}
    (hbinds : (ArgumentBinder.ofTypes types).Binds (requestUses name arguments) b)
    (hrows : ∀ rows, statement.rows? = some rows → ∃ pipeline, arguments.head? = some pipeline ∧
      rows.RefersTo types b.arguments (canonical name pipeline))
    (hadded : statement.added.map Expression.ordinals =
      (addedUses name arguments).map (ordinalsOf types b.arguments))
    (hordinals : statement.ordinals = ordinalsOf types b.arguments (requestUses name arguments)) :
    ParameterAccount name types arguments ⟨statement, b.arguments, output⟩ := by
  refine ⟨?_, hrows, hadded, hordinals, fun ordinal => ?_⟩
  · rw [← appendAllNew_nil]
    exact hbinds.arguments
  · rw [hordinals]
    exact mem_ordinalsOf hbinds ordinal

/-- Rows and what a method adds to them are accounted for together. -/
theorem RowsRun.parameterAccount {c : Compiler} (hresolver : c.resolver = columnResolver)
    {name : String} {types : ParameterTypes} {pipeline : Request}
    (run : RowsRun c name types pipeline) (hmethod : Method.ofName name ≠ .insert)
    {others : List Request} {uses : List (List ParameterUse)} {b : ArgumentBinder}
    {joins : List Join} {statement : Statement} {output : Output}
    (huses : addedUses name (pipeline :: others) = uses)
    (hb : run.final.draft.binder.Binds uses.flatten b)
    (hrows : ∃ projection, statement.rows? =
      some { run.gathered.select run.scan.table joins with projection := projection })
    (hordinals : statement.ordinals =
      (run.gathered.select run.scan.table joins).expressions.flatMap Expression.ordinals ++
        (statement.added.map Expression.ordinals).flatten)
    (hadded : statement.added.map Expression.ordinals =
      uses.map (ordinalsOf types b.arguments)) :
    ParameterAccount name types (pipeline :: others) ⟨statement, b.arguments, output⟩ := by
  have hrefers := run.refers hresolver hb.isPrefix
  have hrequest : requestUses name (pipeline :: others) =
      (canonical name pipeline).flatMap stageUses ++ uses.flatten := by
    rw [requestUses, pipelineUses, if_neg hmethod, huses]
  refine .of_binds ?_ ?_ ?_ ?_
  · rw [hrequest]
    exact run.binds.append hb
  · intro rows hsome
    obtain ⟨projection, hprojected⟩ := hrows
    rw [hprojected] at hsome
    cases hsome
    exact ⟨pipeline, rfl, run.refersTo hrefers rfl rfl rfl⟩
  · rw [hadded, huses]
  · rw [hordinals, hrefers.ordinals, hadded, hrequest, ordinalsOf_append, ordinalsOf_flatten,
      run.uses_canonical]

/-- A query is accounted for whatever function is applied to the operand of its method. -/
theorem RowsRun.parameterAccount_operand {c : Compiler} (hresolver : c.resolver = columnResolver)
    {name : String} {types : ParameterTypes} {pipeline tokens : Request}
    (run : RowsRun c name types pipeline) (hmethod : Method.ofName name ≠ .insert)
    (huses : addedUses name [pipeline, tokens] = [usesOf .required tokens]) {d : Draft}
    {operand : Typed} (hc : Compiles c run.context .required tokens run.final.draft operand d)
    {e : Expression} (he : e.ordinals = operand.expression.ordinals) (forked : Bool)
    (joins : List Join) (columns : List (Context × String)) (output : Output) :
    ParameterAccount name types [pipeline, tokens]
      ⟨query forked (run.gathered.select run.scan.table joins) columns e, d.binder.arguments,
        output⟩ := by
  have hb : run.final.draft.binder.Binds [usesOf .required tokens].flatten d.binder := by
    rw [List.flatten_singleton]
    exact hc.binds
  refine run.parameterAccount hresolver hmethod huses hb (rows?_query forked _ _ _)
    (ordinals_query forked rfl _ _) ?_
  rw [added_query forked rfl, he, hc.ordinals hresolver (List.prefix_refl _), run.binds.types]
  rfl

/-- An insertion uses parameters in its values only. -/
theorem AssignmentsRun.parameterAccount {c : Compiler} (hresolver : c.resolver = columnResolver)
    {name : String} {types : ParameterTypes} {scan : TableScan}
    {pairs : List (Assignment Request)} {d : Draft} {values : List ColumnValue}
    (hmethod : Method.ofName name = .insert)
    (h : AssignmentsRun c .root pairs (Session.start scan.table types).draft values d)
    (output : Output) :
    ParameterAccount name types [[.table scan], [.assignments pairs]]
      ⟨.insert scan.table values, d.binder.arguments, output⟩ := by
  have huses : addedUses name [[.table scan], [.assignments pairs]] =
      pairs.map assignmentUses := by
    simp [addedUses, hmethod]
  have hrequest : requestUses name [[.table scan], [.assignments pairs]] =
      pairs.flatMap assignmentUses := by
    rw [requestUses, pipelineUses, if_pos hmethod, huses, List.nil_append, List.flatMap_def]
  have hvalues : (values.map (·.value)).map Expression.ordinals =
      (pairs.map assignmentUses).map (ordinalsOf types d.binder.arguments) :=
    h.ordinals hresolver rfl (List.prefix_refl _)
  refine .of_binds ?_ (fun rows hrows => by cases hrows) ?_ ?_
  · rw [hrequest]
    exact h.binds
  · rw [huses]
    exact hvalues
  · rw [hrequest, List.flatMap_def, ordinalsOf_flatten, ← hvalues, ← List.flatMap_def]
    rfl

/--
The parameters of a compiled statement are exactly the uses of its request, and every expression of
the statement refers to its own.
-/
theorem compile_accounts_for_parameters {c : Compiler} (hresolver : c.resolver = columnResolver)
    {request : Request} {result : CompiledStatement} (h : c.compile request = .ok result) :
    ∃ name arguments, headCall request = .ok (name, arguments) ∧
      ParameterAccount name (c.parameterTypes request) arguments result := by
  obtain ⟨name, arguments, hhead, hcompiled⟩ := compiled_of_compile_ok h
  refine ⟨name, arguments, hhead, ?_⟩
  cases hcompiled with
  | get hmethod run hc hd =>
    exact run.parameterAccount_operand hresolver (by rw [hmethod]; decide)
      (by simp [addedUses, hmethod]) hc rfl _ _ _ _
  | @count pipeline joins hmethod run hd =>
    have huses : addedUses name [pipeline] = [[]] := by simp [addedUses, hmethod]
    refine run.parameterAccount hresolver (by rw [hmethod]; decide) huses (.nil _)
      (rows?_query _ _ _ _) (ordinals_query _ rfl _ _) ?_
    rw [added_query _ rfl]
    rfl
  | aggregate hmethod hfunction run hc hd =>
    refine run.parameterAccount_operand hresolver (by rw [hmethod]; decide)
      (by simp [addedUses, hmethod]) hc ?_ _ _ _ _
    rfl
  | @delete pipeline joins hmethod run hd =>
    have huses : addedUses name [pipeline] = [] := by simp [addedUses, hmethod]
    exact run.parameterAccount hresolver (by rw [hmethod]; decide) huses (.nil _) ⟨[], rfl⟩
      (List.append_nil _).symm rfl
  | @set pipeline joins pairs d values hmethod run hv hd =>
    have huses : addedUses name [pipeline, [.assignments pairs]] = pairs.map assignmentUses := by
      simp [addedUses, hmethod]
    have hb := hv.binds
    rw [List.flatMap_def] at hb
    refine run.parameterAccount hresolver (by rw [hmethod]; decide) huses hb ⟨[], rfl⟩ ?_
      (hv.ordinals hresolver run.binds.types (List.prefix_refl _))
    rw [Statement.ordinals, Statement.expressions, List.flatMap_append, ← List.flatMap_def]
    rfl
  | insert hmethod hv => exact hv.parameterAccount hresolver hmethod _

theorem pagedSum_accounts_for_parameters :
    standardCompiler.compile pagedSum = .ok pagedSumCompiled ∧
      ParameterAccount "sum" (standardCompiler.parameterTypes pagedSum)
        [pagedOrders, [.read ⟨"item", "price", .integer, false⟩]] pagedSumCompiled := by
  have h : standardCompiler.compile pagedSum = .ok pagedSumCompiled := rfl
  obtain ⟨name, arguments, hhead, haccount⟩ := compile_accounts_for_parameters rfl h
  cases hhead
  exact ⟨h, haccount⟩

end RequestCompiler
