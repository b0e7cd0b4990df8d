import RequestCompiler.Compiler.Request
import RequestCompiler.Proofs.Compiler.Stages
import RequestCompiler.Proofs.Select.Exposure
import RequestCompiler.Signature.Standard

/-!
# Derivations of compiled requests

`Compiled` says once what compiling a request can do when it succeeds, one constructor for each
method. A pipeline of rows is always compiled in the same way (`RowsRun`), and what a method adds to
it is one expression, the number of rows, assignments, or nothing.

* `RowsRun.holds` — the draft behind the stages holds the select that they gathered.
* `compiled_of_compile_ok` — a successful compilation is one of these derivations.
-/

namespace RequestCompiler

open Compilation

/-! ## Rows -/

/-- A successful run over the canonical form of a pipeline. -/
structure RowsRun (c : Compiler) (name : String) (types : ParameterTypes) (pipeline : Request) where
  scan : TableScan
  edges : List JoinEdge
  plan : StagePlan
  /-- The context to which the joins lead. -/
  context : Context
  /-- The session behind the joins. -/
  joined : Session
  gathered : Gathered
  /-- The session behind the stages. -/
  final : Session
  shape : canonical name pipeline = .table scan :: (edges.map Token.join ++ plan.tokens)
  joins_ok : Compiler.leadingJoins .root (edges.map Token.join ++ plan.tokens)
    (Session.start scan.table types) = .ok (context, plan.tokens) joined
  joins : JoinsRun .root edges (Session.start scan.table types).draft context joined.draft
  stages : StagesRun c name context plan joined gathered final

/-- A new session holds the select of its table. -/
theorem Session.start_holds (table : String) (types : ParameterTypes) :
    (Session.start table types).draft.Holds false { source := .table table } :=
  ⟨SelectBuilder.ofTable_eq_holding table, fun _ h => by cases h⟩

namespace RowsRun

variable {c : Compiler} {name : String} {types : ParameterTypes} {pipeline : Request}

/-- The draft behind the stages holds the select that they gathered. -/
theorem holds (run : RowsRun c name types pipeline) :
    ∃ joins, run.final.draft.Holds run.plan.forked (run.gathered.select run.scan.table joins) ∧
      (run.gathered.select run.scan.table joins).HasContext run.context := by
  obtain ⟨js, hjoined, hcontext⟩ := run.joins.holds (Session.start_holds _ _) trivial
  obtain ⟨ks, hfinal⟩ := run.stages.holds hjoined
  -- the context was reached before the stages, which only add joins
  refine ⟨js ++ ks, hfinal, hcontext.mono fun j hj => ?_⟩
  exact List.mem_append_left ks hj

end RowsRun

/-- An opening that was run has ended with what makes a statement of the finished draft. -/
theorem run_ok {o : Opening} {types : ParameterTypes} {result : CompiledStatement}
    (h : o.run types = .ok result) :
    ∃ close s, o.body (Session.start o.table types) = .ok close s ∧
      close s.draft.builder s.draft.binder.arguments = result := by
  unfold Opening.run at h
  cases hbody : o.body (Session.start o.table types) with
  | error cause s =>
    rw [hbody] at h
    cases h
  | ok close s =>
    simp only [hbody] at h
    unfold Session.finish at h
    by_cases hpoints : s.points.isEmpty = true
    · rw [if_pos hpoints] at h
      cases h
      exact ⟨close, s, rfl, rfl⟩
    · rw [if_neg hpoints] at h
      cases h

theorem overRows_ok {c : Compiler} {name : String} {types : ParameterTypes} {pipeline : Request}
    {body : TableScan → Context → Compilation Closing} {o : Opening} {result : CompiledStatement}
    (ho : c.overRows name pipeline body = .ok o) (h : o.run types = .ok result) :
    ∃ (run : RowsRun c name types pipeline) (close : _) (s : Session),
      body run.scan run.context run.final = .ok close s ∧
        close s.draft.builder s.draft.binder.arguments = result := by
  unfold Compiler.overRows at ho
  split at ho
  · next scan stages hshape =>
    cases ho
    obtain ⟨close, s', hrun, hresult⟩ := run_ok h
    obtain ⟨context, s, hrows, hbody⟩ := bind_eq_ok.mp hrun
    obtain ⟨edges, plan, s₁, gathered, rfl, hjoins, hedges, hplan⟩ :=
      rows_ok hrows (Session.start_holds _ _) rfl
    exact ⟨⟨scan, edges, plan, context, s₁, gathered, s, hshape, hjoins, hedges, hplan⟩, close, s',
      hbody, hresult⟩
  · cases ho

/-! ## Assignments -/

/-- Assignments compile their values one after the other. -/
inductive AssignmentsRun (c : Compiler) (context : Context) :
    List (Assignment Request) → Draft → List ColumnValue → Draft → Prop where
  | nil {d : Draft} : AssignmentsRun c context [] d [] d
  | cons {property : Property} {value : Request} {rest : List (Assignment Request)}
      {column : String} {type : ValueType} {d d' d'' : Draft} {e : Typed}
      {values : List ColumnValue} (hcolumn : c.assignedColumn property = .ok (column, type))
      (h : Compiles c context (if property.hasZero then .defaultsToZero else .required) value
        d e d')
      (hrest : AssignmentsRun c context rest d' values d'') :
      AssignmentsRun c context (⟨[.read property], value⟩ :: rest) d
        (⟨column, e.expression⟩ :: values) d''

theorem assignedProperty_ok {tokens : Request} {property : Property}
    (h : Compiler.assignedProperty tokens = .ok property) : tokens = [.read property] := by
  unfold Compiler.assignedProperty at h
  split at h
  · cases h
    rfl
  · cases h

theorem assignmentsRun_of_assignments_ok {c : Compiler} {context : Context}
    {pairs : List (Assignment Request)} {s s' : Session} {values : List ColumnValue}
    (h : c.assignments context pairs s = .ok values s') :
    AssignmentsRun c context pairs s.draft values s'.draft := by
  induction pairs generalizing s values with
  | nil =>
    cases h
    exact .nil
  | cons pair rest ih =>
    obtain ⟨first, t, hfirst, h⟩ := bind_eq_ok.mp h
    obtain ⟨others, u, hrest, h⟩ := bind_eq_ok.mp h
    cases h
    unfold Compiler.assignment at hfirst
    obtain ⟨property, v, hp, hfirst⟩ := bind_eq_ok.mp hfirst
    obtain ⟨hproperty, rfl⟩ := ofResult_eq_ok.mp hp
    obtain ⟨⟨column, type⟩, v, hc, hfirst⟩ := bind_eq_ok.mp hfirst
    obtain ⟨hcolumn, rfl⟩ := ofResult_eq_ok.mp hc
    obtain ⟨e, v, he, hfirst⟩ := bind_eq_ok.mp hfirst
    obtain ⟨hcompiles, -⟩ := compiles_of_expression_ok c _ he
    obtain ⟨assigned, w, ht, hfirst⟩ := bind_eq_ok.mp hfirst
    obtain ⟨-, rfl⟩ := ofResult_eq_ok.mp ht
    cases hfirst
    obtain ⟨tokens, value⟩ := pair
    rw [show tokens = [.read property] from assignedProperty_ok hproperty]
    exact .cons hcolumn hcompiles (ih hrest)

theorem AssignmentsRun.holds {c : Compiler} {context : Context}
    {pairs : List (Assignment Request)} {d d' : Draft} {values : List ColumnValue}
    {forked : Bool} {select : Select} (h : AssignmentsRun c context pairs d values d')
    (hd : d.Holds forked select) : ∃ joins, d'.Holds forked (select.appendJoins joins) := by
  induction h generalizing select with
  | nil =>
    refine ⟨[], ?_⟩
    rw [Select.appendJoins_nil]
    exact hd
  | cons hcolumn h hrest ih =>
    obtain ⟨joins, hd⟩ := h.holds hd
    obtain ⟨further, hd⟩ := ih hd
    rw [Select.appendJoins_appendJoins] at hd
    exact ⟨joins ++ further, hd⟩

/-! ## Selects of a statement -/

namespace Statement

/-- The select that carries the rows. -/
def rows? : Statement → Option Select
  | .select main none => some main
  | .select _ (some derived) => some derived
  | .update rows _ => some rows
  | .delete rows => some rows
  | .insert _ _ => none

/-- The select that reads from a derived select. -/
def outer? : Statement → Option Select
  | .select main (some _) => some main
  | _ => none

end Statement

/-! ## Methods -/

/--
The query for an expression over the rows of a select. Behind a fork these columns of the select
are handed out, and the expression reads them from outside.
-/
def query (forked : Bool) (s : Select) (columns : List (Context × String)) (e : Expression) :
    Statement :=
  if forked then
    .select
      { source := .derived, projection := [⟨e.replaceColumns (readExposed columns), none⟩] }
      (some { s with projection := exposedProjections columns })
  else .select (s.project e none) none

/-- What compiling a method call does when it succeeds. -/
inductive Compiled (c : Compiler) (name : String) (types : ParameterTypes) :
    List Request → CompiledStatement → Prop where
  | get {pipeline tokens : Request} {joins : List Join} {d : Draft} {e : Typed}
      (hmethod : Method.ofName name = .get) (run : RowsRun c name types pipeline)
      (h : Compiles c run.context .required tokens run.final.draft e d)
      (hd : d.Holds false (run.gathered.select run.scan.table joins)) :
      Compiled c name types [pipeline, tokens]
        ⟨query false (run.gathered.select run.scan.table joins) [] e.expression,
          d.binder.arguments, .list e.type⟩
  | count {pipeline : Request} {joins : List Join} (hmethod : Method.ofName name = .count)
      (run : RowsRun c name types pipeline)
      (hd : run.final.draft.Holds run.plan.forked (run.gathered.select run.scan.table joins)) :
      Compiled c name types [pipeline]
        ⟨query run.plan.forked (run.gathered.select run.scan.table joins)
            [(.root, run.scan.identifier)] (.aggregateRows .count),
          run.final.draft.binder.arguments, .value (some .integer)⟩
  | aggregate {pipeline tokens : Request} {joins : List Join} {function : AggregateFunction}
      {d : Draft} {e : Typed} {type : Option ValueType}
      (hmethod : Method.ofName name = .aggregate)
      (hfunction : AggregateFunction.ofName? name = some function)
      (run : RowsRun c name types pipeline)
      (h : Compiles c run.context .required tokens run.final.draft e d)
      (hd : d.Holds run.plan.forked (run.gathered.select run.scan.table joins)) :
      Compiled c name types [pipeline, tokens]
        ⟨query run.plan.forked (run.gathered.select run.scan.table joins)
            (appendAllNew [] e.expression.columns) (.aggregate function e.expression),
          d.binder.arguments, .value type⟩
  | delete {pipeline : Request} {joins : List Join} (hmethod : Method.ofName name = .delete)
      (run : RowsRun c name types pipeline)
      (hd : run.final.draft.Holds false (run.gathered.select run.scan.table joins)) :
      Compiled c name types [pipeline]
        ⟨.delete (run.gathered.select run.scan.table joins), run.final.draft.binder.arguments,
          .mutation⟩
  | set {pipeline : Request} {joins : List Join} {pairs : List (Assignment Request)} {d : Draft}
      {values : List ColumnValue} (hmethod : Method.ofName name = .set)
      (run : RowsRun c name types pipeline)
      (h : AssignmentsRun c run.context pairs run.final.draft values d)
      (hd : d.Holds false (run.gathered.select run.scan.table joins)) :
      Compiled c name types [pipeline, [.assignments pairs]]
        ⟨.update (run.gathered.select run.scan.table joins) values, d.binder.arguments, .mutation⟩
  | insert {scan : TableScan} {pairs : List (Assignment Request)} {d : Draft}
      {values : List ColumnValue} (hmethod : Method.ofName name = .insert)
      (h : AssignmentsRun c .root pairs (Session.start scan.table types).draft values d) :
      Compiled c name types [[.table scan], [.assignments pairs]]
        ⟨.insert scan.table values, d.binder.arguments, .mutation⟩

/-- A column over a builder is read directly, or behind a fork through the subquery. -/
theorem selectStatement_expose (forked : Bool) {s : Select} (hs : s.projection = [])
    (context : Context) (name : String) (function : AggregateFunction) (output : Output)
    (arguments : List Argument) :
    selectStatement output
        (((SelectBuilder.holding forked s).expose context name).2.project (.aggregateRows function))
        arguments =
      ⟨query forked s [(context, name)] (.aggregateRows function), arguments, output⟩ := by
  cases forked with
  | false => rfl
  | true =>
    rw [SelectBuilder.holding_eq_exposing hs, SelectBuilder.expose_exposing]
    rfl

/-- The same for all columns of an expression. -/
theorem selectStatement_exposeAll (forked : Bool) {s : Select} (hs : s.projection = [])
    (function : AggregateFunction) (e : Expression) (output : Output)
    (arguments : List Argument) :
    selectStatement output
        (((SelectBuilder.holding forked s).exposeAll e).2.project
          (.aggregate function ((SelectBuilder.holding forked s).exposeAll e).1))
        arguments =
      ⟨query forked s (appendAllNew [] e.columns) (.aggregate function e), arguments,
        output⟩ := by
  cases forked with
  | false =>
    rw [SelectBuilder.exposeAll_of_not_forked rfl]
    rfl
  | true =>
    rw [SelectBuilder.holding_eq_exposing hs, SelectBuilder.exposeAll_exposing]
    rfl

theorem resultBind_ok {α β : Type} {x : Except CompileError α} {f : α → Except CompileError β}
    {b : β} : (x >>= f) = .ok b ↔ ∃ a, x = .ok a ∧ f a = .ok b := by
  cases x with
  | error cause =>
    show Except.error cause = .ok b ↔ _
    simp
  | ok a =>
    show f a = .ok b ↔ _
    simp

theorem withOne_ok {name : String} {arguments : List Request} {call : Request → MethodCall}
    {m : MethodCall} (h : MethodCall.withOne name arguments call = .ok m) :
    ∃ argument, arguments = [argument] ∧ m = call argument := by
  unfold MethodCall.withOne at h
  split at h
  · cases h
    exact ⟨_, rfl, rfl⟩
  · cases h

theorem withTwo_ok {name : String} {arguments : List Request}
    {call : Request → Request → MethodCall} {m : MethodCall}
    (h : MethodCall.withTwo name arguments call = .ok m) :
    ∃ first second, arguments = [first, second] ∧ m = call first second := by
  unfold MethodCall.withTwo at h
  split at h
  · cases h
    exact ⟨_, _, rfl, rfl⟩
  · cases h

theorem assignmentList_ok {tokens : Request} {pairs : List (Assignment Request)}
    (h : assignmentList tokens = .ok pairs) : tokens = [.assignments pairs] := by
  unfold assignmentList at h
  split at h
  · cases h
    rfl
  · cases h

theorem insertionTarget_ok {name : String} {tokens : Request} {scan : TableScan}
    (h : insertionTarget name tokens = .ok scan) : tokens = [.table scan] := by
  unfold insertionTarget at h
  split at h
  · cases h
    rfl
  · cases h
  · cases h

section Methods

variable {c : Compiler} {name : String} {types : ParameterTypes} {o : Opening}
  {result : CompiledStatement}

/-- Whatever a method compiles behind its rows adds joins to the select of the rows. -/
theorem RowsRun.holds_of {pipeline : Request} (run : RowsRun c name types pipeline) {d : Draft}
    (h : ∀ forked select, run.final.draft.Holds forked select →
      ∃ joins, d.Holds forked (select.appendJoins joins)) :
    ∃ joins, d.Holds run.plan.forked (run.gathered.select run.scan.table joins) := by
  obtain ⟨joins, hfinal, -⟩ := run.holds
  obtain ⟨further, hd⟩ := h _ _ hfinal
  exact ⟨joins ++ further, hd⟩

theorem compiled_of_get_ok {pipeline tokens : Request} (hmethod : Method.ofName name = .get)
    (ho : c.methodCall name (.get pipeline tokens) = .ok o) (h : o.run types = .ok result) :
    Compiled c name types [pipeline, tokens] result := by
  obtain ⟨run, close, s, hbody, rfl⟩ := overRows_ok ho h
  obtain ⟨output, t, hbody, hclose⟩ := bind_eq_ok.mp hbody
  cases hclose
  obtain ⟨e, t, he, hbody⟩ := bind_eq_ok.mp hbody
  obtain ⟨hcompiles, -⟩ := compiles_of_expression_ok c _ he
  cases hbody
  obtain ⟨joins, hd⟩ := run.holds_of fun _ _ hfinal => hcompiles.holds hfinal
  -- a get yields many values, so there was no fork
  rw [run.stages.forked_eq_false (by rw [hmethod]; rfl)] at hd
  have hresult := Compiled.get hmethod run hcompiles hd
  show Compiled c name types [pipeline, tokens]
    (selectStatement _ (t.draft.builder.project e.expression) _)
  rw [hd.builder]
  exact hresult

theorem compiled_of_count_ok {pipeline : Request} (hmethod : Method.ofName name = .count)
    (ho : c.methodCall name (.count pipeline) = .ok o) (h : o.run types = .ok result) :
    Compiled c name types [pipeline] result := by
  obtain ⟨run, close, s, hbody, rfl⟩ := overRows_ok ho h
  cases hbody
  obtain ⟨joins, hd, -⟩ := run.holds
  have hresult := Compiled.count hmethod run hd
  rw [← selectStatement_expose run.plan.forked rfl, ← hd.builder] at hresult
  exact hresult

theorem compiled_of_aggregate_ok {function : AggregateFunction} {pipeline tokens : Request}
    (hmethod : Method.ofName name = .aggregate)
    (hfunction : AggregateFunction.ofName? name = some function)
    (ho : c.methodCall name (.aggregate function pipeline tokens) = .ok o)
    (h : o.run types = .ok result) : Compiled c name types [pipeline, tokens] result := by
  obtain ⟨run, close, s, hbody, rfl⟩ := overRows_ok ho h
  obtain ⟨output, t, hbody, hclose⟩ := bind_eq_ok.mp hbody
  cases hclose
  obtain ⟨e, t, he, hbody⟩ := bind_eq_ok.mp hbody
  obtain ⟨hcompiles, -⟩ := compiles_of_expression_ok c _ he
  obtain ⟨type, u, htype, hbody⟩ := bind_eq_ok.mp hbody
  obtain ⟨-, rfl⟩ := ofResult_eq_ok.mp htype
  cases hbody
  obtain ⟨joins, hd⟩ := run.holds_of fun _ _ hfinal => hcompiles.holds hfinal
  have hresult : Compiled c name types [pipeline, tokens] ⟨_, _, .value type⟩ :=
    .aggregate hmethod hfunction run hcompiles hd
  rw [← selectStatement_exposeAll run.plan.forked rfl, ← hd.builder] at hresult
  exact hresult

theorem compiled_of_delete_ok {pipeline : Request} (hmethod : Method.ofName name = .delete)
    (ho : c.methodCall name (.delete pipeline) = .ok o) (h : o.run types = .ok result) :
    Compiled c name types [pipeline] result := by
  obtain ⟨run, close, s, hbody, rfl⟩ := overRows_ok ho h
  cases hbody
  obtain ⟨joins, hd, -⟩ := run.holds
  rw [run.stages.forked_eq_false (by rw [hmethod]; rfl)] at hd
  rw [hd.builder]
  exact .delete hmethod run hd

theorem compiled_of_set_ok {pipeline written : Request} (hmethod : Method.ofName name = .set)
    (ho : c.methodCall name (.set pipeline written) = .ok o) (h : o.run types = .ok result) :
    Compiled c name types [pipeline, written] result := by
  obtain ⟨run, close, s, hbody, rfl⟩ := overRows_ok ho h
  obtain ⟨pairs, t, hp, hbody⟩ := bind_eq_ok.mp hbody
  obtain ⟨hpairs, rfl⟩ := ofResult_eq_ok.mp hp
  obtain ⟨values, t, hbody, hclose⟩ := bind_eq_ok.mp hbody
  cases hclose
  have hvalues := assignmentsRun_of_assignments_ok hbody
  obtain ⟨joins, hd⟩ := run.holds_of fun _ _ hfinal => hvalues.holds hfinal
  rw [run.stages.forked_eq_false (by rw [hmethod]; rfl)] at hd
  rw [assignmentList_ok hpairs, hd.builder]
  exact .set hmethod run hvalues hd

theorem compiled_of_insert_ok {target written : Request} (hmethod : Method.ofName name = .insert)
    (ho : c.methodCall name (.insert target written) = .ok o) (h : o.run types = .ok result) :
    Compiled c name types [target, written] result := by
  obtain ⟨scan, htarget, ho⟩ := resultBind_ok.mp ho
  obtain ⟨pairs, hpairs, ho⟩ := resultBind_ok.mp ho
  cases ho
  obtain ⟨close, s, hbody, rfl⟩ := run_ok h
  obtain ⟨values, t, hbody, hclose⟩ := bind_eq_ok.mp hbody
  cases hclose
  rw [insertionTarget_ok htarget, assignmentList_ok hpairs]
  exact .insert hmethod (assignmentsRun_of_assignments_ok hbody)

/-- A method call that is compiled has the arguments of its method. -/
theorem compiled_of_methodCall_ok {arguments : List Request} {m : MethodCall}
    (hcall : MethodCall.of name arguments = .ok m) (ho : c.methodCall name m = .ok o)
    (h : o.run types = .ok result) : Compiled c name types arguments result := by
  unfold MethodCall.of at hcall
  split at hcall
  · next hmethod =>
    obtain ⟨pipeline, tokens, rfl, rfl⟩ := withTwo_ok hcall
    exact compiled_of_get_ok hmethod ho h
  · next hmethod =>
    obtain ⟨pipeline, rfl, rfl⟩ := withOne_ok hcall
    exact compiled_of_count_ok hmethod ho h
  · next hmethod =>
    obtain ⟨pipeline, rfl, rfl⟩ := withOne_ok hcall
    exact compiled_of_delete_ok hmethod ho h
  · next hmethod =>
    obtain ⟨pipeline, written, rfl, rfl⟩ := withTwo_ok hcall
    exact compiled_of_set_ok hmethod ho h
  · next hmethod =>
    obtain ⟨target, written, rfl, rfl⟩ := withTwo_ok hcall
    exact compiled_of_insert_ok hmethod ho h
  · next hmethod =>
    split at hcall
    · cases hcall
    · next function hfunction =>
      obtain ⟨pipeline, tokens, rfl, rfl⟩ := withTwo_ok hcall
      exact compiled_of_aggregate_ok hmethod hfunction ho h

end Methods

/-- A successful compilation is a derivation for the call at the head of the request. -/
theorem compiled_of_compile_ok {c : Compiler} {request : Request} {result : CompiledStatement}
    (h : c.compile request = .ok result) :
    ∃ name arguments, headCall request = .ok (name, arguments) ∧
      Compiled c name (c.parameterTypes request) arguments result := by
  obtain ⟨o, ho, h⟩ := resultBind_ok.mp h
  obtain ⟨⟨name, arguments⟩, hhead, ho⟩ := resultBind_ok.mp ho
  obtain ⟨m, hcall, ho⟩ := resultBind_ok.mp ho
  exact ⟨name, arguments, hhead, compiled_of_methodCall_ok hcall ho h⟩

/-! ## A request with every phase -/

/-- A page of orders with their items. The sort stands before the filter that is to precede it. -/
def pagedOrders : Request :=
  [.table ⟨"order", "id", false⟩,
    .join ⟨"item", "order.id = item.order", true⟩,
    .call "sort" [[.read ⟨"item", "name", .string, false⟩]],
    .call "filter"
      [[.call "equal" [[.read ⟨"item", "kind", .string, false⟩], [.parameter "kind"]]]],
    .call "slice" [[.parameter "start"], [.parameter "stop"]]]

/-- The sum of the prices on the page, for which it becomes a subquery. -/
def pagedSum : Request :=
  [.call "sum" [pagedOrders, [.read ⟨"item", "price", .integer, false⟩]]]

/-- What the sum is compiled to. -/
def pagedSumCompiled : CompiledStatement where
  statement := .select
    { source := .derived, projection := [⟨.aggregate .sum (.derived "c0"), none⟩] }
    (some
      { source := .table "order"
        joins := [⟨.root, 1, "item", "order.id = item.order"⟩]
        filter := some (.binary .equal (.column (.join 1) "kind") (.argument 0))
        order := [⟨.column (.join 1) "name", false⟩]
        limit := some ⟨.argument 1, .argument 2⟩
        projection := [⟨.column (.join 1) "price", some "c0"⟩] })
  parameters :=
    [⟨.named "kind" .required, some .string⟩, ⟨.sliceOffset "start", some .integer⟩,
      ⟨.sliceLimit "start" "stop", some .integer⟩]
  output := .value (some .float)

/-- The compiler with the standard functions and settings. -/
def standardCompiler : Compiler := { signatures := .standard }

end RequestCompiler
