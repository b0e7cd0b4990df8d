import RequestCompiler.Proofs.Compiler.Requests
import RequestCompiler.Proofs.Pipeline.Kept

/-!
# Every stage is accounted for

The select that carries the rows of a statement is the derived select behind a fork and the only
select otherwise. Its predicate, its order and its limit come one for one from the filters, the
sorts and the slice of the pipeline, wherever a fork or the canonical form has put them.

* `compile_accounts_for_stages` — no stage is lost, duplicated or reordered.
-/

namespace RequestCompiler

/-! ## Selects around the rows -/

/-- A select that does nothing but compute one column. -/
structure Select.IsBare (s : Select) : Prop where
  joins : s.joins = []
  filter : s.filter = none
  order : s.order = []
  limit : s.limit = none
  projection : s.projection.length = 1

/-- The select that was gathered is not touched by what a query adds to it. -/
theorem rows?_query (forked : Bool) (s : Select) (columns : List (Context × String))
    (e : Expression) :
    ∃ projection, (query forked s columns e).rows? = some { s with projection := projection } := by
  cases forked <;> exact ⟨_, rfl⟩

theorem isBare_of_outer?_query {forked : Bool} {s outer : Select} {columns : List (Context × String)}
    {e : Expression} (h : (query forked s columns e).outer? = some outer) : outer.IsBare := by
  cases forked with
  | false => cases h
  | true =>
    cases h
    exact ⟨rfl, rfl, rfl, rfl, rfl⟩

/-! ## Stages of a plan -/

/-- Tokens of one kind all perform the same operation, or none. -/
theorem filter_performedBy_map {α : Type} {f : α → Token} {performed : Option Operation}
    (h : ∀ x, Operation.of? (f x) = performed) (operation : Operation) (l : List α) :
    (l.map f).filter operation.performedBy =
      if performed = some operation then l.map f else [] := by
  split
  · next hsame =>
    refine List.filter_eq_self.mpr ?_
    intro t ht
    obtain ⟨x, -, rfl⟩ := List.mem_map.mp ht
    exact Operation.performedBy_iff.mpr ((h x).trans hsame)
  · next hother =>
    refine List.filter_eq_nil_iff.mpr ?_
    intro t ht hperformed
    obtain ⟨x, -, rfl⟩ := List.mem_map.mp ht
    exact hother ((h x).symm.trans (Operation.performedBy_iff.mp hperformed))

namespace StagePlan

/-- The stages of a plan that perform an operation. -/
def performing (plan : StagePlan) : Operation → Request
  | .filter => plan.filters.map filterToken
  | .sort => plan.sorts.map SortKey.token
  | .slice => plan.slice.toList.map SliceBounds.token

theorem filter_tokens (plan : StagePlan) (operation : Operation) :
    plan.tokens.filter operation.performedBy = plan.performing operation := by
  have hfilter : ∀ argument, Operation.of? (filterToken argument) = some .filter := fun _ => rfl
  have hsort : ∀ key : SortKey, Operation.of? key.token = some .sort := by
    rintro ⟨descending, argument⟩
    cases descending <;> rfl
  have hslice : ∀ bounds : SliceBounds, Operation.of? bounds.token = some .slice := fun _ => rfl
  have hfork : (if plan.forked then [Token.call "fork" []] else []).filter
      operation.performedBy = [] := by
    cases plan.forked <;> cases operation <;> rfl
  unfold tokens
  rw [List.filter_append, List.filter_append, List.filter_append, hfork,
    filter_performedBy_map hfilter, filter_performedBy_map hsort, filter_performedBy_map hslice]
  cases operation <;> simp [performing]

end StagePlan

/-- The stages of a canonical form that perform an operation are those of its plan. -/
theorem RowsRun.filter_canonical {c : Compiler} {name : String} {types : ParameterTypes}
    {pipeline : Request} (run : RowsRun c name types pipeline) (operation : Operation) :
    (canonical name pipeline).filter operation.performedBy = run.plan.performing operation := by
  have hnone : ∀ edge, Operation.of? (Token.join edge) = none := fun _ => rfl
  have hjoins := filter_performedBy_map hnone operation run.edges
  rw [run.shape, List.filter_cons_of_neg (by simp [Operation.performedBy, Operation.of?]),
    List.filter_append, hjoins, StagePlan.filter_tokens]
  rfl

/-! ## Accounts -/

/-- The account of a select that carries the rows of a pipeline, stage by stage. -/
structure StageAccount (c : Compiler) (name : String) (types : ParameterTypes)
    (pipeline : Request) (rows : Select) where
  scan : TableScan
  stages : Request
  /-- The context and the stages behind the leading joins. -/
  context : Context
  rest : Request
  filters : List Request
  predicates : List Expression
  sorts : List SortKey
  /-- The sessions behind the leading joins, behind the filters and behind the sorts. -/
  joined : Session
  filtered : Session
  sorted : Session
  canonical_eq : canonical name pipeline = .table scan :: stages
  joins_ok : Compiler.leadingJoins .root stages (Session.start scan.table types) =
    .ok (context, rest) joined
  /-- The filters, as the pipeline was written. -/
  filters_eq : pipeline.filter Operation.filter.performedBy = filters.map filterToken
  predicates_ok : FiltersRun c context filters joined predicates filtered
  filter_eq : rows.filter = Expression.conjunction predicates
  /-- The sorts, as the canonical form has them. -/
  sorts_eq : (canonical name pipeline).filter Operation.sort.performedBy = sorts.map SortKey.token
  orders_ok : SortsRun c context sorts filtered rows.order sorted
  directions_eq : rows.order.map (·.descending) =
    ((canonical name pipeline).filter Operation.sort.performedBy).map (·.isCall "rsort")
  /-- The slices, as the pipeline was written. -/
  slices_eq : (pipeline.filter Operation.slice.performedBy).length =
    if rows.limit.isSome then 1 else 0

theorem SortsRun.directions {c : Compiler} {context : Context} {sorts : List SortKey}
    {s s' : Session} {orders : List Order} (h : SortsRun c context sorts s orders s') :
    orders.map (·.descending) = (sorts.map SortKey.token).map (·.isCall "rsort") := by
  induction h with
  | nil => rfl
  | @cons key rest s t s' e os he hrest ih =>
    have hkey : key.token.isCall "rsort" = key.descending := by
      obtain ⟨descending, argument⟩ := key
      cases descending <;> rfl
    rw [List.map_cons, List.map_cons, List.map_cons, hkey, ih]

theorem SliceRun.isSome_limit {slice : Option SliceBounds} {s s' : Session}
    {limit : Option Limit} (h : SliceRun slice s limit s') :
    slice.toList.length = if limit.isSome then 1 else 0 := by
  cases h <;> rfl

/-- A run gives an account of every select whose parts were gathered on the way. -/
theorem RowsRun.account {c : Compiler} {name : String} {types : ParameterTypes}
    {pipeline : Request} (run : RowsRun c name types pipeline) {rows : Select}
    (hfilter : rows.filter = Expression.conjunction run.gathered.predicates)
    (horder : rows.order = run.gathered.orders) (hlimit : rows.limit = run.gathered.limit) :
    Nonempty (StageAccount c name types pipeline rows) := by
  have hsorts := run.filter_canonical .sort
  have hfilters := (filter_canonical_performedBy (by decide) name pipeline).symm.trans
    (run.filter_canonical .filter)
  have hslices := (filter_canonical_performedBy (by decide) name pipeline).symm.trans
    (run.filter_canonical .slice)
  obtain ⟨scan, edges, plan, context, joined, gathered, final, hshape, hjoins, hedges, hstages⟩ :=
    run
  cases hstages with
  | @intro filters sorts slice forked predicates orders limit _ s₁ s₂ s₃ _ hrun hsorted hcut
      hfork =>
    -- the account has the order of the rows where the run has the keys that were gathered
    have horder' : rows.order = orders := horder
    have hdirections := hsorted.directions
    rw [← horder'] at hsorted hdirections
    refine ⟨⟨scan, _, context, _, filters, predicates, sorts, joined, s₁, s₂, hshape, hjoins,
      hfilters, hrun, hfilter, hsorts, hsorted, ?_, ?_⟩⟩
    · rw [hsorts]
      exact hdirections
    · rw [hslices, hlimit]
      show (slice.toList.map SliceBounds.token).length = if limit.isSome then 1 else 0
      rw [List.length_map, hcut.isSome_limit]

/--
No stage is lost, duplicated or reordered on the way to a statement: there is an account of the
select that carries the rows, and a select around it only computes one column.
-/
theorem compile_accounts_for_stages {c : Compiler} {request : Request} {result : CompiledStatement}
    (h : c.compile request = .ok result) :
    ∃ name pipeline others, headCall request = .ok (name, pipeline :: others) ∧
      (Method.ofName name ≠ .insert →
        (∃ rows, result.statement.rows? = some rows ∧
          Nonempty (StageAccount c name (c.parameterTypes request) pipeline rows)) ∧
        ∀ outer, result.statement.outer? = some outer → outer.IsBare) := by
  obtain ⟨name, arguments, hhead, hcompiled⟩ := compiled_of_compile_ok h
  cases hcompiled with
  | get _ run hc hd =>
    exact ⟨name, _, _, hhead, fun _ => ⟨⟨_, rfl, run.account rfl rfl rfl⟩,
      fun outer ho => by cases ho⟩⟩
  | count _ run hd =>
    obtain ⟨projection, hrows⟩ := rows?_query run.plan.forked _ _ _
    exact ⟨name, _, _, hhead, fun _ => ⟨⟨_, hrows, run.account rfl rfl rfl⟩,
      fun outer => isBare_of_outer?_query⟩⟩
  | aggregate _ hfunction run hc hd =>
    obtain ⟨projection, hrows⟩ := rows?_query run.plan.forked _ _ _
    exact ⟨name, _, _, hhead, fun _ => ⟨⟨_, hrows, run.account rfl rfl rfl⟩,
      fun outer => isBare_of_outer?_query⟩⟩
  | delete _ run hd =>
    exact ⟨name, _, _, hhead, fun _ => ⟨⟨_, rfl, run.account rfl rfl rfl⟩,
      fun outer ho => by cases ho⟩⟩
  | set _ run hv hd =>
    exact ⟨name, _, _, hhead, fun _ => ⟨⟨_, rfl, run.account rfl rfl rfl⟩,
      fun outer ho => by cases ho⟩⟩
  | insert hinsert hv => exact ⟨name, _, _, hhead, fun hmethod => absurd hinsert hmethod⟩

theorem pagedSum_accounts_for_stages :
    standardCompiler.compile pagedSum = .ok pagedSumCompiled ∧
      (∃ rows, pagedSumCompiled.statement.rows? = some rows ∧
        Nonempty (StageAccount standardCompiler "sum" (standardCompiler.parameterTypes pagedSum)
          pagedOrders rows)) ∧
      ∀ outer, pagedSumCompiled.statement.outer? = some outer → outer.IsBare := by
  have h : standardCompiler.compile pagedSum = .ok pagedSumCompiled := rfl
  obtain ⟨name, pipeline, others, hhead, haccount⟩ := compile_accounts_for_stages h
  cases hhead
  exact ⟨h, haccount (by decide)⟩

end RequestCompiler
