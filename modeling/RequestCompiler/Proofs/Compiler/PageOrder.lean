import RequestCompiler.Proofs.Compiler.Pagination
import RequestCompiler.Proofs.Compiler.Reads
import RequestCompiler.Proofs.Compiler.Shape
import RequestCompiler.Proofs.Pipeline.Explicit

/-!
# The order of pages that nothing sorts

A slice of a table that no sort precedes is sorted by the identifier of the table. The sort is put
right before the slice, so it is compiled where the joins of the pipeline have led to: with joins,
the column of the identifier is read at the last of them and not at the root.

* `RowsRun.plan_of_cutUnsorted` — the only sort of such a pipeline is the one by identifier.
* `compile_orders_page` — every select that is cut is ordered by the identifier, at the context to
  which the joins lead, and this is the root just if there are no joins.
* `joinedPage_order` — behind a join the order is by a column of the joined table.
-/

namespace RequestCompiler

open Canonical

/-- Whether a slice cuts the rows of a pipeline before anything has sorted them. -/
def CutUnsorted (r : Request) : Prop :=
  ∃ before slice behind, r = before ++ slice :: behind ∧
    Operation.slice.performedBy slice = true ∧ ¬ Occurs .sort before

/-- The first slice is such a slice. -/
theorem CutUnsorted.exists_first {r : Request} (h : CutUnsorted r) :
    ∃ before slice behind, r = before ++ slice :: behind ∧
      Operation.slice.performedBy slice = true ∧ firstPosition .slice before = none ∧
        ¬ Occurs .sort before := by
  obtain ⟨before, slice, behind, rfl, hslice, hsort⟩ := h
  cases hfirst : firstPosition .slice before with
  | none => exact ⟨before, slice, behind, rfl, hslice, hfirst, hsort⟩
  | some i =>
    obtain ⟨early, first, late, rfl, -, hperformed, hearly⟩ := exists_cut_of_firstPosition hfirst
    refine ⟨early, first, late ++ slice :: behind, by simp, hperformed, hearly, fun hoccurs => ?_⟩
    exact hsort (occurs_append.mpr (Or.inl hoccurs))

/-! ## Plans of such pipelines -/

/-- The key of the sort by identifier. -/
def identifierKey (scan : TableScan) : SortKey :=
  ⟨false, [.read ⟨scan.table, scan.identifier, .integer, scan.hasZero⟩]⟩

theorem SortKey.token_injective {k l : SortKey} (h : k.token = l.token) : k = l := by
  obtain ⟨descending, argument⟩ := k
  obtain ⟨descending', argument'⟩ := l
  cases descending <;> cases descending' <;> simp_all [SortKey.token]

theorem mem_behindPage {method : Method} {before behind : Request} {t : Token} (h : t ∈ behind)
    (ht : Operation.sort.performedBy t = false) : t ∈ behindPage method before behind := by
  unfold behindPage
  split
  · exact List.mem_filter.mpr ⟨h, by simp [ht]⟩
  · exact h

theorem subset_outside (method : Method) (rest : Request) : rest ⊆ outside method rest := by
  unfold outside
  split
  · exact List.subset_cons_self _ _
  · exact List.Subset.refl _

/-- A property is compiled to what the resolver answers. -/
theorem Compiles.resolver_eq_ok {c : Compiler} {context : Context} {requiredness : Requiredness}
    {property : Property} {d d' : Draft} {e : Typed}
    (h : Compiles c context requiredness [.read property] d e d') :
    ∃ type, c.resolver property context d.contextual = .ok (e.expression, type) := by
  cases h with
  | read h => exact ⟨_, h⟩

/-- Without contextual joins in filters, none is remembered. -/
theorem FiltersRun.contextual_eq_none {c : Compiler} {context : Context}
    {arguments : List Request} {s s' : Session} {ps : List Expression}
    (h : FiltersRun c context arguments s ps s')
    (hplain : ∀ argument ∈ arguments, plainTokens argument = true)
    (hs : s.draft.contextual = none) : s'.draft.contextual = none := by
  induction h with
  | nil => exact hs
  | @cons argument rest s t s' p ps hp hrest ih =>
    obtain ⟨e, -, hcompiles, -⟩ := compiles_of_predicate_ok c hp
    have ht := (hcompiles.contextual_eq (hplain argument List.mem_cons_self)).trans hs
    exact ih (fun other hother => hplain other (List.mem_cons_of_mem argument hother)) ht

namespace RowsRun

variable {c : Compiler} {name : String} {types : ParameterTypes} {pipeline : Request}
  (run : RowsRun c name types pipeline)

/-- A run over rows that are cut has them cut behind its sorts. -/
theorem canonical_cut (h : Occurs .slice pipeline) : ∃ before slice behind,
    before = .table run.scan :: (run.edges.map Token.join ++ run.plan.filters.map filterToken) ++
      run.plan.sorts.map SortKey.token ∧
    canonical name pipeline = before ++ slice :: behind ∧
    Operation.slice.performedBy slice = true ∧ firstPosition .slice before = none ∧
    behind ⊆ [fork] := by
  obtain ⟨bounds, hbounds⟩ : ∃ bounds, run.plan.slice = some bounds := by
    rw [← Option.isSome_iff_exists, ← run.stages.isSome_limit]
    exact run.isSome_limit_iff.mpr h
  refine ⟨_, bounds.token, if run.plan.forked then [fork] else [], rfl, ?_, rfl, ?_, ?_⟩
  · rw [run.shape, StagePlan.tokens, hbounds]
    simp [fork]
  · rw [firstPosition_eq_none]
    intro t ht
    simp only [List.mem_append, List.mem_cons, List.mem_map] at ht
    rcases ht with (rfl | ⟨edge, -, rfl⟩ | ⟨argument, -, rfl⟩) | ⟨⟨descending, argument⟩, -, rfl⟩
    · rfl
    · rfl
    · rfl
    · cases descending <;> rfl
  · split
    · exact List.Subset.refl _
    · exact List.nil_subset _

/--
Where nothing sorts the rows before they are cut, the sort by identifier is the only one, and the
joins and the filters of the run are those before the slice.
-/
theorem plan_of_cutUnsorted {scan : TableScan} (hhead : pipeline.head? = some (.table scan))
    (hcut : CutUnsorted pipeline) :
    run.scan = scan ∧ run.plan.sorts = [identifierKey scan] ∧ ∃ stages : Request,
      pipeline = .table scan ::
        (run.edges.map Token.join ++ (run.plan.filters.map filterToken ++ stages)) ∧
      ∀ t ∈ stages, t.isStage = true := by
  obtain ⟨before, slice, behind, rfl, hslice, hfirst, hsort⟩ := hcut.exists_first
  obtain ⟨start, slice', fork', hstart, hcanonical, hslice', hfirst', hforked⟩ :=
    run.canonical_cut ⟨slice, by simp, hslice⟩
  have hbefore : before.head? = some (.table scan) := by
    cases before with
    | nil =>
      cases hhead
      cases hslice
    | cons t before => exact hhead
  rw [canonical_sliced hslice hfirst name hbefore, page, if_neg hsort] at hcanonical
  have hnew : firstPosition .slice (before ++ [sortByIdentifier scan]) = none := by
    rw [firstPosition_append, hfirst]
    rfl
  obtain ⟨hpage, -, hbehind⟩ := cut_unique hslice hnew hslice' hfirst' hcanonical
  rw [hstart] at hpage
  have hsorts : run.plan.sorts = [identifierKey scan] := by
    have hkept := congrArg sorts hpage
    have hbase : sorts (.table run.scan :: (run.edges.map Token.join ++
        run.plan.filters.map filterToken)) = [] := by
      refine sorts_eq_nil (firstPosition_eq_none.mpr fun t ht => ?_)
      simp only [List.mem_append, List.mem_cons, List.mem_map] at ht
      rcases ht with rfl | ⟨edge, -, rfl⟩ | ⟨argument, -, rfl⟩ <;> rfl
    have hkeys : sorts (run.plan.sorts.map SortKey.token) = run.plan.sorts.map SortKey.token := by
      refine List.filter_eq_self.mpr fun t ht => ?_
      obtain ⟨⟨descending, argument⟩, -, rfl⟩ := List.mem_map.mp ht
      cases descending <;> rfl
    rw [sorts_append, sorts_append, hbase, hkeys, sorts_eq_nil (not_occurs_iff.mp hsort),
      List.nil_append, List.nil_append] at hkept
    have hmap : [identifierKey scan].map SortKey.token = run.plan.sorts.map SortKey.token := hkept
    exact (List.map_injective_iff.mpr (fun _ _ => SortKey.token_injective) hmap).symm
  rw [hsorts] at hpage
  have hfront : before = .table run.scan :: (run.edges.map Token.join ++
      run.plan.filters.map filterToken) := List.append_cancel_right hpage
  obtain rfl : scan = run.scan := by
    rw [hfront] at hbefore
    cases hbefore
    rfl
  have hpipeline := congrArg (· ++ slice :: behind) hfront
  refine ⟨rfl, hsorts, slice :: behind, hpipeline.trans (by simp), ?_⟩
  intro t ht
  rcases List.mem_cons.mp ht with rfl | ht
  · exact isStage_of_performedBy hslice
  cases hsorted : Operation.sort.performedBy t with
  | true => exact isStage_of_performedBy hsorted
  | false =>
    -- what is not a sort was still there when the stages were compiled
    have hkept := hforked (hbehind ▸ subset_outside _ _ (mem_behindPage ht hsorted))
    rw [List.mem_singleton.mp hkept]
    rfl

/-- Behind plain joins and plain filters, the only key is the column of the identifier. -/
theorem orders_of_cutUnsorted {scan : TableScan} (hresolver : c.resolver = columnResolver)
    (hplain : plainTokens pipeline = true) (hhead : pipeline.head? = some (.table scan))
    (hcut : CutUnsorted pipeline) :
    run.gathered.orders = [⟨.column run.context scan.identifier, false⟩] := by
  obtain ⟨rfl, hsorts, stages, hpipeline, -⟩ := run.plan_of_cutUnsorted hhead hcut
  rw [hpipeline, plainTokens_iff] at hplain
  have hedges : ∀ edge ∈ run.edges, edge.contextual = false := fun edge hedge => by
    have h := hplain (.join edge) (by simp [hedge])
    simpa [plainToken] using h
  have hfilters : ∀ argument ∈ run.plan.filters, plainTokens argument = true :=
    fun argument hargument => plainToken_call.mp
      (hplain (filterToken argument) (by simp [List.mem_map_of_mem hargument])) argument
        (List.mem_singleton_self _)
  have hjoined := run.joins.contextual_eq_none hedges rfl
  have hstages := run.stages
  generalize run.plan = plan at *
  generalize run.gathered = gathered at *
  cases hstages with
  | @intro filters sorts slice forked predicates orders limit _ s₁ s₂ s₃ _ hrun hsorted hslice
      hfork =>
    cases (show sorts = [identifierKey run.scan] from hsorts)
    obtain _ | ⟨he, hrest⟩ := hsorted
    cases hrest
    obtain ⟨hcompiles, -⟩ := compiles_of_expression_ok c _ he
    obtain ⟨type, hread⟩ := hcompiles.resolver_eq_ok
    rw [hresolver, hrun.contextual_eq_none hfilters hjoined] at hread
    rw [columnResolver_ok hread]
    cases run.context <;> rfl

/-- The joins of a run lead to its context, whatever a method has joined behind its rows. -/
theorem chain_context {d : Draft} {forked : Bool} {joins : List Join}
    (h : ∀ forked select, run.final.draft.Holds forked select →
      ∃ joins, d.Holds forked (select.appendJoins joins))
    (hd : d.Holds forked (run.gathered.select run.scan.table joins)) :
    (run.gathered.select run.scan.table joins).chain run.context =
      some (run.edges.map JoinEdge.link) := by
  obtain ⟨js, hjoined, -⟩ := run.joins.holds (Session.start_holds _ _) trivial
  obtain ⟨ks, hfinal⟩ := run.stages.holds hjoined
  obtain ⟨ls, hlast⟩ := h _ _ hfinal
  have hlinks : run.joined.draft.builder.active.chain run.context =
      some (run.edges.map JoinEdge.link) := by
    rw [run.joins.chain (run.joins.numbered (.of_nil rfl)) (List.Subset.refl _),
      Select.chain_eq_some_iff.mpr .root]
    rfl
  -- the select at the end has the joins of the pipeline in front of all others
  have hjoins := congrArg Select.joins (hlast.active.symm.trans hd.active)
  rw [hjoined.active, Select.chain_eq_some_iff] at hlinks
  rw [Select.chain_eq_some_iff, ← hjoins]
  exact (hlinks.append ks).append ls

end RowsRun

/-! ## Pages of a statement -/

/-- Whether a select is in the order of one column, read where these links lead. -/
def Select.OrderedAlong (s : Select) (links : Chain) (column : String) : Prop :=
  ∃ context, s.chain context = some links ∧ s.order = [⟨.column context column, false⟩]

/-- The column is one of the root just if there are no links. -/
theorem Select.OrderedAlong.root_iff {s : Select} {links : Chain} {column : String}
    (h : s.OrderedAlong links column) :
    s.order = [⟨.column .root column, false⟩] ↔ links = [] := by
  obtain ⟨context, hchain, horder⟩ := h
  rw [horder]
  rw [Select.chain_eq_some_iff] at hchain
  cases hchain <;> simp

/-- Whether what a statement cuts are the rows of one select, in its order. -/
structure Statement.PagesOf (statement : Statement) (s : Select) : Prop where
  exists_page : ∃ page ∈ statement.selects, page.limit = s.limit
  of_page : ∀ page ∈ statement.selects, page.limit.isSome = true →
    page.joins = s.joins ∧ page.order = s.order

theorem pagesOf_query (forked : Bool) (s : Select) (columns : List (Context × String))
    (e : Expression) : (query forked s columns e).PagesOf s := by
  cases forked with
  | false =>
    refine ⟨⟨_, List.mem_singleton_self _, rfl⟩, fun page hpage _ => ?_⟩
    rw [List.mem_singleton.mp hpage]
    exact ⟨rfl, rfl⟩
  | true =>
    refine ⟨⟨_, List.mem_cons_of_mem _ (List.mem_singleton_self _), rfl⟩, ?_⟩
    intro page hpage hlimit
    rcases List.mem_pair.mp hpage with rfl | rfl
    · cases hlimit
    · exact ⟨rfl, rfl⟩

theorem pagesOf_singleton {statement : Statement} {s : Select} (h : statement.selects = [s]) :
    statement.PagesOf s := by
  refine ⟨⟨s, by rw [h]; exact List.mem_singleton_self s, rfl⟩, fun page hpage _ => ?_⟩
  rw [h] at hpage
  rw [List.mem_singleton.mp hpage]
  exact ⟨rfl, rfl⟩

/-- What a page of a table is ordered by if nothing sorts it. -/
def Statement.PagesByIdentifier (statement : Statement) (scan : TableScan) (pipeline : Request) :
    Prop :=
  ∃ (edges : List JoinEdge) (stages : Request),
    pipeline = .table scan :: (edges.map Token.join ++ stages) ∧
    (∀ t ∈ stages, t.isStage = true) ∧
    (∃ page ∈ statement.selects, page.limit.isSome = true) ∧
    ∀ page ∈ statement.selects, page.limit.isSome = true →
      page.OrderedAlong (edges.map JoinEdge.link) scan.identifier ∧
      (page.order = [⟨.column .root scan.identifier, false⟩] ↔ edges = [])

theorem RowsRun.pagesByIdentifier {c : Compiler} {name : String} {types : ParameterTypes}
    {pipeline : Request} (run : RowsRun c name types pipeline) {scan : TableScan}
    (hresolver : c.resolver = columnResolver) (hplain : plainTokens pipeline = true)
    (hhead : pipeline.head? = some (.table scan)) (hcut : CutUnsorted pipeline)
    {statement : Statement} {joins : List Join}
    (hpages : statement.PagesOf (run.gathered.select run.scan.table joins))
    (hchain : (run.gathered.select run.scan.table joins).chain run.context =
      some (run.edges.map JoinEdge.link)) :
    statement.PagesByIdentifier scan pipeline := by
  have horders := run.orders_of_cutUnsorted hresolver hplain hhead hcut
  obtain ⟨-, -, stages, hpipeline, hstages⟩ := run.plan_of_cutUnsorted hhead hcut
  refine ⟨run.edges, _, hpipeline, ?_, ?_, fun page hpage hlimit => ?_⟩
  · intro t ht
    rcases List.mem_append.mp ht with ht | ht
    · obtain ⟨argument, -, rfl⟩ := List.mem_map.mp ht
      rfl
    · exact hstages t ht
  · obtain ⟨page, hpage, hlimit⟩ := hpages.exists_page
    obtain ⟨before, slice, behind, rfl, hslice, -⟩ := hcut
    refine ⟨page, hpage, ?_⟩
    rw [hlimit]
    exact run.isSome_limit_iff.mpr ⟨slice, by simp, hslice⟩
  · obtain ⟨hjoins, horder⟩ := hpages.of_page page hpage hlimit
    have hordered : page.OrderedAlong (run.edges.map JoinEdge.link) scan.identifier := by
      refine ⟨run.context, ?_, horder.trans horders⟩
      rw [Select.chain_eq_some_iff] at hchain ⊢
      rw [hjoins]
      exact hchain
    exact ⟨hordered, by simpa using hordered.root_iff⟩

/--
With the default resolver and without contextual joins, a page of a table that nothing sorts is
ordered by the identifier of the table, ascending, at the context to which the joins of the pipeline
lead. This is the column of the root just if the pipeline has no joins.
-/
theorem compile_orders_page {c : Compiler} {name : String} {scan : TableScan} {pipeline : Request}
    {others : List Request} {rest : Request} {result : CompiledStatement}
    (hresolver : c.resolver = columnResolver) (hplain : plainTokens pipeline = true)
    (hhead : pipeline.head? = some (.table scan)) (hcut : CutUnsorted pipeline)
    (h : c.compile (.call name (pipeline :: others) :: rest) = .ok result) :
    result.statement.PagesByIdentifier scan pipeline := by
  obtain ⟨_, _, hcall, hcompiled⟩ := compiled_of_compile_ok h
  cases hcall
  -- the rows are the same under all methods, which differ in what they compile behind them
  cases hcompiled with
  | @get _ tokens joins d e _ run hc hd =>
    have hchain := run.chain_context (fun _ _ => hc.holds) hd
    have hpages := pagesOf_query false (run.gathered.select run.scan.table joins) [] e.expression
    exact run.pagesByIdentifier hresolver hplain hhead hcut hpages hchain
  | @count _ joins _ run hd =>
    have hchain := run.chain_context (fun _ _ h => ⟨[], by rwa [Select.appendJoins_nil]⟩) hd
    have hpages := pagesOf_query run.plan.forked (run.gathered.select run.scan.table joins)
      [(.root, run.scan.identifier)] (.aggregateRows .count)
    exact run.pagesByIdentifier hresolver hplain hhead hcut hpages hchain
  | @aggregate _ tokens joins function d e type _ _ run hc hd =>
    have hchain := run.chain_context (fun _ _ => hc.holds) hd
    have hpages := pagesOf_query run.plan.forked (run.gathered.select run.scan.table joins)
      (appendAllNew [] e.expression.columns) (.aggregate function e.expression)
    exact run.pagesByIdentifier hresolver hplain hhead hcut hpages hchain
  | delete _ run hd =>
    have hchain := run.chain_context (fun _ _ h => ⟨[], by rwa [Select.appendJoins_nil]⟩) hd
    exact run.pagesByIdentifier hresolver hplain hhead hcut (pagesOf_singleton rfl) hchain
  | set _ run hv hd =>
    have hchain := run.chain_context (fun _ _ => hv.holds) hd
    exact run.pagesByIdentifier hresolver hplain hhead hcut (pagesOf_singleton rfl) hchain
  | @insert target pairs d values _ hv =>
    -- the target of an insertion is a table alone, which nothing cuts
    obtain ⟨before, slice, behind, htarget, hslice, -⟩ := hcut
    have hmem : slice ∈ [Token.table target] := by rw [htarget]; simp
    rw [List.mem_singleton.mp hmem] at hslice
    cases hslice

/-- People with the cities they live in, if these are capitals, cut to a page. -/
def capitalPage : Request :=
  [.table ⟨"people", "id", false⟩, .join ⟨"cities", "{parent}.city = {child}.id", false⟩,
    .call "filter" [[.read ⟨"cities", "capital", .boolean, false⟩]],
    .call "slice" [[.parameter "begin"], [.parameter "end"]]]

/-- The number of people on the page. -/
def capitalCount : Request := [.call "count" [capitalPage]]

/-- What the number is compiled to: the page is ordered by the identifier of the cities. -/
def capitalCountCompiled : CompiledStatement where
  statement := .select
    { source := .derived, projection := [⟨.aggregateRows .count, none⟩] }
    (some
      { source := .table "people"
        joins := [⟨.root, 1, "cities", "{parent}.city = {child}.id"⟩]
        filter := some (.column (.join 1) "capital")
        order := [⟨.column (.join 1) "id", false⟩]
        limit := some ⟨.argument 0, .argument 1⟩
        projection := [⟨.column .root "id", some "c0"⟩] })
  parameters := [⟨.sliceOffset "begin", some .integer⟩, ⟨.sliceLimit "begin" "end", some .integer⟩]
  output := .value (some .integer)

theorem capitalCount_orders_page :
    standardCompiler.compile capitalCount = .ok capitalCountCompiled ∧
      standardCompiler.resolver = columnResolver ∧ plainTokens capitalPage = true ∧
      CutUnsorted capitalPage ∧
      capitalCountCompiled.statement.PagesByIdentifier ⟨"people", "id", false⟩ capitalPage := by
  have h : standardCompiler.compile capitalCount = .ok capitalCountCompiled := rfl
  have hcut : CutUnsorted capitalPage := ⟨capitalPage.take 3, _, [], rfl, rfl, by decide⟩
  exact ⟨h, rfl, rfl, hcut, compile_orders_page rfl rfl rfl hcut h⟩

/-! ## A page behind a join -/

/-- People with the cities they live in, cut to a page. -/
def joinedPage : Request :=
  [.table ⟨"people", "id", false⟩, .join ⟨"cities", "{parent}.city = {child}.id", false⟩,
    .call "slice" [[.parameter "begin"], [.parameter "end"]]]

/-- The names of these cities. -/
def joinedPageNames : Request :=
  [.call "get" [joinedPage, [.read ⟨"cities", "name", .string, false⟩]]]

/-- What they are compiled to. -/
def joinedPageCompiled : CompiledStatement where
  statement := .select
    { source := .table "people"
      joins := [⟨.root, 1, "cities", "{parent}.city = {child}.id"⟩]
      order := [⟨.column (.join 1) "id", false⟩]
      limit := some ⟨.argument 0, .argument 1⟩
      projection := [⟨.column (.join 1) "name", none⟩] }
    none
  parameters := [⟨.sliceOffset "begin", some .integer⟩, ⟨.sliceLimit "begin" "end", some .integer⟩]
  output := .list (some .string)

/-- A page behind a join is not ordered by the identifier of the people, which are its rows. -/
theorem joinedPage_order :
    standardCompiler.compile joinedPageNames = .ok joinedPageCompiled ∧
      standardCompiler.resolver = columnResolver ∧ plainTokens joinedPageNames = true ∧
      CutUnsorted joinedPage ∧
      ∃ page ∈ joinedPageCompiled.statement.selects, page.limit.isSome = true ∧
        page.order = [⟨.column (.join 1) "id", false⟩] ∧
        page.order ≠ [⟨.column .root "id", false⟩] :=
  ⟨rfl, rfl, rfl, ⟨joinedPage.take 2, _, [], rfl, rfl, by decide⟩, _, List.mem_singleton_self _,
    rfl, rfl, by decide⟩

end RequestCompiler
