import RequestCompiler.Proofs.Compiler.StageAccount
import RequestCompiler.Proofs.Pipeline.Idempotence

/-!
# Pages of a statement

A limit is a page only if the rows have an order, and a page is aggregated only as a whole. Two
passes share this: the canonical form puts a sort before a slice and a fork behind it, and the
stages are compiled in phases. They agree because what a rule has settled is still settled in the
canonical form (`paginationSettled_canonical`, `aggregationSettled_canonical`).

* `RowsRun.orders_ne_nil` — rows that are cut are in order.
* `RowsRun.forked_of_limit` — rows that are cut are aggregated behind a fork.
* `compile_paginates` — so it is in every select of a compiled statement.
-/

namespace RequestCompiler

/-! ## Canonical forms -/

namespace Canonical

/-- In a canonical form, a slice of a table has a sort before it. -/
theorem paginationSettled_canonical (name : String) (r : Request) :
    PaginationSettled name (canonical name r) := by
  rw [canonical_eq]
  exact (paginationSettled_after_orderPagination name _).isolateAggregation.filterFirst

/-- In a canonical form under a method that yields one value, a fork follows the first slice. -/
theorem aggregationSettled_canonical (name : String) (r : Request) :
    AggregationSettled name (canonical name r) := by
  rw [canonical_eq]
  exact (aggregationSettled_after_isolateAggregation name _).filterFirst

/-- Slices are neither added nor dropped. -/
theorem occurs_slice_canonical {name : String} {r : Request} :
    Occurs .slice (canonical name r) ↔ Occurs .slice r := by
  have hkept : (canonical name r).filter Operation.slice.performedBy =
      r.filter Operation.slice.performedBy := filter_canonical_performedBy (by decide) name r
  have hmem (r : Request) : Occurs .slice r ↔ r.filter Operation.slice.performedBy ≠ [] := by
    rw [ne_eq, List.filter_eq_nil_iff]
    simp [Occurs]
  rw [hmem, hmem, hkept]

end Canonical

/-! ## Runs -/

theorem StagesRun.isSome_limit {c : Compiler} {method : String} {context : Context}
    {plan : StagePlan} {s s' : Session} {gathered : Gathered}
    (h : StagesRun c method context plan s gathered s') :
    gathered.limit.isSome = plan.slice.isSome := by
  cases h with
  | intro hfilters hsorts hslice hfork => cases hslice <;> rfl

theorem StagesRun.length_orders {c : Compiler} {method : String} {context : Context}
    {plan : StagePlan} {s s' : Session} {gathered : Gathered}
    (h : StagesRun c method context plan s gathered s') :
    gathered.orders.length = plan.sorts.length := by
  cases h with
  | intro hfilters hsorts hslice hfork => simpa using congrArg List.length hsorts.directions

/-- A plan without a fork has no token that calls it. -/
theorem StagePlan.forked_of_mem {plan : StagePlan} {t : Token} (h : t ∈ plan.tokens)
    (hfork : t.isCall "fork" = true) : plan.forked = true := by
  simp only [tokens, List.mem_append, List.mem_map] at h
  rcases h with ((⟨argument, -, rfl⟩ | ⟨⟨descending, argument⟩, -, rfl⟩) | ⟨bounds, -, rfl⟩) | h
  · cases hfork
  · cases descending <;> cases hfork
  · cases hfork
  · cases hforked : plan.forked with
    | true => rfl
    | false => simp [hforked] at h

namespace RowsRun

variable {c : Compiler} {name : String} {types : ParameterTypes} {pipeline : Request}
  (run : RowsRun c name types pipeline)

theorem occurs_canonical (operation : Operation) :
    Canonical.Occurs operation (canonical name pipeline) ↔ run.plan.performing operation ≠ [] := by
  rw [← run.filter_canonical, ne_eq, List.filter_eq_nil_iff]
  simp [Canonical.Occurs]

theorem occurs_slice_iff : Canonical.Occurs .slice (canonical name pipeline) ↔
    run.gathered.limit.isSome = true := by
  rw [run.occurs_canonical, run.stages.isSome_limit]
  cases hslice : run.plan.slice <;> simp [StagePlan.performing, hslice]

/-- Rows are cut if and only if the pipeline has a slice, as it was written. -/
theorem isSome_limit_iff : run.gathered.limit.isSome = true ↔ Canonical.Occurs .slice pipeline :=
  run.occurs_slice_iff.symm.trans Canonical.occurs_slice_canonical

/-- Rows that are cut are in order. -/
theorem orders_ne_nil (h : run.gathered.limit.isSome = true) : run.gathered.orders ≠ [] := by
  have hhead : (canonical name pipeline).head? = some (.table run.scan) := by
    rw [run.shape]
    rfl
  have hafter := Canonical.paginationSettled_canonical name pipeline run.scan hhead
    (run.occurs_slice_iff.mpr h)
  have hsort := (run.occurs_canonical .sort).mp (Canonical.occurs_of_occursAfter hafter).2
  -- each sort of the plan has left a key
  intro hnone
  have hlength := run.stages.length_orders
  rw [hnone, List.length_nil, eq_comm, List.length_eq_zero_iff] at hlength
  simp [StagePlan.performing, hlength] at hsort

/-- Rows that are cut are aggregated behind a fork. -/
theorem forked_of_limit (hscalar : (Method.ofName name).isScalar = true)
    (h : run.gathered.limit.isSome = true) : run.plan.forked = true := by
  obtain ⟨i, hi⟩ := Canonical.occurs_iff.mp (run.occurs_slice_iff.mpr h)
  have hfork := Canonical.aggregationSettled_canonical name pipeline hscalar i hi
  cases hget : (canonical name pipeline)[i + 1]? with
  | none =>
    rw [hget] at hfork
    cases hfork
  | some t =>
    rw [hget, Option.any_some] at hfork
    have ht := List.mem_of_getElem? hget
    -- the fork is neither the table nor a join, so it is a stage
    rw [run.shape, List.mem_cons, List.mem_append, List.mem_map] at ht
    rcases ht with rfl | ⟨edge, -, rfl⟩ | ht
    · cases hfork
    · cases hfork
    · exact StagePlan.forked_of_mem ht hfork

end RowsRun

/-! ## Statements -/

/-- The selects of a statement. -/
def Statement.selects : Statement → List Select
  | .select main derived => main :: derived.toList
  | .update rows _ => [rows]
  | .delete rows => [rows]
  | .insert _ _ => []

/-- Whether a select that cuts its rows has an order for them. -/
def Select.Paginates (s : Select) : Prop := s.limit.isSome = true → s.order ≠ []

/-- The selects of a query have the order and the limit of its rows, or neither. -/
theorem paginates_query (forked : Bool) {s : Select} (hs : s.Paginates)
    (columns : List (Context × String)) (e : Expression) :
    ∀ select ∈ (query forked s columns e).selects, select.Paginates := by
  intro select hselect
  cases forked with
  | false =>
    rw [List.mem_singleton.mp hselect]
    exact hs
  | true =>
    rcases List.mem_pair.mp hselect with rfl | rfl
    · intro h
      cases h
    · exact hs

/-- Whether a query cuts no rows of its own, and leaves it to a derived select if any are cut. -/
def Statement.CutsInside (statement : Statement) (sliced : Prop) : Prop :=
  ∃ main derived, statement = .select main derived ∧ main.limit = none ∧
    (sliced → ∃ rows, derived = some rows ∧ rows.limit.isSome = true ∧ main.source = .derived)

section Runs

variable {c : Compiler} {name : String} {types : ParameterTypes} {pipeline : Request}
  (run : RowsRun c name types pipeline)

/-- The select of a run cuts its rows only if it orders them. -/
theorem RowsRun.paginates (joins : List Join) :
    (run.gathered.select run.scan.table joins).Paginates := run.orders_ne_nil

/-- A value is computed from outside of a page. -/
theorem RowsRun.cutsInside_query (hscalar : (Method.ofName name).isScalar = true)
    (joins : List Join) (columns : List (Context × String)) (e : Expression) :
    (query run.plan.forked (run.gathered.select run.scan.table joins) columns e).CutsInside
      (Canonical.Occurs .slice pipeline) := by
  cases hforked : run.plan.forked with
  | false =>
    have hlimit : ¬ run.gathered.limit.isSome = true := fun h => by
      rw [run.forked_of_limit hscalar h] at hforked
      cases hforked
    refine ⟨_, none, rfl, Option.not_isSome_iff_eq_none.mp hlimit, fun hsliced => ?_⟩
    exact absurd (run.isSome_limit_iff.mpr hsliced) hlimit
  | true =>
    exact ⟨_, some _, rfl, rfl, fun hsliced => ⟨_, rfl, run.isSome_limit_iff.mpr hsliced, rfl⟩⟩

end Runs

/--
Every select of a compiled statement that cuts its rows orders them, and what is computed from a
slice is computed from outside of it.
-/
theorem compile_paginates {c : Compiler} {request : Request} {result : CompiledStatement}
    (h : c.compile request = .ok result) :
    (∀ select ∈ result.statement.selects, select.Paginates) ∧
      ∃ name pipeline others, headCall request = .ok (name, pipeline :: others) ∧
        ((Method.ofName name).isScalar = true →
          result.statement.CutsInside (Canonical.Occurs .slice pipeline)) := by
  obtain ⟨name, arguments, hhead, hcompiled⟩ := compiled_of_compile_ok h
  cases hcompiled with
  | get hmethod run hc hd =>
    refine ⟨paginates_query false (run.paginates _) [] _, name, _, _, hhead, fun hscalar => ?_⟩
    rw [hmethod] at hscalar
    cases hscalar
  | count hmethod run hd =>
    exact ⟨paginates_query _ (run.paginates _) _ _, name, _, _, hhead,
      fun hscalar => run.cutsInside_query hscalar _ _ _⟩
  | aggregate hmethod hfunction run hc hd =>
    exact ⟨paginates_query _ (run.paginates _) _ _, name, _, _, hhead,
      fun hscalar => run.cutsInside_query hscalar _ _ _⟩
  | delete hmethod run hd =>
    refine ⟨fun select hselect => ?_, name, _, _, hhead, fun hscalar => ?_⟩
    · rw [List.mem_singleton.mp hselect]
      exact run.paginates _
    · rw [hmethod] at hscalar
      cases hscalar
  | set hmethod run hv hd =>
    refine ⟨fun select hselect => ?_, name, _, _, hhead, fun hscalar => ?_⟩
    · rw [List.mem_singleton.mp hselect]
      exact run.paginates _
    · rw [hmethod] at hscalar
      cases hscalar
  | insert hmethod hv =>
    refine ⟨fun select hselect => (List.not_mem_nil hselect).elim, name, _, _, hhead,
      fun hscalar => ?_⟩
    rw [hmethod] at hscalar
    cases hscalar

/-- A page of orders, with a sort that comes too late to order it. -/
def lateSortedOrders : Request :=
  [.table ⟨"order", "id", false⟩, .call "slice" [[.parameter "start"], [.parameter "stop"]],
    .call "sort" [[.read ⟨"order", "total", .integer, false⟩]]]

/-- The number of orders on the page. -/
def pagedCount : Request := [.call "count" [lateSortedOrders]]

/-- What the number is compiled to: the page is ordered by the identifier. -/
def pagedCountCompiled : CompiledStatement where
  statement := .select
    { source := .derived, projection := [⟨.aggregateRows .count, none⟩] }
    (some
      { source := .table "order"
        order := [⟨.column .root "id", false⟩]
        limit := some ⟨.argument 0, .argument 1⟩
        projection := [⟨.column .root "id", some "c0"⟩] })
  parameters := [⟨.sliceOffset "start", some .integer⟩, ⟨.sliceLimit "start" "stop", some .integer⟩]
  output := .value (some .integer)

theorem pagedCount_paginates : standardCompiler.compile pagedCount = .ok pagedCountCompiled ∧
    (∀ select ∈ pagedCountCompiled.statement.selects, select.Paginates) ∧
      pagedCountCompiled.statement.CutsInside (Canonical.Occurs .slice lateSortedOrders) := by
  have h : standardCompiler.compile pagedCount = .ok pagedCountCompiled := rfl
  obtain ⟨hselects, name, pipeline, others, hhead, hinside⟩ := compile_paginates h
  cases hhead
  exact ⟨h, hselects, hinside (by decide)⟩

end RequestCompiler
