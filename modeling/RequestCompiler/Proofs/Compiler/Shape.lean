import RequestCompiler.Proofs.Compiler.Requests
import RequestCompiler.Proofs.Pipeline.Kept

/-!
# The shape of compiled pipelines

A pipeline is written as a table, then the joins followed from it, then its stages
(`IsPipeline`). What is compiled is the canonical form, and only that is required to have this
shape. Apart from its sorts a pipeline has the shape if its canonical form does; but sorts are
dropped and moved whatever stands behind them, so one that was written before a join may end up
among the stages.

* `compile_isPipeline` — what compiles is a pipeline, apart from sorts written too early.
* `earlySort_compiles` — a sort before a join compiles, and is read at the join.
-/

namespace RequestCompiler

/-- The phase of a token that is a stage. -/
def Phase.of? : Token → Option Phase
  | .call name _ => ofName? name
  | _ => none

/-- Whether the token is a stage. -/
def Token.isStage (t : Token) : Bool := (Phase.of? t).isSome

/-- Whether a request is a table, followed by joins, followed by stages only. -/
def IsPipeline (r : Request) : Prop :=
  ∃ (scan : TableScan) (edges : List JoinEdge) (stages : Request),
    r = .table scan :: (edges.map Token.join ++ stages) ∧ ∀ t ∈ stages, t.isStage = true

/-- Whether no table and no join stands behind a sort. -/
def SortsLate (r : Request) : Prop :=
  r.Pairwise fun t u =>
    Operation.sort.performedBy t = true → u.kind ≠ .table ∧ u.kind ≠ .join

/-! ## Joins, then stages -/

theorem isJoin_iff {t : Token} : t.isJoin = true ↔ ∃ edge, t = .join edge := by
  cases t <;> simp [Token.isJoin]

theorem isJoin_of_isStage {t : Token} (h : t.isStage = true) : t.isJoin = false := by
  cases t <;> first | rfl | cases h

/-- The phase in which an operation has its place. -/
def Operation.phase : Operation → Phase
  | .filter => .filter
  | .sort => .sort
  | .slice => .slice

/-- A token performs an operation if it is a stage of its phase. -/
theorem performedBy_iff_phase {operation : Operation} {t : Token} :
    operation.performedBy t = true ↔ Phase.of? t = some operation.phase := by
  rw [Operation.performedBy_iff]
  cases t with
  | call name arguments =>
    show Operation.ofName? name = some operation ↔ Phase.ofName? name = some operation.phase
    unfold Operation.ofName? Phase.ofName?
    split_ifs <;> cases operation <;> simp [Operation.phase]
  | _ => simp [Operation.of?, Phase.of?]

theorem isStage_of_performedBy {operation : Operation} {t : Token}
    (h : operation.performedBy t = true) : t.isStage = true := by
  rw [Token.isStage, performedBy_iff_phase.mp h, Option.isSome_some]

/-- Whether only stages are left once the leading joins are over. -/
def joinsThenStages (r : Request) : Bool := (r.dropWhile Token.isJoin).all Token.isStage

theorem joinsThenStages_cons {t : Token} (ht : t.isJoin = false) (rest : Request) :
    joinsThenStages (t :: rest) = (t.isStage && rest.all Token.isStage) := by
  rw [joinsThenStages, List.dropWhile_cons_of_neg (by simp [ht]), List.all_cons]

theorem joinsThenStages_stages {stages : Request} (h : ∀ t ∈ stages, t.isStage = true) :
    joinsThenStages stages = true :=
  List.all_eq_true.mpr fun t ht => h t ((List.dropWhile_suffix _).subset ht)

theorem joinsThenStages_iff {r : Request} :
    joinsThenStages r = true ↔ ∃ (edges : List JoinEdge) (stages : Request),
      r = edges.map Token.join ++ stages ∧ ∀ t ∈ stages, t.isStage = true := by
  constructor
  · intro h
    induction r with
    | nil => exact ⟨[], [], rfl, fun t ht => absurd ht List.not_mem_nil⟩
    | cons t r ih =>
      cases ht : t.isJoin with
      | true =>
        obtain ⟨edge, rfl⟩ := isJoin_iff.mp ht
        obtain ⟨edges, stages, rfl, hstages⟩ := ih h
        exact ⟨edge :: edges, stages, rfl, hstages⟩
      | false =>
        rw [joinsThenStages_cons ht, ← List.all_cons, List.all_eq_true] at h
        exact ⟨[], t :: r, rfl, h⟩
  · rintro ⟨edges, stages, rfl, hstages⟩
    induction edges with
    | nil => exact joinsThenStages_stages hstages
    | cons edge edges ih => exact ih

/-- Stages at the end make no difference. -/
theorem joinsThenStages_append {before stages : Request} (h : ∀ t ∈ stages, t.isStage = true) :
    joinsThenStages (before ++ stages) = joinsThenStages before := by
  induction before with
  | nil => exact joinsThenStages_stages h
  | cons t before ih =>
    cases ht : t.isJoin with
    | true =>
      obtain ⟨edge, rfl⟩ := isJoin_iff.mp ht
      exact ih
    | false =>
      rw [List.cons_append, joinsThenStages_cons ht, joinsThenStages_cons ht, List.all_append,
        List.all_eq_true.mpr h, Bool.and_true]

/-- A stage can be taken out. -/
theorem joinsThenStages_remove {before rest : Request} {t : Token} (ht : t.isStage = true)
    (h : joinsThenStages (before ++ t :: rest) = true) :
    joinsThenStages (before ++ rest) = true := by
  induction before with
  | nil =>
    rw [List.nil_append, joinsThenStages_cons (isJoin_of_isStage ht), Bool.and_eq_true,
      List.all_eq_true] at h
    exact joinsThenStages_stages h.2
  | cons u before ih =>
    cases hu : u.isJoin with
    | true =>
      obtain ⟨edge, rfl⟩ := isJoin_iff.mp hu
      exact ih h
    | false =>
      rw [List.cons_append, joinsThenStages_cons hu] at h ⊢
      simp only [List.all_append, List.all_cons, Bool.and_eq_true] at h ⊢
      exact ⟨h.1, h.2.1, h.2.2.2⟩

/-! ## Pipelines -/

theorem isPipeline_iff {r : Request} :
    IsPipeline r ↔ ∃ scan rest, r = .table scan :: rest ∧ joinsThenStages rest = true := by
  simp only [joinsThenStages_iff]
  constructor
  · rintro ⟨scan, edges, stages, rfl, h⟩
    exact ⟨scan, _, rfl, edges, stages, rfl, h⟩
  · rintro ⟨scan, _, rfl, edges, stages, rfl, h⟩
    exact ⟨scan, edges, stages, rfl, h⟩

instance : (r : Request) → Decidable (IsPipeline r)
  | .table scan :: rest =>
    decidable_of_iff (joinsThenStages rest = true) (by simp [isPipeline_iff])
  | [] | .call .. :: _ | .read _ :: _ | .parameter _ :: _ | .join _ :: _ | .assignments _ :: _ =>
    isFalse (by simp [isPipeline_iff])

namespace IsPipeline

theorem cons_iff {t : Token} {rest : Request} :
    IsPipeline (t :: rest) ↔ (∃ scan, t = .table scan) ∧ joinsThenStages rest = true := by
  rw [isPipeline_iff]
  constructor
  · rintro ⟨scan, _, hcut, h⟩
    cases hcut
    exact ⟨⟨scan, rfl⟩, h⟩
  · rintro ⟨⟨scan, rfl⟩, h⟩
    exact ⟨scan, rest, rfl, h⟩

/-- A stage can be taken out of a pipeline. -/
theorem remove {before rest : Request} {t : Token} (ht : t.isStage = true)
    (h : IsPipeline (before ++ t :: rest)) : IsPipeline (before ++ rest) := by
  cases before with
  | nil =>
    obtain ⟨⟨scan, rfl⟩, -⟩ := cons_iff.mp h
    cases ht
  | cons u before =>
    obtain ⟨hu, h⟩ := cons_iff.mp h
    exact cons_iff.mpr ⟨hu, joinsThenStages_remove ht h⟩

/-- Stages at the end can be exchanged for others. -/
theorem exchange {before stages stages' : Request} (hold : ∀ t ∈ stages, t.isStage = true)
    (hnew : ∀ t ∈ stages', t.isStage = true) (h : IsPipeline (before ++ stages)) :
    IsPipeline (before ++ stages') := by
  cases before with
  | nil =>
    obtain ⟨scan, _, rfl, -⟩ := isPipeline_iff.mp h
    cases hold _ List.mem_cons_self
  | cons u before =>
    rw [List.cons_append, cons_iff, joinsThenStages_append hold] at h
    rw [List.cons_append, cons_iff, joinsThenStages_append hnew]
    exact h

/-- A token of a pipeline is the table, a join or a stage. -/
theorem isStage_of_mem {r : Request} (h : IsPipeline r) {t : Token} (ht : t ∈ r)
    (htable : t.kind ≠ .table) (hjoin : t.kind ≠ .join) : t.isStage = true := by
  obtain ⟨scan, edges, stages, rfl, hstages⟩ := h
  rw [List.mem_cons, List.mem_append, List.mem_map] at ht
  rcases ht with rfl | ⟨edge, -, rfl⟩ | ht
  · exact absurd rfl htable
  · exact absurd rfl hjoin
  · exact hstages t ht

theorem unsorted {r : Request} (h : IsPipeline r) : IsPipeline (Canonical.unsorted r) := by
  obtain ⟨scan, edges, stages, rfl, hstages⟩ := h
  have hjoins : Canonical.unsorted (.table scan :: edges.map Token.join) =
      .table scan :: edges.map Token.join := by
    refine List.filter_eq_self.mpr ?_
    simp [Operation.performedBy, Operation.of?]
  rw [← List.cons_append, Canonical.unsorted_append, hjoins]
  exact ⟨scan, edges, _, rfl, fun t ht => hstages t (List.mem_filter.mp ht).1⟩

/-- Sorts that come late enough may be put back. -/
theorem of_unsorted {r : Request} (h : IsPipeline (Canonical.unsorted r)) (hlate : SortsLate r) :
    IsPipeline r := by
  cases hfirst : firstPosition .sort r with
  | none =>
    rw [firstPosition_eq_none] at hfirst
    rw [Canonical.unsorted, List.filter_eq_self.mpr fun t ht => by simp [hfirst t ht]] at h
    exact h
  | some i =>
    obtain ⟨before, sort, rest, rfl, -, hsort, hbefore⟩ := exists_cut_of_firstPosition hfirst
    have hstage : ∀ t ∈ sort :: rest, t.isStage = true := by
      intro t ht
      cases hsorted : Operation.sort.performedBy t with
      | true => exact isStage_of_performedBy hsorted
      | false =>
        have hrest : t ∈ rest := (List.mem_cons.mp ht).resolve_left fun heq => by
          rw [heq, hsort] at hsorted
          cases hsorted
        have hkept : t ∈ Canonical.unsorted (before ++ sort :: rest) :=
          List.mem_filter.mpr ⟨by simp [hrest], by simp [hsorted]⟩
        have hbehind := (List.pairwise_cons.mp (List.pairwise_append.mp hlate).2.1).1 t hrest hsort
        exact h.isStage_of_mem hkept hbehind.1 hbehind.2
    rw [Canonical.unsorted_append, Canonical.unsorted_eq_self (r := before) hbefore] at h
    exact h.exchange (fun t ht => hstage t (List.mem_filter.mp ht).1) hstage

/-- Apart from its sorts a pipeline has the shape of its canonical form. -/
theorem of_canonical {name : String} {r : Request} (h : IsPipeline (canonical name r)) :
    IsPipeline (Canonical.unsorted r) :=
  Canonical.of_unsorted_canonical (fun _ _ => remove rfl) h.unsorted

end IsPipeline

/-! ## What compiles -/

theorem StagePlan.isStage_of_mem {plan : StagePlan} {t : Token} (h : t ∈ plan.tokens) :
    t.isStage = true := by
  simp only [tokens, List.mem_append, List.mem_map] at h
  rcases h with ((⟨argument, -, rfl⟩ | ⟨⟨descending, argument⟩, -, rfl⟩) | ⟨bounds, -, rfl⟩) | h
  · rfl
  · cases descending <;> rfl
  · rfl
  · cases hforked : plan.forked with
    | true =>
      simp only [hforked, if_true, List.mem_singleton] at h
      rw [h]
      rfl
    | false => simp [hforked] at h

/-- The rows of a statement were read from a pipeline, apart from its sorts. -/
theorem RowsRun.isPipeline {c : Compiler} {name : String} {types : ParameterTypes}
    {pipeline : Request} (run : RowsRun c name types pipeline) :
    IsPipeline (Canonical.unsorted pipeline) :=
  .of_canonical ⟨run.scan, run.edges, _, run.shape, fun _ => StagePlan.isStage_of_mem⟩

/--
The first argument of a request that compiles is a pipeline, apart from its sorts; and if no table
and no join stands behind a sort, it is a pipeline as it was written.
-/
theorem compile_isPipeline {c : Compiler} {request : Request} {result : CompiledStatement}
    (h : c.compile request = .ok result) :
    ∃ name pipeline others, headCall request = .ok (name, pipeline :: others) ∧
      IsPipeline (Canonical.unsorted pipeline) ∧ (SortsLate pipeline → IsPipeline pipeline) := by
  obtain ⟨name, arguments, hhead, hcompiled⟩ := compiled_of_compile_ok h
  obtain ⟨pipeline, others, rfl, hpipeline⟩ :
      ∃ pipeline others, arguments = pipeline :: others ∧
        IsPipeline (Canonical.unsorted pipeline) := by
    cases hcompiled with
    | get _ run _ _ => exact ⟨_, _, rfl, run.isPipeline⟩
    | count _ run _ => exact ⟨_, _, rfl, run.isPipeline⟩
    | aggregate _ _ run _ _ => exact ⟨_, _, rfl, run.isPipeline⟩
    | delete _ run _ => exact ⟨_, _, rfl, run.isPipeline⟩
    | set _ run _ _ => exact ⟨_, _, rfl, run.isPipeline⟩
    | @insert scan _ _ _ _ _ =>
      exact ⟨_, _, rfl, ⟨scan, [], [], rfl, fun t ht => absurd ht List.not_mem_nil⟩⟩
  exact ⟨name, pipeline, others, hhead, hpipeline, hpipeline.of_unsorted⟩

theorem pagedSum_isPipeline : standardCompiler.compile pagedSum = .ok pagedSumCompiled ∧
    SortsLate pagedOrders ∧ IsPipeline pagedOrders := by
  have h : standardCompiler.compile pagedSum = .ok pagedSumCompiled := rfl
  have hlate : SortsLate pagedOrders := by unfold SortsLate pagedOrders; decide
  obtain ⟨name, pipeline, others, hhead, -, hpipeline⟩ := compile_isPipeline h
  cases hhead
  exact ⟨h, hlate, hpipeline hlate⟩

/-! ## A sort before a join -/

/-- People in the order of their names, then the cities they live in, if these are capitals. -/
def earlySortedPeople : Request :=
  [.table ⟨"people", "id", false⟩, .call "sort" [[.read ⟨"people", "name", .string, false⟩]],
    .join ⟨"cities", "{parent}.city = {child}.id", false⟩,
    .call "filter" [[.read ⟨"cities", "capital", .boolean, false⟩]]]

/-- The names of these cities. -/
def earlySort : Request :=
  [.call "get" [earlySortedPeople, [.read ⟨"cities", "name", .string, false⟩]]]

/-- What they are compiled to: the order is by a column of the cities. -/
def earlySortCompiled : CompiledStatement where
  statement := .select
    { source := .table "people"
      joins := [⟨.root, 1, "cities", "{parent}.city = {child}.id"⟩]
      filter := some (.column (.join 1) "capital")
      order := [⟨.column (.join 1) "name", false⟩]
      projection := [⟨.column (.join 1) "name", none⟩] }
    none
  parameters := []
  output := .list (some .string)

/-- A sort before a join is moved behind the filter that follows the join, and compiles there. -/
theorem earlySort_compiles : standardCompiler.compile earlySort = .ok earlySortCompiled ∧
    headCall earlySort =
      .ok ("get", [earlySortedPeople, [.read ⟨"cities", "name", .string, false⟩]]) ∧
    ¬ IsPipeline earlySortedPeople :=
  ⟨rfl, rfl, by decide⟩

end RequestCompiler
