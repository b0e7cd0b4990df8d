import RequestCompiler.Proofs.Compiler.Pagination
import RequestCompiler.Proofs.Compiler.Spelling

/-!
# Which pipelines are accepted

Plain stages have nothing in their arguments that could fail (`IsPlain`), so a pipeline of plain
stages compiles or not by what its canonical form spells. A step of the compiler passes a stage
whose phase may follow the one reached (`IsPlain.stages_step`); that all stages are passed is an
induction over them.

* `overRows_ok_iff` — a pipeline of plain stages is accepted if and only if it spells a word of the
  language of the method.
* `compile_ok_iff` — the same for requests that get, delete or count.
-/

namespace RequestCompiler

open Compilation

/-- A stage with nothing in it that could fail: a property with a name, or identifiers. -/
inductive IsPlain : Token → Prop where
  | filter {property : Property} (htype : property.type = .boolean)
      (hname : isBlank property.expression = false) : IsPlain (filterToken [.read property])
  | sort {descending : Bool} {property : Property} (hname : isBlank property.expression = false) :
      IsPlain (SortKey.token ⟨descending, [.read property]⟩)
  | slice {bounds : SliceBounds} (hstart : isIdentifier bounds.start = true)
      (hstop : isIdentifier bounds.stop = true) : IsPlain bounds.token
  | fork : IsPlain Canonical.fork

theorem IsPlain.isStage {t : Token} (h : IsPlain t) : t.isStage = true := by
  cases h with
  | @sort descending => cases descending <;> rfl
  | _ => rfl

theorem isPlain_sortByIdentifier {scan : TableScan} (h : isBlank scan.identifier = false) :
    IsPlain (Canonical.sortByIdentifier scan) := by
  let identifier : Property := ⟨scan.table, scan.identifier, .integer, scan.hasZero⟩
  show IsPlain (SortKey.token ⟨false, [.read identifier]⟩)
  exact .sort h

/-! ## Single stages -/

/-- Identifiers can be used. -/
theorem useParameter_ok {use : ParameterUse} (h : use.isValid = true) (name : String)
    (s : Session) :
    ∃ ordinal binder, useParameter use name s = .ok ordinal (s.withBinder binder) := by
  rw [outcome_useParameter]
  unfold ArgumentBinder.use?
  rw [if_pos h]
  exact ⟨_, _, rfl⟩

/-- Rows that are not forked can be. -/
theorem fork_ok {b : SelectBuilder} (h : b.isForked = false) : ∃ b', b.fork = .ok b' := by
  unfold SelectBuilder.fork
  cases hb : b.subquery with
  | none => exact ⟨_, rfl⟩
  | some q =>
    rw [SelectBuilder.isForked, hb] at h
    cases h

/-- Bounds that are identifiers cut the rows. -/
theorem sliceStage_bounds_ok {bounds : SliceBounds} (hstart : isIdentifier bounds.start = true)
    (hstop : isIdentifier bounds.stop = true) (s : Session) :
    ∃ binder limit, Compiler.sliceStage [[.parameter bounds.start], [.parameter bounds.stop]] s =
      .ok () ((s.withBinder binder).withBuilder (s.draft.builder.withActive limit)) := by
  have hoffset : (ParameterUse.sliceOffset bounds.start).isValid = true := by
    simp [ParameterUse.isValid, ParameterUse.names, hstart]
  have hcount : (ParameterUse.sliceLimit bounds.start bounds.stop).isValid = true := by
    simp [ParameterUse.isValid, ParameterUse.names, hstart, hstop]
  obtain ⟨offset, binder, hfirst⟩ := useParameter_ok hoffset bounds.start s
  obtain ⟨count, binder', hsecond⟩ :=
    useParameter_ok hcount bounds.stop (s.withBinder binder)
  have hbound (position : Nat) (name : String) (s : Session) :
      ofResult (boundName "slice" position [.parameter name]) s = .ok name s := rfl
  refine ⟨binder', s.draft.builder.active.setLimit (.argument offset) (.argument count), ?_⟩
  rw [Compiler.sliceStage, bind_of_ok (hbound 0 bounds.start s),
    bind_of_ok (hbound 1 bounds.stop s), bind_of_ok hfirst, bind_of_ok hsecond]
  rfl

theorem forkStage_ok_of_not_forked {method : String}
    (hscalar : (Method.ofName method).isScalar = true) {s : Session}
    (h : s.draft.builder.isForked = false) :
    ∃ b, Compiler.forkStage method "fork" [] s = .ok () (s.withBuilder b) := by
  obtain ⟨b, hb⟩ := fork_ok h
  refine ⟨b, ?_⟩
  have hperform : s.draft.builder.perform .fork = .ok (.done, b) := by
    rw [SelectBuilder.perform, hb]
    rfl
  rw [Compiler.forkStage, if_neg (by simp [hscalar])]
  exact perform_eq_ok.mpr ⟨.done, b, hperform, rfl⟩

/-- What a stage leaves alone: the rollback points and, unless it forks them, where rows are. -/
structure Session.Passes (s : Session) (phase : Phase) (s' : Session) : Prop where
  points : s'.points = s.points
  isForked : phase ≠ .fork → s'.draft.builder.isForked = s.draft.builder.isForked

theorem stages_cons {c : Compiler} {method previous name : String} {context : Context}
    {reached phase : Phase} {arguments : List Request} {s s' : Session}
    (hphase : Phase.ofName? name = some phase) (hfollow : phase.mayFollow reached = true)
    (hstage : c.stage method context phase name arguments s = .ok () s') (rest : Request) :
    c.stages method context reached previous (.call name arguments :: rest) s =
      c.stages method context phase name rest s' := by
  rw [Compiler.stages, hphase]
  simp only [hfollow, if_true]
  exact bind_of_ok hstage

section Steps

variable {c : Compiler} (hresolver : c.resolver = columnResolver)

include hresolver

/-- A property with a name is read as a column. -/
theorem expression_read {property : Property} (hname : isBlank property.expression = false)
    (context : Context) (requiredness : Requiredness) (s : Session) :
    c.expression context requiredness [.read property] s =
      .ok ⟨.column (readingContext property.table context s.draft.contextual) property.expression,
        some property.type⟩ s := by
  have hread : c.resolver property context s.draft.contextual =
      .ok (.column (readingContext property.table context s.draft.contextual) property.expression,
        property.type) := by
    rw [hresolver, columnResolver, hname]
    rfl
  show c.operand context requiredness (.read property) s = _
  rw [Compiler.operand, bind_of_ok (show contextual s = .ok s.draft.contextual s from rfl), hread]
  rfl

theorem predicate_read {property : Property} (htype : property.type = .boolean)
    (hname : isBlank property.expression = false) (context : Context) (s : Session) :
    ∃ p, c.predicate context [.read property] s = .ok p s := by
  rw [Compiler.predicate, bind_of_ok (expression_read hresolver hname context .required s), htype]
  exact ⟨_, rfl⟩

variable {method : String} {context : Context} {reached phase : Phase} {s : Session}

/-! ## All stages -/

/-- A plain stage is passed if its phase may follow the one reached. -/
theorem IsPlain.stages_step {t : Token} (h : IsPlain t) (previous : String)
    (hphase : Phase.of? t = some phase)
    (hfollow : phase.mayFollow reached = true)
    (hfork : phase = .fork →
      (Method.ofName method).isScalar = true ∧ s.draft.builder.isForked = false) :
    ∃ s' name, s.Passes phase s' ∧ ∀ rest,
      c.stages method context reached previous (t :: rest) s =
        c.stages method context phase name rest s' := by
  cases h with
  | @filter property htype hname =>
    cases hphase
    obtain ⟨p, hp⟩ := predicate_read hresolver htype hname context s
    refine ⟨s.withBuilder (s.draft.builder.andFilter p), "filter", ⟨rfl, fun _ => ?_⟩,
      stages_cons rfl hfollow (bind_of_ok hp)⟩
    exact SelectBuilder.isForked_withActive _ _
  | @sort descending property hname =>
    have hkey := expression_read hresolver hname context .required s
    have hname : Phase.ofName? (if descending then "rsort" else "sort") = some .sort := by
      cases descending <;> rfl
    cases hname.symm.trans hphase
    refine ⟨_, _, ⟨?_, fun _ => ?_⟩, stages_cons hname hfollow (bind_of_ok hkey)⟩
    · rfl
    · exact SelectBuilder.isForked_withActive _ _
  | @slice bounds hstart hstop =>
    cases hphase
    obtain ⟨binder, limit, hslice⟩ := sliceStage_bounds_ok hstart hstop s
    refine ⟨_, "slice", ⟨?_, fun _ => ?_⟩, stages_cons rfl hfollow hslice⟩
    · rfl
    · exact SelectBuilder.isForked_withActive _ _
  | fork =>
    cases hphase
    obtain ⟨hscalar, hforked⟩ := hfork rfl
    obtain ⟨b, hb⟩ := forkStage_ok_of_not_forked hscalar hforked
    exact ⟨s.withBuilder b, "fork", ⟨rfl, fun h => absurd rfl h⟩, stages_cons rfl hfollow hb⟩

/-- Plain stages are passed one after the other if they spell a word in order. -/
theorem stages_ok_of_inOrder {stages : Request} (previous : String)
    (hplain : ∀ t ∈ stages, IsPlain t)
    (horder : Phase.InOrder (reached :: spelling stages))
    (hscalar : .fork ∈ spelling stages → (Method.ofName method).isScalar = true)
    (hs : s.draft.builder.isForked = true → reached = .fork) :
    ∃ s', c.stages method context reached previous stages s = .ok () s' ∧
      s'.points = s.points := by
  induction stages generalizing reached previous s with
  | nil => exact ⟨s, rfl, rfl⟩
  | cons t rest ih =>
    obtain ⟨ht, hrest⟩ := List.forall_mem_cons.mp hplain
    obtain ⟨phase, hphase⟩ := Option.isSome_iff_exists.mp ht.isStage
    rw [spelling_cons hphase] at horder hscalar
    obtain ⟨hfollow, horder⟩ := List.pairwise_cons.mp horder
    have hnext := hfollow phase List.mem_cons_self
    -- a forked builder has reached the last phase, which nothing may follow
    have hforked : s.draft.builder.isForked = false := by
      by_contra h
      rw [hs ((Bool.not_eq_false _).mp h)] at hnext
      cases phase <;> cases hnext
    obtain ⟨u, name, hpasses, hstep⟩ := ht.stages_step hresolver previous hphase hnext
      fun hfork => ⟨hscalar (by simp [hfork]), hforked⟩
    obtain ⟨s', hok, hpoints⟩ := ih name hrest horder (fun h => hscalar (List.mem_cons_of_mem _ h))
      fun h => by
        by_contra hne
        rw [hpasses.isForked hne, hforked] at h
        cases h
    exact ⟨s', (hstep rest).trans hok, hpoints.trans hpasses.points⟩

omit hresolver in
/-- Joins are followed until the first stage. -/
theorem leadingJoins_ok {stages : Request} (hstages : ∀ t ∈ stages, t.isStage = true)
    (edges : List JoinEdge) (context : Context) (s : Session) :
    ∃ context' s', Compiler.leadingJoins context (edges.map Token.join ++ stages) s =
        .ok (context', stages) s' ∧
      s'.points = s.points ∧ s'.draft.builder.isForked = s.draft.builder.isForked := by
  induction edges generalizing context s with
  | nil =>
    cases stages with
    | nil => exact ⟨context, s, rfl, rfl, rfl⟩
    | cons t rest =>
      cases t with
      | join edge => cases hstages _ List.mem_cons_self
      | _ => exact ⟨context, s, rfl, rfl, rfl⟩
  | cons edge edges ih =>
    obtain ⟨context', s', hok, hpoints, hforked⟩ :=
      ih (.join (s.followJoin context edge).1) (s.followJoin context edge).2
    exact ⟨context', s', hok, hpoints, hforked.trans (SelectBuilder.isForked_withActive _ _)⟩

/-- A plain filter at the head is compiled, and all else is left to the stages. -/
theorem leadingFilter_ok {stages : Request} (hplain : ∀ t ∈ stages, IsPlain t) (context : Context)
    (s : Session) :
    ∃ rest s', c.leadingFilter context stages s = .ok rest s' ∧ rest <:+ stages ∧
      s'.points = s.points ∧ s'.draft.builder.isForked = s.draft.builder.isForked := by
  cases stages with
  | nil => exact ⟨[], s, rfl, List.suffix_refl _, rfl, rfl⟩
  | cons t rest =>
    cases hplain t List.mem_cons_self with
    | @filter property htype hname =>
      obtain ⟨p, hp⟩ := predicate_read hresolver htype hname context s
      refine ⟨rest, _, bind_of_ok hp, List.suffix_cons _ _, ?_, ?_⟩
      · rfl
      · exact SelectBuilder.isForked_withActive _ _
    | @sort descending =>
      cases descending <;> exact ⟨_, s, rfl, List.suffix_refl _, rfl, rfl⟩
    | _ => exact ⟨_, s, rfl, List.suffix_refl _, rfl, rfl⟩

/-- Joins and plain stages are compiled if the stages spell an admitted word. -/
theorem rows_ok_of_admitted {stages : Request} (hplain : ∀ t ∈ stages, IsPlain t)
    (hadmitted : Phase.Admitted (Method.ofName method) (spelling stages))
    (edges : List JoinEdge) (hs : s.draft.builder.isForked = false) :
    ∃ context s', c.rows method (edges.map Token.join ++ stages) s = .ok context s' ∧
      s'.points = s.points := by
  obtain ⟨context, s₁, hjoins, hpoints₁, hforked₁⟩ :=
    leadingJoins_ok (fun t ht => (hplain t ht).isStage) edges .root s
  obtain ⟨rest, s₂, hleading, hsuffix, hpoints₂, hforked₂⟩ :=
    leadingFilter_ok hresolver hplain context s₁
  have hsublist : (spelling rest).Sublist (spelling stages) := hsuffix.sublist.filterMap _
  have horder : Phase.InOrder (.filter :: spelling rest) :=
    Phase.inOrder_filter_cons.mpr (hadmitted.1.sublist hsublist)
  have hforked : ¬ s₂.draft.builder.isForked = true := by
    rw [hforked₂, hforked₁, hs]
    exact Bool.false_ne_true
  obtain ⟨s₃, hstages, hpoints₃⟩ : ∃ s₃,
      c.stages method context .filter "filter" rest s₂ = .ok () s₃ ∧ s₃.points = s₂.points :=
    stages_ok_of_inOrder hresolver "filter" (fun t ht => hplain t (hsuffix.subset ht)) horder
      (fun h => hadmitted.2 (hsublist.subset h)) (absurd · hforked)
  refine ⟨context, s₃, ?_, hpoints₃.trans (hpoints₂.trans hpoints₁)⟩
  unfold Compiler.rows
  exact (bind_of_ok hjoins).trans ((bind_of_ok hleading).trans (bind_of_ok hstages))

end Steps

/-! ## Runs spell words in order -/

open scoped Computability in
/-- A plan is in order. -/
theorem StagePlan.inOrder_spelling (plan : StagePlan) : Phase.InOrder (spelling plan.tokens) := by
  obtain ⟨filters, sorts, slice, forked⟩ := plan
  have hfilters : ∀ p ∈ spelling (filters.map filterToken), p = .filter :=
    spelling_map (fun _ => rfl) filters
  have hsorts : ∀ p ∈ spelling (sorts.map SortKey.token), p = .sort := by
    refine spelling_map (fun key => ?_) sorts
    obtain ⟨descending, argument⟩ := key
    cases descending <;> rfl
  obtain ⟨horder, hrows⟩ := Phase.mem_filters_mul_sorts.mp
    (Language.append_mem_mul (Phase.mem_kstar_letter.mpr hfilters)
      (Phase.mem_kstar_letter.mpr hsorts))
  rw [← spelling_append] at horder hrows
  have hfork : .fork ∉ spelling (filters.map filterToken ++ sorts.map SortKey.token) := fun h => by
    rcases hrows _ h with h | h <;> cases h
  unfold tokens
  cases slice with
  | none =>
    rw [Option.toList_none, List.map_nil, List.append_nil]
    cases forked with
    | false => simpa using horder
    | true =>
      rw [if_pos rfl, spelling_append]
      exact Phase.inOrder_concat_fork horder hfork
  | some bounds =>
    rw [List.append_assoc, spelling_append]
    cases forked with
    | false => exact Phase.inOrder_cut.mpr ⟨horder, hrows, Or.inl rfl⟩
    | true => exact Phase.inOrder_cut.mpr ⟨horder, hrows, Or.inr rfl⟩

/-- What was compiled spells an admitted word. -/
theorem RowsRun.admitted {c : Compiler} {name : String} {types : ParameterTypes}
    {pipeline : Request} (run : RowsRun c name types pipeline) :
    Phase.Admitted (Method.ofName name) (spelling (canonical name pipeline)) := by
  have hspelling : spelling (canonical name pipeline) = spelling run.plan.tokens := by
    rw [run.shape]
    exact spelling_pipelineOf run.scan run.edges run.plan.tokens
  rw [hspelling]
  refine ⟨run.plan.inOrder_spelling, fun hfork => ?_⟩
  obtain ⟨t, ht, hphase⟩ := List.mem_filterMap.mp hfork
  have hforked := StagePlan.forked_of_mem ht (of?_eq_fork_iff.mp hphase)
  by_contra hscalar
  rw [run.stages.forked_eq_false ((Bool.not_eq_true _).mp hscalar)] at hforked
  cases hforked

/-! ## Accepted pipelines -/

/-- Whether a computation succeeds in every session that can be finished, and leaves it so. -/
def Finishes {α : Type} (body : Compilation α) : Prop :=
  ∀ s, s.points = [] → ∃ a s', body s = .ok a s' ∧ s'.points = []

theorem run_ok_of_finishes {o : Opening} {types : ParameterTypes} {close : Closing} {s : Session}
    (h : o.body (Session.start o.table types) = .ok close s) (hs : s.points = []) :
    ∃ result, o.run types = .ok result := by
  unfold Opening.run Session.finish
  simp only [h, hs, List.isEmpty_nil, if_true]
  exact ⟨_, rfl⟩

theorem Finishes.pure {α : Type} (a : α) : Finishes (Pure.pure a : Compilation α) :=
  fun s hs => ⟨a, s, rfl, hs⟩

theorem Finishes.close {α β : Type} {body : Compilation α} (h : Finishes body) (close : α → β) :
    Finishes (do return close (← body)) := by
  intro s hs
  obtain ⟨a, s', ha, hs'⟩ := h s hs
  exact ⟨close a, s', bind_of_ok ha, hs'⟩

theorem finishes_projection {c : Compiler} (hresolver : c.resolver = columnResolver)
    {property : Property} (hname : isBlank property.expression = false) (context : Context) :
    Finishes (c.projection context [.read property]) := fun s hs =>
  ⟨_, _, bind_of_ok (expression_read hresolver hname context .required s), hs⟩

theorem finishes_rowCount (scan : TableScan) : Finishes (Compiler.rowCount scan) := fun _ hs =>
  ⟨_, _, rfl, hs⟩

section Accepted

variable {c : Compiler} (hresolver : c.resolver = columnResolver) {scan : TableScan}
  (hscan : isBlank scan.identifier = false) (edges : List JoinEdge) {stages : Request}
  (hstages : ∀ t ∈ stages, IsPlain t)

include hresolver hscan hstages

/--
A pipeline of plain stages is accepted if and only if the stages spell a word of the language of
its method, given that what the method adds succeeds.
-/
theorem overRows_ok_iff (name : String) (types : ParameterTypes)
    {body : TableScan → Context → Compilation Closing}
    (hbody : ∀ scan context, Finishes (body scan context)) :
    (∃ result, (c.overRows name (Canonical.pipelineOf scan edges stages) body >>=
        fun o => o.run types) = .ok result) ↔
      spelling stages ∈ Phase.language (Method.ofName name) := by
  have hcanonical := Canonical.canonical_pipelineOf name scan edges stages
  have hplain : ∀ t ∈ Canonical.canonicalStages (Method.ofName name) scan stages, IsPlain t := by
    intro t ht
    rcases Canonical.mem_canonicalStages ht with ht | rfl | rfl
    · exact hstages t ht
    · exact isPlain_sortByIdentifier hscan
    · exact .fork
  rw [← admitted_canonicalStages_iff (Method.ofName name) scan fun t ht => (hstages t ht).isStage]
  constructor
  · rintro ⟨result, h⟩
    obtain ⟨o, ho, h⟩ := resultBind_ok.mp h
    obtain ⟨run, -⟩ := overRows_ok ho h
    have hadmitted := run.admitted
    rw [hcanonical, spelling_pipelineOf] at hadmitted
    exact hadmitted
  · intro hadmitted
    obtain ⟨context, s, hrows, hpoints⟩ : ∃ context s,
        c.rows name (edges.map Token.join ++
          Canonical.canonicalStages (Method.ofName name) scan stages)
          (Session.start scan.table types) = .ok context s ∧ s.points = [] :=
      rows_ok_of_admitted hresolver hplain hadmitted edges rfl
    obtain ⟨a, s', ha, hs'⟩ := hbody scan context s hpoints
    unfold Compiler.overRows
    rw [hcanonical]
    exact run_ok_of_finishes ((bind_of_ok hrows).trans ha) hs'

theorem get_ok_iff {projection : Property} (hprojection : isBlank projection.expression = false)
    (rest : Request) :
    (∃ result, c.compile
        (.call "get" [Canonical.pipelineOf scan edges stages, [.read projection]] :: rest) =
          .ok result) ↔ spelling stages ∈ Phase.getLanguage :=
  overRows_ok_iff hresolver hscan edges hstages "get" _ fun _ context =>
    (finishes_projection hresolver hprojection context).close selectStatement

theorem delete_ok_iff (rest : Request) :
    (∃ result, c.compile (.call "delete" [Canonical.pipelineOf scan edges stages] :: rest) =
      .ok result) ↔ spelling stages ∈ Phase.deleteLanguage :=
  overRows_ok_iff hresolver hscan edges hstages "delete" _ fun _ _ => .pure _

theorem count_ok_iff (rest : Request) :
    (∃ result, c.compile (.call "count" [Canonical.pipelineOf scan edges stages] :: rest) =
      .ok result) ↔ spelling stages ∈ Phase.countLanguage :=
  overRows_ok_iff hresolver hscan edges hstages "count" _ fun scan _ =>
    (finishes_rowCount scan).close selectStatement

/--
The accepted pipelines of plain stages, by method: those whose stages spell a word of the language
of a get, of a deletion or of a count.
-/
theorem compile_ok_iff {projection : Property} (hprojection : isBlank projection.expression = false)
    (rest : Request) :
    ((∃ result, c.compile
        (.call "get" [Canonical.pipelineOf scan edges stages, [.read projection]] :: rest) =
          .ok result) ↔ spelling stages ∈ Phase.getLanguage) ∧
    ((∃ result, c.compile
        (.call "delete" [Canonical.pipelineOf scan edges stages] :: rest) = .ok result) ↔
          spelling stages ∈ Phase.deleteLanguage) ∧
    ((∃ result, c.compile
        (.call "count" [Canonical.pipelineOf scan edges stages] :: rest) = .ok result) ↔
          spelling stages ∈ Phase.countLanguage) :=
  ⟨get_ok_iff hresolver hscan edges hstages hprojection rest,
    delete_ok_iff hresolver hscan edges hstages rest,
    count_ok_iff hresolver hscan edges hstages rest⟩

end Accepted

/-! ## Two filters behind a sort -/

/-- A sort by name and two filters behind it. -/
def lateFilters : Request :=
  [.call "sort" [[.read ⟨"people", "name", .string, false⟩]],
    .call "filter" [[.read ⟨"people", "active", .boolean, false⟩]],
    .call "filter" [[.read ⟨"people", "adult", .boolean, false⟩]]]

theorem isPlain_lateFilters : ∀ t ∈ lateFilters, IsPlain t := by
  intro t ht
  simp only [lateFilters, List.mem_cons, List.not_mem_nil, or_false] at ht
  rcases ht with rfl | rfl | rfl
  · let name : Property := ⟨"people", "name", .string, false⟩
    show IsPlain (SortKey.token ⟨false, [.read name]⟩)
    exact .sort (by decide)
  · exact .filter rfl (by decide)
  · exact .filter rfl (by decide)

/-- The people who pass the filters. -/
def latePeople : Request := Canonical.pipelineOf ⟨"people", "id", false⟩ [] lateFilters

/-- Only one filter is brought ahead of the sort, so they cannot be read but can be deleted. -/
theorem lateFilters_compile_ok_iff :
    spelling lateFilters = [.sort, .filter, .filter] ∧
    standardCompiler.compile
        [.call "get" [latePeople, [.read ⟨"people", "name", .string, false⟩]]] =
      .error (.unexpectedStage "filter" "sort") ∧
    spelling lateFilters ∉ Phase.getLanguage ∧
    (∃ result, standardCompiler.compile [.call "delete" [latePeople]] = .ok result) ∧
    spelling lateFilters ∈ Phase.deleteLanguage ∧
    (∃ result, standardCompiler.compile [.call "count" [latePeople]] = .ok result) ∧
    spelling lateFilters ∈ Phase.countLanguage := by
  let name : Property := ⟨"people", "name", .string, false⟩
  let scan : TableScan := ⟨"people", "id", false⟩
  have hname : isBlank name.expression = false := by decide
  have hscan : isBlank scan.identifier = false := by decide
  obtain ⟨hget, hdelete, hcount⟩ :=
    compile_ok_iff (show standardCompiler.resolver = columnResolver from rfl) hscan []
      isPlain_lateFilters hname []
  have hrefused : standardCompiler.compile [.call "get" [latePeople, [.read name]]] =
      .error (.unexpectedStage "filter" "sort") := rfl
  have hword : spelling lateFilters = [.sort, .filter, .filter] := rfl
  have hnot : .slice ∉ spelling lateFilters := by rw [hword]; decide
  have hread : spelling lateFilters ∉ Phase.getLanguage := fun h => by
    obtain ⟨result, hresult⟩ := hget.mpr h
    cases hrefused.symm.trans hresult
  have hdeleted : spelling lateFilters ∈ Phase.deleteLanguage := by
    rw [Phase.mem_deleteLanguage_unsliced hnot, hword]
    unfold Phase.FiltersAndSorts
    decide
  have hcounted : spelling lateFilters ∈ Phase.countLanguage := by
    rw [Phase.mem_countLanguage_unsliced hnot, Phase.mem_filters_mul_fork, hword]
    unfold Phase.InOrder
    decide
  exact ⟨hword, hrefused, hread, hdelete.mpr hdeleted, hdeleted, hcount.mpr hcounted, hcounted⟩

end RequestCompiler
