import Mathlib.Data.List.Forall2
import RequestCompiler.Proofs.Compiler.Closure
import RequestCompiler.Proofs.Compiler.Requests
import RequestCompiler.Proofs.Compiler.Uses
import RequestCompiler.Proofs.ParameterTypes.Locality

/-!
# Compilations that look at the same types

Of the types of parameters, a compilation looks at those of the parameters that its tokens mention.
Sessions that differ in other types only are `Alike`, and from sessions that are alike it comes to
the same result or to the same error, and to sessions that are alike again (`Respects`).

* `respects_expression` — so it is for expressions.
* `respects_rows`, `respects_assignments` — for pipelines and for assignments.
* `Opening.run_congr` — in a session of its own, a computation does not see other types at all.
-/

namespace RequestCompiler

open ParameterTypes

/-! ## Sessions that are alike -/

/-- Whether binders differ only in the types of parameters without a property. -/
structure ArgumentBinder.Alike (P : String → Prop) (b b' : ArgumentBinder) : Prop where
  arguments : b.arguments = b'.arguments
  types : AgreeOn P b.types b'.types

/-- Whether drafts do. -/
structure Draft.Alike (P : String → Prop) (d d' : Draft) : Prop where
  builder : d.builder = d'.builder
  binder : d.binder.Alike P d'.binder
  contextual : d.contextual = d'.contextual

/-- Whether sessions do, in the drafts of their rollback points too. -/
structure Session.Alike (P : String → Prop) (s s' : Session) : Prop where
  draft : s.draft.Alike P s'.draft
  points : List.Forall₂ (fun p p' => p.context = p'.context ∧ p.draft.Alike P p'.draft)
    s.points s'.points

variable {P : String → Prop}

namespace ArgumentBinder.Alike

variable {b b' : ArgumentBinder}

theorem bind (h : b.Alike P b') (a : Argument) : (b.bind a).Alike P (b'.bind a) := by
  refine ⟨?_, ?_⟩
  · rw [arguments_bind, arguments_bind, h.arguments]
  · rw [types_bind, types_bind]
    exact h.types

theorem argument (h : b.Alike P b') {use : ParameterUse}
    (hnamed : ∀ name requiredness, use = .named name requiredness → P name) :
    b.types.argument use = b'.types.argument use := by
  cases use with
  | named name requiredness =>
    rw [ParameterTypes.argument, ParameterTypes.argument, h.types name (hnamed _ _ rfl)]
  | _ => rfl

/-- A use has the same ordinal in both, or none in either. -/
theorem use? (h : b.Alike P b') {use : ParameterUse}
    (hnamed : ∀ name requiredness, use = .named name requiredness → P name) :
    (b.use? use = none ∧ b'.use? use = none) ∨
      ∃ ordinal c c', b.use? use = some (ordinal, c) ∧ b'.use? use = some (ordinal, c') ∧
        c.Alike P c' := by
  have hbind := h.bind (b.types.argument use)
  unfold ArgumentBinder.use?
  rw [← h.argument hnamed]
  split
  · refine Or.inr ⟨_, _, _, rfl, ?_, hbind⟩
    unfold ArgumentBinder.ordinal
    rw [hbind.arguments]
  · exact Or.inl ⟨rfl, rfl⟩

end ArgumentBinder.Alike

namespace Session.Alike

variable {s s' : Session}

theorem start {types types' : ParameterTypes} (h : AgreeOn P types types') (table : String) :
    (Session.start table types).Alike P (Session.start table types') :=
  ⟨⟨rfl, ⟨rfl, h⟩, rfl⟩, .nil⟩

theorem withBuilder (h : s.Alike P s') (b : SelectBuilder) :
    (s.withBuilder b).Alike P (s'.withBuilder b) :=
  ⟨⟨rfl, h.draft.binder, h.draft.contextual⟩, h.points⟩

theorem withBinder (h : s.Alike P s') {b b' : ArgumentBinder} (hb : b.Alike P b') :
    (s.withBinder b).Alike P (s'.withBinder b') :=
  ⟨⟨h.draft.builder, hb, h.draft.contextual⟩, h.points⟩

theorem setPoint (h : s.Alike P s') (context : Context) :
    (s.setPoint context).Alike P (s'.setPoint context) :=
  ⟨h.draft, .cons ⟨rfl, h.draft⟩ h.points⟩

/-- A join gets the same number in both. -/
theorem followJoin (h : s.Alike P s') (context : Context) (edge : JoinEdge) :
    (s.followJoin context edge).1 = (s'.followJoin context edge).1 ∧
      (s.followJoin context edge).2.Alike P (s'.followJoin context edge).2 := by
  unfold Session.followJoin
  rw [h.draft.builder, h.draft.contextual]
  exact ⟨rfl, ⟨rfl, h.draft.binder, rfl⟩, h.points⟩

theorem clearPoint (h : s.Alike P s') :
    (∃ cause, s.clearPoint = .error cause ∧ s'.clearPoint = .error cause) ∨
      ∃ t t', s.clearPoint = .ok t ∧ s'.clearPoint = .ok t' ∧ t.Alike P t' := by
  have hpoints := h.points
  unfold Session.clearPoint
  cases hs : s.points with
  | nil =>
    rw [hs, List.forall₂_nil_left_iff] at hpoints
    rw [hpoints]
    exact Or.inl ⟨_, rfl, rfl⟩
  | cons point points =>
    rw [hs, List.forall₂_cons_left_iff] at hpoints
    obtain ⟨point', points', -, hrest, hs'⟩ := hpoints
    rw [hs']
    exact Or.inr ⟨_, _, rfl, rfl, h.draft, hrest⟩

theorem rollback (h : s.Alike P s') :
    (∃ cause, s.rollback = .error cause ∧ s'.rollback = .error cause) ∨
      ∃ context t t', s.rollback = .ok (context, t) ∧ s'.rollback = .ok (context, t') ∧
        t.Alike P t' := by
  have hpoints := h.points
  unfold Session.rollback
  cases hs : s.points with
  | nil =>
    rw [hs, List.forall₂_nil_left_iff] at hpoints
    rw [hpoints]
    exact Or.inl ⟨_, rfl, rfl⟩
  | cons point points =>
    rw [hs, List.forall₂_cons_left_iff] at hpoints
    obtain ⟨point', points', ⟨hcontext, hdraft⟩, hrest, hs'⟩ := hpoints
    rw [hs']
    refine Or.inr ⟨_, _, ⟨point'.draft, points'⟩, rfl, ?_, hdraft, hrest⟩
    rw [hcontext]

/-- Sessions that are alike are finished with the same builder and the same arguments. -/
theorem finish (h : s.Alike P s') :
    (∃ cause, s.finish = .error cause ∧ s'.finish = .error cause) ∨
      ∃ builder b b', s.finish = .ok (builder, b) ∧ s'.finish = .ok (builder, b') ∧
        b.arguments = b'.arguments := by
  have hlength : s.depth = s'.depth := h.points.length_eq
  have hempty : s.points.isEmpty = s'.points.isEmpty := by
    rw [Bool.eq_iff_iff, List.isEmpty_iff_length_eq_zero, List.isEmpty_iff_length_eq_zero,
      h.points.length_eq]
  unfold Session.finish
  rw [hempty, hlength, h.draft.builder]
  split
  · exact Or.inr ⟨_, _, _, rfl, rfl, h.draft.binder.arguments⟩
  · exact Or.inl ⟨_, rfl, rfl⟩

end Session.Alike

/-! ## Computations that do not tell them apart -/

namespace Compilation

variable {α β : Type}

/-- Whether two runs came to the same value or the same error, in sessions that are alike. -/
inductive AlikeResult (P : String → Prop) :
    EStateM.Result CompileError Session α → EStateM.Result CompileError Session α → Prop
  | ok (a : α) {s s' : Session} (h : s.Alike P s') : AlikeResult P (.ok a s) (.ok a s')
  | error (cause : CompileError) {s s' : Session} (h : s.Alike P s') :
    AlikeResult P (.error cause s) (.error cause s')

/-- Whether a computation comes to the same from sessions that are alike. -/
def Respects (P : String → Prop) (x : Compilation α) : Prop :=
  ∀ s s', s.Alike P s' → AlikeResult P (x s) (x s')

namespace Respects

theorem pure (a : α) : Respects P (Pure.pure a : Compilation α) := fun _ _ h => .ok a h

theorem fail (cause : CompileError) : Respects P (Compilation.fail cause : Compilation α) :=
  fun _ _ h => .error cause h

theorem ofResult : (r : Except CompileError α) → Respects P (ofResult r)
  | .ok a => pure a
  | .error cause => fail cause

theorem followJoin (context : Context) (edge : JoinEdge) :
    Respects P (followJoin context edge) := by
  intro s s' h
  obtain ⟨hnumber, hsession⟩ := h.followJoin context edge
  show AlikeResult P (.ok (Context.join (s.followJoin context edge).1) _) _
  rw [hnumber]
  exact .ok _ hsession

theorem contextual : Respects P contextual := by
  intro s s' h
  show AlikeResult P (.ok s.draft.contextual s) (.ok s'.draft.contextual s')
  rw [h.draft.contextual]
  exact .ok _ h

theorem typeOf {name : String} (hname : P name) : Respects P (typeOf name) := by
  intro s s' h
  show AlikeResult P (.ok (s.draft.binder.types.find? name) s)
    (.ok (s'.draft.binder.types.find? name) s')
  rw [h.draft.binder.types name hname]
  exact .ok _ h

theorem useParameter {use : ParameterUse}
    (hnamed : ∀ name requiredness, use = .named name requiredness → P name) (name : String) :
    Respects P (useParameter use name) := by
  intro s s' h
  rw [outcome_useParameter, outcome_useParameter]
  rcases h.draft.binder.use? hnamed with ⟨hs, hs'⟩ | ⟨ordinal, b, b', hs, hs', hb⟩
  · rw [hs, hs']
    exact .error _ h
  · rw [hs, hs']
    exact .ok ordinal (h.withBinder hb)

theorem perform (step : SelectBuilder.Step) : Respects P (perform step) := by
  intro s s' h
  rw [outcome_perform, outcome_perform, h.draft.builder]
  cases s'.draft.builder.perform step with
  | ok result => exact .ok () (h.withBuilder result.2)
  | error cause => exact .error cause h

theorem exposeAll (e : Expression) : Respects P (exposeAll e) := by
  intro s s' h
  show AlikeResult P (.ok (s.draft.builder.exposeAll e).1 _)
    (.ok (s'.draft.builder.exposeAll e).1 _)
  rw [h.draft.builder]
  exact .ok _ (h.withBuilder _)

/-- What follows a computation need only respect what that can yield. -/
theorem bind_of_ok {x : Compilation α} {f : α → Compilation β} (hx : Respects P x)
    (hf : ∀ a s t, x s = .ok a t → Respects P (f a)) : Respects P (x >>= f) := by
  intro s s' h
  have hresult := hx s s' h
  rw [outcome_bind, outcome_bind]
  generalize hs : x s = result at hresult
  generalize x s' = result' at hresult
  cases hresult with
  | ok a halike => exact hf a s _ hs _ _ halike
  | error cause halike => exact .error cause halike

theorem bind {x : Compilation α} {f : α → Compilation β} (hx : Respects P x)
    (hf : ∀ a, Respects P (f a)) : Respects P (x >>= f) :=
  hx.bind_of_ok fun a _ _ _ => hf a

theorem savepoint (context : Context) {body : Compilation α} (hbody : Respects P body) :
    Respects P (savepoint context body) := by
  intro s s' h
  have hresult := hbody _ _ (h.setPoint context)
  rw [outcome_savepoint, outcome_savepoint]
  generalize body (s.setPoint context) = result at hresult
  generalize body (s'.setPoint context) = result' at hresult
  cases hresult with
  | ok a halike =>
    rcases halike.clearPoint with ⟨cause, ht, ht'⟩ | ⟨u, u', ht, ht', hu⟩
    · simp only [ht, ht']
      exact .error cause halike
    · simp only [ht, ht']
      exact .ok a hu
  | error cause halike =>
    rcases halike.rollback with ⟨cause', ht, ht'⟩ | ⟨_, u, u', ht, ht', hu⟩
    · simp only [ht, ht']
      exact .error cause' halike
    · simp only [ht, ht']
      exact .error cause hu

theorem closed : Closed (Respects P) P where
  pure := pure
  fail := fail
  followJoin := followJoin
  contextual := contextual
  typeOf := typeOf
  useParameter := useParameter
  bind := bind
  savepoint := savepoint

end Respects

end Compilation

open Compilation

/-! ## Expressions -/

/-- An expression is compiled by the types of the parameters that it mentions. -/
theorem respects_expression (c : Compiler) (tokens : List Token)
    (h : Throughout Token.parameter? P tokens) (context : Context) (requiredness : Requiredness) :
    Respects P (c.expression context requiredness tokens) :=
  Respects.closed.expression c tokens h context requiredness

section Compiler

variable (c : Compiler) (context : Context)

theorem respects_predicate {tokens : Request} (h : Throughout Token.parameter? P tokens) :
    Respects P (c.predicate context tokens) := by
  refine .bind (respects_expression c tokens h context .required) fun compiled => ?_
  split
  · exact .pure _
  · exact .pure _
  · exact .fail _

/-! ## Pipelines -/

theorem respects_leadingJoins (pipeline : Request) :
    Respects P (Compiler.leadingJoins context pipeline) := by
  induction pipeline generalizing context with
  | nil => exact .pure _
  | cons t rest ih =>
    cases t with
    | join edge => exact .bind (.followJoin context edge) fun next => ih next
    | _ => exact .pure _

theorem respects_leadingFilter {stages : Request} (h : Throughout Token.parameter? P stages) :
    Respects P (c.leadingFilter context stages) := by
  unfold Compiler.leadingFilter
  split
  · split
    · split
      · exact .fail _
      · have hcall := (Throughout.call_iff.mp (Throughout.cons_iff.mp h).1).2
        exact .bind (respects_predicate c context (List.forall_mem_singleton.mp hcall)) fun p =>
          .bind (.perform _) fun _ => .pure _
      · exact .pure _
    · exact .pure _
  · exact .pure _

/-- The leading filter leaves the stages behind it, or all stages. -/
theorem subset_of_leadingFilter_ok {stages rest : Request} {s s' : Session}
    (h : c.leadingFilter context stages s = .ok rest s') : rest ⊆ stages := by
  unfold Compiler.leadingFilter at h
  split at h
  · split at h
    · split at h
      · exact absurd h fail_ne_ok
      · obtain ⟨p, t, -, h⟩ := bind_eq_ok.mp h
        cases h
        exact List.subset_cons_self _ _
      · cases h
        exact List.Subset.refl _
    · cases h
      exact List.Subset.refl _
  · cases h
    exact List.Subset.refl _

theorem respects_forkStage (method stage : String) (arguments : List Request) :
    Respects P (Compiler.forkStage method stage arguments) := by
  unfold Compiler.forkStage
  split
  · exact .fail _
  · cases arguments with
    | cons argument rest => exact .fail _
    | nil => exact .perform .fork

theorem respects_stage (method : String) (phase : Phase) (name : String) {arguments : List Request}
    (h : ∀ argument ∈ arguments, Throughout Token.parameter? P argument) :
    Respects P (c.stage method context phase name arguments) := by
  unfold Compiler.stage
  split
  · unfold Compiler.filterStage
    split
    · exact .bind (respects_predicate c context (List.forall_mem_singleton.mp h)) fun p =>
        .perform _
    · exact .fail _
  · unfold Compiler.sortStage
    split
    · exact .bind (respects_expression c _ (List.forall_mem_singleton.mp h) context .required)
        fun key => .perform _
    · exact .fail _
  · unfold Compiler.sliceStage
    split
    · exact .bind (.ofResult _) fun _ => .bind (.ofResult _) fun _ =>
        .bind (.useParameter nofun _) fun _ => .bind (.useParameter nofun _) fun _ =>
          .perform _
    · exact .fail _
  · exact respects_forkStage _ _ _

theorem respects_stages (method : String) {stages : Request}
    (h : Throughout Token.parameter? P stages) (reached : Phase) (previous : String) :
    Respects P (c.stages method context reached previous stages) := by
  induction stages generalizing reached previous with
  | nil => exact .pure _
  | cons t rest ih =>
    obtain ⟨ht, hrest⟩ := Throughout.cons_iff.mp h
    cases t with
    | call name arguments =>
      unfold Compiler.stages
      split
      · exact .fail _
      · split
        · exact .bind (respects_stage c context method _ name (Throughout.call_iff.mp ht).2)
            fun _ => ih hrest _ _
        · exact .fail _
    | _ => exact .fail _

/-- So is a pipeline. -/
theorem respects_rows (method : String) {pipeline : Request}
    (h : Throughout Token.parameter? P pipeline) : Respects P (c.rows method pipeline) := by
  refine .bind_of_ok (respects_leadingJoins .root pipeline) ?_
  rintro ⟨reached, stages⟩ s t hjoins
  obtain ⟨edges, rfl, -⟩ := joinsRun_of_leadingJoins_ok hjoins
  have hstages := (Throughout.append_iff.mp h).2
  refine .bind_of_ok (respects_leadingFilter c reached hstages) fun rest s t hfilter => ?_
  have hrest := hstages.subset (subset_of_leadingFilter_ok c reached hfilter)
  exact .bind (respects_stages c reached method hrest _ _) fun _ => .pure _

/-! ## What methods add -/

theorem respects_projection {tokens : Request} (h : Throughout Token.parameter? P tokens) :
    Respects P (c.projection context tokens) :=
  .bind (respects_expression c tokens h context .required) fun _ =>
    .bind (.perform _) fun _ => .pure _

theorem respects_rowCount (scan : TableScan) : Respects P (Compiler.rowCount scan) :=
  .bind (.perform _) fun _ => .bind (.perform _) fun _ => .pure _

theorem respects_aggregation (name : String) (function : AggregateFunction) {tokens : Request}
    (h : Throughout Token.parameter? P tokens) :
    Respects P (c.aggregation name function context tokens) :=
  .bind (respects_expression c tokens h context .required) fun _ => .bind (.ofResult _) fun _ =>
    .bind (.exposeAll _) fun _ => .bind (.perform _) fun _ => .pure _

theorem respects_assignments {pairs : List (Assignment Request)}
    (h : ∀ pair ∈ pairs, Throughout Token.parameter? P pair.value) :
    Respects P (c.assignments context pairs) := by
  induction pairs with
  | nil => exact .pure _
  | cons pair rest ih =>
    rw [List.forall_mem_cons] at h
    have hpair : Respects P (c.assignment context pair) :=
      .bind (.ofResult _) fun property => .bind (.ofResult _) fun column =>
        .bind (respects_expression c _ h.1 context _) fun value => .bind (.ofResult _) fun _ =>
          .pure _
    exact .bind hpair fun first => .bind (ih h.2) fun values => .pure _

/-- The assignments of a write are given as tokens. -/
theorem respects_written {tokens : Request} (h : Throughout Token.parameter? P tokens) {α : Type}
    (close : List ColumnValue → α) :
    Respects P (do
      let pairs ← ofResult (assignmentList tokens)
      let values ← c.assignments context pairs
      return close values) := by
  refine .bind_of_ok (.ofResult _) fun pairs s t hpairs => ?_
  cases assignmentList_ok (ofResult_eq_ok.mp hpairs).1
  have hpairs := (Throughout.assignments_iff.mp h).2
  exact .bind (respects_assignments c context fun pair hpair => (hpairs pair hpair).2) fun values =>
    .pure _

end Compiler

/-! ## Openings -/

section Openings

variable {c : Compiler} {name : String} {rows : Request} {o : Opening}

theorem respects_overRows {body : TableScan → Context → Compilation Closing}
    (ho : c.overRows name rows body = .ok o)
    (hrows : Throughout Token.parameter? P (canonical name rows))
    (hbody : ∀ scan context, Respects P (body scan context)) : Respects P o.body := by
  unfold Compiler.overRows at ho
  split at ho
  · next scan stages hcanonical =>
    cases ho
    rw [hcanonical] at hrows
    exact .bind (respects_rows c name (Throughout.cons_iff.mp hrows).2) fun context =>
      hbody scan context
  · cases ho

/-- What a method call opens does not tell apart sessions that are alike in its arguments. -/
theorem respects_methodCall {others : List Request} {call : MethodCall}
    (hmethod : Method.ofName name ≠ .insert)
    (hcall : MethodCall.of name (rows :: others) = .ok call) (ho : c.methodCall name call = .ok o)
    (hrows : Throughout Token.parameter? P (canonical name rows))
    (hothers : ∀ argument ∈ others, Throughout Token.parameter? P argument) :
    Respects P o.body := by
  unfold MethodCall.of at hcall
  split at hcall
  · obtain ⟨_, projection, harguments, rfl⟩ := withTwo_ok hcall
    cases harguments
    exact respects_overRows ho hrows fun _ context =>
      .bind (respects_projection c context (hothers _ (List.mem_singleton_self _))) fun _ => .pure _
  · obtain ⟨_, harguments, rfl⟩ := withOne_ok hcall
    cases harguments
    exact respects_overRows ho hrows fun scan _ =>
      .bind (respects_rowCount scan) fun _ => .pure _
  · obtain ⟨_, harguments, rfl⟩ := withOne_ok hcall
    cases harguments
    exact respects_overRows ho hrows fun _ _ => .pure _
  · obtain ⟨_, written, harguments, rfl⟩ := withTwo_ok hcall
    cases harguments
    exact respects_overRows ho hrows fun _ context =>
      respects_written c context (hothers _ (List.mem_singleton_self _)) _
  · next hinsert => exact absurd hinsert hmethod
  · split at hcall
    · cases hcall
    · obtain ⟨_, operand, harguments, rfl⟩ := withTwo_ok hcall
      cases harguments
      exact respects_overRows ho hrows fun _ context =>
        .bind (respects_aggregation c context name _ (hothers _ (List.mem_singleton_self _)))
          fun _ => .pure _

end Openings

/-- In a session of its own, a computation does not see the types of other parameters. -/
theorem Opening.run_congr {o : Opening} (hbody : Respects P o.body)
    {types types' : ParameterTypes} (h : AgreeOn P types types') : o.run types = o.run types' := by
  have hresult := hbody _ _ (Session.Alike.start h o.table)
  unfold Opening.run
  generalize o.body (Session.start o.table types) = result at hresult
  generalize o.body (Session.start o.table types') = result' at hresult
  cases hresult with
  | ok close halike =>
    rcases halike.finish with ⟨cause, hs, hs'⟩ | ⟨builder, b, b', hs, hs', harguments⟩
    · simp only [hs, hs']
    · simp only [hs, hs', harguments]
  | error cause halike => rfl

end RequestCompiler
