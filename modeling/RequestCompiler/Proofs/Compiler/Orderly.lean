import RequestCompiler.Proofs.Compiler.Conduct

/-!
# Compiling is orderly

Every context that the compiler hands on is the root, the one at which a pipeline or an expression
stands, or one to which a join has just led. So joins are followed from contexts of the active
select only, at any depth and also in what fails in the end. A fork is the last phase of a pipeline,
so the order of phases keeps a second one away from the builder, wherever it comes from.

* `orderly_expression` — an expression is compiled orderly at a context of the active select.
* `orderly_stages` — where rows are forked, the last phase has been reached.
* `orderly_rows` — a pipeline is compiled orderly, and leads to such a context.
* `orderly_projection`, `orderly_aggregation`, `orderly_assignments` — so is what methods add.
-/

namespace RequestCompiler

open Compilation

/-! ## Causes of failure -/

/-- Whether a cause tells of a mistake of the compiler itself. -/
def CompileError.isInternal : CompileError → Bool
  | .nestedFork | .rollbackDiscipline _ => true
  | _ => false

/-- Whether a result is no failure for an internal cause. -/
def External {α : Type*} (r : Except CompileError α) : Prop :=
  ∀ cause, r = .error cause → cause.isInternal = false

namespace External

variable {α : Type*}

theorem ok (a : α) : External (.ok a : Except CompileError α) := nofun

theorem error {cause : CompileError} (h : cause.isInternal = false) :
    External (.error cause : Except CompileError α) := by
  intro other hother
  cases hother
  exact h

theorem returnType (c : Compiler) (name : String) (operands : List (Option ValueType)) :
    External (c.returnType name operands) := by
  unfold Compiler.returnType
  split
  · exact ok _
  · split
    · exact ok _
    · exact error rfl

theorem boundName (function : String) (position : Nat) (bound : Request) :
    External (RequestCompiler.boundName function position bound) := by
  unfold RequestCompiler.boundName
  split
  · exact ok _
  · exact error rfl

theorem assignmentList (tokens : Request) : External (RequestCompiler.assignmentList tokens) := by
  unfold RequestCompiler.assignmentList
  split
  · exact ok _
  · exact error rfl

theorem assignedProperty (tokens : Request) : External (Compiler.assignedProperty tokens) := by
  unfold Compiler.assignedProperty
  split
  · exact ok _
  · exact error rfl

theorem insertionTarget (name : String) (tokens : Request) :
    External (RequestCompiler.insertionTarget name tokens) := by
  unfold RequestCompiler.insertionTarget
  split
  · exact ok _
  · exact error rfl
  · exact error rfl

theorem headCall (request : Request) : External (RequestCompiler.headCall request) := by
  unfold RequestCompiler.headCall
  split
  · exact error rfl
  · exact ok _
  · exact error rfl

theorem methodCall (name : String) (arguments : List Request) :
    External (MethodCall.of name arguments) := by
  have hone (call : Request → MethodCall) : External (MethodCall.withOne name arguments call) := by
    unfold MethodCall.withOne
    split
    · exact ok _
    · exact error rfl
  have htwo (call : Request → Request → MethodCall) :
      External (MethodCall.withTwo name arguments call) := by
    unfold MethodCall.withTwo
    split
    · exact ok _
    · exact error rfl
  unfold MethodCall.of
  split
  · exact htwo _
  · exact hone _
  · exact hone _
  · exact htwo _
  · exact htwo _
  · split
    · exact error rfl
    · exact htwo _

end External

/-- Whether causes are expected of a compiler: all but internal ones, and those of its resolver. -/
structure Compiler.MayFailFor (c : Compiler) (causes : CompileError → Prop) : Prop where
  external : ∀ {cause : CompileError}, cause.isInternal = false → causes cause
  resolver : ∀ {property : Property} {context : Context} {contextual : Option ContextualJoin}
    {cause : CompileError}, c.resolver property context contextual = .error cause → causes cause

variable {c : Compiler} {causes : CompileError → Prop} {forks : Bool}

namespace Compiler.MayFailFor

variable (h : c.MayFailFor causes) {α : Type}

include h

theorem fail {cause : CompileError} (hcause : cause.isInternal = false) (s : Session) :
    Orderly causes forks (Compilation.fail cause : Compilation α) s :=
  .fail (h.external hcause) s

theorem ofResult {r : Except CompileError α} (hr : External r) (s : Session) :
    Orderly causes forks (ofResult r) s :=
  .ofResult (fun cause hcause => h.external (hr cause hcause)) s

theorem assignedColumn (property : Property) (s : Session) :
    Orderly causes forks (Compilation.ofResult (c.assignedColumn property)) s := by
  refine .ofResult (fun cause hcause => ?_) s
  unfold Compiler.assignedColumn at hcause
  split at hcause
  · next hresolver =>
    cases hcause
    exact h.resolver hresolver
  · cases hcause
  · cases hcause
    exact h.external rfl

theorem useParameter (use : ParameterUse) (name : String) (s : Session) :
    Orderly causes forks (Compilation.useParameter use name) s :=
  .useParameter use (h.external rfl) s

theorem substringBounds (function : String) (start stop : Request) (s : Session) :
    Orderly causes forks (RequestCompiler.substringBounds function start stop) s :=
  .bind (h.ofResult (.boundName _ _ _) _) fun _ => .bind (h.ofResult (.boundName _ _ _) _) fun _ =>
    .bind (h.useParameter ..) fun _ => .bind (h.useParameter ..) fun _ => .pure _ _

end Compiler.MayFailFor

/-! ## Expressions -/

mutual
/-- An expression is compiled orderly at a context of the active select. -/
theorem orderly_expression (h : c.MayFailFor causes) : (tokens : List Token) →
    ∀ (requiredness : Requiredness) {context : Context} {s : Session},
      s.draft.builder.active.HasContext context →
      Orderly causes forks (c.expression context requiredness tokens) s
  | [], _, _, s, _ => h.fail rfl s
  | t :: rest, requiredness, context, s, hcontext => by
    cases t with
    | join edge =>
      rw [Compiler.expression]
      exact .savepoint context (.bind (.followJoin edge hcontext) fun hnext =>
        orderly_expression h rest requiredness (hasContext_of_followJoin_ok hnext))
    | _ =>
      cases rest with
      | nil => exact orderly_operand h _ requiredness hcontext
      | cons next rest => exact h.fail rfl s
termination_by structural tokens => tokens

/-- So is an expression that is a single token. -/
theorem orderly_operand (h : c.MayFailFor causes) : (t : Token) →
    ∀ (requiredness : Requiredness) {context : Context} {s : Session},
      s.draft.builder.active.HasContext context →
      Orderly causes forks (c.operand context requiredness t) s
  | .parameter name, requiredness, context, s, _ => by
    rw [Compiler.operand]
    exact .bind (h.useParameter ..) fun _ => .bind (.typeOf name _) fun _ => .pure _ _
  | .read property, requiredness, context, s, _ => by
    rw [Compiler.operand]
    refine .bind (.contextual s) fun _ => .bind ?_ fun _ => .pure _ _
    exact .ofResult (fun cause => h.resolver) _
  | .call name [], _, _, s, _ => h.fail rfl s
  | .call name [argument], requiredness, context, s, hcontext => by
    cases hname : unaryOperator? name with
    | none =>
      simp only [Compiler.operand, hname]
      exact h.fail rfl s
    | some operator =>
      by_cases hlength : name = "length"
      · subst hlength
        exact .bind (orderly_expression h argument .required hcontext) fun _ => .pure _ _
      · rw [operand_unary c hname hlength]
        exact .bind (orderly_expression h argument requiredness hcontext) fun _ =>
          .bind (h.ofResult (.returnType _ _ _) _) fun _ => .pure _ _
  | .call name [left, right], requiredness, context, s, hcontext => by
    cases hname : BinaryForm.ofName? name with
    | none =>
      simp only [Compiler.operand, hname]
      exact h.fail rfl s
    | some form =>
      simp only [Compiler.operand, hname]
      have hleft := orderly_expression h left requiredness hcontext
      refine .bind hleft fun hok => ?_
      have hright := orderly_expression h right requiredness (hleft.hasContext hok hcontext)
      exact .bind hright fun _ => .bind (h.ofResult (.returnType _ _ _) _) fun _ => .pure _ _
  | .call name [string, start, stop], requiredness, context, s, hcontext => by
    rw [Compiler.operand]
    split
    · exact .bind (orderly_expression h string .required hcontext) fun _ =>
        .bind (h.substringBounds ..) fun _ => .pure _ _
    · exact h.fail rfl s
  | .call name (_ :: _ :: _ :: _ :: _), _, _, s, _ => h.fail rfl s
  | .table scan, _, _, s, _ => h.fail rfl s
  | .join edge, _, _, s, _ => h.fail rfl s
  | .assignments pairs, _, _, s, _ => h.fail rfl s
termination_by structural t => t
end

theorem orderly_predicate (h : c.MayFailFor causes) (tokens : Request) {context : Context}
    {s : Session} (hcontext : s.draft.builder.active.HasContext context) :
    Orderly causes forks (c.predicate context tokens) s := by
  refine .bind (orderly_expression h tokens .required hcontext) fun {compiled t} _ => ?_
  split
  · exact .pure _ t
  · exact .pure _ t
  · exact h.fail rfl t

/-! ## Pipelines -/

theorem orderly_leadingJoins (pipeline : Request) {context : Context} {s : Session}
    (hcontext : s.draft.builder.active.HasContext context) :
    Orderly causes forks (Compiler.leadingJoins context pipeline) s := by
  induction pipeline generalizing context s with
  | nil => exact .pure _ s
  | cons t rest ih =>
    cases t with
    | join edge =>
      exact .bind (.followJoin edge hcontext) fun hnext => ih (hasContext_of_followJoin_ok hnext)
    | _ => exact .pure _ s

/-- The joins at the head of a pipeline lead to a context of the active select. -/
theorem hasContext_of_leadingJoins_ok {pipeline rest : Request} {context reached : Context}
    {s t : Session} (hcontext : s.draft.builder.active.HasContext context)
    (h : Compiler.leadingJoins context pipeline s = .ok (reached, rest) t) :
    t.draft.builder.active.HasContext reached := by
  induction pipeline generalizing context s with
  | nil =>
    cases h
    exact hcontext
  | cons token tokens ih =>
    cases token with
    | join edge =>
      obtain ⟨next, u, hnext, h⟩ := bind_eq_ok.mp h
      exact ih (hasContext_of_followJoin_ok hnext) h
    | _ =>
      cases h
      exact hcontext

theorem orderly_leadingFilter (h : c.MayFailFor causes) (stages : Request) {context : Context}
    {s : Session} (hcontext : s.draft.builder.active.HasContext context) :
    Orderly causes forks (c.leadingFilter context stages) s := by
  unfold Compiler.leadingFilter
  split
  · split
    · split
      · exact h.fail rfl s
      · exact .bind (orderly_predicate h _ hcontext) fun {predicate _} _ =>
          .bind (.perform trivial) fun _ => .pure _ _
      · exact .pure _ s
    · exact .pure _ s
  · exact .pure _ s

/-- A stage is orderly if, where it is a fork, forks are expected and rows are not forked yet. -/
theorem orderly_stage (h : c.MayFailFor causes) (method : String) {phase : Phase} (name : String)
    (arguments : List Request) {context : Context} {s : Session}
    (hcontext : s.draft.builder.active.HasContext context)
    (hfork : phase = .fork → forks = true ∧ s.draft.builder.isForked = false) :
    Orderly causes forks (c.stage method context phase name arguments) s := by
  cases phase with
  | filter =>
    match arguments with
    | [argument] =>
      exact .bind (orderly_predicate h argument hcontext) fun _ => .perform trivial
    | [] => exact h.fail rfl s
    | _ :: _ :: _ => exact h.fail rfl s
  | sort =>
    match arguments with
    | [argument] =>
      exact .bind (orderly_expression h argument .required hcontext) fun _ => .perform trivial
    | [] => exact h.fail rfl s
    | _ :: _ :: _ => exact h.fail rfl s
  | slice =>
    match arguments with
    | [start, stop] =>
      refine .bind (h.ofResult (.boundName _ _ _) _) fun _ => ?_
      refine .bind (h.ofResult (.boundName _ _ _) _) fun _ => ?_
      exact .bind (h.useParameter ..) fun _ => .bind (h.useParameter ..) fun _ => .perform trivial
    | [] => exact h.fail rfl s
    | [_] => exact h.fail rfl s
    | _ :: _ :: _ :: _ => exact h.fail rfl s
  | fork =>
    obtain ⟨rfl, hforked⟩ := hfork rfl
    show Orderly causes true (Compiler.forkStage method name arguments) s
    unfold Compiler.forkStage
    split
    · exact h.fail rfl s
    · split
      · exact h.fail rfl s
      · exact .perform ⟨rfl, hforked⟩

/-- Stages are orderly; where rows are forked, the last phase has been reached. -/
theorem orderly_stages (h : c.MayFailFor causes) (method : String) (stages : Request)
    {context : Context} {reached : Phase} (previous : String) {s : Session}
    (hcontext : s.draft.builder.active.HasContext context)
    (hs : s.draft.builder.isForked = true → reached = .fork) :
    Orderly causes true (c.stages method context reached previous stages) s := by
  induction stages generalizing reached previous s with
  | nil => exact .pure _ s
  | cons t rest ih =>
    cases t with
    | call name arguments =>
      unfold Compiler.stages
      split
      · exact h.fail rfl s
      · next phase hphase =>
        split
        · next hfollow =>
          -- no phase may follow the last one, so rows are not forked before a stage
          have hforked : s.draft.builder.isForked = false := by
            by_contra hforked
            rw [hs ((Bool.not_eq_false _).mp hforked)] at hfollow
            cases phase <;> cases hfollow
          have hstage : Orderly causes true (c.stage method context phase name arguments) s :=
            orderly_stage h method name arguments hcontext fun _ => ⟨rfl, hforked⟩
          refine .bind hstage fun {_ u} hok => ih name (hstage.hasContext hok hcontext) fun hu => ?_
          by_contra hphase
          have hkept : Orderly causes false (c.stage method context phase name arguments) s :=
            orderly_stage h method name arguments hcontext fun hfork => absurd hfork hphase
          rw [hkept.isForked_eq hok, hforked] at hu
          cases hu
        · exact h.fail rfl s
    | _ => exact h.fail rfl s

/-- A pipeline is compiled orderly over rows that are not forked, and leads to their contexts. -/
theorem orderly_rows (h : c.MayFailFor causes) (method : String) (pipeline : Request) {s : Session}
    (hs : s.draft.builder.isForked = false) :
    Orderly causes true (c.rows method pipeline) s ∧
      ∀ {context : Context} {t : Session}, c.rows method pipeline s = .ok context t →
        t.draft.builder.active.HasContext context := by
  have hroot : s.draft.builder.active.HasContext .root := trivial
  have hjoins {joined : Context × Request} {t : Session}
      (hok : Compiler.leadingJoins .root pipeline s = .ok joined t) :
      t.draft.builder.active.HasContext joined.1 ∧ t.draft.builder.isForked = false := by
    have hkept : Orderly causes false (Compiler.leadingJoins .root pipeline) s :=
      orderly_leadingJoins pipeline hroot
    exact ⟨hasContext_of_leadingJoins_ok hroot hok, (hkept.isForked_eq hok).trans hs⟩
  have hfilter {stages rest : Request} {context : Context} {t u : Session}
      (ht : t.draft.builder.active.HasContext context ∧ t.draft.builder.isForked = false)
      (hok : c.leadingFilter context stages t = .ok rest u) :
      u.draft.builder.active.HasContext context ∧ u.draft.builder.isForked = false := by
    have hkept : Orderly causes false (c.leadingFilter context stages) t :=
      orderly_leadingFilter h stages ht.1
    exact ⟨hkept.hasContext hok ht.1, (hkept.isForked_eq hok).trans ht.2⟩
  have hstages (rest : Request) {context : Context} {u : Session}
      (hu : u.draft.builder.active.HasContext context ∧ u.draft.builder.isForked = false) :
      Orderly causes true (c.stages method context .filter "filter" rest) u :=
    orderly_stages h method rest "filter" hu.1 fun hforked => by rw [hu.2] at hforked; cases hforked
  constructor
  · exact .bind (orderly_leadingJoins pipeline hroot) fun {joined _} ht =>
      .bind (orderly_leadingFilter h joined.2 (hjoins ht).1) fun hu =>
        .bind (hstages _ (hfilter (hjoins ht) hu)) fun _ => .pure _ _
  · intro context t' hok
    obtain ⟨joined, t, ht, hok⟩ := bind_eq_ok.mp hok
    obtain ⟨rest, u, hu, hok⟩ := bind_eq_ok.mp hok
    obtain ⟨_, v, hv, hok⟩ := bind_eq_ok.mp hok
    cases hok
    have hcontext := hfilter (hjoins ht) hu
    exact (hstages rest hcontext).hasContext hv hcontext.1

/-! ## What methods add -/

section Methods

variable (h : c.MayFailFor causes) {context : Context} {s : Session}
  (hcontext : s.draft.builder.active.HasContext context)

include h hcontext

theorem orderly_projection (tokens : Request) :
    Orderly causes forks (c.projection context tokens) s :=
  .bind (orderly_expression h tokens .required hcontext) fun _ =>
    .bind (.perform trivial) fun _ => .pure _ _

theorem orderly_aggregation (name : String) (function : AggregateFunction) (tokens : Request) :
    Orderly causes forks (c.aggregation name function context tokens) s :=
  .bind (orderly_expression h tokens .required hcontext) fun _ =>
    .bind (h.ofResult (.returnType _ _ _) _) fun _ => .bind (.exposeAll _ _) fun _ =>
      .bind (.perform trivial) fun _ => .pure _ _

theorem orderly_assignment (pair : Assignment Request) :
    Orderly causes forks (c.assignment context pair) s := by
  refine .bind (h.ofResult (.assignedProperty _) s) fun {property t} hproperty =>
    .bind (h.assignedColumn property t) fun {column u} hcolumn => ?_
  obtain ⟨-, rfl⟩ := ofResult_eq_ok.mp hproperty
  obtain ⟨-, rfl⟩ := ofResult_eq_ok.mp hcolumn
  exact .bind (orderly_expression h pair.value _ hcontext) fun _ =>
    .bind (h.ofResult (.returnType _ _ _) _) fun _ => .pure _ _

theorem orderly_assignments (pairs : List (Assignment Request)) :
    Orderly causes forks (c.assignments context pairs) s := by
  induction pairs generalizing s with
  | nil => exact .pure _ s
  | cons pair rest ih =>
    have hfirst : Orderly causes forks (c.assignment context pair) s :=
      orderly_assignment h hcontext pair
    exact .bind hfirst fun hok => .bind (ih (hfirst.hasContext hok hcontext)) fun _ => .pure _ _

end Methods

theorem orderly_rowCount (scan : TableScan) (s : Session) :
    Orderly causes forks (Compiler.rowCount scan) s :=
  .bind (.perform trivial) fun _ => .bind (.perform trivial) fun _ => .pure _ _

end RequestCompiler
