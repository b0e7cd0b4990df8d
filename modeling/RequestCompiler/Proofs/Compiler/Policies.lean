import RequestCompiler.Proofs.Compiler.Requests
import RequestCompiler.Proofs.Compiler.Transaction

/-!
# The two policies

The policy of the settings matters where no overload of a function accepts the operands: the strict
one fails there, the tolerant one goes on. Up to that call a compilation does the same under both,
so under the strict policy it comes to what it comes to under the tolerant one, or to a mismatch
(`OrMismatch`). A mismatch behind a join is not turned into another error on its way out, since the
savepoint finds its rollback point where it set it.

* `orMismatch_expression` — so it is for expressions.
* `orMismatch_rows`, `orMismatch_assignments` — for pipelines and for assignments.
* `compile_strict_refines` — and for requests.
-/

namespace RequestCompiler

open Compilation

/-- The same compiler under another policy. -/
def Compiler.withPolicy (c : Compiler) (policy : OverloadPolicy) : Compiler :=
  { c with settings := { c.settings with overloadPolicy := policy } }

/-! ## Results -/

/-- Whether a result is the other one, or an overload mismatch. -/
def OrMismatch {α : Type} (strict tolerant : Except CompileError α) : Prop :=
  strict = tolerant ∨ ∃ name operands, strict = .error (.overloadMismatch name operands)

namespace OrMismatch

variable {α : Type} {x y : Except CompileError α}

theorem refl (x : Except CompileError α) : OrMismatch x x := .inl rfl

/-- What succeeds under the strict policy succeeds under the tolerant one. -/
theorem ok_of_ok {a : α} (h : OrMismatch x y) (hx : x = .ok a) : y = .ok a := by
  rcases h with rfl | ⟨name, operands, rfl⟩
  · exact hx
  · cases hx

/-- What fails under the tolerant policy fails under the strict one. -/
theorem error_of_error {cause : CompileError} (h : OrMismatch x y) (hy : y = .error cause) :
    x = .error cause ∨ ∃ name operands, x = .error (.overloadMismatch name operands) :=
  h.imp_left fun hxy => hxy.trans hy

end OrMismatch

/-- The type of a call is the same under both policies where an overload accepts the operands. -/
theorem orMismatch_returnType (c : Compiler) (name : String)
    (operands : List (Option ValueType)) :
    OrMismatch ((c.withPolicy .strict).returnType name operands)
      ((c.withPolicy .tolerant).returnType name operands) := by
  cases hfind : (c.signatures.overloads name).find? (·.accepts operands) with
  | some overload =>
    left
    simp only [Compiler.returnType, Compiler.withPolicy, hfind]
  | none =>
    right
    refine ⟨name, describeTypes operands, ?_⟩
    simp only [Compiler.returnType, Compiler.withPolicy, hfind]

/-! ## Computations -/

namespace Compilation

/-- Whether a computation does what the other one does, or fails for an overload mismatch. -/
def OrMismatch {α : Type} (strict tolerant : Compilation α) : Prop :=
  ∀ s, strict s = tolerant s ∨
    ∃ name operands s', strict s = .error (.overloadMismatch name operands) s'

namespace OrMismatch

variable {α β : Type} {x y : Compilation α}

theorem refl (x : Compilation α) : OrMismatch x x := fun _ => .inl rfl

theorem ofResult {x y : Except CompileError α} (h : RequestCompiler.OrMismatch x y) :
    OrMismatch (ofResult x) (ofResult y) := by
  rcases h with rfl | ⟨name, operands, rfl⟩
  · exact .refl _
  · exact fun s => .inr ⟨name, operands, s, rfl⟩

theorem bind {f g : α → Compilation β} (h : OrMismatch x y) (hf : ∀ a, OrMismatch (f a) (g a)) :
    OrMismatch (x >>= f) (y >>= g) := by
  intro s
  rw [outcome_bind, outcome_bind]
  rcases h s with heq | ⟨name, operands, s', heq⟩
  · rw [heq]
    cases y s with
    | ok a t => exact hf a t
    | error cause t => exact .inl rfl
  · rw [heq]
    exact .inr ⟨name, operands, s', rfl⟩

/-- A mismatch over a savepoint is still one when the savepoint has been undone. -/
theorem savepoint (context : Context) (h : OrMismatch x y) (hpoints : KeepsPoints x) :
    OrMismatch (savepoint context x) (savepoint context y) := by
  intro s
  rw [outcome_savepoint, outcome_savepoint]
  rcases h (s.setPoint context) with heq | ⟨name, operands, s', heq⟩
  · rw [heq]
    exact .inl rfl
  · right
    refine ⟨name, operands, s, ?_⟩
    simp only [heq, Session.rollback_of_points (hpoints.error heq)]

end OrMismatch

end Compilation

/-! ## Expressions -/

mutual
/-- An expression is compiled in the same way under both policies, up to a mismatch. -/
theorem orMismatch_expression (c : Compiler) : (tokens : List Token) →
    ∀ (context : Context) (requiredness : Requiredness),
      Compilation.OrMismatch ((c.withPolicy .strict).expression context requiredness tokens)
        ((c.withPolicy .tolerant).expression context requiredness tokens)
  | [], _, _ => .refl _
  | t :: rest, context, requiredness => by
    cases t with
    | join edge =>
      rw [Compiler.expression, Compiler.expression]
      refine .savepoint context ?_ ?_
      · exact .bind (.refl _) fun next => orMismatch_expression c rest next requiredness
      · exact .bind (.followJoin context edge) fun next =>
          keepsPoints_expression _ rest next requiredness
    | _ =>
      cases rest with
      | nil => exact orMismatch_operand c _ context requiredness
      | cons next rest => exact .refl _
termination_by structural tokens => tokens

/-- So is an expression that is a single token. -/
theorem orMismatch_operand (c : Compiler) : (t : Token) →
    ∀ (context : Context) (requiredness : Requiredness),
      Compilation.OrMismatch ((c.withPolicy .strict).operand context requiredness t)
        ((c.withPolicy .tolerant).operand context requiredness t)
  | .parameter name, _, _ => .refl _
  | .read property, _, _ => .refl _
  | .call name [], _, _ => .refl _
  | .call name [argument], context, requiredness => by
    have hargument := orMismatch_expression c argument context
    cases hname : unaryOperator? name with
    | none =>
      simp only [Compiler.operand, hname]
      exact .refl _
    | some operator =>
      by_cases hlength : name = "length"
      · subst hlength
        exact .bind (hargument .required) fun a => .refl _
      · rw [operand_unary _ hname hlength, operand_unary _ hname hlength]
        exact .bind (hargument requiredness) fun a =>
          .bind (.ofResult (orMismatch_returnType c name _)) fun type => .refl _
  | .call name [left, right], context, requiredness => by
    have hleft := orMismatch_expression c left context requiredness
    have hright := orMismatch_expression c right context requiredness
    cases hname : BinaryForm.ofName? name with
    | none =>
      simp only [Compiler.operand, hname]
      exact .refl _
    | some form =>
      simp only [Compiler.operand, hname]
      exact .bind hleft fun l => .bind hright fun r =>
        .bind (.ofResult (orMismatch_returnType c name _)) fun type => .refl _
  | .call name [string, start, stop], context, requiredness => by
    have hstring := orMismatch_expression c string context .required
    rw [Compiler.operand, Compiler.operand]
    split
    · exact .bind hstring fun e => .refl _
    · exact .refl _
  | .call name (_ :: _ :: _ :: _ :: _), _, _ => .refl _
  | .table scan, _, _ => .refl _
  | .join edge, _, _ => .refl _
  | .assignments pairs, _, _ => .refl _
termination_by structural t => t
end

section Compiler

variable (c : Compiler) (context : Context)

theorem orMismatch_predicate (tokens : Request) :
    Compilation.OrMismatch ((c.withPolicy .strict).predicate context tokens)
      ((c.withPolicy .tolerant).predicate context tokens) :=
  .bind (orMismatch_expression c tokens context .required) fun _ => .refl _

/-! ## Pipelines -/

theorem orMismatch_leadingFilter (stages : Request) :
    Compilation.OrMismatch ((c.withPolicy .strict).leadingFilter context stages)
      ((c.withPolicy .tolerant).leadingFilter context stages) := by
  unfold Compiler.leadingFilter
  split
  · split
    · split
      · exact .refl _
      · exact .bind (orMismatch_predicate c context _) fun _ => .refl _
      · exact .refl _
    · exact .refl _
  · exact .refl _

/-- Slices and forks hold no expressions, so only filters and sorts can end in a mismatch. -/
theorem orMismatch_stage (method : String) (phase : Phase) (name : String)
    (arguments : List Request) :
    Compilation.OrMismatch ((c.withPolicy .strict).stage method context phase name arguments)
      ((c.withPolicy .tolerant).stage method context phase name arguments) := by
  unfold Compiler.stage
  split
  · unfold Compiler.filterStage
    split
    · exact .bind (orMismatch_predicate c context _) fun _ => .refl _
    · exact .refl _
  · unfold Compiler.sortStage
    split
    · exact .bind (orMismatch_expression c _ context .required) fun _ => .refl _
    · exact .refl _
  · exact .refl _
  · exact .refl _

theorem orMismatch_stages (method : String) (stages : Request) (reached : Phase)
    (previous : String) :
    Compilation.OrMismatch ((c.withPolicy .strict).stages method context reached previous stages)
      ((c.withPolicy .tolerant).stages method context reached previous stages) := by
  induction stages generalizing reached previous with
  | nil => exact .refl _
  | cons t rest ih =>
    cases t with
    | call name arguments =>
      unfold Compiler.stages
      split
      · exact .refl _
      · split
        · exact .bind (orMismatch_stage c context method _ name arguments) fun _ => ih _ _
        · exact .refl _
    | _ => exact .refl _

/-- A pipeline is compiled in the same way under both policies, up to a mismatch. -/
theorem orMismatch_rows (method : String) (pipeline : Request) :
    Compilation.OrMismatch ((c.withPolicy .strict).rows method pipeline)
      ((c.withPolicy .tolerant).rows method pipeline) :=
  .bind (.refl _) fun joined => .bind (orMismatch_leadingFilter c joined.1 joined.2) fun rest =>
    .bind (orMismatch_stages c joined.1 method rest _ _) fun _ => .refl _

/-! ## What methods add -/

theorem orMismatch_projection (tokens : Request) :
    Compilation.OrMismatch ((c.withPolicy .strict).projection context tokens)
      ((c.withPolicy .tolerant).projection context tokens) :=
  .bind (orMismatch_expression c tokens context .required) fun _ => .refl _

theorem orMismatch_aggregation (name : String) (function : AggregateFunction) (tokens : Request) :
    Compilation.OrMismatch ((c.withPolicy .strict).aggregation name function context tokens)
      ((c.withPolicy .tolerant).aggregation name function context tokens) :=
  .bind (orMismatch_expression c tokens context .required) fun _ =>
    .bind (.ofResult (orMismatch_returnType c name _)) fun _ => .refl _

/-- Assigning is a call of its own, of which no overload may accept the property and the value. -/
theorem orMismatch_assignment (pair : Assignment Request) :
    Compilation.OrMismatch ((c.withPolicy .strict).assignment context pair)
      ((c.withPolicy .tolerant).assignment context pair) :=
  .bind (.refl _) fun _ => .bind (.refl _) fun _ =>
    .bind (orMismatch_expression c pair.value context _) fun _ =>
      .bind (.ofResult (orMismatch_returnType c "assign" _)) fun _ => .refl _

theorem orMismatch_assignments (pairs : List (Assignment Request)) :
    Compilation.OrMismatch ((c.withPolicy .strict).assignments context pairs)
      ((c.withPolicy .tolerant).assignments context pairs) := by
  induction pairs with
  | nil => exact .refl _
  | cons pair rest ih =>
    exact .bind (orMismatch_assignment c context pair) fun _ => .bind ih fun _ => .refl _

end Compiler

/-! ## Requests -/

/-- Whether two requests fail to open for one cause, or open alike up to a mismatch. -/
inductive OpenAlike : Except CompileError Opening → Except CompileError Opening → Prop
  | error (cause : CompileError) : OpenAlike (.error cause) (.error cause)
  | ok (table : String) {strict tolerant : Compilation Closing}
      (h : Compilation.OrMismatch strict tolerant) :
      OpenAlike (.ok ⟨table, strict⟩) (.ok ⟨table, tolerant⟩)

namespace OpenAlike

/-- Before a request is opened, it is read in the same way under both policies. -/
theorem bind {α : Type} (r : Except CompileError α) {f g : α → Except CompileError Opening}
    (h : ∀ a, OpenAlike (f a) (g a)) : OpenAlike (r >>= f) (r >>= g) := by
  cases r with
  | error cause => exact .error cause
  | ok a => exact h a

/-- What is opened alike comes to the same, up to a mismatch. -/
theorem run {x y : Except CompileError Opening} (h : OpenAlike x y) (types : ParameterTypes) :
    OrMismatch (x >>= fun o => o.run types) (y >>= fun o => o.run types) := by
  cases h with
  | error cause => exact .refl _
  | @ok table strict tolerant h =>
    show OrMismatch (Opening.run ⟨table, strict⟩ types) (Opening.run ⟨table, tolerant⟩ types)
    unfold Opening.run
    rcases h (Session.start table types) with heq | ⟨name, operands, s', heq⟩
    · rw [heq]
      exact .refl _
    · rw [heq]
      exact .inr ⟨name, operands, rfl⟩

theorem overRows (c : Compiler) (name : String) (rows : Request)
    {strict tolerant : TableScan → Context → Compilation Closing}
    (h : ∀ scan context, Compilation.OrMismatch (strict scan context) (tolerant scan context)) :
    OpenAlike ((c.withPolicy .strict).overRows name rows strict)
      ((c.withPolicy .tolerant).overRows name rows tolerant) := by
  unfold Compiler.overRows
  split
  · exact .ok _ (.bind (orMismatch_rows c name _) fun context => h _ context)
  · exact .error _

theorem methodCall (c : Compiler) (name : String) (call : MethodCall) :
    OpenAlike ((c.withPolicy .strict).methodCall name call)
      ((c.withPolicy .tolerant).methodCall name call) := by
  cases call with
  | get rows projection =>
    exact overRows c name rows fun _ context =>
      .bind (orMismatch_projection c context projection) fun _ => .refl _
  | count rows => exact overRows c name rows fun _ _ => .refl _
  | aggregate function rows operand =>
    exact overRows c name rows fun _ context =>
      .bind (orMismatch_aggregation c context name function operand) fun _ => .refl _
  | delete rows => exact overRows c name rows fun _ _ => .refl _
  | set rows written =>
    exact overRows c name rows fun _ context =>
      .bind (.refl _) fun pairs => .bind (orMismatch_assignments c context pairs) fun _ => .refl _
  | insert target written =>
    exact bind _ fun scan => bind _ fun pairs =>
      .ok scan.table (.bind (orMismatch_assignments c .root pairs) fun _ => .refl _)

theorem opening (c : Compiler) (request : Request) :
    OpenAlike ((c.withPolicy .strict).opening request)
      ((c.withPolicy .tolerant).opening request) :=
  bind _ fun head => bind _ fun call => methodCall c head.1 call

end OpenAlike

/-- A request is compiled in the same way under both policies, up to a mismatch. -/
theorem orMismatch_compile (c : Compiler) (request : Request) :
    OrMismatch ((c.withPolicy .strict).compile request)
      ((c.withPolicy .tolerant).compile request) :=
  (OpenAlike.opening c request).run (c.parameterTypes request)

/--
What compiles under the strict policy compiles under the tolerant one, to the same. What does not
compile under the tolerant policy does not under the strict one, for the same cause or because there
no overload accepts the operands of a call.
-/
theorem compile_strict_refines (c : Compiler) (request : Request) :
    (∀ result, (c.withPolicy .strict).compile request = .ok result →
      (c.withPolicy .tolerant).compile request = .ok result) ∧
    ∀ cause, (c.withPolicy .tolerant).compile request = .error cause →
      (c.withPolicy .strict).compile request = .error cause ∨
        ∃ name operands,
          (c.withPolicy .strict).compile request = .error (.overloadMismatch name operands) :=
  ⟨fun _ h => (orMismatch_compile c request).ok_of_ok h,
    fun _ h => (orMismatch_compile c request).error_of_error h⟩

/-- The names of people for whom a property exceeds their age, in the order of a function. -/
def aboveAge (property : Property) (order : String) : Request :=
  [.call "get"
    [[.table ⟨"people", "id", false⟩,
      .call "filter" [[.call "greater"
        [[.read property], [.read ⟨"people", "age", .integer, false⟩]]]],
      .call "sort" [[.call order [[.read ⟨"people", "name", .string, false⟩]]]]],
    [.read ⟨"people", "name", .string, false⟩]]]

/--
A score can exceed an age. A name cannot: the tolerant policy passes over that and fails at the
sort, the strict one fails at the filter.
-/
theorem aboveAge_strict_refines :
    (∃ result,
      (standardCompiler.withPolicy .strict).compile
          (aboveAge ⟨"people", "score", .float, false⟩ "uppercase") = .ok result ∧
        (standardCompiler.withPolicy .tolerant).compile
          (aboveAge ⟨"people", "score", .float, false⟩ "uppercase") = .ok result) ∧
    (standardCompiler.withPolicy .tolerant).compile
        (aboveAge ⟨"people", "name", .string, false⟩ "initials") =
      .error (.unknownFunction "initials" 1) ∧
    ∃ name operands,
      (standardCompiler.withPolicy .strict).compile
          (aboveAge ⟨"people", "name", .string, false⟩ "initials") =
        .error (.overloadMismatch name operands) := by
  have hstrict : ∃ result, (standardCompiler.withPolicy .strict).compile
      (aboveAge ⟨"people", "score", .float, false⟩ "uppercase") = .ok result := ⟨_, rfl⟩
  have htolerant : (standardCompiler.withPolicy .tolerant).compile
      (aboveAge ⟨"people", "name", .string, false⟩ "initials") =
    .error (.unknownFunction "initials" 1) := rfl
  obtain ⟨result, hresult⟩ := hstrict
  refine ⟨⟨result, hresult, (compile_strict_refines _ _).1 result hresult⟩, htolerant, ?_⟩
  refine ((compile_strict_refines _ _).2 _ htolerant).resolve_left fun hsame => ?_
  have hmismatch : (standardCompiler.withPolicy .strict).compile
      (aboveAge ⟨"people", "name", .string, false⟩ "initials") =
    .error (.overloadMismatch "greater" "string, integer") := rfl
  rw [hmismatch] at hsame
  cases hsame

end RequestCompiler
