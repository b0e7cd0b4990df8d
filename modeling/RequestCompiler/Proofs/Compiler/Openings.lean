import RequestCompiler.Proofs.Compiler.Orderly

/-!
# What runs in a session

What runs in the session of a request is orderly. So joins are followed from known contexts only, in
every call of the builder that compiling a request makes, and since the points that are set are
released, nothing goes wrong but what it fails for.

* `orderly_opening` — openings are orderly.
* `joins_inOrder_throughout` — the joins of every select are in order in every state.
* `causes_of_compile_error` — a request fails for causes that are expected of its compiler.
* `compile_ne_internal` — none of them is a mistake of the compiler itself.
-/

namespace RequestCompiler

open Compilation

/-! ## Openings are orderly -/

section Orderly

variable {c : Compiler} {causes : CompileError → Prop} (h : c.MayFailFor causes)

include h

theorem orderly_overRows {name : String} {rows : Request}
    {body : TableScan → Context → Compilation Closing} {o : Opening}
    (ho : c.overRows name rows body = .ok o)
    (hbody : ∀ scan {context : Context} {s : Session},
      s.draft.builder.active.HasContext context → Orderly causes true (body scan context) s)
    (types : ParameterTypes) : Orderly causes true o.body (Session.start o.table types) := by
  unfold Compiler.overRows at ho
  split at ho
  · next scan stages _ =>
    cases ho
    obtain ⟨hrows, hcontext⟩ :=
      orderly_rows h name stages (s := Session.start scan.table types) rfl
    exact .bind hrows fun hok => hbody scan (hcontext hok)
  · cases ho

/-- What runs in the session of a method call is orderly. -/
theorem orderly_methodCall {name : String} {call : MethodCall} {o : Opening}
    (ho : c.methodCall name call = .ok o) (types : ParameterTypes) :
    Orderly causes true o.body (Session.start o.table types) := by
  cases call with
  | get rows projection =>
    exact orderly_overRows h ho
      (fun _ _ _ hs => .bind (orderly_projection h hs projection) fun _ => .pure _ _) types
  | count rows =>
    exact orderly_overRows h ho
      (fun scan _ s _ => .bind (orderly_rowCount scan s) fun _ => .pure _ _) types
  | aggregate function rows operand =>
    exact orderly_overRows h ho
      (fun _ _ _ hs => .bind (orderly_aggregation h hs name function operand) fun _ => .pure _ _)
      types
  | delete rows => exact orderly_overRows h ho (fun _ _ s _ => .pure _ s) types
  | set rows written =>
    refine orderly_overRows h ho (fun _ context s hs => ?_) types
    refine .bind (h.ofResult (.assignmentList written) s) fun hpairs => ?_
    obtain ⟨-, rfl⟩ := ofResult_eq_ok.mp hpairs
    exact .bind (orderly_assignments h hs _) fun _ => .pure _ _
  | insert target written =>
    obtain ⟨scan, -, ho⟩ := resultBind_ok.mp ho
    obtain ⟨pairs, -, ho⟩ := resultBind_ok.mp ho
    cases ho
    have hroot : (Session.start scan.table types).draft.builder.active.HasContext .root := trivial
    exact .bind (orderly_assignments h hroot pairs) fun _ => .pure _ _

theorem orderly_opening {request : Request} {o : Opening} (ho : c.opening request = .ok o)
    (types : ParameterTypes) : Orderly causes true o.body (Session.start o.table types) := by
  obtain ⟨head, -, ho⟩ := resultBind_ok.mp ho
  obtain ⟨call, -, ho⟩ := resultBind_ok.mp ho
  exact orderly_methodCall h ho types

end Orderly

/-! ## Join graphs -/

/--
The calls that compiling a request makes, until it ends or fails, are steps of construction from the
builder of its table, and each of them is admitted.
-/
theorem exists_steps_of_opening (c : Compiler) {request : Request} {o : Opening}
    (ho : c.opening request = .ok o) :
    ∃ steps, Performs o.body (Session.start o.table (c.parameterTypes request)) steps ∧
      c.calls request = (SelectBuilder.ofTable o.table).calls steps ∧
      (SelectBuilder.ofTable o.table).AdmitsAll true steps := by
  have hcauses : c.MayFailFor fun _ => True := ⟨fun _ => trivial, fun _ => trivial⟩
  obtain ⟨steps, hsteps, hadmits⟩ :=
    (orderly_opening hcauses ho (c.parameterTypes request)).performs
  refine ⟨steps, hsteps, ?_, hadmits⟩
  rw [Compiler.calls, ho]
  exact hsteps.calls

/--
In every state of a run of construction, if joins are followed from the root and from where joins
before them led: the joins of each select are in order, the join that was followed is there under
the number that was answered, and joins that are there stay. In all calls of the builder that
compiling a request makes, whether it compiles or fails, joins are followed in this way. These calls
are one run from the builder of the table: a request that succeeds ends with the builder that the
run leads to, and one that fails in its session with a builder that the run has passed.
-/
theorem joins_inOrder_throughout :
    (∀ (table : String) (first second : List SelectBuilder.Step),
      Grounded [.root] ((SelectBuilder.ofTable table).followed (first ++ second)) →
      ((SelectBuilder.ofTable table).afterAll first).JoinsInOrder ∧
      (∀ j ∈ (SelectBuilder.ofTable table).followed first,
        j ∈ ((SelectBuilder.ofTable table).afterAll first).active.joins) ∧
      ((SelectBuilder.ofTable table).afterAll first).active.joins <+:
        ((SelectBuilder.ofTable table).afterAll (first ++ second)).active.joins) ∧
    ∀ (c : Compiler) (request : Request),
      Grounded [.root] ((c.calls request).filterMap SelectBuilder.Call.followed) ∧
      ∀ o, c.opening request = .ok o → ∃ steps,
        c.calls request = (SelectBuilder.ofTable o.table).calls steps ∧
        (∀ close s, o.body (Session.start o.table (c.parameterTypes request)) = .ok close s →
          s.draft.builder = (SelectBuilder.ofTable o.table).afterAll steps) ∧
        ∀ cause s, o.body (Session.start o.table (c.parameterTypes request)) = .error cause s →
          ∃ passed, passed <+: steps ∧
            s.draft.builder = (SelectBuilder.ofTable o.table).afterAll passed := by
  refine ⟨fun table first second hgrounded => ⟨?_, ?_, ?_⟩, fun c request => ⟨?_, ?_⟩⟩
  · rw [SelectBuilder.followed_append, Grounded.append_iff] at hgrounded
    refine (SelectBuilder.JoinsInOrder.ofTable table).afterAll (fun context hcontext => ?_)
      hgrounded.1
    rw [List.mem_singleton.mp hcontext]
    trivial
  · exact (SelectBuilder.ofTable table).followed_subset first
  · rw [SelectBuilder.afterAll_append]
    exact SelectBuilder.joins_prefix_afterAll _ second
  · cases ho : c.opening request with
    | error cause =>
      rw [Compiler.calls, ho]
      trivial
    | ok o =>
      obtain ⟨steps, -, hcalls, hadmits⟩ := exists_steps_of_opening c ho
      rw [hcalls, SelectBuilder.filterMap_followed_calls]
      refine hadmits.grounded fun context hcontext => ?_
      -- a new builder has no context but the root
      cases context with
      | root => exact List.mem_singleton_self _
      | join number =>
        obtain ⟨j, hj, -⟩ := hcontext
        cases hj
  · intro o ho
    obtain ⟨steps, hsteps, hcalls, -⟩ := exists_steps_of_opening c ho
    exact ⟨steps, hcalls, fun _ _ => hsteps.builder_eq, fun _ _ => hsteps.passed⟩

/-- The names of people by a property without a name, which two savepoints enclose. -/
def namelessBehindJoins : Request :=
  [.call "get"
    [[.table ⟨"people", "id", false⟩,
      .call "filter" [[.join ⟨"city", "people.town = city.id", true⟩,
        .call "equal" [[.join ⟨"country", "city.country = country.id", false⟩,
          .read ⟨"country", " ", .string, false⟩], [.parameter "country"]]]]],
    [.read ⟨"people", "name", .string, false⟩]]]

/--
Joins that repeat one another, before a fork and behind it, and a second fork, which fails. Then the
joins of two requests: one compiles, the other one fails behind its joins.
-/
theorem joins_inOrder_repeated :
    let first : List SelectBuilder.Step := [.addJoin .root "cities" "home",
      .addJoin (.join 1) "countries" "state", .addJoin .root "cities" "home", .fork]
    let second : List SelectBuilder.Step := [.fork, .addJoin (.join 2) "rulers" "crown"]
    let run := (SelectBuilder.ofTable "people").followed (first ++ second)
    let joins (request : Request) :=
      (standardCompiler.calls request).filterMap SelectBuilder.Call.followed
    (Grounded [.root] run ∧ run.map (·.number) = [1, 2, 1, 3] ∧
      ((SelectBuilder.ofTable "people").afterAll first).JoinsInOrder ∧
      ((SelectBuilder.ofTable "people").afterAll first).active.joins <+:
        ((SelectBuilder.ofTable "people").afterAll (first ++ second)).active.joins) ∧
    (joins pagedSum = [⟨.root, 1, "item", "order.id = item.order"⟩] ∧
      Grounded [.root] (joins pagedSum) ∧
      ∃ o close s, standardCompiler.opening pagedSum = .ok o ∧
        o.body (Session.start o.table (standardCompiler.parameterTypes pagedSum)) =
          .ok close s ∧
        ∃ steps, standardCompiler.calls pagedSum = (SelectBuilder.ofTable o.table).calls steps ∧
          s.draft.builder = (SelectBuilder.ofTable o.table).afterAll steps) ∧
    joins namelessBehindJoins =
        [⟨.root, 1, "city", "people.town = city.id"⟩,
          ⟨.join 1, 2, "country", "city.country = country.id"⟩] ∧
      Grounded [.root] (joins namelessBehindJoins) ∧
      ∃ o s, standardCompiler.opening namelessBehindJoins = .ok o ∧
        o.body (Session.start o.table (standardCompiler.parameterTypes namelessBehindJoins)) =
          .error (.unresolvedProperty "country" " ") s ∧
        ∃ steps passed, standardCompiler.calls namelessBehindJoins =
            (SelectBuilder.ofTable o.table).calls steps ∧
          passed <+: steps ∧
          s.draft.builder = (SelectBuilder.ofTable o.table).afterAll passed := by
  intro first second run joins
  obtain ⟨hruns, hrequests⟩ := joins_inOrder_throughout
  have hgrounded : Grounded [.root] run := by decide +kernel
  obtain ⟨horder, -, hprefix⟩ := hruns "people" first second hgrounded
  obtain ⟨hpaged, hpagedSteps⟩ := hrequests standardCompiler pagedSum
  obtain ⟨hnameless, hnamelessSteps⟩ := hrequests standardCompiler namelessBehindJoins
  refine ⟨⟨hgrounded, by decide +kernel, horder, hprefix⟩, ⟨rfl, hpaged, ?_⟩,
    rfl, hnameless, ?_⟩
  · have hopening : ∃ o close s, standardCompiler.opening pagedSum = .ok o ∧
        o.body (Session.start o.table (standardCompiler.parameterTypes pagedSum)) =
          .ok close s := ⟨_, _, _, rfl, rfl⟩
    obtain ⟨o, close, s, ho, hok⟩ := hopening
    obtain ⟨steps, hcalls, hbuilder, -⟩ := hpagedSteps o ho
    exact ⟨o, close, s, ho, hok, steps, hcalls, hbuilder close s hok⟩
  · have hopening : ∃ o s, standardCompiler.opening namelessBehindJoins = .ok o ∧
        o.body (Session.start o.table (standardCompiler.parameterTypes namelessBehindJoins)) =
          .error (.unresolvedProperty "country" " ") s := ⟨_, _, rfl, rfl⟩
    obtain ⟨o, s, ho, herror⟩ := hopening
    obtain ⟨steps, hcalls, -, hpassed⟩ := hnamelessSteps o ho
    obtain ⟨passed, hprefix, hbuilder⟩ := hpassed _ s herror
    exact ⟨o, s, ho, herror, steps, passed, hcalls, hprefix, hbuilder⟩

/-! ## Causes of failure -/

namespace External

theorem resultBind {α β : Type} {x : Except CompileError α} {f : α → Except CompileError β}
    (hx : External x) (hf : ∀ a, External (f a)) : External (x >>= f) := by
  cases x with
  | error cause => exact error (hx cause rfl)
  | ok a => exact hf a

theorem overRows (c : Compiler) (name : String) (rows : Request)
    (body : TableScan → Context → Compilation Closing) :
    External (c.overRows name rows body) := by
  unfold Compiler.overRows
  split
  · exact ok _
  · exact error rfl

theorem openedCall (c : Compiler) (name : String) (call : MethodCall) :
    External (c.methodCall name call) := by
  cases call with
  | insert target written =>
    exact resultBind (insertionTarget name target) fun _ =>
      resultBind (assignmentList written) fun _ => ok _
  | _ => exact overRows c name _ _

/-- A request that does not get as far as a session fails for its shape. -/
theorem opening (c : Compiler) (request : Request) : External (c.opening request) :=
  resultBind (headCall request) fun head =>
    resultBind (methodCall head.1 head.2) fun call => openedCall c head.1 call

end External

/-- An orderly computation leaves no point open, so a session fails for what it fails for. -/
theorem causes_of_run_error {causes : CompileError → Prop} {o : Opening} {types : ParameterTypes}
    {cause : CompileError} (hbody : Orderly causes true o.body (Session.start o.table types))
    (h : o.run types = .error cause) : causes cause := by
  unfold Opening.run at h
  split at h
  · next herror =>
    cases h
    exact (hbody.error herror).2
  · next close s hok =>
    have hfinish : s.finish = .ok (s.draft.builder, s.draft.binder) := by
      rw [Session.finish, hbody.ok hok]
      rfl
    rw [hfinish] at h
    cases h

/-- A request fails for one of the causes that are expected of its compiler. -/
theorem causes_of_compile_error {c : Compiler} {causes : CompileError → Prop}
    (hcauses : c.MayFailFor causes) {request : Request} {cause : CompileError}
    (h : c.compile request = .error cause) : causes cause := by
  unfold Compiler.compile at h
  cases ho : c.opening request with
  | error other =>
    rw [ho] at h
    cases h
    exact hcauses.external (External.opening c request _ ho)
  | ok o =>
    rw [ho] at h
    exact causes_of_run_error (orderly_opening hcauses ho (c.parameterTypes request)) h

/--
No request is answered with a mistake of the compiler, unless the resolver answers with one: points
are set and released in pairs, and what is forked is not forked again.
-/
theorem compile_ne_internal {c : Compiler}
    (hresolver : ∀ property context contextual,
      c.resolver property context contextual ≠ .error .nestedFork ∧
      ∀ depth, c.resolver property context contextual ≠ .error (.rollbackDiscipline depth))
    (request : Request) :
    c.compile request ≠ .error .nestedFork ∧
      ∀ depth, c.compile request ≠ .error (.rollbackDiscipline depth) := by
  have hcauses : c.MayFailFor fun cause => cause.isInternal = false := by
    refine ⟨id, fun {property context contextual cause} h => ?_⟩
    obtain ⟨hfork, hpoints⟩ := hresolver property context contextual
    cases cause with
    | nestedFork => exact absurd h hfork
    | rollbackDiscipline depth => exact absurd h (hpoints depth)
    | _ => rfl
  refine ⟨fun h => ?_, fun depth h => ?_⟩
  · cases causes_of_compile_error hcauses h
  · cases causes_of_compile_error hcauses h

/-- The resolver of columns gives up for a blank name only. -/
theorem columnResolver_ne_internal (property : Property) (context : Context)
    (contextual : Option ContextualJoin) :
    columnResolver property context contextual ≠ .error .nestedFork ∧
      ∀ depth, columnResolver property context contextual ≠ .error (.rollbackDiscipline depth) := by
  unfold columnResolver
  split
  · exact ⟨nofun, nofun⟩
  · exact ⟨nofun, nofun⟩

/-- The number of people, whose rows are forked twice. -/
def twiceForked : Request :=
  [.call "count" [[.table ⟨"people", "id", false⟩, .call "fork" [], .call "fork" []]]]

theorem twiceForked_ne_internal :
    standardCompiler.compile twiceForked = .error (.unexpectedStage "fork" "fork") ∧
    standardCompiler.compile namelessBehindJoins = .error (.unresolvedProperty "country" " ") ∧
    ∀ request ∈ [twiceForked, namelessBehindJoins],
      standardCompiler.compile request ≠ .error .nestedFork ∧
        ∀ depth, standardCompiler.compile request ≠ .error (.rollbackDiscipline depth) :=
  ⟨rfl, rfl, fun request _ => compile_ne_internal columnResolver_ne_internal request⟩

end RequestCompiler
