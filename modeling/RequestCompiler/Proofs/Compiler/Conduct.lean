import RequestCompiler.Proofs.Compiler.Acceptance
import RequestCompiler.Proofs.Compiler.Transaction
import RequestCompiler.Proofs.Select.Runs

/-!
# The steps that a computation takes

A computation records the calls of the builder that it makes, up to its end or to its failure.
`Performs x s steps` says that these are the calls by which `steps` are taken from the builder of
the session, and that a success leads to where they lead. A failure leaves a builder that was passed
on the way, since a savepoint brings an earlier draft back after the calls have been made.

A computation is orderly (`Orderly`) if its builder admits every step, if it leaves the rollback
points as they were, and if it fails for expected causes only. What computations are put together
from is orderly under conditions on the session at hand, and so are sequences and savepoints.

* `Performs.bind`, `Performs.bind_error` — in a sequence the steps follow one another.
* `Orderly.hasContext` — what was a context of the active select still is one.
-/

namespace RequestCompiler

namespace Compilation

variable {α β : Type} {s t : Session}

/-- Whether the steps are those that a computation takes from a session. -/
structure Performs (x : Compilation α) (s : Session) (steps : List SelectBuilder.Step) : Prop where
  /-- The calls that are made are these steps, whether the computation succeeds or fails. -/
  calls : x.calls s = s.draft.builder.calls steps
  /-- Behind a success, the builder is the one that the steps lead to. -/
  builder_eq : ∀ {a t}, x s = .ok a t → t.draft.builder = s.draft.builder.afterAll steps
  /-- Behind a failure, it is one that they have passed; later ones are undone. -/
  passed : ∀ {cause t}, x s = .error cause t →
    ∃ first, first <+: steps ∧ t.draft.builder = s.draft.builder.afterAll first

namespace Performs

variable {x : Compilation α} {f : α → Compilation β} {first second steps : List SelectBuilder.Step}

theorem pure (a : α) (s : Session) : Performs (Pure.pure a : Compilation α) s [] where
  calls := rfl
  builder_eq h := by cases h; rfl
  passed := nofun

theorem fail (cause : CompileError) (s : Session) :
    Performs (Compilation.fail cause : Compilation α) s [] where
  calls := rfl
  builder_eq h := absurd h fail_ne_ok
  passed h := by
    cases h
    exact ⟨[], List.nil_prefix, rfl⟩

theorem contextual (s : Session) : Performs contextual s [] where
  calls := rfl
  builder_eq h := by cases h; rfl
  passed := nofun

theorem typeOf (name : String) (s : Session) : Performs (typeOf name) s [] where
  calls := rfl
  builder_eq h := by cases h; rfl
  passed := nofun

theorem useParameter (use : ParameterUse) (name : String) (s : Session) :
    Performs (useParameter use name) s [] where
  calls := rfl
  builder_eq h := by
    obtain ⟨binder, -, rfl⟩ := useParameter_eq_ok.mp h
    rfl
  passed h := by
    rw [outcome_useParameter] at h
    split at h
    · cases h
    · cases h
      exact ⟨[], List.nil_prefix, rfl⟩

theorem followJoin (context : Context) (edge : JoinEdge) (s : Session) :
    Performs (followJoin context edge) s [.addJoin context edge.table edge.condition] where
  calls := rfl
  builder_eq h := by cases h; rfl
  passed := nofun

theorem perform (step : SelectBuilder.Step) (s : Session) : Performs (perform step) s [step] where
  calls := rfl
  builder_eq h := by
    obtain ⟨answer, builder, hperform, rfl⟩ := perform_eq_ok.mp h
    show builder = s.draft.builder.after step
    rw [SelectBuilder.after, hperform]
  passed h := by
    rw [outcome_perform] at h
    split at h
    · cases h
    · cases h
      exact ⟨[], List.nil_prefix, rfl⟩

theorem exposeAll (e : Expression) (s : Session) :
    Performs (exposeAll e) s (e.columns.map fun column => .expose column.1 column.2) where
  calls := rfl
  builder_eq h := by
    cases h
    exact s.draft.builder.exposeAll_eq_afterAll e
  passed := nofun

/-- A sequence takes the steps of both parts if the first one succeeds. -/
theorem bind {a : α} (hx : Performs x s first) (hok : x s = .ok a t)
    (hf : Performs (f a) t second) : Performs (x >>= f) s (first ++ second) where
  calls := by
    rw [calls_bind_of_ok hok, hx.calls, hf.calls, hx.builder_eq hok, SelectBuilder.calls_append]
  builder_eq h := by
    rw [bind_of_ok hok] at h
    rw [hf.builder_eq h, hx.builder_eq hok, SelectBuilder.afterAll_append]
  passed h := by
    rw [outcome_bind, hok] at h
    obtain ⟨passed, hpassed, hbuilder⟩ := hf.passed h
    refine ⟨first ++ passed, (List.prefix_append_right_inj first).mpr hpassed, ?_⟩
    rw [hbuilder, hx.builder_eq hok, SelectBuilder.afterAll_append]

/-- It takes those of the first part if that fails. -/
theorem bind_error {cause : CompileError} (hx : Performs x s steps)
    (herror : x s = .error cause t) : Performs (x >>= f) s steps where
  calls := (calls_bind_of_error herror).trans hx.calls
  builder_eq h := by
    obtain ⟨a, u, hok, -⟩ := bind_eq_ok.mp h
    cases hok.symm.trans herror
  passed h := by
    rw [outcome_bind, herror] at h
    cases h
    exact hx.passed herror

/-- A savepoint takes the steps of its body; where that fails, all of them are undone. -/
theorem savepoint {context : Context} (h : Performs x (s.setPoint context) steps)
    (hok : ∀ {a t}, x (s.setPoint context) = .ok a t → t.points = (s.setPoint context).points)
    (herror : ∀ {cause t}, x (s.setPoint context) = .error cause t →
      t.points = (s.setPoint context).points) :
    Performs (savepoint context x) s steps where
  calls := h.calls
  builder_eq hresult := by
    obtain ⟨u, hbody, hclear⟩ := savepoint_eq_ok.mp hresult
    have hbuilder := h.builder_eq hbody
    rw [Session.clearPoint_of_points (hok hbody)] at hclear
    cases hclear
    exact hbuilder
  passed hresult := by
    rw [outcome_savepoint] at hresult
    split at hresult
    · next hbody =>
      rw [Session.clearPoint_of_points (hok hbody)] at hresult
      cases hresult
    · next hbody =>
      rw [Session.rollback_of_points (herror hbody)] at hresult
      cases hresult
      exact ⟨[], List.nil_prefix, rfl⟩

end Performs

/-- Following a join leads to a context of the active select. -/
theorem hasContext_of_followJoin_ok {context next : Context} {edge : JoinEdge}
    (h : followJoin context edge s = .ok next t) : t.draft.builder.active.HasContext next := by
  cases h
  obtain ⟨joins, hjoins, hnumber⟩ :=
    s.draft.builder.active.addJoin_eq context edge.table edge.condition
  show (s.draft.builder.withActive
    (s.draft.builder.active.addJoin context edge.table edge.condition).2).active.HasContext
      (.join (s.draft.builder.active.addJoin context edge.table edge.condition).1)
  rw [SelectBuilder.active_withActive, hjoins]
  exact hnumber

/-! ## Orderly computations -/

/--
Whether a computation, from a session, takes admitted steps only, leaves the rollback points as they
were and fails for expected causes only. `forks` tells whether a fork may be among the steps.
-/
structure Orderly (causes : CompileError → Prop) (forks : Bool) (x : Compilation α)
    (s : Session) : Prop where
  performs : ∃ steps, Performs x s steps ∧ s.draft.builder.AdmitsAll forks steps
  ok : ∀ {a t}, x s = .ok a t → t.points = s.points
  error : ∀ {cause t}, x s = .error cause t → t.points = s.points ∧ causes cause

namespace Orderly

variable {causes : CompileError → Prop} {forks : Bool} {x : Compilation α}

/-- What was a context of the active select still is one. -/
theorem hasContext (h : Orderly causes forks x s) {a : α} (hok : x s = .ok a t) {context : Context}
    (hcontext : s.draft.builder.active.HasContext context) :
    t.draft.builder.active.HasContext context := by
  obtain ⟨steps, hsteps, -⟩ := h.performs
  rw [hsteps.builder_eq hok]
  exact hcontext.mono (s.draft.builder.joins_prefix_afterAll steps).subset

/-- Without a fork among the steps, the rows stay as they are. -/
theorem isForked_eq (h : Orderly causes false x s) {a : α} (hok : x s = .ok a t) :
    t.draft.builder.isForked = s.draft.builder.isForked := by
  obtain ⟨steps, hsteps, hadmits⟩ := h.performs
  rw [hsteps.builder_eq hok, hadmits.isForked_afterAll]

theorem pure (a : α) (s : Session) : Orderly causes forks (Pure.pure a : Compilation α) s where
  performs := ⟨[], .pure a s, trivial⟩
  ok := fun h => by cases h; rfl
  error := fun h => by cases h

theorem fail {cause : CompileError} (hcause : causes cause) (s : Session) :
    Orderly causes forks (Compilation.fail cause : Compilation α) s where
  performs := ⟨[], .fail cause s, trivial⟩
  ok := fun h => absurd h fail_ne_ok
  error := fun h => by cases h; exact ⟨rfl, hcause⟩

theorem ofResult {r : Except CompileError α} (hr : ∀ cause, r = .error cause → causes cause)
    (s : Session) : Orderly causes forks (ofResult r) s :=
  match r, hr with
  | .ok a, _ => .pure a s
  | .error cause, hr => .fail (hr cause rfl) s

theorem contextual (s : Session) : Orderly causes forks contextual s where
  performs := ⟨[], .contextual s, trivial⟩
  ok := fun h => by cases h; rfl
  error := fun h => by cases h

theorem typeOf (name : String) (s : Session) : Orderly causes forks (typeOf name) s where
  performs := ⟨[], .typeOf name s, trivial⟩
  ok := fun h => by cases h; rfl
  error := fun h => by cases h

/-- Names that are no identifiers are the only cause. -/
theorem useParameter (use : ParameterUse) {name : String}
    (hname : causes (.unboundParameter name)) (s : Session) :
    Orderly causes forks (useParameter use name) s where
  performs := ⟨[], .useParameter use name s, trivial⟩
  ok := (KeepsPoints.useParameter use name).ok
  error := fun h => by
    rw [outcome_useParameter] at h
    split at h
    · cases h
    · cases h
      exact ⟨rfl, hname⟩

theorem followJoin {context : Context} (edge : JoinEdge)
    (hcontext : s.draft.builder.active.HasContext context) :
    Orderly causes forks (followJoin context edge) s where
  performs := ⟨_, .followJoin context edge s, hcontext, trivial⟩
  ok := fun h => by cases h; rfl
  error := fun h => by cases h

/-- A step that the builder admits does not fail. -/
theorem perform {step : SelectBuilder.Step} (hadmits : s.draft.builder.Admits forks step) :
    Orderly causes forks (perform step) s where
  performs := ⟨[step], .perform step s, hadmits, trivial⟩
  ok := fun h => by
    obtain ⟨answer, builder, -, rfl⟩ := perform_eq_ok.mp h
    rfl
  error := fun h => by
    obtain ⟨answer, builder, hperform⟩ := hadmits.exists_perform_ok
    rw [outcome_perform, hperform] at h
    cases h

theorem exposeAll (e : Expression) (s : Session) : Orderly causes forks (exposeAll e) s where
  performs := ⟨_, .exposeAll e s, SelectBuilder.admitsAll_expose _ _⟩
  ok := fun h => by cases h; rfl
  error := fun h => by cases h

theorem bind {f : α → Compilation β} (hx : Orderly causes forks x s)
    (hf : ∀ {a t}, x s = .ok a t → Orderly causes forks (f a) t) :
    Orderly causes forks (x >>= f) s where
  performs := by
    obtain ⟨first, hfirst, hadmits⟩ := hx.performs
    cases hresult : x s with
    | ok a t =>
      obtain ⟨second, hsecond, hadmits'⟩ := (hf hresult).performs
      rw [hfirst.builder_eq hresult] at hadmits'
      exact ⟨first ++ second, .bind hfirst hresult hsecond,
        SelectBuilder.admitsAll_append.mpr ⟨hadmits, hadmits'⟩⟩
    | error cause t => exact ⟨first, .bind_error hfirst hresult, hadmits⟩
  ok := fun h => by
    obtain ⟨a, t, ha, hb⟩ := bind_eq_ok.mp h
    exact ((hf ha).ok hb).trans (hx.ok ha)
  error := fun h => by
    rcases bind_eq_error.mp h with h | ⟨a, t, ha, hb⟩
    · exact hx.error h
    · obtain ⟨hpoints, hcause⟩ := (hf ha).error hb
      exact ⟨hpoints.trans (hx.ok ha), hcause⟩

/-- The point of the savepoint is there when it ends, so it ends for no cause of its own. -/
theorem savepoint (context : Context) {body : Compilation α}
    (hbody : Orderly causes forks body (s.setPoint context)) :
    Orderly causes forks (savepoint context body) s where
  performs := by
    obtain ⟨steps, hsteps, hadmits⟩ := hbody.performs
    exact ⟨steps, hsteps.savepoint hbody.ok fun h => (hbody.error h).1, hadmits⟩
  ok := fun h => by
    obtain ⟨t, hok, hclear⟩ := savepoint_eq_ok.mp h
    rw [Session.clearPoint_of_points (hbody.ok hok)] at hclear
    cases hclear
    rfl
  error := fun h => by
    rw [outcome_savepoint] at h
    split at h
    · next hok =>
      rw [Session.clearPoint_of_points (hbody.ok hok)] at h
      cases h
    · next herror =>
      obtain ⟨hpoints, hcause⟩ := hbody.error herror
      rw [Session.rollback_of_points hpoints] at h
      cases h
      exact ⟨rfl, hcause⟩

end Orderly

end Compilation

end RequestCompiler
