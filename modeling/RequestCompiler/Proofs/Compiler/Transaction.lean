import RequestCompiler.Proofs.Compiler.Closure
import RequestCompiler.Proofs.Compiler.Requests
import RequestCompiler.Proofs.Compiler.Uses
import RequestCompiler.Proofs.Session.Rollback

/-!
# Compiling an expression is a transaction

What compiling an expression did before failing stays done, unless the expression begins with a
join: then it ran over a savepoint, which undoes it. Failing or not, it sets and releases rollback
points in pairs, and if it succeeds the draft has only grown, by joins and by arguments.

* `keepsPoints_expression` — the rollback points are left as they were, on both outcomes.
* `Compiles.growsTo` — a success appends joins and arguments and changes nothing else.
* `expression_transactional` — both, and a failure behind a join restores the session.
-/

namespace RequestCompiler

/-! ## Computations that leave the rollback points -/

namespace Compilation

variable {α β : Type} {s s' : Session} {cause : CompileError}

theorem bind_eq_error {x : Compilation α} {f : α → Compilation β} :
    (x >>= f) s = .error cause s' ↔
      x s = .error cause s' ∨ ∃ a t, x s = .ok a t ∧ f a t = .error cause s' := by
  rw [outcome_bind]
  cases x s <;> simp

/-- Whether a computation leaves the rollback points as they were, however it ends. -/
structure KeepsPoints (x : Compilation α) : Prop where
  ok : ∀ {s s' : Session} {a : α}, x s = .ok a s' → s'.points = s.points
  error : ∀ {s s' : Session} {cause : CompileError}, x s = .error cause s' → s'.points = s.points

namespace KeepsPoints

theorem pure (a : α) : KeepsPoints (Pure.pure a : Compilation α) :=
  ⟨fun h => by cases h; rfl, fun h => by cases h⟩

theorem fail (cause : CompileError) : KeepsPoints (Compilation.fail cause : Compilation α) :=
  ⟨fun h => absurd h fail_ne_ok, fun h => by cases h; rfl⟩

theorem followJoin (context : Context) (edge : JoinEdge) :
    KeepsPoints (followJoin context edge) :=
  ⟨fun h => by cases h; rfl, fun h => by cases h⟩

theorem typeOf (name : String) : KeepsPoints (typeOf name) :=
  ⟨fun h => by cases h; rfl, fun h => by cases h⟩

theorem contextual : KeepsPoints contextual :=
  ⟨fun h => by cases h; rfl, fun h => by cases h⟩

theorem useParameter (use : ParameterUse) (name : String) :
    KeepsPoints (useParameter use name) := by
  constructor
  · intro s s' ordinal h
    obtain ⟨binder, -, rfl⟩ := useParameter_eq_ok.mp h
    rfl
  · intro s s' cause h
    rw [outcome_useParameter] at h
    split at h
    · cases h
    · cases h
      rfl

theorem bind {x : Compilation α} {f : α → Compilation β} (hx : KeepsPoints x)
    (hf : ∀ a, KeepsPoints (f a)) : KeepsPoints (x >>= f) := by
  constructor
  · intro s s' b h
    obtain ⟨a, t, ha, hb⟩ := bind_eq_ok.mp h
    exact ((hf a).ok hb).trans (hx.ok ha)
  · intro s s' cause h
    rcases bind_eq_error.mp h with h | ⟨a, t, ha, hb⟩
    · exact hx.error h
    · exact ((hf a).error hb).trans (hx.ok ha)

/-- A savepoint that fails undoes what was done over it. -/
theorem eq_of_savepoint_error {context : Context} {body : Compilation α} (hbody : KeepsPoints body)
    (h : Compilation.savepoint context body s = .error cause s') : s' = s := by
  rw [outcome_savepoint] at h
  split at h
  · next a t hok =>
    -- the point is still there, so a body that succeeds cannot fail in the end
    rw [Session.clearPoint_of_points (hbody.ok hok)] at h
    cases h
  · next herror =>
    rw [Session.rollback_of_points (hbody.error herror)] at h
    cases h
    rfl

theorem savepoint (context : Context) {body : Compilation α} (hbody : KeepsPoints body) :
    KeepsPoints (savepoint context body) := by
  constructor
  · intro s s' a h
    obtain ⟨t, hok, hclear⟩ := savepoint_eq_ok.mp h
    rw [Session.clearPoint_of_points (hbody.ok hok)] at hclear
    cases hclear
    rfl
  · intro s s' cause h
    rw [hbody.eq_of_savepoint_error h]

/-- Whatever the names of parameters are. -/
theorem closed : Closed KeepsPoints fun _ => True where
  pure := pure
  fail := fail
  followJoin := followJoin
  contextual := contextual
  typeOf := fun _ => typeOf _
  useParameter := fun _ => useParameter _
  bind := bind
  savepoint := savepoint

end KeepsPoints

end Compilation

open Compilation

/-- Compiling an expression leaves the rollback points as they were. -/
theorem keepsPoints_expression (c : Compiler) (tokens : List Token) (context : Context)
    (requiredness : Requiredness) : KeepsPoints (c.expression context requiredness tokens) :=
  KeepsPoints.closed.expression c tokens (fun _ _ => trivial) context requiredness

/-! ## Drafts that grow -/

/--
Whether a draft has become another one by adding: joins of the active select, behind those it had,
and arguments, behind those it had. All else of the builder and the types are the same.
-/
structure Draft.GrowsTo (d d' : Draft) : Prop where
  builder : ∃ joins, d'.builder = d.builder.withActive (d.builder.active.appendJoins joins)
  arguments : d.binder.arguments <+: d'.binder.arguments
  types : d'.binder.types = d.binder.types

namespace Draft.GrowsTo

variable {d d' d'' : Draft}

theorem refl (d : Draft) : d.GrowsTo d :=
  ⟨⟨[], by rw [Select.appendJoins_nil, SelectBuilder.withActive_active]⟩, List.prefix_refl _, rfl⟩

theorem trans (h : d.GrowsTo d') (h' : d'.GrowsTo d'') : d.GrowsTo d'' := by
  obtain ⟨js, hjs⟩ := h.builder
  obtain ⟨ks, hks⟩ := h'.builder
  refine ⟨⟨js ++ ks, ?_⟩, h.arguments.trans h'.arguments, h'.types.trans h.types⟩
  rw [hks, hjs, SelectBuilder.active_withActive, SelectBuilder.withActive_withActive,
    Select.appendJoins_appendJoins]

theorem followJoin (d : Draft) (context : Context) (edge : JoinEdge) :
    d.GrowsTo (d.followJoin context edge).2 := by
  obtain ⟨joins, hjoins, -⟩ := d.builder.active.addJoin_eq context edge.table edge.condition
  exact ⟨⟨joins, congrArg d.builder.withActive hjoins⟩, List.prefix_refl _, rfl⟩

theorem of_binds {binder : ArgumentBinder} {uses : List ParameterUse}
    (h : d.binder.Binds uses binder) : d.GrowsTo { d with binder } :=
  ⟨(refl d).builder, h.isPrefix, h.types⟩

end Draft.GrowsTo

/-- Compiling an expression appends joins and arguments and changes nothing else. -/
theorem Compiles.growsTo {c : Compiler} {context : Context} {requiredness : Requiredness}
    {tokens : List Token} {d d' : Draft} {e : Typed}
    (h : Compiles c context requiredness tokens d e d') : d.GrowsTo d' := by
  induction h with
  | @join context requiredness edge rest d d' e h ih =>
    exact (Draft.GrowsTo.followJoin d context edge).trans ih
  | parameter h => exact .of_binds (use?_eq_some h).1
  | read h => exact .refl _
  | length h ih => exact ih
  | unary hname hlength h htype ih => exact ih
  | binary hname hleft hright htype ihleft ihright => exact ihleft.trans ihright
  | substring h hfirst hlength ih =>
    exact ih.trans (.of_binds ((use?_eq_some hfirst).1.append (use?_eq_some hlength).1))

/-! ## Transactions -/

/--
Compiling an expression leaves the rollback points as they were. If it succeeds, joins and arguments
were appended and nothing else has changed; if it fails behind a leading join, nothing has changed.
-/
theorem expression_transactional (c : Compiler) (context : Context) (requiredness : Requiredness)
    (tokens : Request) (s s' : Session) :
    (∀ e, c.expression context requiredness tokens s = .ok e s' →
      s'.points = s.points ∧ s.draft.GrowsTo s'.draft) ∧
    (∀ cause, c.expression context requiredness tokens s = .error cause s' →
      s'.points = s.points ∧ (tokens.head?.any Token.isJoin = true → s' = s)) := by
  constructor
  · intro e h
    obtain ⟨hcompiles, hpoints⟩ := compiles_of_expression_ok c tokens h
    exact ⟨hpoints, hcompiles.growsTo⟩
  · intro cause h
    refine ⟨(keepsPoints_expression c tokens context requiredness).error h, fun hjoin => ?_⟩
    cases tokens with
    | nil => cases hjoin
    | cons t rest =>
      cases t with
      | join edge =>
        rw [Compiler.expression] at h
        -- everything behind the join ran over a savepoint
        have hbody : KeepsPoints (do
            let next ← followJoin context edge
            c.expression next requiredness rest) :=
          .bind (.followJoin context edge) fun next =>
            keepsPoints_expression c rest next requiredness
        exact hbody.eq_of_savepoint_error h
      | _ => cases hjoin

/-- The name of a town in capitals, compared with a parameter. -/
def townInCapitals : Request :=
  [.join ⟨"city", "person.town = city.id", true⟩,
    .call "equal" [[.call "uppercase" [[.read ⟨"city", "name", .string, false⟩]]],
      [.parameter "name"]]]

/-- The same, but the comparison is with what no function yields. -/
def townAgainstInitials : Request :=
  [.join ⟨"city", "person.town = city.id", true⟩,
    .call "equal" [[.join ⟨"country", "city.country = country.id", false⟩, .parameter "name"],
      [.call "initials" [[.parameter "name"]]]]]

theorem townInCapitals_transactional :
    (∃ e s', standardCompiler.expression .root .required townInCapitals
        (Session.personInTown.setPoint .root) = .ok e s' ∧
      s'.points = (Session.personInTown.setPoint .root).points ∧
      (Session.personInTown.setPoint .root).draft.GrowsTo s'.draft) ∧
    standardCompiler.expression .root .required townAgainstInitials
        (Session.personInTown.setPoint .root) =
      .error (.unknownFunction "initials" 1) (Session.personInTown.setPoint .root) := by
  constructor
  · have h : ∃ e s', standardCompiler.expression .root .required townInCapitals
        (Session.personInTown.setPoint .root) = .ok e s' := ⟨_, _, rfl⟩
    obtain ⟨e, s', h⟩ := h
    exact ⟨e, s', h, (expression_transactional _ _ _ _ _ s').1 e h⟩
  · have h : ∃ s', standardCompiler.expression .root .required townAgainstInitials
        (Session.personInTown.setPoint .root) = .error (.unknownFunction "initials" 1) s' :=
      ⟨_, rfl⟩
    obtain ⟨s', h⟩ := h
    have hsame := ((expression_transactional _ _ _ _ _ s').2 _ h).2 rfl
    rw [hsame] at h
    exact h

end RequestCompiler
