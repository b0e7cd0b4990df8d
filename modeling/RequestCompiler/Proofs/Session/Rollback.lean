import RequestCompiler.Proofs.Session.Reached

/-!
# Rollback points under whole scripts

A rollback point keeps the draft of the moment at which it was set. What a script does behind the
point cannot change it: steps put points on top of the stack and take them from there, so a point
and all below it stay as they are as long as the stack does not get shorter. This is an invariant of
single steps on the bottom of the stack, and a savepoint is a step that holds a script of its own.

* `suffix_perform` — a step that stays above the bottom of the stack leaves it as it is.
* `Balanced.points_eq` — behind a balanced script the opened point is the newest one again.
* `rollback_exact` — whatever ends a balanced script undoes all of it or keeps all of it.
-/

namespace RequestCompiler

namespace Session

/-! ## Sessions on the way -/

mutual
/-- The sessions that a step passes through up to the one it ends in, a savepoint's own included. -/
def sessionsOf : Step → Session → List Session
  | .savepoint context steps ending, s =>
    s.setPoint context :: (sessionsOfAll steps (s.setPoint context) ++
      [(perform (.savepoint context steps ending) s).2])
  | step, s => [(perform step s).2]
termination_by structural step => step

/-- The sessions that steps pass through, one step after the other. -/
def sessionsOfAll : List Step → Session → List Session
  | [], _ => []
  | step :: steps, s => sessionsOf step s ++ sessionsOfAll steps (perform step s).2
termination_by structural steps => steps
end

/-- Whether steps never leave fewer points than there were, and in the end as many. -/
structure Balanced (steps : List Step) (s : Session) : Prop where
  above : ∀ t ∈ sessionsOfAll steps s, s.depth ≤ t.depth
  level : (performAll steps s).2.depth = s.depth

/-- The last of the sessions that a step passes through is the one it ends in. -/
theorem mem_sessionsOf (step : Step) (s : Session) : (perform step s).2 ∈ sessionsOf step s := by
  cases step with
  | savepoint context steps ending =>
    rw [sessionsOf]
    exact List.mem_cons_of_mem _ (List.mem_append_right _ (List.mem_singleton_self _))
  | _ => exact List.mem_singleton_self _

/-! ## The bottom of the stack -/

theorem points_clearPoint (s : Session) :
    (perform .clearPoint s).2.points = s.points.tail := by
  rw [perform, clearPoint]
  cases hpoints : s.points <;> simp [hpoints]

theorem points_rollback (s : Session) :
    (perform .rollback s).2.points = s.points.tail := by
  rw [perform, rollback]
  cases hpoints : s.points <;> simp [hpoints]

/-- However a savepoint ends, the newest point goes. -/
theorem points_close (s : Session) (ending : Ending) :
    (s.close ending).2.points = s.points.tail := by
  cases ending with
  | success =>
    rw [← points_clearPoint, close, perform]
    cases s.clearPoint <;> rfl
  | failure cause =>
    rw [← points_rollback, close, perform]
    cases s.rollback <;> rfl
  | abandoned =>
    rw [← points_rollback, close, perform]
    cases s.rollback <;> rfl

/-- Steps of construction leave the points alone. -/
theorem points_build (s : Session) (step : SelectBuilder.Step) :
    (s.build step).2.points = s.points := by
  unfold build
  split <;> rfl

/-- A point that is taken off lies above the bottom, if what is left is not shorter than it. -/
theorem suffix_tail {base points : List RollbackPoint} (h : base <:+ points)
    (hlength : base.length ≤ points.tail.length) : base <:+ points.tail := by
  cases points with
  | nil => exact h
  | cons point points =>
    rcases List.suffix_cons_iff.mp h with rfl | h
    · rw [List.length_cons, List.tail_cons] at hlength
      omega
    · exact h

variable {base : List RollbackPoint}

mutual
/-- A step that stays above the bottom of the stack leaves it as it is. -/
theorem suffix_perform : (step : Step) → ∀ {s : Session}, base <:+ s.points →
    (∀ t ∈ sessionsOf step s, base.length ≤ t.depth) → base <:+ (perform step s).2.points
  | .followJoin context edge, s, h, _ => h
  | .setPoint context, s, h, _ => h.trans (List.suffix_cons _ _)
  | .clearPoint, s, h, habove => by
    have hdepth := habove _ (mem_sessionsOf .clearPoint s)
    rw [depth, points_clearPoint] at hdepth
    rw [points_clearPoint]
    exact suffix_tail h hdepth
  | .rollback, s, h, habove => by
    have hdepth := habove _ (mem_sessionsOf .rollback s)
    rw [depth, points_rollback] at hdepth
    rw [points_rollback]
    exact suffix_tail h hdepth
  | .savepoint context steps ending, s, h, habove => by
    have hdepth := habove _ (mem_sessionsOf (.savepoint context steps ending) s)
    rw [sessionsOf, List.forall_mem_cons, List.forall_mem_append] at habove
    rw [perform, depth, points_close] at hdepth
    rw [perform, points_close]
    -- the savepoint's own point lies above the bottom, and so does all that its steps set
    have hopened : base <:+ (s.setPoint context).points := h.trans (List.suffix_cons _ _)
    exact suffix_tail (suffix_performAll steps hopened habove.2.1) hdepth
  | .use u, s, h, _ => by
    rw [perform]
    split <;> exact h
  | .typeOf name, s, h, _ => h
  | .listArguments, s, h, _ => h
  | .listSelects, s, h, _ => h
  | .build step, s, h, _ => by
    rw [perform, points_build]
    exact h

/-- So do steps one after the other. -/
theorem suffix_performAll : (steps : List Step) → ∀ {s : Session}, base <:+ s.points →
    (∀ t ∈ sessionsOfAll steps s, base.length ≤ t.depth) →
      base <:+ (performAll steps s).2.points
  | [], s, h, _ => h
  | step :: steps, s, h, habove => by
    rw [sessionsOfAll, List.forall_mem_append] at habove
    rw [performAll]
    exact suffix_performAll steps (suffix_perform step h habove.1) habove.2
end

/-- Behind a balanced script the points are those from before it. -/
theorem Balanced.points_eq {steps : List Step} {s : Session} (h : Balanced steps s) :
    (performAll steps s).2.points = s.points :=
  ((suffix_performAll steps (List.suffix_refl _) h.above).eq_of_length h.level.symm).symm

/-! ## Ends of a script -/

section Newest

variable {t : Session} {context : Context} {draft : Draft} {points : List RollbackPoint}
  (h : t.points = ⟨context, draft⟩ :: points)

include h

theorem clearPoint_of_points : t.clearPoint = .ok { draft := t.draft, points } := by
  unfold clearPoint
  rw [h]

theorem rollback_of_points : t.rollback = .ok (context, { draft, points }) := by
  unfold rollback
  rw [h]

end Newest

/--
Behind a balanced script, a rollback and a savepoint that fails or is abandoned bring back the
session from before it was opened, and what clears the point keeps the draft as it is. Without any
point there is nothing to end, and nothing happens.
-/
theorem rollback_exact {s : Session} {context : Context} {steps : List Step}
    (h : Balanced steps (s.setPoint context)) :
    let trace := (performAll steps (s.setPoint context)).1
    let last := (performAll steps (s.setPoint context)).2
    let kept : Session := { draft := last.draft, points := s.points }
    perform .rollback last = (.restored context, s) ∧
      (∀ cause, perform (.savepoint context steps (.failure cause)) s =
        (.savepoint trace (.failed cause), s)) ∧
      perform (.savepoint context steps .abandoned) s = (.savepoint trace .undone, s) ∧
      perform .clearPoint last = (.done, kept) ∧
      perform (.savepoint context steps .success) s = (.savepoint trace .kept, kept) ∧
      ∀ bottom : Session, bottom.points = [] →
        perform .rollback bottom = (.failed (.rollbackDiscipline 0), bottom) ∧
        perform .clearPoint bottom = (.failed (.rollbackDiscipline 0), bottom) := by
  intro trace last kept
  have hpoints : last.points = ⟨context, s.draft⟩ :: s.points := h.points_eq
  have hrollback : last.rollback = .ok (context, s) := rollback_of_points hpoints
  have hclear : last.clearPoint = .ok kept := clearPoint_of_points hpoints
  refine ⟨?_, fun cause => ?_, ?_, ?_, ?_, fun bottom hbottom => ⟨?_, ?_⟩⟩
  · rw [perform, hrollback]
  · rw [perform]
    show (Outcome.savepoint trace (last.close (.failure cause)).1,
      (last.close (.failure cause)).2) = _
    rw [close, hrollback]
  · rw [perform]
    show (Outcome.savepoint trace (last.close .abandoned).1, (last.close .abandoned).2) = _
    rw [close, hrollback]
  · rw [perform, hclear]
  · rw [perform]
    show (Outcome.savepoint trace (last.close .success).1, (last.close .success).2) = _
    rw [close, hclear]
  · rw [perform, rollback, hbottom]
  · rw [perform, clearPoint, hbottom]

/-- A session with a join from which the steps below set out. -/
def personInTown : Session :=
  ((start "person" OrderedMap.empty).followJoin .root ⟨"city", "person.city = city.id", true⟩).2

/--
Steps that change every part of a session: savepoints within each other end in all three ways, a
point is set and taken back, and a fork, a use and an edit are refused or undone.
-/
def nestedSteps : List Step :=
  [.followJoin (.join 1) ⟨"country", "city.country = country.id", true⟩,
    .use (.named "name" .required),
    .savepoint (.join 2)
      [.build .fork, .build (.expose .root "age"),
        .savepoint .root [.build .fork, .use (.sliceOffset "start")] (.failure .nestedFork),
        .setPoint (.join 1), .build (.setFilter (.argument 0)), .rollback]
      .success,
    .savepoint .root [.build (.addOrder (.argument 0) true)] .abandoned,
    .use (.named "1st" .required), .setPoint .root, .clearPoint]

theorem nestedSteps_rollback_exact :
    Balanced nestedSteps (personInTown.setPoint (.join 1)) ∧
      perform .rollback (performAll nestedSteps (personInTown.setPoint (.join 1))).2 =
        (.restored (.join 1), personInTown) ∧
      (perform (.savepoint (.join 1) nestedSteps .success) personInTown).2 ≠ personInTown := by
  have h : Balanced nestedSteps (personInTown.setPoint (.join 1)) := ⟨by decide, by decide⟩
  obtain ⟨hrollback, -, -, -, hsuccess, -⟩ := rollback_exact h
  refine ⟨h, hrollback, ?_⟩
  rw [hsuccess]
  decide

end Session

end RequestCompiler
