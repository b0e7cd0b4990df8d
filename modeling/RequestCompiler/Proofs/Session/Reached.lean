import RequestCompiler.Session.Script

/-!
# Sessions that scripts reach

A session is reached if some script of steps, with any arguments at all, leads to it from a new one.
Steps act on the builder in one way only, by steps of construction, and a rollback brings an earlier
builder back. So what every step of construction keeps holds of every builder of a session that was
reached, those of its rollback points included.

* `perform_all` — one step of a session keeps such a property.
* `Reached.onward` — a script leads from a session that was reached to another one.
* `Reached.all` — a whole script keeps such a property, too.
-/

namespace RequestCompiler

/-- Whether every step of construction that succeeds keeps a property of builders. -/
def SelectBuilder.Keeps (P : SelectBuilder → Prop) : Prop :=
  ∀ {b : SelectBuilder} {step : Step} {answer : Answer} {b' : SelectBuilder},
    P b → b.perform step = .ok (answer, b') → P b'

namespace Session

/-- Whether a script leads from a new session to this one. -/
def Reached (s : Session) : Prop :=
  ∃ table types steps, (performAll steps (start table types)).2 = s

/-- Whether every builder of a session has a property, also those it can be rolled back to. -/
structure All (P : SelectBuilder → Prop) (s : Session) : Prop where
  draft : P s.draft.builder
  points : ∀ point ∈ s.points, P point.draft.builder

variable {P : SelectBuilder → Prop}

namespace All

variable {s t : Session}

theorem setPoint (h : s.All P) (context : Context) : (s.setPoint context).All P :=
  ⟨h.draft, List.forall_mem_cons.mpr ⟨h.draft, h.points⟩⟩

theorem withBuilder (h : s.All P) {b : SelectBuilder} (hb : P b) : (s.withBuilder b).All P :=
  ⟨hb, h.points⟩

/-- The newest point and those below it. -/
theorem of_points (h : s.All P) {point : RollbackPoint} {points : List RollbackPoint}
    (hpoints : s.points = point :: points) :
    P point.draft.builder ∧ ∀ p ∈ points, P p.draft.builder := by
  have hall : ∀ p ∈ point :: points, P p.draft.builder := by
    rw [← hpoints]
    exact h.points
  exact List.forall_mem_cons.mp hall

theorem clearPoint (h : s.All P) (hclear : s.clearPoint = .ok t) : t.All P := by
  unfold Session.clearPoint at hclear
  split at hclear
  · cases hclear
  · next point points hpoints =>
    cases hclear
    exact ⟨h.draft, (h.of_points hpoints).2⟩

theorem rollback (h : s.All P) {context : Context} (hrollback : s.rollback = .ok (context, t)) :
    t.All P := by
  unfold Session.rollback at hrollback
  split at hrollback
  · cases hrollback
  · next point points hpoints =>
    cases hrollback
    exact ⟨(h.of_points hpoints).1, (h.of_points hpoints).2⟩

/-- However a savepoint ends, the draft is the one there was or an earlier one. -/
theorem close (h : s.All P) (ending : Ending) : (s.close ending).2.All P := by
  cases ending with
  | success =>
    rw [Session.close]
    split
    · next hclear => exact h.clearPoint hclear
    · exact h
  | failure cause =>
    rw [Session.close]
    split
    · next hrollback => exact h.rollback hrollback
    · exact h
  | abandoned =>
    rw [Session.close]
    split
    · next hrollback => exact h.rollback hrollback
    · exact h

/-- A step of construction changes the builder of the draft. -/
theorem build (hkeeps : SelectBuilder.Keeps P) (h : s.All P) (step : SelectBuilder.Step) :
    (s.build step).2.All P := by
  unfold Session.build
  split
  · next hperform => exact h.withBuilder (hkeeps h.draft hperform)
  · next hperform => exact h.withBuilder (hkeeps h.draft hperform)
  · next hperform => exact h.withBuilder (hkeeps h.draft hperform)
  · exact h

end All

mutual
/-- A step keeps what every step of construction keeps. -/
theorem perform_all (hkeeps : SelectBuilder.Keeps P) :
    (step : Step) → ∀ {s : Session}, s.All P → (perform step s).2.All P
  | .followJoin context edge, s, h => by
    rw [perform]
    have hjoin : s.draft.builder.perform (.addJoin context edge.table edge.condition) =
        .ok (_, _) := rfl
    exact ⟨hkeeps h.draft hjoin, h.points⟩
  | .setPoint context, s, h => by
    rw [perform]
    exact h.setPoint context
  | .clearPoint, s, h => by
    rw [perform]
    split
    · next hclear => exact h.clearPoint hclear
    · exact h
  | .rollback, s, h => by
    rw [perform]
    split
    · next hrollback => exact h.rollback hrollback
    · exact h
  | .savepoint context steps ending, s, h => by
    rw [perform]
    exact (performAll_all hkeeps steps (h.setPoint context)).close ending
  | .use u, s, h => by
    rw [perform]
    split
    · exact ⟨h.draft, h.points⟩
    · exact h
  | .typeOf name, s, h => h
  | .listArguments, s, h => h
  | .listSelects, s, h => h
  | .build step, s, h => by
    rw [perform]
    exact h.build hkeeps step

/-- So do steps one after the other. -/
theorem performAll_all (hkeeps : SelectBuilder.Keeps P) :
    (steps : List Step) → ∀ {s : Session}, s.All P → (performAll steps s).2.All P
  | [], s, h => h
  | step :: steps, s, h => by
    rw [performAll]
    exact performAll_all hkeeps steps (perform_all hkeeps step h)
end

theorem performAll_append (first second : List Step) (s : Session) :
    (performAll (first ++ second) s).2 = (performAll second (performAll first s).2).2 := by
  induction first generalizing s with
  | nil => rfl
  | cons step first ih =>
    rw [List.cons_append, performAll, performAll]
    exact ih _

/-- A script leads on from a session that was reached. -/
theorem Reached.onward {s : Session} (h : s.Reached) (steps : List Step) :
    (performAll steps s).2.Reached := by
  obtain ⟨table, types, before, rfl⟩ := h
  exact ⟨table, types, before ++ steps, performAll_append before steps _⟩

/-- What holds of a new builder and is kept by every step of construction holds throughout. -/
theorem Reached.all {s : Session} (h : s.Reached) (hnew : ∀ table, P (.ofTable table))
    (hkeeps : SelectBuilder.Keeps P) : s.All P := by
  obtain ⟨table, types, steps, rfl⟩ := h
  exact performAll_all hkeeps steps ⟨hnew table, fun point hpoint => by cases hpoint⟩

end Session

end RequestCompiler
