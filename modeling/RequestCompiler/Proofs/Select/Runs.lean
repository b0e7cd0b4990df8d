import RequestCompiler.Proofs.Select.Exposure
import RequestCompiler.Proofs.Select.JoinGraph
import RequestCompiler.Proofs.Session.Reached

/-!
# Runs of construction

A run is steps of construction, one after the other, from a builder. Of the steps only a fork can
fail, where there is a subquery already, and then the builder stays as it is.

The joins of a builder are those of its active select: a fork moves them, and the main select that
it puts in their place has none. Joins are only appended. So if joins are followed from the root and
from where joins before them led (`Grounded`), the parent of every join is an earlier one.

* `keeps_afterAll` — what every step keeps, a run keeps.
* `joins_prefix_afterAll` — the joins that are there stay, in their order.
* `followed_subset` — every join that was followed is there under the number that was answered.
* `JoinsInOrder.afterAll` — a grounded run keeps the joins in order.
-/

namespace RequestCompiler

/-- Of the joins behind one that is followed, only its own may be new. -/
theorem Select.mem_joins_addJoin {s : Select} {parent : Context} {table condition : String}
    {j : Join} (h : j ∈ (s.addJoin parent table condition).2.joins) :
    j ∈ s.joins ∨ j.number = (s.addJoin parent table condition).1 := by
  unfold Select.addJoin at h ⊢
  cases hfound : s.findJoin? parent table condition with
  | some i =>
    simp only [hfound] at h
    exact .inl h
  | none =>
    simp only [hfound] at h
    rcases List.mem_append.mp h with h | h
    · exact .inl h
    · exact .inr (by rw [List.mem_singleton.mp h])

namespace SelectBuilder

/-- The builder behind steps, one after the other. -/
def afterAll (b : SelectBuilder) (steps : List Step) : SelectBuilder := steps.foldl after b

/-- Whether steps lead from a new builder to this one. -/
def Reached (b : SelectBuilder) : Prop := ∃ table steps, (ofTable table).afterAll steps = b

theorem afterAll_append (b : SelectBuilder) (first second : List Step) :
    b.afterAll (first ++ second) = (b.afterAll first).afterAll second :=
  List.foldl_append

theorem calls_append (b : SelectBuilder) (first second : List Step) :
    b.calls (first ++ second) = b.calls first ++ (b.afterAll first).calls second := by
  induction first generalizing b with
  | nil => rfl
  | cons step first ih =>
    rw [List.cons_append, calls, ih]
    rfl

/-- An expression is read from outside by exposing its columns from left to right. -/
theorem exposeAll_eq_afterAll (b : SelectBuilder) (e : Expression) :
    (b.exposeAll e).2 = b.afterAll (e.columns.map fun column => .expose column.1 column.2) := by
  obtain ⟨main, subquery⟩ := b
  cases subquery with
  | none =>
    rw [exposeAll_of_not_forked rfl]
    induction e.columns with
    | nil => rfl
    | cons column columns ih => exact ih
  | some q =>
    rw [exposeAll_eq]
    show SelectBuilder.mk main (some (q.exposeColumns e.columns)) = _
    induction e.columns generalizing q with
    | nil => rfl
    | cons column columns ih => exact ih (q.expose column.1 column.2).2

section Keeps

variable {P : SelectBuilder → Prop} (hkeeps : Keeps P) {b : SelectBuilder}

include hkeeps

theorem keeps_after (h : P b) (step : Step) : P (b.after step) := by
  unfold after
  split
  · next hperform => exact hkeeps h hperform
  · exact h

/-- What every step of construction keeps, a run keeps. -/
theorem keeps_afterAll (h : P b) (steps : List Step) : P (b.afterAll steps) := by
  induction steps generalizing b with
  | nil => exact h
  | cons step steps ih => exact ih (keeps_after hkeeps h step)

theorem Reached.keeps (h : b.Reached) (hnew : ∀ table, P (ofTable table)) : P b := by
  obtain ⟨table, steps, rfl⟩ := h
  exact keeps_afterAll hkeeps (hnew table) steps

end Keeps

/-! ## Joins that are followed -/

/-- The join that a step follows, under the number that it answers with. -/
def followedBy (b : SelectBuilder) : Step → Option Join
  | .addJoin parent table condition =>
    some ⟨parent, (b.addJoin parent table condition).1, table, condition⟩
  | _ => none

/-- The join that a call follows, under the number that it is answered with. -/
def Call.followed (call : Call) : Option Join := call.builder.followedBy call.step

/-- The joins that steps follow, one after the other. -/
def followed (b : SelectBuilder) : List Step → List Join
  | [] => []
  | step :: steps => (b.followedBy step).toList ++ (b.after step).followed steps

theorem followed_append (b : SelectBuilder) (first second : List Step) :
    b.followed (first ++ second) = b.followed first ++ (b.afterAll first).followed second := by
  induction first generalizing b with
  | nil => rfl
  | cons step first ih =>
    rw [List.cons_append, followed, ih, followed, List.append_assoc]
    rfl

/-- These are the joins that their calls follow. -/
theorem filterMap_followed_calls (b : SelectBuilder) (steps : List Step) :
    (b.calls steps).filterMap Call.followed = b.followed steps := by
  induction steps generalizing b with
  | nil => rfl
  | cons step steps ih =>
    rw [calls, List.filterMap_cons, ih, followed, Call.followed]
    cases b.followedBy step <;> rfl

/-- The joins of the active select behind a step: those from before, or with the join followed. -/
theorem joins_after (b : SelectBuilder) (step : Step) :
    (b.after step).active.joins = match step with
      | .addJoin parent table condition => (b.active.addJoin parent table condition).2.joins
      | _ => b.active.joins := by
  obtain ⟨main, subquery⟩ := b
  unfold after
  split
  · next hperform =>
    cases changes_of_perform hperform with
    | join parent table condition => rw [active_withActive]
    | edit hstep hjoins hprojection =>
      rw [active_withActive, hjoins]
      split
      · next parent table condition => exact absurd rfl (hstep parent table condition)
      · rfl
    | project e => cases subquery <;> rfl
    | fork hb => cases hb; rfl
    | expose context name =>
      cases subquery with
      | none => rfl
      | some q => exact joins_expose q context name
  · next hperform =>
    -- a fork fails where there is a subquery, and nothing changes
    cases step with
    | fork => rfl
    | _ => cases hperform

/-- The joins that are there stay, in their order. -/
theorem joins_prefix_after (b : SelectBuilder) (step : Step) :
    b.active.joins <+: (b.after step).active.joins := by
  rw [joins_after]
  cases step with
  | addJoin parent table condition =>
    obtain ⟨added, hadded, -⟩ := b.active.joins_addJoin parent table condition
    exact ⟨added, hadded.symm⟩
  | _ => exact List.prefix_refl _

theorem joins_prefix_afterAll (b : SelectBuilder) (steps : List Step) :
    b.active.joins <+: (b.afterAll steps).active.joins := by
  induction steps generalizing b with
  | nil => exact List.prefix_refl _
  | cons step steps ih => exact (b.joins_prefix_after step).trans (ih (b.after step))

/-- The join that a step follows is there, be it new or not. -/
theorem mem_joins_after {b : SelectBuilder} {step : Step} {j : Join}
    (h : b.followedBy step = some j) : j ∈ (b.after step).active.joins := by
  cases step with
  | addJoin parent table condition =>
    obtain ⟨i, hi, hnumber, rfl, hlink⟩ := b.active.exists_mem_addJoin parent table condition
    obtain ⟨rfl, rfl⟩ : i.table = table ∧ i.condition = condition := Prod.mk.inj hlink
    cases h
    rw [joins_after]
    show Join.mk i.parent (b.active.addJoin i.parent i.table i.condition).1 _ _ ∈ _
    rw [← hnumber]
    exact hi
  | _ => cases h

/-- So is every join that a run follows, whatever comes behind it. -/
theorem followed_subset (b : SelectBuilder) (steps : List Step) :
    b.followed steps ⊆ (b.afterAll steps).active.joins := by
  induction steps generalizing b with
  | nil => exact List.nil_subset _
  | cons step steps ih =>
    refine List.append_subset.mpr ⟨fun j hj => ?_, ih (b.after step)⟩
    rw [Option.mem_toList] at hj
    exact ((b.after step).joins_prefix_afterAll steps).subset (mem_joins_after hj)

end SelectBuilder

/-! ## Runs from contexts that are known -/

/-- Whether joins are followed from known contexts only, those to which joins have led included. -/
def Grounded : List Context → List Join → Prop
  | _, [] => True
  | known, j :: joins => j.parent ∈ known ∧ Grounded (.join j.number :: known) joins

instance decidableGrounded : (known : List Context) → (joins : List Join) →
    Decidable (Grounded known joins)
  | _, [] => .isTrue trivial
  | known, j :: joins =>
    have := decidableGrounded (.join j.number :: known) joins
    inferInstanceAs (Decidable (_ ∧ _))

/-- The contexts known behind joins. -/
def knownBehind (known : List Context) (joins : List Join) : List Context :=
  joins.foldl (fun known j => .join j.number :: known) known

namespace Grounded

variable {known : List Context} {joins further : List Join}

theorem append_iff : Grounded known (joins ++ further) ↔
    Grounded known joins ∧ Grounded (knownBehind known joins) further := by
  induction joins generalizing known with
  | nil => exact (and_iff_right trivial).symm
  | cons j joins ih =>
    rw [List.cons_append, Grounded, ih, ← and_assoc]
    rfl

end Grounded

/--
Whether the joins of a select are numbered in their order, each once, and each hangs on the root or
on one before it.
-/
structure Select.JoinsInOrder (s : Select) : Prop where
  numbered : s.Numbered
  parents : ∀ j ∈ s.joins, j.parent = .root ∨ ∃ number < j.number, j.parent = .join number

namespace Select.JoinsInOrder

variable {s s' : Select}

theorem of_joins (h : s.JoinsInOrder) (hjoins : s'.joins = s.joins) : s'.JoinsInOrder :=
  ⟨h.numbered.of_joins hjoins, by rw [hjoins]; exact h.parents⟩

theorem of_nil (h : s.joins = []) : s.JoinsInOrder :=
  ⟨.of_nil h, by rw [h]; exact fun j hj => by cases hj⟩

/-- A new join has a number greater than that of any context of the select. -/
theorem addJoin (h : s.JoinsInOrder) {parent : Context} (hparent : s.HasContext parent)
    (table condition : String) : (s.addJoin parent table condition).2.JoinsInOrder := by
  refine ⟨h.numbered.addJoin parent table condition, ?_⟩
  unfold Select.addJoin
  split
  · exact h.parents
  · refine List.forall_mem_append.mpr ⟨h.parents, List.forall_mem_singleton.mpr ?_⟩
    cases parent with
    | root => exact .inl rfl
    | join number =>
      obtain ⟨j, hj, rfl⟩ := hparent
      have hrange : j.number ∈ List.range' 1 s.joins.length := by
        rw [← h.numbered.numbers]
        exact List.mem_map_of_mem hj
      rw [List.mem_range'_1] at hrange
      exact .inr ⟨j.number, by show j.number < s.joins.length + 1; omega, rfl⟩

end Select.JoinsInOrder

namespace SelectBuilder

/-- Whether the joins of every select are in order. -/
def JoinsInOrder (b : SelectBuilder) : Prop := ∀ s ∈ b.selects, s.JoinsInOrder

namespace JoinsInOrder

theorem ofTable (table : String) : (SelectBuilder.ofTable table).JoinsInOrder := by
  intro s hs
  rw [List.mem_singleton.mp hs]
  exact .of_nil rfl

/-- A step that follows no join, or one from a context of the active select, keeps the order. -/
theorem after {b : SelectBuilder} (h : b.JoinsInOrder) {step : Step}
    (hparent : ∀ j ∈ b.followedBy step, b.active.HasContext j.parent) :
    (b.after step).JoinsInOrder := by
  unfold SelectBuilder.after
  split
  · next hperform =>
    refine forall_selects_perform (P := Select.JoinsInOrder) .of_nil .of_joins ?_ h hperform
    rintro parent table condition rfl hactive
    exact hactive.addJoin (hparent _ rfl) table condition
  · exact h

/-- A run from contexts of the active select keeps the order. -/
theorem afterAll {b : SelectBuilder} (h : b.JoinsInOrder) {known : List Context}
    (hknown : ∀ context ∈ known, b.active.HasContext context) {steps : List Step}
    (hgrounded : Grounded known (b.followed steps)) : (b.afterAll steps).JoinsInOrder := by
  induction steps generalizing b known with
  | nil => exact h
  | cons step steps ih =>
    rw [followed, Grounded.append_iff] at hgrounded
    have hkept : ∀ context ∈ known, (b.after step).active.HasContext context :=
      fun context hcontext => (hknown context hcontext).mono (b.joins_prefix_after step).subset
    cases hfollowed : b.followedBy step with
    | none =>
      rw [hfollowed] at hgrounded
      exact ih (h.after (by rw [hfollowed]; exact fun j hj => by cases hj)) hkept hgrounded.2
    | some j =>
      rw [hfollowed] at hgrounded
      have hnext : (b.after step).active.HasContext (.join j.number) :=
        ⟨j, mem_joins_after hfollowed, rfl⟩
      refine ih (h.after ?_) (List.forall_mem_cons.mpr ⟨hnext, hkept⟩) hgrounded.2
      rw [hfollowed]
      rintro i hi
      cases hi
      exact hknown _ hgrounded.1.1

end JoinsInOrder

/-! ## Steps that a builder admits -/

/--
Whether a join is followed from a context of the active select, and a fork is one of rows that are
not forked, where forks are expected at all.
-/
def Admits (forks : Bool) (b : SelectBuilder) : Step → Prop
  | .addJoin parent _ _ => b.active.HasContext parent
  | .fork => forks = true ∧ b.isForked = false
  | _ => True

/-- A step that is admitted does not fail. -/
theorem Admits.exists_perform_ok {forks : Bool} {b : SelectBuilder} {step : Step}
    (h : b.Admits forks step) : ∃ answer b', b.perform step = .ok (answer, b') := by
  cases step with
  | fork =>
    obtain ⟨main, subquery⟩ := b
    cases subquery with
    | none => exact ⟨_, _, rfl⟩
    | some q => cases h.2
  | _ => exact ⟨_, _, rfl⟩

/-- Whether each of the steps is admitted behind those before it. -/
def AdmitsAll (forks : Bool) (b : SelectBuilder) : List Step → Prop
  | [] => True
  | step :: steps => b.Admits forks step ∧ (b.after step).AdmitsAll forks steps

theorem admitsAll_append {forks : Bool} {b : SelectBuilder} {first second : List Step} :
    b.AdmitsAll forks (first ++ second) ↔
      b.AdmitsAll forks first ∧ (b.afterAll first).AdmitsAll forks second := by
  induction first generalizing b with
  | nil => exact (and_iff_right trivial).symm
  | cons step first ih =>
    rw [List.cons_append, AdmitsAll, ih, ← and_assoc]
    rfl

theorem admitsAll_expose {forks : Bool} (b : SelectBuilder) (columns : List (Context × String)) :
    b.AdmitsAll forks (columns.map fun column => .expose column.1 column.2) := by
  induction columns generalizing b with
  | nil => trivial
  | cons column columns ih => exact ⟨trivial, ih _⟩

/-- A context of the active select was one before, or a join led to it. -/
theorem hasContext_after {b : SelectBuilder} {step : Step} {context : Context}
    (h : (b.after step).active.HasContext context) :
    b.active.HasContext context ∨
      ∃ j, b.followedBy step = some j ∧ context = .join j.number := by
  cases context with
  | root => exact .inl trivial
  | join number =>
    obtain ⟨j, hj, rfl⟩ := h
    rw [joins_after] at hj
    cases step with
    | addJoin parent table condition =>
      rcases Select.mem_joins_addJoin hj with hj | hnumber
      · exact .inl ⟨j, hj, rfl⟩
      · exact .inr ⟨_, rfl, congrArg Context.join hnumber⟩
    | _ => exact .inl ⟨j, hj, rfl⟩

/-- Where every step is admitted, joins are followed from known contexts only. -/
theorem AdmitsAll.grounded {forks : Bool} {b : SelectBuilder} {steps : List Step}
    (h : b.AdmitsAll forks steps) {known : List Context}
    (hknown : ∀ context, b.active.HasContext context → context ∈ known) :
    Grounded known (b.followed steps) := by
  induction steps generalizing b known with
  | nil => trivial
  | cons step steps ih =>
    obtain ⟨hstep, hrest⟩ := h
    rw [followed, Grounded.append_iff]
    cases hfollowed : b.followedBy step with
    | none =>
      refine ⟨trivial, ih hrest fun context hcontext => ?_⟩
      rcases hasContext_after hcontext with hcontext | ⟨j, hj, -⟩
      · exact hknown context hcontext
      · rw [hfollowed] at hj
        cases hj
    | some j =>
      have hparent : b.active.HasContext j.parent := by
        cases step with
        | addJoin parent table condition =>
          cases hfollowed
          exact hstep
        | _ => cases hfollowed
      refine ⟨⟨hknown _ hparent, trivial⟩, ih hrest fun context hcontext => ?_⟩
      rcases hasContext_after hcontext with hcontext | ⟨i, hi, rfl⟩
      · exact List.mem_cons_of_mem _ (hknown context hcontext)
      · rw [hfollowed] at hi
        cases hi
        exact List.mem_cons_self

/-- Where no fork is expected, the rows stay as they are. -/
theorem AdmitsAll.isForked_afterAll {b : SelectBuilder} {steps : List Step}
    (h : b.AdmitsAll false steps) : (b.afterAll steps).isForked = b.isForked := by
  induction steps generalizing b with
  | nil => rfl
  | cons step steps ih =>
    obtain ⟨hstep, hrest⟩ := h
    rw [afterAll, List.foldl_cons, ← afterAll, ih hrest]
    obtain ⟨main, subquery⟩ := b
    unfold after
    split
    · next hperform =>
      cases changes_of_perform hperform with
      | fork hb => cases hstep.1
      | expose context name => cases subquery <;> rfl
      | project e => rfl
      | _ => exact isForked_withActive _ _
    · rfl

end SelectBuilder

end RequestCompiler
