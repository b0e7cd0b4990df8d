import RequestCompiler.Select.Builder

/-!
# How the selects of a builder grow

Until a method adds its columns, a builder holds one select and nothing else: it is the main select
or, behind a fork, the subquery (`SelectBuilder.holding`). Every step but the fork changes that
select in its place, so what the steps build can be read off a `Select` alone.

* `fork_holding` — a fork moves the select and changes nothing in it.
* `addJoin_holding` — following a join appends at most one join, and its number names a join.
* `conjunction_concat` — a further predicate goes to the right of those before it.
* `changes_of_perform` — all that a step of construction can do to any builder.
-/

namespace RequestCompiler

/-! ## Predicates in conjunction -/

/-- The left-nested conjunction of predicates, if there are any. -/
def Expression.conjunction : List Expression → Option Expression
  | [] => none
  | p :: ps => some (ps.foldl Expression.and p)

theorem Expression.conjunction_concat (ps : List Expression) (p : Expression) :
    conjunction (ps ++ [p]) = some (match conjunction ps with
      | some known => known.and p
      | none => p) := by
  cases ps with
  | nil => rfl
  | cons q ps =>
    show some ((ps ++ [p]).foldl Expression.and q) = some ((ps.foldl Expression.and q).and p)
    rw [List.foldl_append]
    rfl

namespace Select

/-- A predicate added to a select whose predicate is a conjunction is its last conjunct. -/
theorem filter_andFilter {s : Select} {ps : List Expression} (p : Expression)
    (h : s.filter = Expression.conjunction ps) :
    (s.andFilter p).filter = Expression.conjunction (ps ++ [p]) := by
  rw [Expression.conjunction_concat, ← h]
  rfl

/-- Without a predicate before it, a predicate is added as it is set. -/
theorem setFilter_eq_andFilter {s : Select} (p : Expression) (h : s.filter = none) :
    s.setFilter p = s.andFilter p := by
  rw [setFilter, andFilter, h]

/-- The expressions that a select evaluates. -/
def expressions (s : Select) : List Expression :=
  s.filter.toList ++ s.order.map (·.expression) ++
    s.limit.toList.flatMap (fun limit => [limit.offset, limit.count]) ++
    s.projection.map (·.expression)

theorem expressions_project (s : Select) (e : Expression) (label : Option String) :
    (s.project e label).expressions = s.expressions ++ [e] := by
  simp [expressions, project]

/-- Projections given to a select without any are its last expressions. -/
theorem expressions_withProjection {s : Select} (h : s.projection = [])
    (projection : List Projection) :
    ({ s with projection := projection } : Select).expressions =
      s.expressions ++ projection.map (·.expression) := by
  simp [expressions, h]

/-! ## Joins -/

/-- The select with further joins. -/
def appendJoins (s : Select) (joins : List Join) : Select := { s with joins := s.joins ++ joins }

theorem appendJoins_nil (s : Select) : s.appendJoins [] = s := by
  rw [appendJoins, List.append_nil]

theorem appendJoins_appendJoins (s : Select) (js ks : List Join) :
    (s.appendJoins js).appendJoins ks = s.appendJoins (js ++ ks) := by
  simp only [appendJoins, List.append_assoc]

/-- Whether a context is the root or names a join of the select. -/
def HasContext (s : Select) : Context → Prop
  | .root => True
  | .join number => ∃ j ∈ s.joins, j.number = number

/-- A context stays as joins are added. -/
theorem HasContext.mono {s s' : Select} {context : Context} (hsub : s.joins ⊆ s'.joins)
    (h : s.HasContext context) : s'.HasContext context := by
  cases context with
  | root => trivial
  | join number =>
    obtain ⟨j, hj, hn⟩ := h
    exact ⟨j, hsub hj, hn⟩

theorem HasContext.appendJoins {s : Select} {context : Context} (h : s.HasContext context)
    (joins : List Join) : (s.appendJoins joins).HasContext context :=
  h.mono fun _ hj => List.mem_append_left joins hj

theorem addJoin_eq (s : Select) (parent : Context) (table condition : String) :
    ∃ joins, (s.addJoin parent table condition).2 = s.appendJoins joins ∧
      (s.appendJoins joins).HasContext (.join (s.addJoin parent table condition).1) := by
  unfold addJoin
  split
  · next j hfound =>
    -- the number is that of a join which is there already
    refine ⟨[], (appendJoins_nil s).symm, ?_⟩
    rw [appendJoins_nil]
    exact ⟨j, List.mem_of_find?_eq_some hfound, rfl⟩
  · refine ⟨[⟨parent, s.joins.length + 1, table, condition⟩], rfl, ?_⟩
    exact ⟨_, List.mem_append_right _ (List.mem_singleton_self _), rfl⟩

end Select

/-! ## One select in one of two places -/

namespace SelectBuilder

/-- The builder that holds one select, in the place where a fork has put it. -/
def holding (forked : Bool) (s : Select) : SelectBuilder :=
  if forked then { main := { source := .derived }, subquery := some { select := s } }
  else { main := s }

@[simp] theorem active_holding (forked : Bool) (s : Select) : (holding forked s).active = s := by
  cases forked <;> rfl

@[simp] theorem withActive_holding (forked : Bool) (s s' : Select) :
    (holding forked s).withActive s' = holding forked s' := by
  cases forked <;> rfl

theorem ofTable_eq_holding (table : String) :
    ofTable table = holding false { source := .table table } := rfl

/-- What is behind a fork cannot be forked again; all else moves as it is. -/
theorem fork_holding {forked : Bool} {s : Select} {b : SelectBuilder} :
    (holding forked s).fork = .ok b ↔ forked = false ∧ b = holding true s := by
  cases forked with
  | true => simp [holding, fork]
  | false =>
    show Except.ok (holding true s) = .ok b ↔ _
    rw [Except.ok.injEq]
    exact ⟨fun h => ⟨rfl, h.symm⟩, fun h => h.2.symm⟩

/-- Following a join appends to the joins of the select, in its place. -/
theorem addJoin_holding (forked : Bool) (s : Select) (parent : Context) (table condition : String) :
    ∃ joins, ((holding forked s).addJoin parent table condition).2 =
        holding forked (s.appendJoins joins) ∧
      (s.appendJoins joins).HasContext
        (.join ((holding forked s).addJoin parent table condition).1) := by
  have hadd : (holding forked s).addJoin parent table condition =
      ((s.addJoin parent table condition).1,
        holding forked (s.addJoin parent table condition).2) := by
    simp only [addJoin, active_holding, withActive_holding]
  rw [hadd]
  obtain ⟨joins, hjoins, hcontext⟩ := s.addJoin_eq parent table condition
  exact ⟨joins, by rw [hjoins], hcontext⟩

/-! ## Steps of construction -/

/-- What a step of construction does to a builder. -/
inductive Changes (b : SelectBuilder) : Step → SelectBuilder → Prop where
  | join (parent : Context) (table condition : String) :
      Changes b (.addJoin parent table condition)
        (b.withActive (b.active.addJoin parent table condition).2)
  /-- A predicate, a key of the order or a limit: joins and projections stay. -/
  | edit {step : Step} {s : Select} (hstep : ∀ parent table condition,
        step ≠ .addJoin parent table condition) (hjoins : s.joins = b.active.joins)
      (hprojection : s.projection = b.active.projection) : Changes b step (b.withActive s)
  | project (e : Expression) : Changes b (.project e) (b.project e)
  | fork (h : b.subquery = none) :
      Changes b .fork { main := { source := .derived }, subquery := some { select := b.main } }
  | expose (context : Context) (name : String) :
      Changes b (.expose context name) (b.expose context name).2

theorem changes_of_perform {b b' : SelectBuilder} {step : Step} {answer : Answer}
    (h : b.perform step = .ok (answer, b')) : Changes b step b' := by
  cases step with
  | addJoin parent table condition =>
    cases h
    exact .join parent table condition
  | project expression =>
    cases h
    exact .project expression
  | fork =>
    cases hb : b.subquery with
    | some q =>
      simp only [perform, SelectBuilder.fork, hb] at h
      cases h
    | none =>
      simp only [perform, SelectBuilder.fork, hb] at h
      cases h
      exact .fork hb
  | expose context name =>
    cases h
    exact .expose context name
  | _ =>
    cases h
    exact .edit nofun rfl rfl

end SelectBuilder

end RequestCompiler
