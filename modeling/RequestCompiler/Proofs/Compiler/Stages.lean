import RequestCompiler.Compiler.Stages
import RequestCompiler.Proofs.Compiler.Derivation

/-!
# Runs of pipelines

The phases leave a pipeline no choice: behind its joins stand filters, then sorts, then at most one
slice, then at most one fork. `StagePlan` is such a pipeline as data, and a successful run follows
a plan phase by phase (`StagesRun`).

* `stagesRun_of_stages_ok` — the stages of a successful run are a plan that was followed.
* `rows_ok` — so is what follows a table; the leading filter is a filter like the others.
* `StagesRun.holds` — the select at the end consists of what each phase gathered.
-/

namespace RequestCompiler

open Compilation

/-! ## Plans -/

/-- The key of a sort, and its direction. -/
structure SortKey where
  descending : Bool
  argument : Request

/-- The names of the bounds of a slice. -/
structure SliceBounds where
  start : String
  stop : String

/-- The stages of a pipeline, phase by phase. -/
structure StagePlan where
  filters : List Request
  sorts : List SortKey
  slice : Option SliceBounds
  forked : Bool

/-- The stage that filters by this argument. -/
def filterToken (argument : Request) : Token := .call "filter" [argument]

/-- The stage that sorts by this key. -/
def SortKey.token (key : SortKey) : Token :=
  .call (if key.descending then "rsort" else "sort") [key.argument]

/-- The stage that slices between these bounds. -/
def SliceBounds.token (bounds : SliceBounds) : Token :=
  .call "slice" [[.parameter bounds.start], [.parameter bounds.stop]]

namespace StagePlan

/-- The stages in their order. -/
def tokens (plan : StagePlan) : Request :=
  plan.filters.map filterToken ++ plan.sorts.map SortKey.token ++
    plan.slice.toList.map SliceBounds.token ++ if plan.forked then [.call "fork" []] else []

/-- Whether the plan has nothing to do in phases that may not follow the one reached. -/
structure Follows (plan : StagePlan) (reached : Phase) : Prop where
  filters : 0 < reached.rank → plan.filters = []
  sorts : 1 < reached.rank → plan.sorts = []
  slice : 1 < reached.rank → plan.slice = none
  forked : 2 < reached.rank → plan.forked = false

end StagePlan

/-! ## Runs -/

/-- What the stages of a pipeline gather for its select. -/
structure Gathered where
  predicates : List Expression
  orders : List Order
  limit : Option Limit

/-- Filters compile their predicates one after the other. -/
inductive FiltersRun (c : Compiler) (context : Context) :
    List Request → Session → List Expression → Session → Prop where
  | nil {s : Session} : FiltersRun c context [] s [] s
  | cons {argument : Request} {rest : List Request} {s t s' : Session} {p : Expression}
      {ps : List Expression} (h : c.predicate context argument s = .ok p t)
      (hrest : FiltersRun c context rest (t.withBuilder (t.draft.builder.andFilter p)) ps s') :
      FiltersRun c context (argument :: rest) s (p :: ps) s'

/-- Sorts compile their keys one after the other. -/
inductive SortsRun (c : Compiler) (context : Context) :
    List SortKey → Session → List Order → Session → Prop where
  | nil {s : Session} : SortsRun c context [] s [] s
  | cons {key : SortKey} {rest : List SortKey} {s t s' : Session} {e : Typed} {os : List Order}
      (h : c.expression context .required key.argument s = .ok e t)
      (hrest : SortsRun c context rest
        (t.withBuilder (t.draft.builder.addOrder e.expression key.descending)) os s') :
      SortsRun c context (key :: rest) s (⟨e.expression, key.descending⟩ :: os) s'

/-- A slice uses its bounds for the offset and the count. -/
inductive SliceRun : Option SliceBounds → Session → Option Limit → Session → Prop where
  | skip {s : Session} : SliceRun none s none s
  | cut {bounds : SliceBounds} {s : Session} {offset count : Nat} {bound bound' : ArgumentBinder}
      (hoffset : s.draft.binder.use? (.sliceOffset bounds.start) = some (offset, bound))
      (hcount : bound.use? (.sliceLimit bounds.start bounds.stop) = some (count, bound')) :
      SliceRun (some bounds) s (some ⟨.argument offset, .argument count⟩)
        ((s.withBinder bound').withBuilder
          (s.draft.builder.setLimit (.argument offset) (.argument count)))

/-- A fork moves the select, under a method with a scalar result. -/
inductive ForkRun (method : String) : Bool → Session → Session → Prop where
  | stay {s : Session} : ForkRun method false s s
  | move {s : Session} {builder : SelectBuilder} (hscalar : (Method.ofName method).isScalar = true)
      (h : s.draft.builder.fork = .ok builder) : ForkRun method true s (s.withBuilder builder)

/-- A plan is followed phase by phase. -/
inductive StagesRun (c : Compiler) (method : String) (context : Context) :
    StagePlan → Session → Gathered → Session → Prop where
  | intro {filters : List Request} {sorts : List SortKey} {slice : Option SliceBounds}
      {forked : Bool} {predicates : List Expression} {orders : List Order} {limit : Option Limit}
      {s₀ s₁ s₂ s₃ s₄ : Session} (hfilters : FiltersRun c context filters s₀ predicates s₁)
      (hsorts : SortsRun c context sorts s₁ orders s₂) (hslice : SliceRun slice s₂ limit s₃)
      (hfork : ForkRun method forked s₃ s₄) :
      StagesRun c method context ⟨filters, sorts, slice, forked⟩ s₀ ⟨predicates, orders, limit⟩ s₄

/-- Joins are followed from one context to the next. -/
inductive JoinsRun : Context → List JoinEdge → Draft → Context → Draft → Prop where
  | nil {context : Context} {d : Draft} : JoinsRun context [] d context d
  | cons {context context' : Context} {edge : JoinEdge} {edges : List JoinEdge} {d d' : Draft}
      (h : JoinsRun (.join (d.followJoin context edge).1) edges (d.followJoin context edge).2
        context' d') :
      JoinsRun context (edge :: edges) d context' d'

/-! ## Single stages -/

/-- The names of the stages of a phase. -/
def Phase.names : Phase → List String
  | .filter => ["filter"]
  | .sort => ["sort", "rsort"]
  | .slice => ["slice"]
  | .fork => ["fork"]

theorem Phase.mem_names_of_ofName? {name : String} {phase : Phase} (h : ofName? name = some phase) :
    name ∈ phase.names := by
  unfold ofName? at h
  split at h
  · next hname =>
    cases h
    exact List.mem_singleton.mpr hname
  split at h
  · next hname =>
    cases h
    simpa [names] using hname
  split at h
  · next hname =>
    cases h
    exact List.mem_singleton.mpr hname
  split at h
  · next hname =>
    cases h
    exact List.mem_singleton.mpr hname
  cases h

theorem Phase.rank_le_of_mayFollow {phase reached : Phase} (h : phase.mayFollow reached = true) :
    reached.rank ≤ phase.rank := by
  revert h
  cases phase <;> cases reached <;> decide

theorem Phase.rank_lt_of_mayFollow {phase reached : Phase} (h : phase.mayFollow reached = true)
    (hrepeatable : phase.isRepeatable = false) : reached.rank < phase.rank := by
  revert h hrepeatable
  cases phase <;> cases reached <;> decide

theorem filterStage_ok {c : Compiler} {context : Context} {arguments : List Request}
    {s s' : Session} (h : c.filterStage context arguments s = .ok () s') :
    ∃ argument p t, arguments = [argument] ∧ c.predicate context argument s = .ok p t ∧
      s' = t.withBuilder (t.draft.builder.andFilter p) := by
  match arguments, h with
  | [argument], h =>
    obtain ⟨p, t, hp, h⟩ := bind_eq_ok.mp h
    cases h
    exact ⟨argument, p, t, rfl, hp, rfl⟩
  | [], h => exact absurd h fail_ne_ok
  | _ :: _ :: _, h => exact absurd h fail_ne_ok

theorem sortStage_ok {c : Compiler} {context : Context} {name : String} {arguments : List Request}
    {s s' : Session} (h : c.sortStage context name arguments s = .ok () s') :
    ∃ argument e t, arguments = [argument] ∧
      c.expression context .required argument s = .ok e t ∧
      s' = t.withBuilder (t.draft.builder.addOrder e.expression (name == "rsort")) := by
  match arguments, h with
  | [argument], h =>
    obtain ⟨e, t, he, h⟩ := bind_eq_ok.mp h
    cases h
    exact ⟨argument, e, t, rfl, he, rfl⟩
  | [], h => exact absurd h fail_ne_ok
  | _ :: _ :: _, h => exact absurd h fail_ne_ok

theorem sliceStage_ok {arguments : List Request} {s s' : Session}
    (h : Compiler.sliceStage arguments s = .ok () s') :
    ∃ bounds limit, Token.call "slice" arguments = SliceBounds.token bounds ∧
      SliceRun (some bounds) s limit s' := by
  match arguments, h with
  | [start, stop], h =>
    obtain ⟨b, t, hb, h⟩ := bind_eq_ok.mp h
    obtain ⟨hstart, rfl⟩ := ofResult_eq_ok.mp hb
    obtain ⟨b', t, hb', h⟩ := bind_eq_ok.mp h
    obtain ⟨hstop, rfl⟩ := ofResult_eq_ok.mp hb'
    obtain ⟨offset, t, huse, h⟩ := bind_eq_ok.mp h
    obtain ⟨bound, hoffset, rfl⟩ := useParameter_eq_ok.mp huse
    obtain ⟨count, t, huse', h⟩ := bind_eq_ok.mp h
    obtain ⟨bound', hcount, rfl⟩ := useParameter_eq_ok.mp huse'
    cases h
    rw [boundName_eq_ok.mp hstart, boundName_eq_ok.mp hstop]
    exact ⟨⟨b, b'⟩, _, rfl, .cut hoffset hcount⟩
  | [], h => exact absurd h fail_ne_ok
  | [_], h => exact absurd h fail_ne_ok
  | _ :: _ :: _ :: _, h => exact absurd h fail_ne_ok

theorem forkStage_ok {method name : String} {arguments : List Request} {s s' : Session}
    (h : Compiler.forkStage method name arguments s = .ok () s') :
    arguments = [] ∧ ForkRun method true s s' := by
  unfold Compiler.forkStage at h
  by_cases hscalar : (Method.ofName method).isScalar = true
  · rw [if_neg (by simp [hscalar])] at h
    cases arguments with
    | nil =>
      obtain ⟨answer, builder, hperform, rfl⟩ := perform_eq_ok.mp h
      rw [SelectBuilder.perform] at hperform
      cases hfork : s.draft.builder.fork with
      | ok forked =>
        rw [hfork] at hperform
        cases hperform
        exact ⟨rfl, .move hscalar hfork⟩
      | error cause =>
        rw [hfork] at hperform
        cases hperform
    | cons argument rest => exact absurd h fail_ne_ok
  · rw [if_pos (by simp [hscalar])] at h
    exact absurd h fail_ne_ok

/-! ## All stages -/

/-- A stage that was compiled has a phase that may follow the one reached. -/
theorem stages_cons_ok {c : Compiler} {method : String} {context : Context} {reached : Phase}
    {previous : String} {t : Token} {rest : Request} {s s' : Session}
    (h : c.stages method context reached previous (t :: rest) s = .ok () s') :
    ∃ name arguments phase u, t = .call name arguments ∧ name ∈ phase.names ∧
      phase.mayFollow reached = true ∧
      c.stage method context phase name arguments s = .ok () u ∧
      c.stages method context phase name rest u = .ok () s' := by
  cases t with
  | call name arguments =>
    rw [Compiler.stages] at h
    cases hphase : Phase.ofName? name with
    | none =>
      rw [hphase] at h
      exact absurd h fail_ne_ok
    | some phase =>
      rw [hphase] at h
      by_cases hfollow : phase.mayFollow reached = true
      · simp only [hfollow, if_true] at h
        obtain ⟨_, u, hstage, hrest⟩ := bind_eq_ok.mp h
        exact ⟨name, arguments, phase, u, rfl, Phase.mem_names_of_ofName? hphase, hfollow, hstage,
          hrest⟩
      · simp only [hfollow] at h
        exact absurd h fail_ne_ok
  | _ => exact absurd h fail_ne_ok

/-- The stages of a successful run are a plan that was followed. -/
theorem stagesRun_of_stages_ok {c : Compiler} {method : String} {context : Context}
    {reached : Phase} {previous : String} {tokens : Request} {s s' : Session}
    (h : c.stages method context reached previous tokens s = .ok () s') :
    ∃ plan gathered, tokens = plan.tokens ∧ plan.Follows reached ∧
      StagesRun c method context plan s gathered s' := by
  induction tokens generalizing reached previous s with
  | nil =>
    cases h
    exact ⟨⟨[], [], none, false⟩, ⟨[], [], none⟩, rfl,
      ⟨fun _ => rfl, fun _ => rfl, fun _ => rfl, fun _ => rfl⟩, .intro .nil .nil .skip .stay⟩
  | cons t rest ih =>
    obtain ⟨name, arguments, phase, u, rfl, hname, hfollow, hstage, hrest⟩ := stages_cons_ok h
    have hrank := Phase.rank_le_of_mayFollow hfollow
    -- the plan of the rest has nothing to do in the phases that are over
    obtain ⟨plan, gathered, rfl, hplan, hrun⟩ := ih hrest
    obtain @⟨filters, sorts, slice, forked, predicates, orders, limit, _, s₁, s₂, s₃, _, hfilters,
      hsorts, hslice, hfork⟩ := hrun
    -- what the stage does comes before what the rest of its phase does
    cases phase with
    | filter =>
      obtain ⟨argument, p, t, rfl, hp, rfl⟩ := filterStage_ok hstage
      rw [List.mem_singleton.mp hname]
      have hlow : reached.rank ≤ 0 := hrank
      refine ⟨⟨argument :: filters, sorts, slice, forked⟩, ⟨p :: predicates, orders, limit⟩, rfl,
        ⟨?_, ?_, ?_, ?_⟩, .intro (.cons hp hfilters) hsorts hslice hfork⟩
      all_goals
        intro hlt
        omega
    | sort =>
      obtain ⟨argument, e, t, rfl, he, rfl⟩ := sortStage_ok hstage
      have hlow : reached.rank ≤ 1 := hrank
      cases hplan.filters Nat.zero_lt_one
      cases hfilters
      have htoken : SortKey.token ⟨name == "rsort", argument⟩ = .call name [argument] := by
        have hnames : name = "sort" ∨ name = "rsort" := by simpa [Phase.names] using hname
        rcases hnames with rfl | rfl <;> rfl
      refine ⟨⟨[], ⟨name == "rsort", argument⟩ :: sorts, slice, forked⟩,
        ⟨[], ⟨e.expression, name == "rsort"⟩ :: orders, limit⟩, ?_, ⟨fun _ => rfl, ?_, ?_, ?_⟩,
        .intro .nil (.cons he hsorts) hslice hfork⟩
      · rw [← htoken]
        rfl
      all_goals
        intro hlt
        omega
    | slice =>
      obtain ⟨bounds, limit', htoken, hrun⟩ := sliceStage_ok hstage
      have hlow : reached.rank < 2 := Phase.rank_lt_of_mayFollow hfollow rfl
      rw [List.mem_singleton.mp hname, htoken]
      cases hplan.filters Nat.two_pos
      cases hplan.sorts Nat.one_lt_two
      cases hplan.slice Nat.one_lt_two
      cases hfilters
      cases hsorts
      cases hslice
      refine ⟨⟨[], [], some bounds, forked⟩, ⟨[], [], limit'⟩, rfl,
        ⟨fun _ => rfl, fun _ => rfl, ?_, ?_⟩, .intro .nil .nil hrun hfork⟩
      all_goals
        intro hlt
        omega
    | fork =>
      obtain ⟨rfl, hrun⟩ := forkStage_ok hstage
      have hlow : reached.rank < 3 := Phase.rank_lt_of_mayFollow hfollow rfl
      rw [List.mem_singleton.mp hname]
      cases hplan.filters (by decide)
      cases hplan.sorts (by decide)
      cases hplan.slice (by decide)
      cases hplan.forked (Nat.lt_succ_self 2)
      cases hfilters
      cases hsorts
      cases hslice
      cases hfork
      refine ⟨⟨[], [], none, true⟩, ⟨[], [], none⟩, rfl,
        ⟨fun _ => rfl, fun _ => rfl, fun _ => rfl, ?_⟩, .intro .nil .nil .skip hrun⟩
      intro hlt
      omega

/-! ## Joins -/

theorem joinsRun_of_leadingJoins_ok {context context' : Context} {pipeline rest : Request}
    {s s' : Session} (h : Compiler.leadingJoins context pipeline s = .ok (context', rest) s') :
    ∃ edges, pipeline = edges.map Token.join ++ rest ∧
      JoinsRun context edges s.draft context' s'.draft := by
  induction pipeline generalizing context s with
  | nil =>
    cases h
    exact ⟨[], rfl, .nil⟩
  | cons t pipeline ih =>
    cases t with
    | join edge =>
      obtain ⟨next, t, hfollow, hrest⟩ := bind_eq_ok.mp h
      cases hfollow
      obtain ⟨edges, rfl, hrun⟩ := ih hrest
      exact ⟨edge :: edges, rfl, .cons hrun⟩
    | _ =>
      cases h
      exact ⟨[], rfl, .nil⟩

/-- Following joins binds no argument. -/
theorem JoinsRun.binder {context context' : Context} {edges : List JoinEdge} {d d' : Draft}
    (h : JoinsRun context edges d context' d') : d'.binder = d.binder := by
  induction h with
  | nil => rfl
  | cons h ih => exact ih

theorem JoinsRun.holds {context context' : Context} {edges : List JoinEdge} {d d' : Draft}
    {forked : Bool} {select : Select} (h : JoinsRun context edges d context' d')
    (hd : d.Holds forked select) (hcontext : select.HasContext context) :
    ∃ joins, d'.Holds forked (select.appendJoins joins) ∧
      (select.appendJoins joins).HasContext context' := by
  induction h generalizing select with
  | nil =>
    refine ⟨[], ?_⟩
    rw [Select.appendJoins_nil]
    exact ⟨hd, hcontext⟩
  | @cons context context' edge edges d d' h ih =>
    obtain ⟨joins, hd, hcontext⟩ := hd.followJoin context edge
    obtain ⟨further, hd, hcontext⟩ := ih hd hcontext
    rw [Select.appendJoins_appendJoins] at hd hcontext
    exact ⟨joins ++ further, hd, hcontext⟩

/-! ## The select at the end of a run -/

/-- A step that leaves the joins alone leaves the contextual join its place. -/
theorem Draft.Holds.withSelect {d : Draft} {forked : Bool} {select : Select}
    (h : d.Holds forked select) (forked' : Bool) {select' : Select}
    (hjoins : select'.joins = select.joins) :
    Draft.Holds { d with builder := .holding forked' select' } forked' select' := by
  refine ⟨rfl, fun followed hfollowed => ?_⟩
  exact (h.contextual followed hfollowed).mono (by rw [hjoins]; exact List.Subset.refl _)

theorem Draft.Holds.andFilter {s : Session} {forked : Bool} {select : Select}
    (h : s.draft.Holds forked select) (p : Expression) :
    (s.withBuilder (s.draft.builder.andFilter p)).draft.Holds forked (select.andFilter p) := by
  rw [SelectBuilder.andFilter, h.builder, SelectBuilder.active_holding,
    SelectBuilder.withActive_holding]
  exact h.withSelect forked rfl

theorem Draft.Holds.addOrder {s : Session} {forked : Bool} {select : Select}
    (h : s.draft.Holds forked select) (e : Expression) (descending : Bool) :
    (s.withBuilder (s.draft.builder.addOrder e descending)).draft.Holds forked
      (select.addOrder e descending) := by
  rw [SelectBuilder.addOrder, h.builder, SelectBuilder.active_holding,
    SelectBuilder.withActive_holding]
  exact h.withSelect forked rfl

theorem FiltersRun.holds {c : Compiler} {context : Context} {arguments : List Request}
    {s s' : Session} {ps qs : List Expression} {forked : Bool} {select : Select}
    (h : FiltersRun c context arguments s ps s') (hs : s.draft.Holds forked select)
    (hfilter : select.filter = Expression.conjunction qs) :
    ∃ joins, s'.draft.Holds forked { select with
      joins := select.joins ++ joins, filter := Expression.conjunction (qs ++ ps) } := by
  induction h generalizing select qs with
  | nil =>
    refine ⟨[], ?_⟩
    rw [List.append_nil, List.append_nil, ← hfilter]
    exact hs
  | @cons argument rest s t s' p ps hp hrest ih =>
    obtain ⟨e, -, hcompiles, -⟩ := compiles_of_predicate_ok c hp
    obtain ⟨joins, ht⟩ := hcompiles.holds hs
    have hlast := Select.filter_andFilter (s := select.appendJoins joins) p hfilter
    obtain ⟨further, hend⟩ := ih (ht.andFilter p) hlast
    refine ⟨joins ++ further, ?_⟩
    rw [List.append_cons qs p ps, ← List.append_assoc select.joins]
    exact hend

theorem SortsRun.holds {c : Compiler} {context : Context} {sorts : List SortKey}
    {s s' : Session} {os : List Order} {forked : Bool} {select : Select}
    (h : SortsRun c context sorts s os s') (hs : s.draft.Holds forked select) :
    ∃ joins, s'.draft.Holds forked { select with
      joins := select.joins ++ joins, order := select.order ++ os } := by
  induction h generalizing select with
  | nil =>
    refine ⟨[], ?_⟩
    rw [List.append_nil, List.append_nil]
    exact hs
  | @cons key rest s t s' e os he hrest ih =>
    obtain ⟨hcompiles, -⟩ := compiles_of_expression_ok c _ he
    obtain ⟨joins, ht⟩ := hcompiles.holds hs
    obtain ⟨further, hend⟩ := ih (ht.addOrder e.expression key.descending)
    refine ⟨joins ++ further, ?_⟩
    rw [List.append_cons select.order _ os, ← List.append_assoc select.joins]
    exact hend

theorem SliceRun.holds {slice : Option SliceBounds} {s s' : Session} {limit : Option Limit}
    {forked : Bool} {select : Select} (h : SliceRun slice s limit s')
    (hs : s.draft.Holds forked select) (hlimit : select.limit = none) :
    s'.draft.Holds forked { select with limit := limit } := by
  cases h with
  | skip =>
    rw [← hlimit]
    exact hs
  | cut hoffset hcount =>
    rw [SelectBuilder.setLimit, hs.builder, SelectBuilder.active_holding,
      SelectBuilder.withActive_holding]
    exact (hs.withBinder _).withSelect forked rfl

theorem ForkRun.holds {method : String} {forked : Bool} {s s' : Session} {select : Select}
    (h : ForkRun method forked s s') (hs : s.draft.Holds false select) :
    s'.draft.Holds forked select := by
  cases h with
  | stay => exact hs
  | move hscalar hfork =>
    rw [hs.builder, SelectBuilder.fork_holding] at hfork
    obtain ⟨-, rfl⟩ := hfork
    exact hs.withSelect true rfl

/-- The select that consists of what was gathered from a table. -/
def Gathered.select (gathered : Gathered) (table : String) (joins : List Join) : Select where
  source := .table table
  joins := joins
  filter := Expression.conjunction gathered.predicates
  order := gathered.orders
  limit := gathered.limit

/-- The select at the end of a run consists of what each phase gathered, in its place. -/
theorem StagesRun.holds {c : Compiler} {method : String} {context : Context} {plan : StagePlan}
    {s s' : Session} {gathered : Gathered} {table : String} {joins : List Join}
    (h : StagesRun c method context plan s gathered s')
    (hs : s.draft.Holds false ({ source := .table table, joins := joins } : Select)) :
    ∃ further, s'.draft.Holds plan.forked (gathered.select table (joins ++ further)) := by
  cases h with
  | intro hfilters hsorts hslice hfork =>
    obtain ⟨js, hfiltered⟩ := hfilters.holds hs (show none = Expression.conjunction [] from rfl)
    obtain ⟨ks, hsorted⟩ := hsorts.holds hfiltered
    have hsliced := hslice.holds hsorted rfl
    refine ⟨js ++ ks, ?_⟩
    rw [← List.append_assoc]
    exact hfork.holds hsliced

/-- Only under a method with a scalar result a plan has a fork. -/
theorem StagesRun.forked_eq_false {c : Compiler} {method : String} {context : Context}
    {plan : StagePlan} {s s' : Session} {gathered : Gathered}
    (h : StagesRun c method context plan s gathered s')
    (hmethod : (Method.ofName method).isScalar = false) : plan.forked = false := by
  cases h with
  | intro hfilters hsorts hslice hfork =>
    cases hfork with
    | stay => rfl
    | move hscalar hfork =>
      rw [hmethod] at hscalar
      cases hscalar

/-! ## The rows of a table -/

/-- The leading filter adds its predicate as the other filters do. -/
theorem stages_ok_of_leadingFilter_ok {c : Compiler} {method : String} {context : Context}
    {stages rest : Request} {s t s' : Session} {forked : Bool} {select : Select}
    (hs : s.draft.Holds forked select) (hfilter : select.filter = none)
    (hleading : c.leadingFilter context stages s = .ok rest t)
    (hrest : c.stages method context .filter "filter" rest t = .ok () s') :
    c.stages method context .filter "filter" stages s = .ok () s' := by
  unfold Compiler.leadingFilter at hleading
  split at hleading
  · next name arguments tail =>
    split at hleading
    · next hname =>
      subst hname
      split at hleading
      · exact absurd hleading fail_ne_ok
      · next argument =>
        obtain ⟨p, u, hp, hleading⟩ := bind_eq_ok.mp hleading
        cases hleading
        obtain ⟨e, -, hcompiles, -⟩ := compiles_of_predicate_ok c hp
        obtain ⟨joins, hu⟩ := hcompiles.holds hs
        -- nothing is overwritten, as no predicate is there yet
        have hset : u.draft.builder.setFilter p = u.draft.builder.andFilter p := by
          rw [SelectBuilder.setFilter, SelectBuilder.andFilter, hu.builder,
            SelectBuilder.active_holding]
          rw [Select.setFilter_eq_andFilter (s := select.appendJoins joins) p hfilter]
        refine bind_eq_ok.mpr ⟨(), _, bind_eq_ok.mpr ⟨p, u, hp, rfl⟩, ?_⟩
        show c.stages method context .filter "filter" rest
          (u.withBuilder (u.draft.builder.andFilter p)) = .ok () s'
        rw [← hset]
        exact hrest
      · cases hleading
        exact hrest
    · cases hleading
      exact hrest
  · cases hleading
    exact hrest

/-- What follows a table is joins and a plan, and a successful run follows both. -/
theorem rows_ok {c : Compiler} {method : String} {pipeline : Request} {context : Context}
    {s s' : Session} {forked : Bool} {select : Select}
    (h : c.rows method pipeline s = .ok context s') (hs : s.draft.Holds forked select)
    (hfilter : select.filter = none) :
    ∃ edges plan s₁ gathered, pipeline = edges.map Token.join ++ plan.tokens ∧
      Compiler.leadingJoins .root pipeline s = .ok (context, plan.tokens) s₁ ∧
      JoinsRun .root edges s.draft context s₁.draft ∧
      StagesRun c method context plan s₁ gathered s' := by
  unfold Compiler.rows at h
  obtain ⟨⟨reached, stages⟩, s₁, hjoins, h⟩ := bind_eq_ok.mp h
  obtain ⟨rest, s₂, hleading, h⟩ := bind_eq_ok.mp h
  obtain ⟨_, s₃, hrest, h⟩ := bind_eq_ok.mp h
  cases h
  obtain ⟨edges, rfl, hrun⟩ := joinsRun_of_leadingJoins_ok hjoins
  obtain ⟨joins, hs₁, -⟩ := hrun.holds hs trivial
  have hstages := stages_ok_of_leadingFilter_ok hs₁ hfilter hleading hrest
  obtain ⟨plan, gathered, rfl, -, hplan⟩ := stagesRun_of_stages_ok hstages
  exact ⟨edges, plan, s₁, gathered, rfl, hjoins, hrun, hplan⟩

end RequestCompiler
