import RequestCompiler.Proofs.Select.Exposure
import RequestCompiler.Proofs.Select.Runs

/-!
# Reading exposed columns back

An alias stands for the expression of the projection that carries it. Columns that were exposed can
be read back from the aliases that took their place, for as long as the builder goes on: aliases are
made from the number of exposed columns, which stays in step with the projections that carry one
(`Exposes`), and projections are only added at the end.

* `exposes_keeps` — every step of construction keeps the two in step.
* `projection_prefix_afterAll` — behind a fork, the projections of the subquery only grow.
* `Exposes.mem_projection` — an alias that was handed out is carried by its column.
* `Reached.exposeAll_readBack` — an expression is read back from its exposed columns.
-/

namespace RequestCompiler

/-! ## Aliases and what they stand for -/

/-- The expression with its aliases replaced. -/
def Expression.replaceLabels (f : String → Expression) : Expression → Expression
  | .column context name => .column context name
  | .argument ordinal => .argument ordinal
  | .aggregateRows function => .aggregateRows function
  | .derived label => f label
  | .unary operator operand => .unary operator (operand.replaceLabels f)
  | .binary operator left right => .binary operator (left.replaceLabels f) (right.replaceLabels f)
  | .substring string start length =>
    .substring (string.replaceLabels f) (start.replaceLabels f) (length.replaceLabels f)
  | .aggregate function operand => .aggregate function (operand.replaceLabels f)

namespace Select

/-- The expression of the projection that carries an alias; without one the alias stays. -/
def readLabel (s : Select) (label : String) : Expression :=
  match s.projection.find? (·.label = some label) with
  | some p => p.expression
  | none => .derived label

/-- The projections that carry an alias. -/
def exposures (s : Select) : List Projection := s.projection.filter (·.label.isSome)

/-- Whether aliases are carried by columns, no two of the same alias or the same column. -/
structure ExposesApart (s : Select) : Prop where
  columns : ∀ p ∈ s.exposures, ∃ context name, p.expression = .column context name
  labels_nodup : (s.exposures.map (·.label)).Nodup
  expressions_nodup : (s.exposures.map (·.expression)).Nodup

theorem mem_exposures_iff {s : Select} {p : Projection} :
    p ∈ s.exposures ↔ p ∈ s.projection ∧ p.label.isSome = true :=
  List.mem_filter

theorem exposures_project_some (s : Select) (e : Expression) (label : String) :
    (s.project e (some label)).exposures = s.exposures ++ [⟨e, some label⟩] :=
  List.filter_append ..

theorem projection_addJoin (s : Select) (parent : Context) (table condition : String) :
    (s.addJoin parent table condition).2.projection = s.projection := by
  unfold addJoin
  split <;> rfl

theorem exposures_project_none (s : Select) (e : Expression) :
    (s.project e none).exposures = s.exposures := by
  rw [exposures, project, List.filter_append]
  exact List.append_nil _

/-- An alias that one projection carries stands for the expression of this projection. -/
theorem readLabel_of_mem {s : Select} (h : (s.exposures.map (·.label)).Nodup) {p : Projection}
    (hp : p ∈ s.projection) {label : String} (hlabel : p.label = some label) :
    s.readLabel label = p.expression := by
  unfold readLabel
  cases hfound : s.projection.find? (·.label = some label) with
  | none => exact absurd hlabel (by simpa using List.find?_eq_none.mp hfound p hp)
  | some q =>
    have hq : q.label = some label := by simpa using List.find?_some hfound
    have hsame : q = p := List.inj_on_of_nodup_map h
      (mem_exposures_iff.mpr ⟨List.mem_of_find?_eq_some hfound, by rw [hq]; rfl⟩)
      (mem_exposures_iff.mpr ⟨hp, by rw [hlabel]; rfl⟩) (hq.trans hlabel.symm)
    rw [hsame]

end Select

/-- Columns that were replaced by what reads them are read back. -/
theorem replaceLabels_replaceColumns {f : Context → String → Expression}
    {g : String → Expression} {e : Expression} (hlabels : e.labels = [])
    (h : ∀ column ∈ e.columns,
      (f column.1 column.2).replaceLabels g = .column column.1 column.2) :
    (e.replaceColumns f).replaceLabels g = e := by
  induction e with
  | column context name => exact h (context, name) (List.mem_singleton_self _)
  | argument _ => rfl
  | aggregateRows _ => rfl
  | derived label => cases hlabels
  | unary operator operand ih =>
    rw [Expression.replaceColumns, Expression.replaceLabels, ih hlabels h]
  | aggregate function operand ih =>
    rw [Expression.replaceColumns, Expression.replaceLabels, ih hlabels h]
  | binary operator left right ihl ihr =>
    obtain ⟨hl, hr⟩ := List.append_eq_nil_iff.mp hlabels
    rw [Expression.columns, List.forall_mem_append] at h
    rw [Expression.replaceColumns, Expression.replaceLabels, ihl hl h.1, ihr hr h.2]
  | substring string start length ihs ihb ihl =>
    obtain ⟨hsb, hl⟩ := List.append_eq_nil_iff.mp hlabels
    obtain ⟨hs, hb⟩ := List.append_eq_nil_iff.mp hsb
    rw [Expression.columns, List.forall_mem_append, List.forall_mem_append] at h
    rw [Expression.replaceColumns, Expression.replaceLabels, ihs hs h.1.1, ihb hb h.1.2, ihl hl h.2]

/-! ## Projections of exposed columns -/

theorem labels_exposedProjections (exposed : List (Context × String)) :
    (exposedProjections exposed).map (·.label) =
      (List.range exposed.length).map fun i => some (exposedAlias i) := by
  refine List.ext_getElem (by simp [exposedProjections]) fun i hi hi' => ?_
  simp [exposedProjections]

theorem expressions_exposedProjections (exposed : List (Context × String)) :
    (exposedProjections exposed).map (·.expression) =
      exposed.map fun column => .column column.1 column.2 := by
  refine List.ext_getElem (by simp [exposedProjections]) fun i hi hi' => ?_
  simp [exposedProjections]

theorem Subquery.projection_prefix_expose (q : Subquery) (context : Context) (name : String) :
    q.select.projection <+: (q.expose context name).2.select.projection := by
  unfold expose
  split
  · exact List.prefix_refl _
  · exact List.prefix_append _ _

/-- Whether the projections of a subquery that carry an alias are those of its exposed columns. -/
structure Subquery.Exposes (q : Subquery) : Prop where
  nodup : q.exposed.Nodup
  exposures : q.select.exposures = exposedProjections q.exposed

namespace Subquery.Exposes

variable {q : Subquery}

theorem expose (h : q.Exposes) (context : Context) (name : String) :
    (q.expose context name).2.Exposes := by
  unfold Subquery.expose
  split
  · exact h
  · next hnew =>
    refine ⟨?_, ?_⟩
    · refine List.nodup_append.mpr ⟨h.nodup, List.nodup_singleton _, ?_⟩
      rintro a ha b hb rfl
      exact hnew (List.mem_singleton.mp hb ▸ ha)
    · -- the alias is made from the number of the columns exposed before
      rw [exposedProjections_concat, ← h.exposures, List.idxOf_eq_length hnew]
      exact q.select.exposures_project_some _ _

theorem exposeColumns (h : q.Exposes) (columns : List (Context × String)) :
    (q.exposeColumns columns).Exposes := by
  induction columns generalizing q with
  | nil => exact h
  | cons column columns ih => exact ih (h.expose column.1 column.2)

theorem labels_nodup (h : q.Exposes) : (q.select.exposures.map (·.label)).Nodup := by
  rw [h.exposures, labels_exposedProjections]
  exact List.nodup_range.map fun i j hij => exposedAlias_injective (Option.some.inj hij)

theorem exposesApart (h : q.Exposes) : q.select.ExposesApart := by
  have hexpressions : q.select.exposures.map (·.expression) = _ :=
    h.exposures ▸ expressions_exposedProjections q.exposed
  refine ⟨fun p hp => ?_, h.labels_nodup, ?_⟩
  · have hmem := List.mem_map_of_mem (f := (·.expression)) hp
    rw [hexpressions] at hmem
    obtain ⟨column, -, hcolumn⟩ := List.mem_map.mp hmem
    exact ⟨column.1, column.2, hcolumn.symm⟩
  · rw [hexpressions]
    refine h.nodup.map fun a b hab => ?_
    rw [Expression.column.injEq] at hab
    exact Prod.ext hab.1 hab.2

/-- An exposed column is projected under the alias of its place. -/
theorem mem_projection (h : q.Exposes) {column : Context × String} (hc : column ∈ q.exposed) :
    ⟨.column column.1 column.2, some (exposedAlias (q.exposed.idxOf column))⟩ ∈
      q.select.projection := by
  have hindex := List.idxOf_lt_length_of_mem hc
  refine (Select.mem_exposures_iff.mp ?_).1
  rw [h.exposures, exposedProjections, List.mem_mapIdx]
  exact ⟨q.exposed.idxOf column, hindex, by rw [List.getElem_idxOf hindex]⟩

end Subquery.Exposes

/-! ## Builders -/

namespace SelectBuilder

/-- Whether aliases are carried by exposed columns, and by none without a subquery. -/
def Exposes (b : SelectBuilder) : Prop :=
  match b.subquery with
  | some q => q.Exposes
  | none => b.main.exposures = []

theorem Exposes.ofTable (table : String) : (ofTable table).Exposes := rfl

theorem Exposes.of_subquery {b : SelectBuilder} {q : Subquery} (h : b.Exposes)
    (hq : b.subquery = some q) : q.Exposes := by
  unfold Exposes at h
  rw [hq] at h
  exact h

theorem Exposes.withActive {b : SelectBuilder} (h : b.Exposes) {s : Select}
    (hprojection : s.projection = b.active.projection) : (b.withActive s).Exposes := by
  obtain ⟨main, subquery⟩ := b
  have hexposures : s.exposures = (SelectBuilder.mk main subquery).active.exposures := by
    rw [Select.exposures, hprojection, Select.exposures]
  cases subquery with
  | none => exact hexposures.trans h
  | some q => exact ⟨h.nodup, hexposures.trans h.exposures⟩

/-- Every step of construction keeps aliases and exposed columns in step. -/
theorem exposes_keeps : Keeps Exposes := by
  intro b step answer b' h hperform
  obtain ⟨main, subquery⟩ := b
  cases changes_of_perform hperform with
  | join parent table condition => exact h.withActive (Select.projection_addJoin ..)
  | edit hstep hjoins hprojection => exact h.withActive hprojection
  | project e =>
    cases subquery with
    | none => exact (main.exposures_project_none e).trans h
    | some q => exact h
  | fork hb =>
    cases hb
    exact ⟨List.nodup_nil, h⟩
  | expose context name =>
    cases subquery with
    | none => exact h
    | some q => exact Subquery.Exposes.expose h context name

theorem projection_prefix_after {b : SelectBuilder} {q : Subquery} (h : b.subquery = some q)
    (step : Step) : ∃ q', (b.after step).subquery = some q' ∧
      q.select.projection <+: q'.select.projection := by
  obtain ⟨main, subquery⟩ := b
  cases h
  unfold after
  split
  · next hperform =>
    cases changes_of_perform hperform with
    | join parent table condition =>
      exact ⟨_, rfl, (Select.projection_addJoin ..).symm ▸ List.prefix_refl _⟩
    | edit hstep hjoins hprojection => exact ⟨_, rfl, hprojection ▸ List.prefix_refl _⟩
    | project e => exact ⟨q, rfl, List.prefix_refl _⟩
    | fork hb => cases hb
    | expose context name => exact ⟨_, rfl, q.projection_prefix_expose context name⟩
  · exact ⟨q, rfl, List.prefix_refl _⟩

/-- The projections of a subquery only grow, at their end. -/
theorem projection_prefix_afterAll {b : SelectBuilder} {q : Subquery} (h : b.subquery = some q)
    (steps : List Step) : ∃ q', (b.afterAll steps).subquery = some q' ∧
      q.select.projection <+: q'.select.projection := by
  induction steps generalizing b q with
  | nil => exact ⟨q, h, List.prefix_refl _⟩
  | cons step steps ih =>
    obtain ⟨between, hbetween, hfirst⟩ := projection_prefix_after h step
    obtain ⟨q', hq', hrest⟩ := ih hbetween
    exact ⟨q', hq', hfirst.trans hrest⟩

/--
On a builder without a subquery, exposing the columns of an expression changes nothing. Behind a
fork no column is left in it, and whatever is built then, every alias handed out stands for the
column that it stood for: so an expression that came without aliases is read back as it was. No
column is exposed twice, and no alias is given to two.
-/
theorem Reached.exposeAll_readBack {b : SelectBuilder} (hb : b.Reached) (e : Expression) :
    (b.isForked = false → b.exposeAll e = (e, b)) ∧
    ∀ q, b.subquery = some q → (b.exposeAll e).1.columns = [] ∧
      ∀ steps, ∃ q', ((b.exposeAll e).2.afterAll steps).subquery = some q' ∧
        q.select.projection <+: q'.select.projection ∧
        (∀ p ∈ q.select.exposures, ∀ label, p.label = some label →
          q'.select.readLabel label = p.expression) ∧
        q'.select.ExposesApart ∧
        (e.labels = [] → (b.exposeAll e).1.replaceLabels q'.select.readLabel = e) := by
  refine ⟨fun h => exposeAll_of_not_forked h e, fun q hq => ?_⟩
  have hexposes : b.Exposes := hb.keeps exposes_keeps Exposes.ofTable
  have hexposed : b.exposeAll e =
      (e.replaceColumns (readExposed (appendAllNew q.exposed e.columns)),
        ⟨b.main, some (q.exposeColumns e.columns)⟩) := by
    rw [← exposeAll_eq, ← hq]
  refine ⟨by rw [hexposed]; exact e.columns_replaceColumns (fun _ _ => rfl), fun steps => ?_⟩
  obtain ⟨between, hbetween, hfirst⟩ := projection_prefix_afterAll hq
    (e.columns.map fun column => .expose column.1 column.2)
  rw [← exposeAll_eq_afterAll, hexposed] at hbetween
  cases hbetween
  obtain ⟨q', hq', hrest⟩ := projection_prefix_afterAll (b := (b.exposeAll e).2)
    (by rw [hexposed]) steps
  have hbehind : q'.Exposes := by
    refine Exposes.of_subquery (keeps_afterAll exposes_keeps ?_ steps) hq'
    rw [exposeAll_eq_afterAll]
    exact keeps_afterAll exposes_keeps hexposes _
  refine ⟨q', hq', hfirst.trans hrest, ?_, hbehind.exposesApart, fun hlabels => ?_⟩
  · intro p hp label hlabel
    exact Select.readLabel_of_mem hbehind.labels_nodup
      ((hfirst.trans hrest).subset (Select.mem_exposures_iff.mp hp).1) hlabel
  · rw [hexposed]
    refine replaceLabels_replaceColumns hlabels fun column hc => ?_
    -- the column is exposed by the expression at the latest, and its projection stays
    have hmem : column ∈ (q.exposeColumns e.columns).exposed := by
      rw [Subquery.exposed_exposeColumns]
      exact subset_appendAllNew q.exposed e.columns hc
    have hread := Select.readLabel_of_mem hbehind.labels_nodup
      (hrest.subset (((hexposes.of_subquery hq).exposeColumns e.columns).mem_projection hmem)) rfl
    rw [Subquery.exposed_exposeColumns] at hread
    exact hread

/-- One column was exposed before, one is read twice, and the fork behind it fails. -/
theorem exposeAll_readBack_twice :
    let before : List Step := [.addJoin .root "cities" "{parent}.city = {child}.id",
      .project (.column .root "id"), .fork, .expose (.join 1) "name"]
    let behind : List Step := [.fork, .expose .root "id", .setFilter (.column .root "age")]
    let age : Expression := .column .root "age"
    let e : Expression :=
      .binary .plus age (.aggregate .max (.binary .concat (.column (.join 1) "name") age))
    let outside := ((ofTable "people").afterAll before).exposeAll e
    outside.1 = .binary .plus (.derived "c1")
        (.aggregate .max (.binary .concat (.derived "c0") (.derived "c1"))) ∧
      outside.1.columns = [] ∧
      ∃ q, (outside.2.afterAll behind).subquery = some q ∧
        q.select.projection = [⟨.column .root "id", none⟩, ⟨.column (.join 1) "name", some "c0"⟩,
          ⟨age, some "c1"⟩, ⟨.column .root "id", some "c2"⟩] ∧
        q.select.ExposesApart ∧ outside.1.replaceLabels q.select.readLabel = e := by
  intro before behind age e outside
  obtain ⟨-, hforked⟩ := Reached.exposeAll_readBack
    (b := (ofTable "people").afterAll before) ⟨"people", before, rfl⟩ e
  obtain ⟨hcolumns, hbehind⟩ := hforked _ rfl
  obtain ⟨q, hq, -, -, hapart, hback⟩ := hbehind behind
  refine ⟨by decide +kernel, hcolumns, q, hq, ?_, hapart, hback rfl⟩
  cases hq
  decide +kernel

end SelectBuilder

end RequestCompiler
