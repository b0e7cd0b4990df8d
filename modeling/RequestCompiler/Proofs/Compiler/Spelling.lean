import RequestCompiler.Proofs.Compiler.Shape
import RequestCompiler.Proofs.Compiler.Words
import RequestCompiler.Proofs.Pipeline.Explicit

/-!
# What canonical forms spell

Which words the canonical forms of pipelines spell is read off the words that the pipelines spell
themselves: of a token, only the phase matters to the place that a rule finds for it.

* `inOrder_page_iff` — the page before a slice, and its order.
* `admitted_canonicalStages_iff` — canonical stages spell an admitted word if and only if the
  stages, as they were written, spell a word of the language of the method.
-/

namespace RequestCompiler

open Canonical
open scoped Computability

/-- The phases of the stages among some tokens, in their order. -/
def spelling (r : Request) : List Phase := r.filterMap Phase.of?

/-! ## Letters and tokens -/

section Tokens

variable {t : Token} {r s : Request} {p : Phase}

theorem spelling_append : spelling (r ++ s) = spelling r ++ spelling s := List.filterMap_append

theorem spelling_cons (h : Phase.of? t = some p) : spelling (t :: r) = p :: spelling r :=
  List.filterMap_cons_some h

theorem spelling_perm (h : r.Perm s) : (spelling r).Perm (spelling s) := h.filterMap _

theorem mem_spelling_iff (operation : Operation) :
    operation.phase ∈ spelling r ↔ Occurs operation r := by
  rw [spelling, List.mem_filterMap]
  exact exists_congr fun t => and_congr_right fun _ => performedBy_iff_phase.symm

theorem spelling_eq_nil (h : ∀ t ∈ r, t.isStage = false) : spelling r = [] := by
  refine List.filterMap_eq_nil_iff.mpr fun t ht => ?_
  exact Option.not_isSome_iff_eq_none.mp (by simpa [Token.isStage] using h t ht)

theorem performedBy_sort_eq (h : Phase.of? t = some p) :
    Operation.sort.performedBy t = decide (p = .sort) := by
  rw [Bool.eq_iff_iff, performedBy_iff_phase, h, Option.some.injEq, decide_eq_true_iff]
  rfl

theorem spelling_unsorted (r : Request) :
    spelling (unsorted r) = Phase.withoutSorts (spelling r) := by
  unfold spelling unsorted Phase.withoutSorts
  rw [List.filterMap_filter, List.filter_filterMap]
  refine List.filterMap_congr fun t _ => ?_
  cases hp : Phase.of? t with
  | none => simp
  | some p =>
    by_cases hsort : p = .sort <;> simp [performedBy_sort_eq hp, hsort, Option.filter]

/-- Where sorts are the only stages, the sorts spell the word. -/
theorem spelling_sorts (h : ∀ p ∈ spelling r, p = .sort) : spelling (sorts r) = spelling r := by
  unfold spelling sorts
  rw [List.filterMap_filter]
  refine List.filterMap_congr fun t ht => ?_
  cases hp : Phase.of? t with
  | none => simp
  | some p =>
    have hsort : p = .sort := h p (List.mem_filterMap.mpr ⟨t, ht, hp⟩)
    simp [performedBy_sort_eq hp, hsort]

theorem of?_eq_fork_iff : Phase.of? t = some .fork ↔ t.isCall "fork" = true := by
  cases t with
  | call name arguments =>
    show Phase.ofName? name = some .fork ↔ (some name == some "fork") = true
    rw [beq_iff_eq, Option.some.injEq]
    constructor
    · intro h
      exact List.mem_singleton.mp (Phase.mem_names_of_ofName? h)
    · rintro rfl
      rfl
  | _ => simp [Phase.of?, Token.isCall, Token.callName?]

/-- Tokens of one phase spell it again and again. -/
theorem spelling_map {α : Type} {f : α → Token} {p : Phase} (h : ∀ x, Phase.of? (f x) = some p)
    (l : List α) : ∀ q ∈ spelling (l.map f), q = p := by
  intro q hq
  obtain ⟨t, ht, hphase⟩ := List.mem_filterMap.mp hq
  obtain ⟨x, -, rfl⟩ := List.mem_map.mp ht
  rw [h, Option.some.injEq] at hphase
  exact hphase.symm

theorem spelling_pipelineOf (scan : TableScan) (edges : List JoinEdge) (stages : Request) :
    spelling (pipelineOf scan edges stages) = spelling stages := by
  have hnone : spelling (.table scan :: edges.map Token.join) = [] := by
    refine spelling_eq_nil fun t ht => ?_
    rw [List.mem_cons, List.mem_map] at ht
    rcases ht with rfl | ⟨edge, -, rfl⟩ <;> rfl
  rw [pipelineOf, spelling_append, hnone, List.nil_append]

end Tokens

/-! ## Filters ahead -/

section Rows

variable {r : Request}

theorem filtersAndSorts_of_perm {u v : List Phase} (h : u.Perm v) :
    Phase.FiltersAndSorts u ↔ Phase.FiltersAndSorts v :=
  forall_congr' fun _ => imp_congr_left h.mem_iff

/-- Rows without filters are sorts. -/
theorem sorts_of_filtersAndSorts (h : Phase.FiltersAndSorts (spelling r))
    (hfirst : firstPosition .filter r = none) : ∀ p ∈ spelling r, p = .sort := by
  intro p hp
  rcases h p hp with rfl | hsort
  · exact absurd ((mem_spelling_iff .filter).mp hp) (not_occurs_iff.mpr hfirst)
  · exact hsort

/-- Bringing the filter ahead puts a word in order if the word is one of rows. -/
theorem inOrder_filterAhead_iff (h : Phase.FiltersAndSorts (spelling r)) :
    Phase.InOrder (spelling (filterAhead r)) ↔ spelling r ∈ Phase.rowsLanguage := by
  cases hfirst : firstPosition .filter r with
  | none =>
    have horder := Phase.inOrder_of_sorts (sorts_of_filtersAndSorts h hfirst)
    rw [filterAhead_eq_self hfirst]
    exact iff_of_true horder (Phase.mem_rowsLanguage.mpr (Or.inl ⟨horder, h⟩))
  | some i =>
    obtain ⟨before, filter, rest, rfl, -, hfilter, hbefore⟩ := exists_cut_of_firstPosition hfirst
    have hletter : Phase.of? filter = some .filter := performedBy_iff_phase.mp hfilter
    rw [spelling_append, spelling_cons hletter] at h
    rw [spelling_append, spelling_cons hletter, filterAhead_cut hfilter hbefore, spelling_append,
      spelling_cons hletter, spelling_append, spelling_unsorted]
    obtain ⟨hu, hv⟩ := List.forall_mem_append.mp h
    have hsorts := sorts_of_filtersAndSorts hu hbefore
    rw [spelling_sorts hsorts, Phase.withoutSorts_eq_nil.mpr (Phase.mem_kstar_letter.mpr hsorts),
      List.nil_append, Phase.inOrder_filter_cons]
    exact (Phase.mem_rowsLanguage_cut hsorts (List.forall_mem_cons.mp hv).2).symm

/-- A page can be compiled if the tokens before the slice spell a word of rows. -/
theorem inOrder_page_iff (scan : TableScan) (before : Request) :
    (Phase.InOrder (spelling (page scan before)) ∧
      Phase.FiltersAndSorts (spelling (page scan before))) ↔
        spelling before ∈ Phase.rowsLanguage := by
  unfold page
  split
  · rw [filtersAndSorts_of_perm (spelling_perm (filterAhead_perm before))]
    constructor
    · rintro ⟨horder, hrows⟩
      exact (inOrder_filterAhead_iff hrows).mp horder
    · intro h
      have hrows := Phase.filtersAndSorts_of_mem h
      exact ⟨(inOrder_filterAhead_iff hrows).mpr h, hrows⟩
  · next hsort =>
    have hletter : spelling [sortByIdentifier scan] = [.sort] := rfl
    have hnot : .sort ∉ spelling before := fun h =>
      hsort ((mem_spelling_iff .sort).mp h)
    rw [spelling_append, hletter, Phase.mem_rowsLanguage_of_notMem hnot,
      ← Phase.mem_filters_mul_sorts]
    constructor
    · intro h
      have hrows := (Phase.mem_filters_mul_sorts.mp h).2
      refine Phase.mem_kstar_letter.mpr fun p hp => ?_
      exact (hrows p (List.mem_append_left _ hp)).resolve_right fun h => hnot (h ▸ hp)
    · intro h
      have hlast : [Phase.sort] ∈ (Phase.letter .sort)∗ :=
        Phase.mem_kstar_letter.mpr fun p => List.mem_singleton.mp
      exact Language.append_mem_mul h hlast

end Rows

/-! ## Behind a slice -/

theorem spelling_behindPage (method : Method) (before rest : Request) :
    spelling (behindPage method before rest) = if method.ignoresOrder then
      Phase.behind (spelling before) (spelling rest) else spelling rest := by
  have hsort : .sort ∈ spelling before ↔ Occurs .sort before := mem_spelling_iff .sort
  unfold behindPage Phase.behind
  cases method.ignoresOrder with
  | false => simp
  | true => by_cases h : Occurs .sort before <;> simp [hsort, h, spelling_unsorted]

/-- A fork that is put behind a slice takes the place of the one that may stand there. -/
theorem spelling_outside_iff {method : Method} {rest : Request}
    (hrest : ∀ t ∈ rest, t.isStage = true) :
    (spelling (outside method rest) = [] ∨
        spelling (outside method rest) = [.fork] ∧ method.isScalar = true) ↔
      (spelling rest = [] ∨ spelling rest = [.fork] ∧ method.isScalar = true) := by
  unfold outside
  cases method.isScalar with
  | false => rfl
  | true =>
    cases rest with
    | nil => simp [spelling, Phase.of?, Canonical.fork, Phase.ofName?]
    | cons t rest =>
      obtain ⟨p, hp⟩ := Option.isSome_iff_exists.mp (hrest t List.mem_cons_self)
      cases hfork : t.isCall "fork" with
      | true => simp [hfork]
      | false =>
        have hne : p ≠ .fork := fun h => by
          rw [of?_eq_fork_iff.mp (h ▸ hp)] at hfork
          cases hfork
        have hnew : Phase.of? Canonical.fork = some .fork := rfl
        simp [hfork, spelling_cons hnew, spelling_cons hp, hne]

/-! ## Canonical forms -/

section Canonical

variable {stages : Request}

theorem slice_notMem_spelling (h : firstPosition .slice stages = none) :
    .slice ∉ spelling stages := fun hs =>
  not_occurs_iff.mpr h ((mem_spelling_iff .slice).mp hs)

/-- Rows with a filter ahead are admitted if they spell a word of rows. -/
theorem admitted_filterAhead_iff {method : Method} (hmethod : method.isScalar = false)
    (h : firstPosition .slice stages = none) :
    Phase.Admitted method (spelling (filterAhead stages)) ↔
      spelling stages ∈ Phase.rowsLanguage := by
  have hrows := Phase.filtersAndSorts_iff (slice_notMem_spelling h)
  rw [Phase.admitted_iff_of_not_scalar hmethod,
    (spelling_perm (filterAhead_perm stages)).mem_iff, ← hrows]
  constructor
  · rintro ⟨horder, hrows⟩
    exact (inOrder_filterAhead_iff hrows).mp horder
  · intro hmem
    have hrows := Phase.filtersAndSorts_of_mem hmem
    exact ⟨(inOrder_filterAhead_iff hrows).mpr hmem, hrows⟩

/-- Rows without their sorts are admitted if there is no fork, unless they are for one value. -/
theorem admitted_unsorted_iff {method : Method} (hmethod : method.isScalar = false)
    (h : firstPosition .slice stages = none) :
    Phase.Admitted method (spelling (unsorted stages)) ↔
      Phase.FiltersAndSorts (spelling stages) := by
  have hrows := Phase.filtersAndSorts_iff (slice_notMem_spelling h)
  rw [Phase.admitted_iff_of_not_scalar hmethod, spelling_unsorted,
    Phase.mem_withoutSorts_of_ne (by decide), ← hrows]
  exact and_iff_right_of_imp Phase.inOrder_withoutSorts

/-- Rows without their sorts that are for one value are filters and a fork at most. -/
theorem admitted_unsorted_scalar_iff {method : Method} (hmethod : method.isScalar = true)
    (h : firstPosition .slice stages = none) :
    Phase.Admitted method (spelling (unsorted stages)) ↔
      Phase.withoutSorts (spelling stages) ∈
        (Phase.letter .filter)∗ * (1 + Phase.letter .fork) := by
  rw [spelling_unsorted, Phase.mem_filters_mul_fork_iff_inOrder (slice_notMem_spelling h)]
  exact and_iff_left fun _ => hmethod

/-- Canonical stages are admitted if the stages spell a word of the method. -/
theorem admitted_canonicalStages_iff (method : Method) (scan : TableScan)
    (hstages : ∀ t ∈ stages, t.isStage = true) :
    Phase.Admitted method (spelling (canonicalStages method scan stages)) ↔
      spelling stages ∈ Phase.language method := by
  cases hfirst : firstPosition .slice stages with
  | none =>
    have hnot := slice_notMem_spelling hfirst
    rw [canonicalStages_unsliced method scan hfirst]
    cases method with
    | get | insert =>
      exact (admitted_filterAhead_iff rfl hfirst).trans (Phase.mem_getLanguage_unsliced hnot).symm
    | delete | set =>
      exact (admitted_unsorted_iff rfl hfirst).trans (Phase.mem_deleteLanguage_unsliced hnot).symm
    | count | aggregate =>
      exact (admitted_unsorted_scalar_iff rfl hfirst).trans
        (Phase.mem_countLanguage_unsliced hnot).symm
  | some i =>
    obtain ⟨before, slice, rest, rfl, -, hslice, hbefore⟩ := exists_cut_of_firstPosition hfirst
    have hletter : Phase.of? slice = some .slice := performedBy_iff_phase.mp hslice
    have hnot := slice_notMem_spelling hbefore
    have hrest : ∀ t ∈ behindPage method before rest, t.isStage = true := fun t ht =>
      hstages t (by simp [behindPage_subset method before rest ht])
    rw [canonicalStages_cut method scan hslice hbefore, spelling_append, spelling_cons hletter,
      spelling_append, spelling_cons hletter, Phase.admitted_cut, inOrder_page_iff,
      spelling_outside_iff hrest, spelling_behindPage]
    cases method with
    | get | insert =>
      simp [Phase.language, Phase.mem_getLanguage_cut hnot, Method.ignoresOrder, Method.isScalar]
    | delete | set =>
      simp [Phase.language, Phase.mem_deleteLanguage_cut hnot, Method.ignoresOrder,
        Method.isScalar]
    | count | aggregate =>
      simp [Phase.language, Phase.mem_countLanguage_cut hnot, Method.ignoresOrder,
        Method.isScalar]

end Canonical

end RequestCompiler
