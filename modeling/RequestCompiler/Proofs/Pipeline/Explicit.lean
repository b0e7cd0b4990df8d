import Mathlib.Data.List.TakeWhile
import RequestCompiler.Proofs.Pipeline.Idempotence

/-!
# Canonical forms written out

Where no slice cuts the rows, the canonical form loses its sorts or has them behind the first
filter. Where a slice does, the tokens before the first slice become a page in order, and those
behind it stay, save sorts that are dropped and a fork that may be put in front of them.

* `canonical_unsliced` — the canonical form of a pipeline without a slice.
* `canonical_sliced` — the canonical form of a table with a slice, cut at the first one.
-/

namespace RequestCompiler

namespace Canonical

/-- Sorts before the first filter stand right behind it instead. -/
def filterAhead (r : Request) : Request :=
  match r.dropWhile fun t => !Operation.filter.performedBy t with
  | [] => r
  | filter :: rest =>
    let before := r.takeWhile fun t => !Operation.filter.performedBy t
    unsorted before ++ filter :: (sorts before ++ rest)

/-- The tokens before a slice, in an order: of the sorts among them, or else by identifier. -/
def page (scan : TableScan) (before : Request) : Request :=
  if Occurs .sort before then filterAhead before else before ++ [sortByIdentifier scan]

/-- The tokens behind a slice, without their sorts if the order of the rows is not asked for. -/
def behindPage (method : Method) (before rest : Request) : Request :=
  if method.ignoresOrder ∧ ¬ Occurs .sort before then unsorted rest else rest

/-- The tokens behind a slice, outside of it if they are for one value. -/
def outside (method : Method) (rest : Request) : Request :=
  if method.isScalar && !rest.head?.any (·.isCall "fork") then fork :: rest else rest

/-! ## The filter ahead -/

theorem filterAhead_cut {before rest : Request} {filter : Token}
    (hfilter : Operation.filter.performedBy filter = true)
    (hfirst : firstPosition .filter before = none) :
    filterAhead (before ++ filter :: rest) =
      unsorted before ++ filter :: (sorts before ++ rest) := by
  rw [firstPosition_eq_none] at hfirst
  have hbefore : ∀ t ∈ before, (!Operation.filter.performedBy t) = true :=
    fun t ht => by simp [hfirst t ht]
  unfold filterAhead
  rw [List.dropWhile_append_of_pos hbefore, List.takeWhile_append_of_pos hbefore,
    List.dropWhile_cons_of_neg (by simp [hfilter]), List.takeWhile_cons_of_neg (by simp [hfilter]),
    List.append_nil]

theorem filterAhead_eq_self {r : Request} (h : firstPosition .filter r = none) :
    filterAhead r = r := by
  rw [firstPosition_eq_none] at h
  unfold filterAhead
  rw [List.dropWhile_eq_nil_iff.mpr fun t ht => by simp [h t ht]]

/-- A filter without sorts before it stays where it is. -/
theorem filterAhead_of_not_occurs {before rest : Request} {filter : Token}
    (hfilter : Operation.filter.performedBy filter = true)
    (hfirst : firstPosition .filter before = none) (hsort : ¬ Occurs .sort before) :
    filterAhead (before ++ filter :: rest) = before ++ filter :: rest := by
  have hnone := not_occurs_iff.mp hsort
  rw [filterAhead_cut hfilter hfirst, unsorted_eq_self hnone, sorts_eq_nil hnone, List.nil_append]

theorem filterAhead_perm (r : Request) : (filterAhead r).Perm r := by
  cases hfirst : firstPosition .filter r with
  | none => rw [filterAhead_eq_self hfirst]
  | some i =>
    obtain ⟨before, filter, rest, rfl, -, hfilter, hbefore⟩ := exists_cut_of_firstPosition hfirst
    rw [filterAhead_cut hfilter hbefore]
    exact move_perm before rest filter

/-- The last rule brings the filter ahead, unless a slice stands between it and the sorts. -/
theorem after_filterFirst_cut {name : String} {before rest : Request} {filter : Token}
    (hfilter : Operation.filter.performedBy filter = true)
    (hfirst : firstPosition .filter before = none) (hslice : firstPosition .slice before = none)
    (happart : slicedApart (Profile.of name (before ++ filter :: rest)) = false) :
    after filterFirst name (before ++ filter :: rest) = filterAhead (before ++ filter :: rest) := by
  by_cases hsort : Occurs .sort before
  · have hmoves : filterFirst (Tracked.of name (before ++ filter :: rest)) =
        moveSorts (before ++ filter :: rest) before.length := by
      have hafter : (Profile.of name (before ++ filter :: rest)).occursAfter .filter .sort = true :=
        (occursAfter_cut hfilter hfirst (by decide)).mpr hsort
      have hposition : (Profile.of name (before ++ filter :: rest)).filter = some before.length :=
        firstPosition_cut hfirst hfilter
      unfold filterFirst
      rw [if_pos (by simp [Tracked.of, hafter, happart])]
      simp only [Tracked.of, hposition]
    rw [after, hmoves, filterAhead_cut hfilter hfirst]
    exact (moveSorts_part filter rest (Or.inl rfl) hslice).2
  · have hidle : filterFirst (Tracked.of name (before ++ filter :: rest)) = [] := by
      have hafter :
          ¬ (Profile.of name (before ++ filter :: rest)).occursAfter .filter .sort = true :=
        fun h => hsort ((occursAfter_cut hfilter hfirst (by decide)).mp h)
      exact if_neg (by simp [Tracked.of, hafter])
    rw [after_idle hidle, filterAhead_of_not_occurs hfilter hfirst hsort]

/-! ## Without a slice -/

theorem filterAhead_unsorted (r : Request) : filterAhead (unsorted r) = unsorted r := by
  cases hfirst : firstPosition .filter (unsorted r) with
  | none => exact filterAhead_eq_self hfirst
  | some i =>
    obtain ⟨before, filter, rest, hcut, -, hfilter, hbefore⟩ := exists_cut_of_firstPosition hfirst
    have hsort := not_occurs_unsorted r
    rw [hcut, occurs_append] at hsort
    rw [hcut]
    exact filterAhead_of_not_occurs hfilter hbefore fun h => hsort (Or.inl h)

theorem after_filterFirst_unsliced (name : String) {r : Request}
    (hslice : firstPosition .slice r = none) : after filterFirst name r = filterAhead r := by
  cases hfirst : firstPosition .filter r with
  | none =>
    have hidle : filterFirst (Tracked.of name r) = [] := by
      have hafter : ¬ (Profile.of name r).occursAfter .filter .sort = true :=
        fun h => not_occurs_iff.mpr hfirst (occurs_of_occursAfter h).1
      exact if_neg (by simp [Tracked.of, hafter])
    rw [after_idle hidle, filterAhead_eq_self hfirst]
  | some i =>
    obtain ⟨before, filter, rest, rfl, -, hfilter, hbefore⟩ := exists_cut_of_firstPosition hfirst
    have hnone := not_occurs_iff.mpr hslice
    rw [occurs_append] at hnone
    refine after_filterFirst_cut hfilter hbefore
      (not_occurs_iff.mp fun h => hnone (Or.inl h)) ?_
    rw [slicedApart, Profile.has, position_of, hslice]
    rfl

theorem after_dropOrdering_unsliced (name : String) {r : Request}
    (hslice : firstPosition .slice r = none) : after dropOrdering name r =
      if (Method.ofName name).ignoresOrder then unsorted r else r := by
  have hnone := not_occurs_iff.mpr hslice
  cases hignored : (Method.ofName name).ignoresOrder with
  | true =>
    rw [if_pos rfl]
    rcases dropOrdering_cases name r with hidle | ⟨-, h⟩
    · -- an idle rule finds no sort that it could drop
      have hsort : ¬ Occurs .sort r := fun hsort =>
        hnone (occurs_of_occursAfter (dropOrdering_eq_nil_iff.mp hidle hignored hsort)).1
      rw [after_idle hidle, unsorted_eq_self (not_occurs_iff.mp hsort)]
    · exact h
  | false =>
    rw [if_neg Bool.false_ne_true]
    refine after_idle (dropOrdering_eq_nil_iff.mpr fun h => ?_)
    rw [hignored] at h
    cases h

/-- The rules about slices need one. -/
theorem after_sliceRules_unsliced (name : String) {r : Request}
    (hslice : firstPosition .slice r = none) :
    after isolateAggregation name (after orderPagination name r) = r := by
  have hpage : orderPagination (Tracked.of name r) = [] :=
    orderPagination_eq_nil_iff.mpr fun _ _ h => absurd h (not_occurs_iff.mpr hslice)
  have hfork : isolateAggregation (Tracked.of name r) = [] :=
    isolateAggregation_eq_nil_iff.mpr fun _ i hi => by
      rw [hslice] at hi
      cases hi
  rw [after_idle hpage, after_idle hfork]

/-- Without a slice, a canonical form has no sorts or has them behind the first filter. -/
theorem canonical_unsliced (name : String) {r : Request} (hslice : firstPosition .slice r = none) :
    canonical name r = if (Method.ofName name).ignoresOrder then unsorted r else filterAhead r := by
  rw [canonical_eq, after_dropOrdering_unsliced name hslice]
  split
  · have hunsorted : firstPosition .slice (unsorted r) = none :=
      not_occurs_iff.mp fun ⟨t, ht, hp⟩ =>
        not_occurs_iff.mpr hslice ⟨t, (List.mem_filter.mp ht).1, hp⟩
    rw [after_sliceRules_unsliced name hunsorted, after_filterFirst_unsliced name hunsorted,
      filterAhead_unsorted]
  · rw [after_sliceRules_unsliced name hslice, after_filterFirst_unsliced name hslice]

/-! ## Cut at the first slice -/

section Sliced

variable {name : String} {before rest : Request} {slice : Token}
  (hslice : Operation.slice.performedBy slice = true)
  (hfirst : firstPosition .slice before = none)

include hslice hfirst

theorem after_dropOrdering_sliced : after dropOrdering name (before ++ slice :: rest) =
    before ++ slice :: behindPage (Method.ofName name) before rest := by
  have hnot : Operation.sort.performedBy slice = false :=
    Operation.not_performedBy_of_ne (by decide) hslice
  have hafter : (Profile.of name (before ++ slice :: rest)).occursAfter .slice .sort = true ↔
      Occurs .sort before := occursAfter_cut hslice hfirst (by decide)
  unfold behindPage
  split
  · next hdrop =>
    have hbefore := unsorted_eq_self (not_occurs_iff.mp hdrop.2)
    rcases dropOrdering_cases name (before ++ slice :: rest) with hidle | ⟨-, h⟩
    · -- an idle rule finds no sort behind the slice either
      have hnone : ¬ Occurs .sort rest := fun hsort =>
        hdrop.2 (hafter.mp (dropOrdering_eq_nil_iff.mp hidle hdrop.1
          (occurs_append.mpr (Or.inr (occurs_cons.mpr (Or.inr hsort))))))
      rw [after_idle hidle, unsorted_eq_self (not_occurs_iff.mp hnone)]
    · rw [h, unsorted_append, unsorted_cons hnot, hbefore]
  · next hkeep =>
    refine after_idle (dropOrdering_eq_nil_iff.mpr fun hignored _ => hafter.mpr ?_)
    by_contra hsort
    exact hkeep ⟨hignored, hsort⟩

/-- The tokens before the slice once there is a sort among them. -/
theorem after_orderPagination_sliced {scan : TableScan}
    (hhead : before.head? = some (.table scan)) :
    after orderPagination name (before ++ slice :: rest) =
      (if Occurs .sort before then before else before ++ [sortByIdentifier scan]) ++
        slice :: rest := by
  have hafter : (Profile.of name (before ++ slice :: rest)).occursAfter .slice .sort = true ↔
      Occurs .sort before := occursAfter_cut hslice hfirst (by decide)
  have hhead' : (before ++ slice :: rest).head? = some (.table scan) := by
    rw [List.head?_append, hhead, Option.some_or]
  rcases orderPagination_cases name (before ++ slice :: rest) with
    hidle | ⟨scan', before', slice', rest', hcut, hscan, hslice', hfirst', hsort, -, h⟩
  · have hsort : Occurs .sort before := hafter.mp (orderPagination_eq_nil_iff.mp hidle scan hhead'
      (occurs_append.mpr (Or.inr (occurs_cons.mpr (Or.inl hslice)))))
    rw [after_idle hidle, if_pos hsort]
  · obtain ⟨rfl, rfl, rfl⟩ := cut_unique hslice hfirst hslice' hfirst' hcut
    rw [hhead', Option.some.injEq, Token.table.injEq] at hscan
    rw [h, if_neg (not_occurs_iff.mpr hsort), hscan, List.append_assoc, List.singleton_append]

theorem after_isolateAggregation_sliced :
    after isolateAggregation name (before ++ slice :: rest) =
      before ++ slice :: outside (Method.ofName name) rest := by
  unfold outside
  rcases isolateAggregation_cases name (before ++ slice :: rest) with
    hidle | ⟨hscalar, before', slice', rest', hcut, hslice', hfirst', hfork, -, h⟩
  · have hsettled :=
      (aggregationSettled_cut hslice hfirst).mp (isolateAggregation_eq_nil_iff.mp hidle)
    rw [after_idle hidle, if_neg]
    rw [Bool.and_eq_true, Bool.not_eq_true']
    rintro ⟨hscalar, hfork⟩
    rw [hsettled hscalar] at hfork
    cases hfork
  · obtain ⟨rfl, rfl, rfl⟩ := cut_unique hslice hfirst hslice' hfirst' hcut
    rw [h, if_pos (by rw [hscalar, hfork]; rfl)]

/-- Behind the slice the last rule finds nothing to do. -/
theorem after_filterFirst_sliced (hsort : Occurs .sort before) :
    after filterFirst name (before ++ slice :: rest) = filterAhead before ++ slice :: rest := by
  have hpage : (Profile.of name (before ++ slice :: rest)).occursAfter .slice .sort = true :=
    (occursAfter_cut hslice hfirst (by decide)).mpr hsort
  have hlate := occursAfter_asymm hpage
  cases hfilter : firstPosition .filter before with
  | none =>
    -- a filter that is there stands behind the slice, apart from the first sort
    have hidle : filterFirst (Tracked.of name (before ++ slice :: rest)) = [] := by
      refine if_neg fun hc => ?_
      rw [Bool.and_eq_true, Bool.not_eq_true'] at hc
      obtain ⟨hfiltered, happart⟩ := hc
      have hoccurs := occurs_of_occursAfter hpage
      have hbehind : (Profile.of name (before ++ slice :: rest)).occursAfter .filter .slice =
          true := by
        refine (occursAfter_total (by decide) (occurs_of_occursAfter hfiltered).1
          hoccurs.1).resolve_right fun h => ?_
        exact not_occurs_iff.mpr hfilter ((occursAfter_cut hslice hfirst (by decide)).mp h)
      have hhas : (Profile.of name (before ++ slice :: rest)).has .slice = true :=
        has_iff.mpr (occurs_iff.mp hoccurs.1)
      have hapart : slicedApart (Profile.of name (before ++ slice :: rest)) = true := by
        rw [slicedApart, hhas, hbehind, hlate]
        rfl
      exact Bool.false_ne_true (happart.symm.trans hapart)
    rw [after_idle hidle, filterAhead_eq_self hfilter]
  | some i =>
    obtain ⟨a, filter, b, rfl, -, hf, ha⟩ := exists_cut_of_firstPosition hfilter
    have hnone : firstPosition .slice a = none :=
      not_occurs_iff.mp fun h => not_occurs_iff.mpr hfirst (occurs_append.mpr (Or.inl h))
    have hcut : a ++ filter :: b ++ slice :: rest = a ++ filter :: (b ++ slice :: rest) := by simp
    rw [hcut] at hlate ⊢
    have hahead : (Profile.of name (a ++ filter :: (b ++ slice :: rest))).occursAfter
        .filter .slice = false := by
      rw [← Bool.not_eq_true, occursAfter_cut hf ha (by decide), not_occurs_iff]
      exact hnone
    have happart : slicedApart (Profile.of name (a ++ filter :: (b ++ slice :: rest))) = false := by
      rw [slicedApart, hahead, hlate, bne_self_eq_false, Bool.and_false]
    rw [after_filterFirst_cut hf ha hnone happart, filterAhead_cut hf ha, filterAhead_cut hf ha]
    simp

/-- A table with a slice has a page in order before it, and behind it what is computed outside. -/
theorem canonical_sliced (name : String) {scan : TableScan}
    (hhead : before.head? = some (.table scan)) :
    canonical name (before ++ slice :: rest) = page scan before ++
      slice :: outside (Method.ofName name) (behindPage (Method.ofName name) before rest) := by
  rw [canonical_eq, after_dropOrdering_sliced hslice hfirst,
    after_orderPagination_sliced hslice hfirst hhead]
  unfold page
  by_cases hsort : Occurs .sort before
  · rw [if_pos hsort, if_pos hsort, after_isolateAggregation_sliced hslice hfirst,
      after_filterFirst_sliced hslice hfirst hsort]
  · have hnew : firstPosition .slice (before ++ [sortByIdentifier scan]) = none := by
      rw [firstPosition_append, hfirst]
      rfl
    have hsorted : Occurs .sort (before ++ [sortByIdentifier scan]) :=
      occurs_append.mpr (Or.inr ⟨_, List.mem_singleton_self _, performedBy_sortByIdentifier scan⟩)
    rw [if_neg hsort, if_neg hsort, after_isolateAggregation_sliced hslice hnew,
      after_filterFirst_sliced hslice hnew hsorted]
    -- the new sort stands behind every filter before the slice
    congr 1
    cases hfilter : firstPosition .filter before with
    | none =>
      refine filterAhead_eq_self ?_
      rw [firstPosition_append, hfilter]
      rfl
    | some i =>
      obtain ⟨a, filter, b, rfl, -, hf, ha⟩ := exists_cut_of_firstPosition hfilter
      rw [List.append_assoc, List.cons_append]
      exact filterAhead_of_not_occurs hf ha fun h => hsort (occurs_append.mpr (Or.inl h))

end Sliced

/-! ## Behind the joins -/

/-- The pipeline that consists of a table, joins and further tokens. -/
def pipelineOf (scan : TableScan) (edges : List JoinEdge) (stages : Request) : Request :=
  .table scan :: edges.map Token.join ++ stages

/-- The stages of the canonical form of a table with these stages. -/
def canonicalStages (method : Method) (scan : TableScan) (stages : Request) : Request :=
  match stages.dropWhile fun t => !Operation.slice.performedBy t with
  | [] => if method.ignoresOrder then unsorted stages else filterAhead stages
  | slice :: rest =>
    let before := stages.takeWhile fun t => !Operation.slice.performedBy t
    page scan before ++ slice :: outside method (behindPage method before rest)

theorem canonicalStages_unsliced (method : Method) (scan : TableScan) {stages : Request}
    (h : firstPosition .slice stages = none) : canonicalStages method scan stages =
      if method.ignoresOrder then unsorted stages else filterAhead stages := by
  rw [firstPosition_eq_none] at h
  unfold canonicalStages
  rw [List.dropWhile_eq_nil_iff.mpr fun t ht => by simp [h t ht]]

theorem canonicalStages_cut (method : Method) (scan : TableScan) {before rest : Request}
    {slice : Token} (hslice : Operation.slice.performedBy slice = true)
    (hfirst : firstPosition .slice before = none) :
    canonicalStages method scan (before ++ slice :: rest) =
      page scan before ++ slice :: outside method (behindPage method before rest) := by
  rw [firstPosition_eq_none] at hfirst
  have hbefore : ∀ t ∈ before, (!Operation.slice.performedBy t) = true :=
    fun t ht => by simp [hfirst t ht]
  unfold canonicalStages
  rw [List.dropWhile_append_of_pos hbefore, List.takeWhile_append_of_pos hbefore,
    List.dropWhile_cons_of_neg (by simp [hslice]), List.takeWhile_cons_of_neg (by simp [hslice]),
    List.append_nil]

theorem behindPage_subset (method : Method) (before rest : Request) :
    behindPage method before rest ⊆ rest := by
  intro t ht
  unfold behindPage at ht
  split at ht
  · exact (List.mem_filter.mp ht).1
  · exact ht

/-- Canonical stages are the stages, a sort by identifier and a fork at most. -/
theorem mem_canonicalStages {method : Method} {scan : TableScan} {stages : Request} {t : Token}
    (h : t ∈ canonicalStages method scan stages) :
    t ∈ stages ∨ t = sortByIdentifier scan ∨ t = fork := by
  have hahead {r : Request} (ht : t ∈ filterAhead r) : t ∈ r := (filterAhead_perm r).mem_iff.mp ht
  cases hfirst : firstPosition .slice stages with
  | none =>
    rw [canonicalStages_unsliced method scan hfirst] at h
    split at h
    · exact Or.inl (List.mem_filter.mp h).1
    · exact Or.inl (hahead h)
  | some i =>
    obtain ⟨before, slice, rest, rfl, -, hslice, hbefore⟩ := exists_cut_of_firstPosition hfirst
    rw [canonicalStages_cut method scan hslice hbefore, List.mem_append, List.mem_cons] at h
    rw [List.mem_append, List.mem_cons]
    rcases h with h | rfl | h
    · unfold page at h
      split at h
      · exact Or.inl (Or.inl (hahead h))
      · rcases List.mem_append.mp h with h | h
        · exact Or.inl (Or.inl h)
        · exact Or.inr (Or.inl (List.mem_singleton.mp h))
    · exact Or.inl (Or.inr (Or.inl rfl))
    · unfold outside at h
      split at h
      · rcases List.mem_cons.mp h with rfl | h
        · exact Or.inr (Or.inr rfl)
        · exact Or.inl (Or.inr (Or.inr (behindPage_subset method before rest h)))
      · exact Or.inl (Or.inr (Or.inr (behindPage_subset method before rest h)))

section Behind

variable {base : Request} (hbase : ∀ t ∈ base, Operation.of? t = none)

include hbase

theorem firstPosition_base (operation : Operation) : firstPosition operation base = none :=
  firstPosition_eq_none.mpr fun t ht => by simp [Operation.performedBy, hbase t ht]

theorem occurs_behind (operation : Operation) (r : Request) :
    Occurs operation (base ++ r) ↔ Occurs operation r := by
  rw [occurs_append]
  exact or_iff_right (not_occurs_iff.mpr (firstPosition_base hbase operation))

theorem firstPosition_behind {operation : Operation} {r : Request}
    (h : firstPosition operation r = none) : firstPosition operation (base ++ r) = none := by
  rw [← not_occurs_iff, occurs_behind hbase, not_occurs_iff]
  exact h

theorem unsorted_behind (r : Request) : unsorted (base ++ r) = base ++ unsorted r := by
  rw [unsorted_append, unsorted_eq_self (firstPosition_base hbase .sort)]

theorem filterAhead_behind (r : Request) : filterAhead (base ++ r) = base ++ filterAhead r := by
  cases hfirst : firstPosition .filter r with
  | none => rw [filterAhead_eq_self hfirst, filterAhead_eq_self (firstPosition_behind hbase hfirst)]
  | some i =>
    obtain ⟨before, filter, rest, rfl, -, hfilter, hbefore⟩ := exists_cut_of_firstPosition hfirst
    have hsorts : sorts (base ++ before) = sorts before := by
      rw [sorts_append, sorts_eq_nil (firstPosition_base hbase .sort), List.nil_append]
    rw [← List.append_assoc, filterAhead_cut hfilter (firstPosition_behind hbase hbefore),
      filterAhead_cut hfilter hbefore, unsorted_behind hbase, hsorts, List.append_assoc]

theorem page_behind (scan : TableScan) (before : Request) :
    page scan (base ++ before) = base ++ page scan before := by
  simp only [page, occurs_behind hbase]
  split
  · exact filterAhead_behind hbase before
  · exact List.append_assoc _ _ _

end Behind

/-- The canonical form of a pipeline has the same table and the same joins. -/
theorem canonical_pipelineOf (name : String) (scan : TableScan) (edges : List JoinEdge)
    (stages : Request) : canonical name (pipelineOf scan edges stages) =
      pipelineOf scan edges (canonicalStages (Method.ofName name) scan stages) := by
  have hbase : ∀ t ∈ Token.table scan :: edges.map Token.join, Operation.of? t = none := by
    intro t ht
    rw [List.mem_cons, List.mem_map] at ht
    rcases ht with rfl | ⟨edge, -, rfl⟩ <;> rfl
  unfold pipelineOf
  cases hfirst : firstPosition .slice stages with
  | none =>
    rw [canonical_unsliced name (firstPosition_behind hbase hfirst),
      canonicalStages_unsliced _ scan hfirst, unsorted_behind hbase, filterAhead_behind hbase,
      apply_ite (Token.table scan :: edges.map Token.join ++ ·)]
  | some i =>
    obtain ⟨before, slice, rest, rfl, -, hslice, hbefore⟩ := exists_cut_of_firstPosition hfirst
    have hbehind : behindPage (Method.ofName name)
        (Token.table scan :: edges.map Token.join ++ before) rest =
          behindPage (Method.ofName name) before rest := by
      simp only [behindPage, occurs_behind hbase]
    rw [← List.append_assoc, canonical_sliced hslice (firstPosition_behind hbase hbefore) name rfl,
      canonicalStages_cut _ scan hslice hbefore, page_behind hbase, hbehind, List.append_assoc]

end Canonical

end RequestCompiler
