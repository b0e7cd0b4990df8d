import RequestCompiler.Proofs.Pipeline.Arrangement

/-!
# Sorts in front of the first filter

Sorts step behind the first filter unless a slice separates them from it. The last rule looks at
first positions to tell whether one does, so it takes the sorts behind a slice for separated if
another sort stands before the first slice, and that may be one that an earlier rule put there.

* `sortsSeparated_cut` — only the part in which the first filter stands matters.
* `sortsSeparated_after_filterFirst` — what the last rule achieves.
* `sortsSeparated_canonical_iff` — in which canonical forms all sorts are separated.
* `sortBehindPage_not_separated` — a sort behind a page stays in front of the filter.
-/

namespace RequestCompiler

namespace Canonical

/-- Whether a slice separates each sort before the first filter of a pipeline from that filter. -/
def SortsSeparated (r : Request) : Prop :=
  ∀ early sort between filter rest, r = early ++ sort :: between ++ filter :: rest →
    Operation.sort.performedBy sort = true → Operation.filter.performedBy filter = true →
      ¬ Occurs .filter (early ++ sort :: between) → Occurs .slice between

/-- Whether a pipeline has a first filter and no slice stands before it. -/
def FiltersUnsliced (r : Request) : Prop :=
  ∃ before filter rest, r = before ++ filter :: rest ∧
    Operation.filter.performedBy filter = true ∧ ¬ Occurs .filter before ∧ ¬ Occurs .slice before

/-! ## The part of the first filter -/

/-- Sorts are separated if the part in which the first filter stands has none before the filter. -/
theorem sortsSeparated_cut {before middle rest : Request} {filter : Token}
    (hfilter : Operation.filter.performedBy filter = true)
    (hfirst : ¬ Occurs .filter (before ++ middle)) (hbefore : PartBegins before)
    (hmiddle : ¬ Occurs .slice middle) :
    SortsSeparated (before ++ middle ++ filter :: rest) ↔ ¬ Occurs .sort middle := by
  constructor
  · rintro h ⟨sort, hmem, hsort⟩
    obtain ⟨early, late, rfl⟩ := List.append_of_mem hmem
    have hslice : Occurs .slice late := by
      refine h (before ++ early) sort late filter rest ?_ hsort hfilter ?_
      · simp
      · rwa [List.append_assoc]
    exact hmiddle (occurs_append.mpr (.inr (occurs_cons.mpr (.inr hslice))))
  · intro hunsorted early sort between filter' rest' hcut hsort hfilter' hfirst'
    obtain ⟨hsame, -⟩ := cut_unique hfilter (not_occurs_iff.mp hfirst) hfilter'
      (not_occurs_iff.mp hfirst') hcut
    have hno : ∀ t ∈ middle, t ≠ sort := fun t ht heq => hunsorted ⟨t, ht, heq ▸ hsort⟩
    rcases hbefore with rfl | ⟨earlier, slice, rfl, hslice⟩
    · rw [List.nil_append] at hsame
      exact absurd rfl (hno sort (by simp [hsame]))
    · have hne : slice ≠ sort := by
        rintro rfl
        have hnot := Operation.not_performedBy_of_ne (b := .sort) (by decide) hslice
        rw [hsort] at hnot
        cases hnot
      rw [List.append_assoc, List.singleton_append, List.append_eq_append_iff] at hsame
      -- the slice before the part stands behind the sort, as the part has no sort
      rcases hsame with ⟨tail, -, htail⟩ | ⟨tail, -, htail⟩
      · cases tail with
        | nil => exact absurd (List.cons.inj htail).1 hne
        | cons t tail =>
          obtain ⟨-, hmid⟩ := List.cons.inj htail
          exact absurd rfl (hno sort (by simp [hmid]))
      · cases tail with
        | nil => exact absurd (List.cons.inj htail).1.symm hne
        | cons t tail =>
          obtain ⟨-, hbetween⟩ := List.cons.inj htail
          exact ⟨slice, by simp [hbetween], hslice⟩

/-- Without a filter there is nothing to be separated from. -/
theorem sortsSeparated_of_not_occurs_filter {r : Request} (h : ¬ Occurs .filter r) :
    SortsSeparated r := by
  rintro early sort between filter rest rfl - hfilter -
  exact absurd ⟨filter, by simp, hfilter⟩ h

/-- Without a sort there is nothing to separate. -/
theorem sortsSeparated_of_not_occurs_sort {r : Request} (h : ¬ Occurs .sort r) :
    SortsSeparated r := by
  rintro early sort between filter rest rfl hsort - -
  exact absurd ⟨sort, by simp, hsort⟩ h

/-- If not all sorts are separated, then some stand in the part of the first filter. -/
theorem exists_part_of_not_sortsSeparated {r : Request} (h : ¬ SortsSeparated r) :
    ∃ before middle filter rest, r = before ++ middle ++ filter :: rest ∧
      Operation.filter.performedBy filter = true ∧ ¬ Occurs .filter (before ++ middle) ∧
      PartBegins before ∧ ¬ Occurs .slice middle ∧ Occurs .sort middle := by
  by_cases hoccurs : Occurs .filter r
  · obtain ⟨i, hi⟩ := occurs_iff.mp hoccurs
    obtain ⟨early, filter, rest, rfl, -, hfilter, hfirst⟩ := exists_cut_of_firstPosition hi
    obtain ⟨before, middle, rfl, hbefore, hmiddle⟩ := exists_part early
    rw [← not_occurs_iff] at hfirst hmiddle
    rw [sortsSeparated_cut hfilter hfirst hbefore hmiddle, not_not] at h
    exact ⟨before, middle, filter, rest, rfl, hfilter, hfirst, hbefore, hmiddle, h⟩
  · exact absurd (sortsSeparated_of_not_occurs_filter hoccurs) h

/-! ## The last rule -/

theorem occurs_of_occurs_unsorted {operation : Operation} {r : Request}
    (h : Occurs operation (unsorted r)) : Occurs operation r := by
  obtain ⟨t, ht, hp⟩ := h
  exact ⟨t, (List.mem_filter.mp ht).1, hp⟩

theorem occursAfter_trans {name : String} {r : Request} {a b c : Operation}
    (h : (Profile.of name r).occursAfter a b = true)
    (h' : (Profile.of name r).occursAfter b c = true) :
    (Profile.of name r).occursAfter a c = true := by
  obtain ⟨i, j, hi, hj, hlt⟩ := occursAfter_iff.mp h
  obtain ⟨j', k, hj', hk, hlt'⟩ := occursAfter_iff.mp h'
  rw [hj] at hj'
  cases hj'
  exact occursAfter_iff.mpr ⟨i, k, hi, hk, Nat.lt_trans hlt' hlt⟩

/-- The first filter has no slice before it, if there is one and it comes after no slice. -/
theorem filtersUnsliced_iff {name : String} {r : Request} :
    FiltersUnsliced r ↔
      Occurs .filter r ∧ ¬ (Profile.of name r).occursAfter .filter .slice = true := by
  constructor
  · rintro ⟨before, filter, rest, rfl, hfilter, hfirst, hslice⟩
    rw [occursAfter_cut hfilter (not_occurs_iff.mp hfirst) (by decide)]
    exact ⟨⟨filter, by simp, hfilter⟩, hslice⟩
  · rintro ⟨hoccurs, hno⟩
    obtain ⟨i, hi⟩ := occurs_iff.mp hoccurs
    obtain ⟨before, filter, rest, rfl, -, hfilter, hfirst⟩ := exists_cut_of_firstPosition hi
    rw [occursAfter_cut hfilter hfirst (by decide)] at hno
    exact ⟨before, filter, rest, rfl, hfilter, not_occurs_iff.mpr hfirst, hno⟩

/-- Sorts before a filter count as sliced apart if the first slice stands between their firsts. -/
theorem slicedApart_iff {name : String} {r : Request}
    (h : (Profile.of name r).occursAfter .filter .sort = true) :
    slicedApart (Profile.of name r) = true ↔ ¬ FiltersUnsliced r ∧ SortsPage r := by
  obtain ⟨hfilter, hsort⟩ := occurs_of_occursAfter h
  rw [@sortsPage_iff name, @filtersUnsliced_iff name, not_and, not_not, slicedApart,
    Bool.and_eq_true, bne_iff_ne, ne_eq]
  constructor
  · rintro ⟨hhas, hne⟩
    have hslice : Occurs .slice r := occurs_iff.mpr (has_iff.mp hhas)
    have htotal : (Profile.of name r).occursAfter .slice .sort = true ∨
        (Profile.of name r).occursAfter .sort .slice = true :=
      occursAfter_total (by decide) hslice hsort
    rcases htotal with hpage | hbehind
    · refine ⟨fun _ => ?_, hpage⟩
      rw [occursAfter_asymm hpage, Bool.not_eq_false] at hne
      exact hne
    · exact absurd ((occursAfter_trans h hbehind).trans hbehind.symm) hne
  · rintro ⟨hafter, hpage⟩
    refine ⟨has_iff.mpr (occurs_iff.mp (occurs_of_occursAfter hpage).1), ?_⟩
    rw [hafter hfilter, occursAfter_asymm hpage]
    decide

/-- A rule that is idle although sorts are not separated takes them for sliced apart. -/
theorem slicedApart_of_filterFirst_eq_nil {name : String} {r : Request}
    (hidle : filterFirst (Tracked.of name r) = []) (h : ¬ SortsSeparated r) :
    (Profile.of name r).occursAfter .filter .sort = true ∧
      slicedApart (Profile.of name r) = true := by
  obtain ⟨before, middle, filter, rest, rfl, hfilter, hfirst, hbefore, hmiddle, hsort⟩ :=
    exists_part_of_not_sortsSeparated h
  have hposition : (Profile.of name (before ++ middle ++ filter :: rest)).filter =
      some (before ++ middle).length :=
    firstPosition_cut (not_occurs_iff.mp hfirst) hfilter
  have hafter : (Profile.of name (before ++ middle ++ filter :: rest)).occursAfter
      .filter .sort = true :=
    (occursAfter_cut hfilter (not_occurs_iff.mp hfirst) (by decide)).mpr
      (occurs_append.mpr (.inr hsort))
  refine ⟨hafter, ?_⟩
  by_contra hapart
  have happart := (Bool.not_eq_true _).mp hapart
  -- the rule would move the sorts of the part, and so leave none
  have hmoves : moveSorts (before ++ middle ++ filter :: rest) (before ++ middle).length = [] := by
    rw [← hidle]
    unfold filterFirst
    simp only [Tracked.of, hafter, happart, hposition, Bool.not_false, Bool.and_self, if_true]
  obtain ⟨-, hmoved⟩ := moveSorts_part filter rest hbefore (not_occurs_iff.mp hmiddle)
  rw [hmoves, Edit.applyAll_nil, List.append_assoc, List.append_assoc,
    List.append_cancel_left_eq] at hmoved
  have hno : ¬ Occurs .filter middle := fun hoccurs => hfirst (occurs_append.mpr (.inr hoccurs))
  have hno' : ¬ Occurs .filter (unsorted middle) := hno ∘ occurs_of_occurs_unsorted
  obtain ⟨hunsorted, -⟩ := cut_unique hfilter (not_occurs_iff.mp hno) hfilter
    (not_occurs_iff.mp hno') hmoved
  rw [hunsorted] at hsort
  exact not_occurs_unsorted middle hsort

/--
The last rule separates sorts from the filter, or finds them separated, unless a slice stands before
the first filter and a sort before the first slice.
-/
theorem sortsSeparated_after_filterFirst (name : String) (r : Request) :
    SortsSeparated (after filterFirst name r) ↔
      SortsSeparated r ∨ FiltersUnsliced r ∨ ¬ SortsPage r := by
  rcases filterFirst_cases name r with
    hidle | ⟨before, middle, filter, rest, rfl, hfilter, hfirst, hbefore, hmiddle, hsort,
      happart, -, h⟩
  · rw [after_idle hidle]
    refine ⟨.inl, fun h => h.elim id fun hapart => ?_⟩
    by_contra hseparated
    obtain ⟨hafter, happart⟩ := slicedApart_of_filterFirst_eq_nil hidle hseparated
    obtain ⟨hsliced, hpage⟩ := (slicedApart_iff hafter).mp happart
    exact hapart.elim hsliced fun hno => hno hpage
  · rw [← not_occurs_iff] at hfirst hmiddle
    have hmoved : SortsSeparated (before ++ unsorted middle ++ filter :: (sorts middle ++ rest)) :=
      (sortsSeparated_cut hfilter
        (fun hoccurs => hfirst (occurs_append.mpr
          ((occurs_append.mp hoccurs).imp_right occurs_of_occurs_unsorted)))
        hbefore (hmiddle ∘ occurs_of_occurs_unsorted)).mpr (not_occurs_unsorted middle)
    have hnot := (slicedApart_iff hsort).not.mp ((Bool.not_eq_true _).mpr happart)
    rw [not_and_or, not_not] at hnot
    rw [h]
    exact ⟨fun _ => .inr hnot, fun _ => hmoved⟩

/-! ## Insertions -/

/-- Whether a filter comes before the first slice. -/
def reachesFilter : Request → Bool
  | [] => false
  | t :: rest =>
    Operation.filter.performedBy t || (!Operation.slice.performedBy t && reachesFilter rest)

/-- Whether some sort before the first filter has no slice between itself and the filter. -/
def exposesSort : Request → Bool
  | [] => false
  | t :: rest =>
    !Operation.filter.performedBy t &&
      (Operation.sort.performedBy t && reachesFilter rest || exposesSort rest)

theorem reachesFilter_iff {r : Request} : reachesFilter r = true ↔ FiltersUnsliced r := by
  induction r with
  | nil => simp [reachesFilter, FiltersUnsliced]
  | cons t rest ih =>
    rw [reachesFilter, Bool.or_eq_true, Bool.and_eq_true, Bool.not_eq_true', ih]
    constructor
    · rintro (hfilter | ⟨hslice, before, filter, late, rfl, hfilter, hfirst, hbefore⟩)
      · exact ⟨[], t, rest, rfl, hfilter, by simp [Occurs], by simp [Occurs]⟩
      · by_cases ht : Operation.filter.performedBy t = true
        · exact ⟨[], t, _, rfl, ht, by simp [Occurs], by simp [Occurs]⟩
        · refine ⟨t :: before, filter, late, rfl, hfilter, ?_, ?_⟩
          · rw [occurs_cons]
            exact not_or.mpr ⟨ht, hfirst⟩
          · rw [occurs_cons, hslice]
            simpa using hbefore
    · rintro ⟨before, filter, late, hcut, hfilter, hfirst, hbefore⟩
      cases before with
      | nil =>
        cases hcut
        exact .inl hfilter
      | cons u before =>
        cases hcut
        rw [occurs_cons, not_or] at hfirst hbefore
        exact .inr ⟨(Bool.not_eq_true _).mp hbefore.1, before, filter, late, rfl, hfilter,
          hfirst.2, hbefore.2⟩

/-- A filter at the head has no sort before it. -/
theorem sortsSeparated_cons_filter {t : Token} {rest : Request}
    (ht : Operation.filter.performedBy t = true) : SortsSeparated (t :: rest) := by
  intro early sort between filter late hcut _ _ hfirst
  -- whatever is cut off before a later filter begins with the head
  cases early with
  | nil =>
    cases hcut
    exact absurd (occurs_cons.mpr (.inl ht)) hfirst
  | cons u early =>
    cases hcut
    exact absurd (occurs_cons.mpr (.inl ht)) hfirst

/-- A sort at the head is separated if a slice comes before the first filter behind it. -/
theorem sortsSeparated_cons {t : Token} {rest : Request}
    (ht : Operation.filter.performedBy t = false) :
    SortsSeparated (t :: rest) ↔
      ¬ (Operation.sort.performedBy t = true ∧ FiltersUnsliced rest) ∧ SortsSeparated rest := by
  constructor
  · refine fun h => ⟨?_, ?_⟩
    · rintro ⟨hsort, before, filter, late, rfl, hfilter, hfirst, hslice⟩
      refine hslice (h [] t before filter late rfl hsort hfilter ?_)
      rw [List.nil_append, occurs_cons, ht]
      simpa using hfirst
    · rintro early sort between filter late rfl hsort hfilter hfirst
      refine h (t :: early) sort between filter late rfl hsort hfilter ?_
      rw [List.cons_append, occurs_cons, ht]
      simpa using hfirst
  · rintro ⟨hhead, hrest⟩ early sort between filter late hcut hsort hfilter hfirst
    cases early with
    | nil =>
      cases hcut
      rw [List.nil_append, occurs_cons, not_or] at hfirst
      by_contra hslice
      exact hhead ⟨hsort, between, filter, late, rfl, hfilter, hfirst.2, hslice⟩
    | cons u early =>
      cases hcut
      rw [List.cons_append, occurs_cons, not_or] at hfirst
      exact hrest early sort between filter late rfl hsort hfilter hfirst.2

theorem exposesSort_eq_false_iff {r : Request} : exposesSort r = false ↔ SortsSeparated r := by
  induction r with
  | nil => exact ⟨fun _ => sortsSeparated_of_not_occurs_sort (by simp [Occurs]), fun _ => rfl⟩
  | cons t rest ih =>
    cases ht : Operation.filter.performedBy t with
    | true => simp [exposesSort, ht, sortsSeparated_cons_filter ht]
    | false =>
      rw [sortsSeparated_cons ht, ← ih, ← reachesFilter_iff]
      simp [exposesSort, ht]

instance (r : Request) : Decidable (SortsSeparated r) :=
  decidable_of_iff _ exposesSort_eq_false_iff

section Insertion

variable {t : Token} {before rest : Request}

theorem filtersUnsliced_insert (hfilter : Operation.filter.performedBy t = false)
    (hslice : Operation.slice.performedBy t = false) :
    FiltersUnsliced (before ++ t :: rest) ↔ FiltersUnsliced (before ++ rest) := by
  have hsame : reachesFilter (before ++ t :: rest) = reachesFilter (before ++ rest) := by
    induction before with
    | nil => simp [reachesFilter, hfilter, hslice]
    | cons u before ih => rw [List.cons_append, List.cons_append, reachesFilter, reachesFilter, ih]
  rw [← reachesFilter_iff, ← reachesFilter_iff, hsame]

/-- What is put before a slice, or is no sort, is not exposed. -/
theorem sortsSeparated_insert (hfilter : Operation.filter.performedBy t = false)
    (hslice : Operation.slice.performedBy t = false)
    (hsort : Operation.sort.performedBy t = true → ¬ FiltersUnsliced rest) :
    SortsSeparated (before ++ t :: rest) ↔ SortsSeparated (before ++ rest) := by
  induction before with
  | nil =>
    rw [List.nil_append, List.nil_append, sortsSeparated_cons hfilter]
    exact ⟨And.right, fun h => ⟨fun ⟨hp, hunsliced⟩ => hsort hp hunsliced, h⟩⟩
  | cons u before ih =>
    rw [List.cons_append, List.cons_append]
    cases hu : Operation.filter.performedBy u with
    | true => exact iff_of_true (sortsSeparated_cons_filter hu) (sortsSeparated_cons_filter hu)
    | false =>
      rw [sortsSeparated_cons hu, sortsSeparated_cons hu, ih,
        filtersUnsliced_insert hfilter hslice]

end Insertion

/-! ## The other rules -/

theorem not_filtersUnsliced_of_slice {t : Token} {rest : Request}
    (ht : Operation.slice.performedBy t = true) : ¬ FiltersUnsliced (t :: rest) := by
  rw [← reachesFilter_iff, reachesFilter, ht,
    Operation.not_performedBy_of_ne (b := .filter) (by decide) ht]
  simp

/-- The second rule puts its sort before a slice. -/
theorem separation_after_orderPagination (name : String) (r : Request) :
    (SortsSeparated (after orderPagination name r) ↔ SortsSeparated r) ∧
      (FiltersUnsliced (after orderPagination name r) ↔ FiltersUnsliced r) ∧
      (SortsPage (after orderPagination name r) ↔
        SortsPage r ∨ (∃ scan, r.head? = some (.table scan)) ∧ Occurs .slice r) := by
  rcases orderPagination_cases name r with
    hidle | ⟨scan, before, slice, rest, rfl, hhead, hslice, hfirst, -, -, h⟩
  · have hsettled := orderPagination_eq_nil_iff.mp hidle
    rw [after_idle hidle]
    refine ⟨.rfl, .rfl, .inl, fun hpage => hpage.elim id ?_⟩
    rintro ⟨⟨scan, hhead⟩, hoccurs⟩
    exact sortsPage_iff.mpr (hsettled scan hhead hoccurs)
  · rw [h]
    refine ⟨sortsSeparated_insert rfl rfl fun _ => not_filtersUnsliced_of_slice hslice,
      filtersUnsliced_insert rfl rfl, ?_⟩
    exact iff_of_true (sortsPage_iff.mpr (occursAfter_of_injected name scan hslice hfirst))
      (.inr ⟨⟨scan, hhead⟩, slice, by simp, hslice⟩)

/-- A fork is no operation. -/
theorem separation_after_isolateAggregation (name : String) (r : Request) :
    (SortsSeparated (after isolateAggregation name r) ↔ SortsSeparated r) ∧
      (FiltersUnsliced (after isolateAggregation name r) ↔ FiltersUnsliced r) ∧
      (SortsPage (after isolateAggregation name r) ↔ SortsPage r) := by
  rcases isolateAggregation_cases name r with
    hidle | ⟨-, before, slice, rest, rfl, hslice, hfirst, -, -, h⟩
  · rw [after_idle hidle]
    exact ⟨.rfl, .rfl, .rfl⟩
  · have hcut (tail : Request) : before ++ slice :: tail = (before ++ [slice]) ++ tail := by simp
    rw [h]
    refine ⟨?_, ?_, ?_⟩
    · rw [hcut, hcut rest]
      exact sortsSeparated_insert rfl rfl nofun
    · rw [hcut, hcut rest]
      exact filtersUnsliced_insert rfl rfl
    · rw [@sortsPage_iff name, @sortsPage_iff name, occursAfter_cut hslice hfirst (by decide),
        occursAfter_cut hslice hfirst (by decide)]

/-- Where no slice is, no filter stands behind one. -/
theorem filtersUnsliced_of_not_occurs_slice {r : Request} (hfilter : Occurs .filter r)
    (hslice : ¬ Occurs .slice r) : FiltersUnsliced r := by
  obtain ⟨i, hi⟩ := occurs_iff.mp hfilter
  obtain ⟨before, filter, rest, rfl, -, hp, hfirst⟩ := exists_cut_of_firstPosition hi
  exact ⟨before, filter, rest, rfl, hp, not_occurs_iff.mpr hfirst,
    fun hoccurs => hslice (occurs_append.mpr (.inl hoccurs))⟩

end Canonical

open Canonical in
/--
In a canonical form a slice separates each sort before the first filter from it if that is so in the
pipeline, or no slice stands before the first filter there, or no sort stands before the first slice
and none is put there, because the method ignores the order or no table heads the pipeline. In all
other canonical forms some sort is not separated from the filter.
-/
theorem sortsSeparated_canonical_iff (name : String) (r : Request) :
    SortsSeparated (canonical name r) ↔
      SortsSeparated r ∨ FiltersUnsliced r ∨
        ¬ SortsPage r ∧ ((Method.ofName name).ignoresOrder = true ∨
          ∀ scan, r.head? ≠ some (.table scan)) := by
  obtain ⟨hseparated, hunsliced, hpage⟩ := separation_after_isolateAggregation name
    (after orderPagination name (after dropOrdering name r))
  obtain ⟨hseparated', hunsliced', hpage'⟩ := separation_after_orderPagination name
    (after dropOrdering name r)
  rw [canonical_eq, sortsSeparated_after_filterFirst, hseparated, hunsliced, hpage, hseparated',
    hunsliced', hpage']
  rcases after_dropOrdering_eq_or name r with hsame | ⟨hignores, hno, hdropped⟩
  · have hsettled := orderingSettled_after_dropOrdering name r
    rw [hsame] at hsettled ⊢
    constructor
    · rintro (h | h | h)
      · exact .inl h
      · exact .inr (.inl h)
      · rw [not_or, not_and_or, not_exists] at h
        refine h.2.elim (fun hhead => .inr (.inr ⟨h.1, .inr hhead⟩)) fun hslice => ?_
        by_cases hfilter : Occurs .filter r
        · exact .inr (.inl (filtersUnsliced_of_not_occurs_slice hfilter hslice))
        · exact .inl (sortsSeparated_of_not_occurs_filter hfilter)
    · rintro (h | h | ⟨hno, hignores | hhead⟩)
      · exact .inl h
      · exact .inr (.inl h)
      · -- sorts that are not dropped stand before a slice
        exact .inl (sortsSeparated_of_not_occurs_sort fun hsort =>
          hno (sortsPage_iff.mpr (hsettled hignores hsort)))
      · exact .inr (.inr fun h => h.elim hno fun ⟨⟨scan, htable⟩, _⟩ => hhead scan htable)
  · have hunsorted : SortsSeparated (unsorted r) :=
      sortsSeparated_of_not_occurs_sort (not_occurs_unsorted r)
    rw [hdropped]
    exact iff_of_true (.inl hunsorted) (.inr (.inr ⟨hno, .inl hignores⟩))

/-! ## A sort behind a page -/

/-- People on a page, sorted by name, of whom the grown-ups are kept. -/
def sortBehindPage : Request :=
  [.table ⟨"people", "id", false⟩,
    .call "slice" [[.parameter "begin"], [.parameter "end"]],
    .call "sort" [[.read ⟨"people", "name", .string, false⟩]],
    .call "filter" [[.read ⟨"people", "adult", .boolean, false⟩]]]

/-- The sort steps behind the filter, but not if the page is sorted by identifier. -/
theorem sortBehindPage_not_separated :
    ¬ Canonical.SortsSeparated (canonical "get" sortBehindPage) ∧
      Canonical.SortsSeparated (canonical "get" sortBehindPage.tail) := by
  decide

end RequestCompiler
