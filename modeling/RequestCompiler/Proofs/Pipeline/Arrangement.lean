import RequestCompiler.Proofs.Pipeline.Kept

/-!
# The arrangement of a pipeline

Which rows come out of a pipeline, and in which order, depends on how its sorts and slices follow
one another: its `arrangement`. A canonical form has the arrangement of the pipeline, without its
sorts if these are dropped, and with a sort by identifier before its first slice if that is put in.
Apart from the sorts, it is the pipeline, with a fork behind its first slice if that is put in.

* `after_dropOrdering_eq_or`, `arrangement_after_orderPagination` — the first rule takes all sorts
  out of an arrangement, the second puts one into it.
* `arrangement_after_isolateAggregation`, `arrangement_after_filterFirst` — the others leave it.
* `canonical_arrangement` — what the canonical form keeps, drops and adds.
-/

namespace RequestCompiler

namespace Canonical

/-- Whether a token is a sort or a slice. -/
def arranges (t : Token) : Bool :=
  Operation.sort.performedBy t || Operation.slice.performedBy t

/-- The sorts and the slices of a pipeline. -/
def arrangement (r : Request) : Request := r.filter arranges

/-- The slices of a pipeline. -/
def slices (r : Request) : Request := r.filter Operation.slice.performedBy

/-- Whether a sort stands before the first slice of a pipeline. -/
def SortsPage (r : Request) : Prop :=
  ∃ before slice rest, r = before ++ slice :: rest ∧
    Operation.slice.performedBy slice = true ∧ firstPosition .slice before = none ∧
    Occurs .sort before

section Arrangement

variable {t : Token} {r : Request}

theorem arrangement_append (r s : Request) :
    arrangement (r ++ s) = arrangement r ++ arrangement s := List.filter_append r s

theorem arrangement_cons (h : arranges t = true) : arrangement (t :: r) = t :: arrangement r :=
  List.filter_cons_of_pos h

theorem arrangement_cons_other (h : arranges t = false) : arrangement (t :: r) = arrangement r :=
  List.filter_cons_of_neg (by simp [h])

theorem arranges_slice (h : Operation.slice.performedBy t = true) : arranges t = true := by
  rw [arranges, h, Bool.or_true]

/-- What is left of an arrangement without its sorts are the slices. -/
theorem arrangement_unsorted (r : Request) : arrangement (unsorted r) = slices r := by
  unfold arrangement unsorted slices
  rw [List.filter_filter]
  refine List.filter_congr fun t _ => ?_
  cases hslice : Operation.slice.performedBy t with
  | true =>
    have hsort : Operation.sort.performedBy t = false :=
      Operation.not_performedBy_of_ne (by decide) hslice
    simp [arranges, hslice, hsort]
  | false => cases hsort : Operation.sort.performedBy t <;> simp [arranges, hslice, hsort]

/-- Where there is no slice, sorts are all there is to arrange. -/
theorem arrangement_unsliced (h : firstPosition .slice r = none) : arrangement r = sorts r := by
  rw [firstPosition_eq_none] at h
  refine List.filter_congr fun t ht => ?_
  rw [arranges, h t ht, Bool.or_false]

end Arrangement

/-- A sort stands before the first slice if the first slice comes after the first sort. -/
theorem sortsPage_iff {name : String} {r : Request} :
    SortsPage r ↔ (Profile.of name r).occursAfter .slice .sort = true := by
  constructor
  · rintro ⟨before, slice, rest, rfl, hslice, hfirst, hsort⟩
    exact (occursAfter_cut hslice hfirst (by decide)).mpr hsort
  · intro h
    obtain ⟨i, hi⟩ := occurs_iff.mp (occurs_of_occursAfter h).1
    obtain ⟨before, slice, rest, rfl, -, hslice, hfirst⟩ := exists_cut_of_firstPosition hi
    exact ⟨before, slice, rest, rfl, hslice, hfirst,
      (occursAfter_cut hslice hfirst (by decide)).mp h⟩

/-- No sort stands before the first slice if that is the first of the arrangement. -/
theorem not_sortsPage_of_arrangement {r rest : Request} {t : Token} (h : arrangement r = t :: rest)
    (ht : Operation.slice.performedBy t = true) : ¬ SortsPage r := by
  rintro ⟨before, slice, after, rfl, -, hfirst, sort, hmem, hsort⟩
  have hsorts : sort ∈ sorts before := List.mem_filter.mpr ⟨hmem, hsort⟩
  rw [arrangement_append, arrangement_unsliced hfirst] at h
  -- the first of the arrangement is a sort
  cases hcut : sorts before with
  | nil =>
    rw [hcut] at hsorts
    cases hsorts
  | cons u tail =>
    have hu : u ∈ sorts before := hcut ▸ List.mem_cons_self ..
    rw [hcut] at h
    cases h
    have hno := Operation.not_performedBy_of_ne (b := .slice) (by decide) (List.mem_filter.mp hu).2
    rw [ht] at hno
    cases hno

/-! ## Rule by rule -/

/-- The first rule drops all sorts or none; it drops none where a slice depends on them. -/
theorem after_dropOrdering_eq_or (name : String) (r : Request) :
    after dropOrdering name r = r ∨
      (Method.ofName name).ignoresOrder = true ∧ ¬ SortsPage r ∧
        after dropOrdering name r = unsorted r := by
  rcases dropOrdering_cases name r with hidle | ⟨-, hdropped⟩
  · exact .inl (after_idle hidle)
  · by_cases hsettled : OrderingSettled name r
    · exact .inl (after_idle (dropOrdering_eq_nil_iff.mpr hsettled))
    · right
      unfold OrderingSettled at hsettled
      push Not at hsettled
      obtain ⟨hignores, -, hpage⟩ := hsettled
      exact ⟨hignores, fun h => hpage (sortsPage_iff.mp h), hdropped⟩

/-- The second rule puts a sort before the first slice if nothing is arranged before that. -/
theorem arrangement_after_orderPagination (name : String) (r : Request) :
    arrangement (after orderPagination name r) = arrangement r ∨
      ∃ scan slice rest, r.head? = some (.table scan) ∧
        Operation.slice.performedBy slice = true ∧ arrangement r = slice :: rest ∧
        arrangement (after orderPagination name r) = sortByIdentifier scan :: slice :: rest := by
  rcases orderPagination_cases name r with
    hidle | ⟨scan, before, slice, rest, rfl, hhead, hslice, hfirst, hsort, -, h⟩
  · rw [after_idle hidle]
    exact .inl rfl
  · have hbefore : arrangement before = [] := by
      rw [arrangement_unsliced hfirst, sorts_eq_nil hsort]
    refine .inr ⟨scan, slice, arrangement rest, hhead, hslice, ?_, ?_⟩
    · rw [arrangement_append, hbefore, arrangement_cons (arranges_slice hslice), List.nil_append]
    · rw [h, arrangement_append, hbefore, arrangement_cons rfl,
        arrangement_cons (arranges_slice hslice), List.nil_append]

theorem arrangement_after_isolateAggregation (name : String) (r : Request) :
    arrangement (after isolateAggregation name r) = arrangement r := by
  rcases isolateAggregation_cases name r with
    hidle | ⟨-, before, slice, rest, rfl, hslice, -, -, -, h⟩
  · rw [after_idle hidle]
  · have hfork : arrangement (fork :: rest) = arrangement rest := arrangement_cons_other rfl
    rw [h, arrangement_append, arrangement_append, arrangement_cons (arranges_slice hslice),
      arrangement_cons (arranges_slice hslice), hfork]

/-- The sorts that step behind the filter have no slice between them and the filter. -/
theorem arrangement_after_filterFirst (name : String) (r : Request) :
    arrangement (after filterFirst name r) = arrangement r := by
  rcases filterFirst_cases name r with
    hidle | ⟨before, middle, filter, rest, rfl, hfilter, -, -, hslice, -, -, -, h⟩
  · rw [after_idle hidle]
  · have hother : arranges filter = false := by
      rw [arranges, Operation.not_performedBy_of_ne (by decide) hfilter,
        Operation.not_performedBy_of_ne (by decide) hfilter, Bool.or_false]
    have hunsorted : arrangement (unsorted middle) = [] := by
      rw [arrangement_unsorted, slices, List.filter_eq_nil_iff]
      exact fun t ht => by simp [firstPosition_eq_none.mp hslice t ht]
    have hsorts : arrangement (sorts middle) = arrangement middle := by
      rw [arrangement_unsliced hslice]
      exact List.filter_eq_self.mpr fun t ht => by rw [arranges, (List.mem_filter.mp ht).2]; rfl
    rw [h]
    simp only [arrangement_append, arrangement_cons_other hother, hunsorted, hsorts,
      List.nil_append, List.append_assoc]

/-- The table at the head of a pipeline whose sorts were dropped was there before. -/
theorem head?_of_head?_unsorted {r : Request} {t : Token} (hslice : Occurs .slice r)
    (hpage : ¬ SortsPage r) (h : (unsorted r).head? = some t) : r.head? = some t := by
  cases r with
  | nil => cases h
  | cons u rest =>
    cases hu : Operation.sort.performedBy u with
    | false =>
      rw [unsorted_cons hu] at h
      exact h
    | true =>
      -- a sort at the head stands before every slice
      obtain ⟨i, hi⟩ := occurs_iff.mp hslice
      obtain ⟨before, slice, tail, hcut, -, hs, hfirst⟩ := exists_cut_of_firstPosition hi
      cases before with
      | nil =>
        cases hcut
        rw [Operation.not_performedBy_of_ne (by decide) hs] at hu
        cases hu
      | cons v before =>
        cases hcut
        exact absurd ⟨u :: before, slice, tail, rfl, hs, hfirst, u, List.mem_cons_self .., hu⟩ hpage

/-- Apart from sorts, only the third rule does anything, and only for one value of a page. -/
theorem unsorted_canonical (name : String) (r : Request) :
    unsorted (canonical name r) = unsorted r ∨
      (Method.ofName name).isScalar = true ∧
        ∃ before slice rest, unsorted r = before ++ slice :: rest ∧
          Operation.slice.performedBy slice = true ∧ firstPosition .slice before = none ∧
          unsorted (canonical name r) = before ++ slice :: fork :: rest := by
  rw [canonical_eq, unsorted_after_filterFirst]
  rcases unsorted_after_isolateAggregation name
      (after orderPagination name (after dropOrdering name r)) with
    h | ⟨hscalar, before, slice, rest, hr, hslice, hfirst, h⟩
  · rw [h, unsorted_after_orderPagination, unsorted_after_dropOrdering]
    exact .inl rfl
  · rw [unsorted_after_orderPagination, unsorted_after_dropOrdering] at hr
    exact .inr ⟨hscalar, before, slice, rest, hr, hslice, hfirst, h⟩

end Canonical

open Canonical in
/--
Apart from its sorts, a canonical form is the pipeline, or it has a fork behind the first slice in
addition, if the method yields one value. Its sorts and slices are those of the pipeline in their
order, of which either none or all sorts are dropped, the latter only where the method ignores the
order and no sort stands before the first slice. If what is left begins with a slice and a table
heads the pipeline, a sort by the identifier of the table may have been put before that slice.
-/
theorem canonical_arrangement (name : String) (r : Request) :
    (unsorted (canonical name r) = unsorted r ∨
      (Method.ofName name).isScalar = true ∧
        ∃ before slice rest, unsorted r = before ++ slice :: rest ∧
          Operation.slice.performedBy slice = true ∧ firstPosition .slice before = none ∧
          unsorted (canonical name r) = before ++ slice :: fork :: rest) ∧
    ∃ kept, (kept = arrangement r ∨
        kept = slices r ∧ (Method.ofName name).ignoresOrder = true ∧ ¬ SortsPage r) ∧
      (arrangement (canonical name r) = kept ∨
        ∃ scan slice rest, r.head? = some (.table scan) ∧
          Operation.slice.performedBy slice = true ∧ ¬ SortsPage r ∧ kept = slice :: rest ∧
          arrangement (canonical name r) = sortByIdentifier scan :: slice :: rest) := by
  refine ⟨unsorted_canonical name r, ?_⟩
  rw [canonical_eq, arrangement_after_filterFirst, arrangement_after_isolateAggregation]
  rcases after_dropOrdering_eq_or name r with hsame | ⟨hignores, hpage, hdropped⟩
  · rw [hsame]
    refine ⟨arrangement r, .inl rfl, ?_⟩
    rcases arrangement_after_orderPagination name r with
      h | ⟨scan, slice, rest, hhead, hslice, hkept, h⟩
    · exact .inl h
    · exact .inr ⟨scan, slice, rest, hhead, hslice, not_sortsPage_of_arrangement hkept hslice,
        hkept, h⟩
  · rw [hdropped]
    refine ⟨slices r, .inr ⟨rfl, hignores, hpage⟩, ?_⟩
    rw [← arrangement_unsorted]
    rcases arrangement_after_orderPagination name (unsorted r) with
      h | ⟨scan, slice, rest, hhead, hslice, hkept, h⟩
    · exact .inl h
    · have hmem : slice ∈ slices r := by
        rw [← arrangement_unsorted, hkept]
        exact List.mem_cons_self ..
      have hoccurs : Occurs .slice r := ⟨slice, (List.mem_filter.mp hmem).1, hslice⟩
      exact .inr ⟨scan, slice, rest, head?_of_head?_unsorted hoccurs hpage hhead, hslice, hpage,
        hkept, h⟩

end RequestCompiler
