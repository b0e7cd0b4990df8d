import RequestCompiler.Proofs.Pipeline.Rules

/-!
# Canonical forms are canonical

A rule that has nothing left to do stays idle, and no later rule gives it work again. For the first
three rules this is a condition on the pipeline (`OrderingSettled`, `PaginationSettled`,
`AggregationSettled`) that the rule establishes and every later rule preserves; the last rule finds
nothing to move in what it left behind (`filterFirst_settles`).

* `canonical_canonical` — the canonical form of a canonical form is itself.
-/

namespace RequestCompiler

namespace Canonical

/-- Whether an operation occurs in a pipeline. -/
def Occurs (operation : Operation) (r : Request) : Prop :=
  ∃ t ∈ r, operation.performedBy t = true

instance (operation : Operation) (r : Request) : Decidable (Occurs operation r) :=
  inferInstanceAs (Decidable (∃ t ∈ r, operation.performedBy t = true))

theorem occurs_iff {operation : Operation} {r : Request} :
    Occurs operation r ↔ ∃ i, firstPosition operation r = some i := by
  rw [← Option.isSome_iff_exists, ← Option.ne_none_iff_isSome, ne_eq, firstPosition_eq_none]
  simp [Occurs]

theorem occurs_append {operation : Operation} {r s : Request} :
    Occurs operation (r ++ s) ↔ Occurs operation r ∨ Occurs operation s := by
  simp only [Occurs, List.mem_append, or_and_right, exists_or]

theorem occurs_cons {operation : Operation} {t : Token} {r : Request} :
    Occurs operation (t :: r) ↔ operation.performedBy t = true ∨ Occurs operation r := by
  simp [Occurs]

theorem not_occurs_iff {operation : Operation} {r : Request} :
    ¬ Occurs operation r ↔ firstPosition operation r = none := by
  rw [firstPosition_eq_none]
  simp [Occurs]

/-- Cut at its first token, an operation occurs after another if that is found before the cut. -/
theorem occursAfter_cut {name : String} {a b : Operation} {before rest : Request} {t : Token}
    (ht : a.performedBy t = true) (hb : firstPosition a before = none) (hab : a ≠ b) :
    (Profile.of name (before ++ t :: rest)).occursAfter a b = true ↔ Occurs b before := by
  rw [occursAfter_iff, occurs_iff, firstPosition_cut hb ht]
  have hbt : b.performedBy t = false := Operation.not_performedBy_of_ne hab ht
  constructor
  · rintro ⟨i, j, hi, hj, hlt⟩
    cases hi
    rw [firstPosition_append] at hj
    cases hbefore : firstPosition b before with
    | some k => exact ⟨k, rfl⟩
    | none =>
      rw [hbefore, Option.none_or] at hj
      obtain ⟨k, -, rfl⟩ := Option.map_eq_some_iff.mp hj
      omega
  · rintro ⟨j, hj⟩
    refine ⟨before.length, j, rfl, ?_, firstPosition_lt hj⟩
    rw [firstPosition_append, hj]
    rfl

theorem occursAfter_asymm {name : String} {r : Request} {a b : Operation}
    (h : (Profile.of name r).occursAfter a b = true) :
    (Profile.of name r).occursAfter b a = false := by
  obtain ⟨i, j, hi, hj, hlt⟩ := occursAfter_iff.mp h
  rw [← Bool.not_eq_true, occursAfter_iff]
  rintro ⟨j', i', hj', hi', hlt'⟩
  rw [hi] at hi'
  rw [hj] at hj'
  cases hi'
  cases hj'
  omega

theorem occurs_of_occursAfter {name : String} {r : Request} {a b : Operation}
    (h : (Profile.of name r).occursAfter a b = true) : Occurs a r ∧ Occurs b r := by
  obtain ⟨i, j, hi, hj, -⟩ := occursAfter_iff.mp h
  exact ⟨occurs_iff.mpr ⟨i, hi⟩, occurs_iff.mpr ⟨j, hj⟩⟩

/-- Of two operations that occur, one occurs after the other. -/
theorem occursAfter_total {name : String} {r : Request} {a b : Operation} (hab : a ≠ b)
    (ha : Occurs a r) (hb : Occurs b r) :
    (Profile.of name r).occursAfter a b = true ∨ (Profile.of name r).occursAfter b a = true := by
  obtain ⟨i, hi⟩ := occurs_iff.mp ha
  obtain ⟨before, t, rest, rfl, rfl, ht, hbefore⟩ := exists_cut_of_firstPosition hi
  by_cases h : Occurs b before
  · exact Or.inl ((occursAfter_cut ht hbefore hab).mpr h)
  · right
    have hbt : b.performedBy t = false := Operation.not_performedBy_of_ne hab ht
    obtain ⟨j, hj⟩ := occurs_iff.mp hb
    refine occursAfter_iff.mpr ⟨j, before.length, hj, hi, ?_⟩
    rw [firstPosition_append, not_occurs_iff.mp h, firstPosition_skip hbt, Option.none_or] at hj
    obtain ⟨k, hk, rfl⟩ := Option.map_eq_some_iff.mp hj
    obtain ⟨l, -, rfl⟩ := Option.map_eq_some_iff.mp hk
    omega

/-! ## When a rule is idle -/

/-- Where the order cannot show otherwise, there are no sorts, or the first cuts the rows. -/
def OrderingSettled (name : String) (r : Request) : Prop :=
  (Method.ofName name).ignoresOrder = true → Occurs .sort r →
    (Profile.of name r).occursAfter .slice .sort = true

/-- A slice of a table has a sort before it. -/
def PaginationSettled (name : String) (r : Request) : Prop :=
  ∀ scan, r.head? = some (.table scan) → Occurs .slice r →
    (Profile.of name r).occursAfter .slice .sort = true

/-- The first slice under a method that yields one value is followed by a fork. -/
def AggregationSettled (name : String) (r : Request) : Prop :=
  (Method.ofName name).isScalar = true → ∀ i, firstPosition .slice r = some i →
    (r[i + 1]?).any (·.isCall "fork") = true

/-- Sorts are dropped if there are any and no slice comes after the first of them. -/
theorem dropOrdering_condition (name : String) (r : Request) :
    ((Method.ofName name).ignoresOrder &&
        ((Profile.of name r).occursAfter .sort .slice ||
          ((Profile.of name r).has .sort && !(Profile.of name r).has .slice))) = true ↔
      (Method.ofName name).ignoresOrder = true ∧ Occurs .sort r ∧
        ¬ (Profile.of name r).occursAfter .slice .sort = true := by
  have hhas : ∀ operation, (Profile.of name r).has operation = true ↔ Occurs operation r :=
    fun operation => has_iff.trans occurs_iff.symm
  rw [Bool.and_eq_true, Bool.or_eq_true, Bool.and_eq_true, Bool.not_eq_true', hhas,
    ← Bool.not_eq_true, hhas]
  refine and_congr_right fun _ => ⟨?_, ?_⟩
  · rintro (h | ⟨hsort, hslice⟩)
    · exact ⟨(occurs_of_occursAfter h).1, by simp [occursAfter_asymm h]⟩
    · exact ⟨hsort, fun h => hslice (occurs_of_occursAfter h).1⟩
  · rintro ⟨hsort, hno⟩
    by_cases hslice : Occurs .slice r
    · exact Or.inl ((occursAfter_total (by decide) hsort hslice).resolve_right hno)
    · exact Or.inr ⟨hsort, hslice⟩

theorem dropOrdering_eq_nil_iff {name : String} {r : Request} :
    dropOrdering (Tracked.of name r) = [] ↔ OrderingSettled name r := by
  constructor
  · intro h hm hsort
    by_contra hno
    have he : dropOrdering (Tracked.of name r) = (positions .sort r).reverse.map Edit.remove :=
      if_pos ((dropOrdering_condition name r).mpr ⟨hm, hsort, hno⟩)
    rw [he, List.map_eq_nil_iff, List.reverse_eq_nil_iff, positions_eq_nil, ← not_occurs_iff] at h
    exact h hsort
  · intro h
    refine if_neg fun hc => ?_
    obtain ⟨hm, hsort, hno⟩ := (dropOrdering_condition name r).mp hc
    exact hno (h hm hsort)

theorem orderPagination_eq_nil_iff {name : String} {r : Request} :
    orderPagination (Tracked.of name r) = [] ↔ PaginationSettled name r := by
  constructor
  · intro h scan hhead hslice
    by_contra hno
    obtain ⟨l, hl⟩ := occurs_iff.mp hslice
    obtain ⟨rest, rfl⟩ : ∃ rest, r = .table scan :: rest := by
      cases r with
      | nil => cases hhead
      | cons t rest => cases hhead; exact ⟨rest, rfl⟩
    have he : orderPagination (Tracked.of name (.table scan :: rest)) =
        [.insert l (sortByIdentifier scan)] := by
      unfold orderPagination
      simp only [Tracked.of, show (Profile.of name (.table scan :: rest)).slice = some l from hl]
      exact if_neg hno
    rw [he] at h
    cases h
  · intro h
    unfold orderPagination
    split
    · next scan rest l ht hl =>
      have hhead : r.head? = some (.table scan) := by
        rw [show r = _ from ht]
        rfl
      exact if_pos (h scan hhead (occurs_iff.mpr ⟨l, hl⟩))
    · rfl

theorem isolateAggregation_eq_nil_iff {name : String} {r : Request} :
    isolateAggregation (Tracked.of name r) = [] ↔ AggregationSettled name r := by
  constructor
  · intro h hm l hl
    by_contra hno
    have he : isolateAggregation (Tracked.of name r) = [.insert (l + 1) fork] := by
      unfold isolateAggregation
      rw [if_pos (show (Tracked.of name r).profile.method.isScalar = true from hm)]
      simp only [show (Tracked.of name r).profile.slice = some l from hl]
      exact if_neg hno
    rw [he] at h
    cases h
  · intro h
    unfold isolateAggregation
    split
    · next hm =>
      split
      · rfl
      · next l hl => exact if_pos (h hm l hl)
    · rfl

/-! ## What the first three rules establish -/

theorem not_occurs_unsorted (r : Request) : ¬ Occurs .sort (unsorted r) := by
  rintro ⟨t, ht, hsort⟩
  have hno := (List.mem_filter.mp ht).2
  simp [hsort] at hno

theorem orderingSettled_after_dropOrdering (name : String) (r : Request) :
    OrderingSettled name (after dropOrdering name r) := by
  rcases dropOrdering_cases name r with h | ⟨-, h⟩
  · rw [after_idle h]
    exact dropOrdering_eq_nil_iff.mp h
  · rw [h]
    exact fun _ hsort => absurd hsort (not_occurs_unsorted r)

theorem performedBy_sortByIdentifier (scan : TableScan) :
    Operation.sort.performedBy (sortByIdentifier scan) = true := rfl

/-- Once a sort stands right before the first slice, the first slice comes after a sort. -/
theorem occursAfter_of_injected (name : String) {before rest : Request} {slice : Token}
    (scan : TableScan) (hslice : Operation.slice.performedBy slice = true)
    (hbefore : firstPosition .slice before = none) :
    (Profile.of name (before ++ sortByIdentifier scan :: slice :: rest)).occursAfter
      .slice .sort = true := by
  have hcut : before ++ sortByIdentifier scan :: slice :: rest =
      (before ++ [sortByIdentifier scan]) ++ slice :: rest := by simp
  have hnone : firstPosition .slice (before ++ [sortByIdentifier scan]) = none := by
    rw [firstPosition_append, hbefore]
    rfl
  rw [hcut, occursAfter_cut hslice hnone (by decide), occurs_append]
  exact Or.inr ⟨_, by simp, performedBy_sortByIdentifier scan⟩

theorem OrderingSettled.orderPagination {name : String} {r : Request}
    (h : OrderingSettled name r) : OrderingSettled name (after orderPagination name r) := by
  rcases orderPagination_cases name r with hi | ⟨scan, _, _, _, -, -, hslice, hb, -, -, he⟩
  · rw [after_idle hi]
    exact h
  · rw [he]
    exact fun _ _ => occursAfter_of_injected name scan hslice hb

theorem paginationSettled_after_orderPagination (name : String) (r : Request) :
    PaginationSettled name (after Canonical.orderPagination name r) := by
  rcases orderPagination_cases name r with hi | ⟨scan, _, _, _, -, -, hslice, hb, -, -, he⟩
  · rw [after_idle hi]
    exact orderPagination_eq_nil_iff.mp hi
  · rw [he]
    exact fun _ _ _ => occursAfter_of_injected name scan hslice hb

/-! ## A fork behind the slice -/

theorem OrderingSettled.isolateAggregation {name : String} {r : Request}
    (h : OrderingSettled name r) : OrderingSettled name (after isolateAggregation name r) := by
  rcases isolateAggregation_cases name r with
    hi | ⟨-, before, slice, rest, rfl, hslice, hb, -, -, he⟩
  · rw [after_idle hi]
    exact h
  · rw [he]
    intro hm hsort
    have hold : Occurs .sort (before ++ slice :: rest) := by
      simpa [occurs_append, occurs_cons, Operation.performedBy, fork, Operation.of?,
        Operation.ofName?] using hsort
    rw [occursAfter_cut hslice hb (by decide)]
    exact (occursAfter_cut hslice hb (by decide)).mp (h hm hold)

theorem PaginationSettled.isolateAggregation {name : String} {r : Request}
    (h : PaginationSettled name r) : PaginationSettled name (after isolateAggregation name r) := by
  rcases isolateAggregation_cases name r with
    hi | ⟨-, before, slice, rest, rfl, hslice, hb, -, -, he⟩
  · rw [after_idle hi]
    exact h
  · rw [he]
    intro scan hhead _
    have hold : (before ++ slice :: rest).head? = some (.table scan) := by
      cases before with
      | nil => exact hhead
      | cons t before => exact hhead
    have hoccurs : Occurs .slice (before ++ slice :: rest) := ⟨slice, by simp, hslice⟩
    rw [occursAfter_cut hslice hb (by decide)]
    exact (occursAfter_cut hslice hb (by decide)).mp (h scan hold hoccurs)

/-- Cut at its first slice, a pipeline is settled if what follows begins with a fork. -/
theorem aggregationSettled_cut {name : String} {before rest : Request} {slice : Token}
    (hslice : Operation.slice.performedBy slice = true)
    (hb : firstPosition .slice before = none) :
    AggregationSettled name (before ++ slice :: rest) ↔
      ((Method.ofName name).isScalar = true → rest.head?.any (·.isCall "fork") = true) := by
  unfold AggregationSettled
  rw [firstPosition_cut hb hslice]
  simp [getElem?_behind_cut]

theorem aggregationSettled_after_isolateAggregation (name : String) (r : Request) :
    AggregationSettled name (after Canonical.isolateAggregation name r) := by
  rcases isolateAggregation_cases name r with
    hi | ⟨-, before, slice, rest, rfl, hslice, hb, -, -, he⟩
  · rw [after_idle hi]
    exact isolateAggregation_eq_nil_iff.mp hi
  · rw [he, aggregationSettled_cut hslice hb]
    exact fun _ => rfl

/-! ## Sorts behind the filter -/

theorem unsorted_append_sorts_perm (r : Request) : (unsorted r ++ sorts r).Perm r :=
  List.perm_append_comm.trans (List.filter_append_perm _ r)

theorem Occurs.perm {operation : Operation} {r s : Request} (hr : Occurs operation r)
    (h : r.Perm s) : Occurs operation s := by
  obtain ⟨t, ht, hp⟩ := hr
  exact ⟨t, h.mem_iff.mp ht, hp⟩

/-- Sorts that step behind a filter stay in the pipeline. -/
theorem move_perm (middle rest : Request) (filter : Token) :
    (unsorted middle ++ filter :: (sorts middle ++ rest)).Perm (middle ++ filter :: rest) := by
  have hfilter : (filter :: (sorts middle ++ rest)).Perm (sorts middle ++ filter :: rest) :=
    List.perm_middle.symm
  refine (hfilter.append_left (unsorted middle)).trans ?_
  rw [← List.append_assoc]
  exact (unsorted_append_sorts_perm middle).append_right _

/-- The last rule moves tokens, and neither adds nor drops one. -/
theorem after_filterFirst_perm (name : String) (r : Request) :
    (after filterFirst name r).Perm r := by
  rcases filterFirst_cases name r with
    h | ⟨before, middle, filter, rest, rfl, -, -, -, -, -, -, -, he⟩
  · rw [after_idle h]
  · rw [he, List.append_assoc, List.append_assoc]
    exact (move_perm middle rest filter).append_left before

/-- Where a slice precedes the moved sorts, the first sort comes after the first slice. -/
theorem occursAfter_sort_of_slice_before {name : String} {before middle rest : Request}
    {filter : Token} (hfilter : Operation.filter.performedBy filter = true)
    (hb : firstPosition .filter (before ++ middle) = none) (hslice : Occurs .slice before)
    (happart : slicedApart (Profile.of name (before ++ middle ++ filter :: rest)) = false) :
    (Profile.of name (before ++ middle ++ filter :: rest)).occursAfter .sort .slice = true := by
  have hafter : (Profile.of name (before ++ middle ++ filter :: rest)).occursAfter
      .filter .slice = true :=
    (occursAfter_cut hfilter hb (by decide)).mpr (occurs_append.mpr (Or.inl hslice))
  have hhas : (Profile.of name (before ++ middle ++ filter :: rest)).has .slice = true :=
    has_iff.mpr (occurs_iff.mp (occurs_of_occursAfter hafter).2)
  rw [slicedApart, hafter, hhas, Bool.true_and, bne_eq_false_iff_eq] at happart
  exact happart.symm

/-- Without a slice in the first part, the first slice stands behind the first filter. -/
theorem exists_cut_behind_filter {middle rest : Request} {filter : Token}
    (hfilter : Operation.filter.performedBy filter = true)
    (hmiddle : firstPosition .slice middle = none)
    (h : Occurs .slice (unsorted middle ++ filter :: (sorts middle ++ rest))) :
    ∃ early slice late, rest = early ++ slice :: late ∧
      Operation.slice.performedBy slice = true ∧
      firstPosition .slice (middle ++ filter :: early) = none ∧
      firstPosition .slice (unsorted middle ++ filter :: (sorts middle ++ early)) = none := by
  have hno : ¬ Occurs .slice middle := not_occurs_iff.mpr hmiddle
  have hfs : Operation.slice.performedBy filter = false :=
    Operation.not_performedBy_of_ne (by decide) hfilter
  have hrest : Occurs .slice rest := by
    have hold := h.perm (move_perm middle rest filter)
    rw [occurs_append, occurs_cons, hfs] at hold
    simpa [hno] using hold
  obtain ⟨l, hl⟩ := occurs_iff.mp hrest
  obtain ⟨early, slice, late, rfl, -, hslice, hearly⟩ := exists_cut_of_firstPosition hl
  have hfront : ¬ Occurs .slice (middle ++ filter :: early) := by
    rw [occurs_append, occurs_cons, hfs]
    simp [hno, not_occurs_iff.mpr hearly]
  exact ⟨early, slice, late, rfl, hslice, not_occurs_iff.mp hfront,
    not_occurs_iff.mp fun hc => hfront (hc.perm (move_perm middle early filter))⟩

/-- A sort before the first slice stays before it. -/
theorem occursAfter_after_filterFirst {name : String} {r : Request}
    (h : (Profile.of name r).occursAfter .slice .sort = true) :
    (Profile.of name (after filterFirst name r)).occursAfter .slice .sort = true := by
  have hperm := after_filterFirst_perm name r
  rcases filterFirst_cases name r with
    hi | ⟨before, middle, filter, rest, rfl, hfilter, hb, hbefore, hmiddle, -, happart, -, he⟩
  · rw [after_idle hi]
    exact h
  · rw [he] at hperm ⊢
    rcases hbefore with rfl | ⟨earlier, slice, rfl, hslice⟩
    · -- the first slice stands behind the filter, and the same tokens stand before it
      simp only [List.nil_append] at h hperm ⊢
      obtain ⟨early, slice, late, rfl, hslice, hold, hnew⟩ :=
        exists_cut_behind_filter hfilter hmiddle ((occurs_of_occursAfter h).1.perm hperm.symm)
      have hcut (front : Request) : front ++ filter :: (early ++ slice :: late) =
          (front ++ filter :: early) ++ slice :: late := by simp
      have hcut' : unsorted middle ++ filter :: (sorts middle ++ (early ++ slice :: late)) =
          (unsorted middle ++ filter :: (sorts middle ++ early)) ++ slice :: late := by simp
      rw [hcut middle, occursAfter_cut hslice hold (by decide)] at h
      rw [hcut', occursAfter_cut hslice hnew (by decide)]
      exact h.perm (move_perm middle early filter).symm
    · have hsort := occursAfter_sort_of_slice_before hfilter hb ⟨slice, by simp, hslice⟩ happart
      rw [occursAfter_asymm hsort] at h
      cases h

theorem OrderingSettled.filterFirst {name : String} {r : Request} (h : OrderingSettled name r) :
    OrderingSettled name (after filterFirst name r) := fun hm hsort =>
  occursAfter_after_filterFirst (h hm (hsort.perm (after_filterFirst_perm name r)))

theorem PaginationSettled.filterFirst {name : String} {r : Request}
    (h : PaginationSettled name r) : PaginationSettled name (after filterFirst name r) := by
  have hperm := after_filterFirst_perm name r
  intro scan hhead hslices
  have hold : Occurs .slice r := hslices.perm hperm
  refine occursAfter_after_filterFirst ?_
  rcases filterFirst_cases name r with
    hi | ⟨before, middle, filter, rest, rfl, hfilter, hb, hbefore, hmiddle, hsort, -, -, he⟩
  · rw [after_idle hi] at hhead
    exact h scan hhead hold
  · rcases hbefore with rfl | ⟨earlier, slice, rfl, hslice⟩
    · -- the head may be new, but a sort stands before the filter and no slice does
      have hmoved : Occurs .sort ([] ++ middle) :=
        (occursAfter_cut hfilter hb (by decide)).mp hsort
      rw [he] at hslices
      simp only [List.nil_append] at hmoved hslices ⊢
      obtain ⟨early, slice, late, rfl, hslice, hfront, -⟩ :=
        exists_cut_behind_filter hfilter hmiddle hslices
      have hcut : middle ++ filter :: (early ++ slice :: late) =
          (middle ++ filter :: early) ++ slice :: late := by simp
      rw [hcut, occursAfter_cut hslice hfront (by decide)]
      exact occurs_append.mpr (Or.inl hmoved)
    · refine h scan ?_ hold
      rw [he] at hhead
      cases earlier <;> exact hhead

theorem not_performedBy_of_isCall_fork {operation : Operation} {t : Token}
    (h : t.isCall "fork" = true) : operation.performedBy t = false := by
  cases t with
  | call called arguments =>
    have hcalled : called = "fork" := by simpa [Token.isCall, Token.callName?] using h
    subst hcalled
    cases operation <;> rfl
  | _ => rfl

/-- A fork at the head of the first part with a slice before it stays where it is. -/
theorem head_isCall_fork_move {v middle rest : Request} {filter : Token}
    (h : (v ++ (middle ++ filter :: rest)).head?.any (·.isCall "fork") = true) :
    (v ++ (unsorted middle ++ filter :: (sorts middle ++ rest))).head?.any
      (·.isCall "fork") = true := by
  cases v with
  | cons t v => exact h
  | nil =>
    cases middle with
    | nil => exact h
    | cons t middle =>
      have hfork : t.isCall "fork" = true := h
      have hsort : Operation.sort.performedBy t = false := not_performedBy_of_isCall_fork hfork
      have hkeep : unsorted (t :: middle) = t :: unsorted middle :=
        List.filter_cons_of_pos (by simp [hsort])
      rw [hkeep]
      exact hfork

theorem AggregationSettled.filterFirst {name : String} {r : Request}
    (h : AggregationSettled name r) : AggregationSettled name (after filterFirst name r) := by
  rcases filterFirst_cases name r with
    hi | ⟨before, middle, filter, rest, rfl, hfilter, hb, hbefore, hmiddle, -, -, -, he⟩
  · rw [after_idle hi]
    exact h
  · rw [he]
    rcases hbefore with rfl | ⟨earlier, last, rfl, hlast⟩
    · simp only [List.nil_append] at h ⊢
      by_cases hs : Occurs .slice (unsorted middle ++ filter :: (sorts middle ++ rest))
      · obtain ⟨early, slice, late, rfl, hslice, hold, hnew⟩ :=
          exists_cut_behind_filter hfilter hmiddle hs
        have hcut : middle ++ filter :: (early ++ slice :: late) =
            (middle ++ filter :: early) ++ slice :: late := by simp
        have hcut' : unsorted middle ++ filter :: (sorts middle ++ (early ++ slice :: late)) =
            (unsorted middle ++ filter :: (sorts middle ++ early)) ++ slice :: late := by simp
        rw [hcut, aggregationSettled_cut hslice hold] at h
        rw [hcut', aggregationSettled_cut hslice hnew]
        exact h
      · intro _ i hi
        rw [not_occurs_iff.mp hs] at hi
        cases hi
    · -- the first slice stands before the part in which sorts move
      obtain ⟨i, hi⟩ := occurs_iff.mp
        (show Occurs .slice (earlier ++ [last]) from ⟨last, by simp, hlast⟩)
      obtain ⟨u, slice, v, hcut, -, hslice, hu⟩ := exists_cut_of_firstPosition hi
      rw [hcut] at h ⊢
      have hassoc (tail : Request) : u ++ slice :: v ++ tail = u ++ slice :: (v ++ tail) := by simp
      rw [List.append_assoc, hassoc, aggregationSettled_cut hslice hu] at h ⊢
      exact fun hm => head_isCall_fork_move (h hm)

/-! ## Twice is once -/

theorem moveSorts_eq_nil {r : Request} {i : Nat} (h : sortsToMove r i = []) :
    moveSorts r i = [] := by
  simp [moveSorts, h]

/-- What the last rule left behind has no sort to move. -/
theorem filterFirst_settles (name : String) (r : Request) :
    Canonical.filterFirst (Tracked.of name (after Canonical.filterFirst name r)) = [] := by
  rcases filterFirst_cases name r with
    hi | ⟨before, middle, filter, rest, rfl, hfilter, hb, hbefore, hmiddle, -, -, -, he⟩
  · rw [after_idle hi]
    exact hi
  · rw [he]
    have hfirst : firstPosition .filter (before ++ unsorted middle) = none := by
      rw [← not_occurs_iff, occurs_append] at hb ⊢
      rintro (h | ⟨t, ht, hp⟩)
      · exact hb (Or.inl h)
      · exact hb (Or.inr ⟨t, (List.mem_filter.mp ht).1, hp⟩)
    have hpart : firstPosition .slice (unsorted middle) = none := by
      rw [← not_occurs_iff] at hmiddle ⊢
      rintro ⟨t, ht, hp⟩
      exact hmiddle ⟨t, (List.mem_filter.mp ht).1, hp⟩
    unfold Canonical.filterFirst
    split
    · split
      · rfl
      · next f hf =>
        have hpos : f = (before ++ unsorted middle).length :=
          Option.some.inj (hf.symm.trans (firstPosition_cut hfirst hfilter))
        have hmove : sortsToMove (before ++ unsorted middle ++ filter :: (sorts middle ++ rest))
            (before ++ unsorted middle).length = [] := by
          rw [sortsToMove_part _ hbefore hpart,
            positions_eq_nil.mpr (not_occurs_iff.mp (not_occurs_unsorted middle)), List.map_nil]
        rw [hpos]
        exact moveSorts_eq_nil hmove
    · rfl

end Canonical

/-- Bringing a pipeline into canonical form a second time changes nothing. -/
theorem canonical_canonical (name : String) (request : Request) :
    canonical name (canonical name request) = canonical name request := by
  have hordering := Canonical.orderingSettled_after_dropOrdering name request
  have hpagination := Canonical.paginationSettled_after_orderPagination name
    (Canonical.after Canonical.dropOrdering name request)
  have haggregation := Canonical.aggregationSettled_after_isolateAggregation name
    (Canonical.after Canonical.orderPagination name
      (Canonical.after Canonical.dropOrdering name request))
  have h1 := Canonical.dropOrdering_eq_nil_iff.mpr
    hordering.orderPagination.isolateAggregation.filterFirst
  have h2 := Canonical.orderPagination_eq_nil_iff.mpr hpagination.isolateAggregation.filterFirst
  have h3 := Canonical.isolateAggregation_eq_nil_iff.mpr haggregation.filterFirst
  have h4 := Canonical.filterFirst_settles name
    (Canonical.after Canonical.isolateAggregation name
      (Canonical.after Canonical.orderPagination name
        (Canonical.after Canonical.dropOrdering name request)))
  rw [← canonical_eq] at h1 h2 h3 h4
  rw [canonical_eq name (canonical name request), Canonical.after_idle h1,
    Canonical.after_idle h2, Canonical.after_idle h3, Canonical.after_idle h4]

end RequestCompiler
