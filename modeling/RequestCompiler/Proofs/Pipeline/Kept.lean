import RequestCompiler.Proofs.Pipeline.Idempotence

/-!
# What canonical forms keep

The rules add, move and remove sorts, and they add a fork. All other tokens of a pipeline are still
there in its canonical form, in their old order. So are the sorts, unless the first rule drops them.

* `unsorted_after` — apart from sorts, a rule does nothing but put a fork into a pipeline.
* `unsorted_after_isolateAggregation` — which stands behind the first slice.
* `filter_canonical` — for any choice of tokens that are neither sorts nor the fork.
* `filter_canonical_performedBy` — in particular for filters and for slices.
* `filter_canonical_sorts`, `filter_canonical_dropped` — for any choice of sorts.
* `mem_canonical_iff` — token by token.
-/

namespace RequestCompiler

namespace Canonical

section Unsorted

variable (name : String) (r : Request)

theorem unsorted_after_dropOrdering : unsorted (after dropOrdering name r) = unsorted r := by
  rcases dropOrdering_cases name r with h | ⟨-, h⟩
  · rw [after_idle h]
  · rw [h, unsorted_unsorted]

theorem unsorted_after_orderPagination :
    unsorted (after orderPagination name r) = unsorted r := by
  rcases orderPagination_cases name r with h | ⟨scan, before, slice, rest, rfl, -, -, -, -, -, h⟩
  · rw [after_idle h]
  · rw [h, unsorted_append, unsorted_append]
    rfl

theorem unsorted_after_filterFirst : unsorted (after filterFirst name r) = unsorted r := by
  rcases filterFirst_cases name r with
    h | ⟨before, middle, filter, rest, rfl, -, -, -, -, -, -, -, h⟩
  · rw [after_idle h]
  · have hcut (tail : Request) : filter :: tail = [filter] ++ tail := rfl
    rw [h, hcut, hcut rest]
    simp only [unsorted_append, unsorted_unsorted, unsorted_sorts, List.nil_append]

/-- The fork stands behind the first slice, and is there for methods that yield one value. -/
theorem unsorted_after_isolateAggregation :
    unsorted (after isolateAggregation name r) = unsorted r ∨
      (Method.ofName name).isScalar = true ∧
        ∃ before slice rest, unsorted r = before ++ slice :: rest ∧
          Operation.slice.performedBy slice = true ∧ firstPosition .slice before = none ∧
          unsorted (after isolateAggregation name r) = before ++ slice :: fork :: rest := by
  rcases isolateAggregation_cases name r with
    h | ⟨hscalar, before, slice, rest, rfl, hslice, hfirst, -, -, h⟩
  · rw [after_idle h]
    exact .inl rfl
  · have hsort : Operation.sort.performedBy slice = false :=
      Operation.not_performedBy_of_ne (by decide) hslice
    refine .inr ⟨hscalar, unsorted before, slice, unsorted rest, ?_, hslice, ?_, ?_⟩
    · rw [unsorted_append, unsorted_cons hsort]
    · rw [firstPosition_eq_none] at hfirst ⊢
      exact fun t ht => hfirst t (List.mem_filter.mp ht).1
    · rw [h, unsorted_append, unsorted_cons hsort, unsorted_cons (t := fork) rfl]

/-- Apart from sorts, each rule leaves a pipeline as it is or puts a fork into it. -/
theorem unsorted_after {rule : Tracked → List Edit} (hrule : rule ∈ rules) :
    unsorted (after rule name r) = unsorted r ∨
      ∃ before rest, unsorted r = before ++ rest ∧
        unsorted (after rule name r) = before ++ fork :: rest := by
  simp only [rules, List.mem_cons, List.not_mem_nil, or_false] at hrule
  rcases hrule with rfl | rfl | rfl | rfl
  · exact .inl (unsorted_after_dropOrdering name r)
  · exact .inl (unsorted_after_orderPagination name r)
  · rcases unsorted_after_isolateAggregation name r with h | ⟨-, before, slice, rest, hr, -, -, h⟩
    · exact .inl h
    · refine .inr ⟨before ++ [slice], rest, ?_, ?_⟩
      · rw [hr, List.append_assoc, List.singleton_append]
      · rw [h, List.append_assoc, List.singleton_append]
  · exact .inl (unsorted_after_filterFirst name r)

end Unsorted

/--
What holds of a canonical form apart from its sorts, and still holds when forks are taken out,
holds of the pipeline apart from its sorts.
-/
theorem of_unsorted_canonical {P : Request → Prop}
    (hfork : ∀ before rest, P (before ++ fork :: rest) → P (before ++ rest)) {name : String}
    {r : Request} (h : P (unsorted (canonical name r))) : P (unsorted r) := by
  have hafter (r : Request) {rule : Tracked → List Edit} (hrule : rule ∈ rules)
      (h : P (unsorted (after rule name r))) : P (unsorted r) := by
    rcases unsorted_after name r hrule with heq | ⟨before, rest, hr, heq⟩
    · rw [← heq]
      exact h
    · rw [heq] at h
      rw [hr]
      exact hfork before rest h
  rw [canonical_eq] at h
  exact hafter r (by simp [rules]) (hafter _ (by simp [rules]) (hafter _ (by simp [rules])
    (hafter _ (by simp [rules]) h)))

section Kept

variable {keep : Token → Bool} (hsort : ∀ t, Operation.sort.performedBy t = true → keep t = false)

include hsort

theorem filter_unsorted (r : Request) : (unsorted r).filter keep = r.filter keep := by
  unfold unsorted
  rw [List.filter_filter]
  refine List.filter_congr ?_
  intro t _
  cases ht : Operation.sort.performedBy t with
  | true => rw [hsort t ht]; rfl
  | false => simp

/-- Each rule keeps what is neither a sort nor the fork. -/
theorem filter_after (hfork : keep fork = false) (name : String) (r : Request)
    {rule : Tracked → List Edit} (hrule : rule ∈ rules) :
    (after rule name r).filter keep = r.filter keep := by
  rw [← filter_unsorted hsort, ← filter_unsorted hsort r]
  rcases unsorted_after name r hrule with h | ⟨before, rest, hr, h⟩
  · rw [h]
  · rw [h, hr, List.filter_append, List.filter_append, List.filter_cons_of_neg (by simp [hfork])]

end Kept

/-! ### Sorts -/

section Sorts

variable {keep : Token → Bool}
  (hother : ∀ t, Operation.sort.performedBy t = false → keep t = false)

include hother

theorem filter_unsorted_eq_nil (r : Request) : (unsorted r).filter keep = [] := by
  refine List.filter_eq_nil_iff.mpr fun t ht => ?_
  have hsort := (List.mem_filter.mp ht).2
  simp [hother t (by simpa using hsort)]

theorem filter_sorts (r : Request) : (sorts r).filter keep = r.filter keep := by
  unfold sorts
  rw [List.filter_filter]
  refine List.filter_congr fun t _ => ?_
  cases ht : Operation.sort.performedBy t with
  | true => simp
  | false => simp [hother t ht]

theorem filter_after_isolateAggregation (name : String) (r : Request) :
    (after isolateAggregation name r).filter keep = r.filter keep := by
  rcases isolateAggregation_cases name r with h | ⟨-, before, slice, rest, rfl, -, -, -, -, h⟩
  · rw [after_idle h]
  · have hfork : ¬ keep fork = true := by simp [hother fork rfl]
    rw [h, List.append_cons, List.filter_append, List.filter_cons_of_neg hfork,
      ← List.filter_append, List.append_assoc, List.singleton_append]

/-- Sorts that step behind a filter keep their order, and all others stand still. -/
theorem filter_after_filterFirst (name : String) (r : Request) :
    (after filterFirst name r).filter keep = r.filter keep := by
  rcases filterFirst_cases name r with
    h | ⟨before, middle, filter, rest, rfl, hfilter, -, -, -, -, -, -, h⟩
  · rw [after_idle h]
  · have hkeep := hother filter (Operation.not_performedBy_of_ne (by decide) hfilter)
    rw [h]
    simp [hkeep, filter_unsorted_eq_nil hother, filter_sorts hother]

omit hother

variable (hidentifier : ∀ scan, keep (sortByIdentifier scan) = false)

include hidentifier

theorem filter_after_orderPagination (name : String) (r : Request) :
    (after orderPagination name r).filter keep = r.filter keep := by
  rcases orderPagination_cases name r with h | ⟨scan, before, slice, rest, rfl, -, -, -, -, -, h⟩
  · rw [after_idle h]
  · rw [h, List.filter_append, List.filter_cons_of_neg (by simp [hidentifier]),
      ← List.filter_append]

include hother

/-- The last three rules keep all sorts, in their old order. -/
theorem filter_canonical_after (name : String) (r : Request) :
    (canonical name r).filter keep = (after dropOrdering name r).filter keep := by
  rw [canonical_eq, filter_after_filterFirst hother, filter_after_isolateAggregation hother,
    filter_after_orderPagination hidentifier]

end Sorts

end Canonical

/-- Sorts stay in a canonical form, in their old order, if the first rule has nothing to drop. -/
theorem filter_canonical_sorts {keep : Token → Bool}
    (hother : ∀ t, Operation.sort.performedBy t = false → keep t = false)
    (hidentifier : ∀ scan, keep (Canonical.sortByIdentifier scan) = false) {name : String}
    {r : Request} (h : Canonical.OrderingSettled name r) :
    (canonical name r).filter keep = r.filter keep := by
  rw [Canonical.filter_canonical_after hother hidentifier,
    Canonical.after_idle (Canonical.dropOrdering_eq_nil_iff.mpr h)]

/-- If it has, no sort of the pipeline is left. -/
theorem filter_canonical_dropped {keep : Token → Bool}
    (hother : ∀ t, Operation.sort.performedBy t = false → keep t = false)
    (hidentifier : ∀ scan, keep (Canonical.sortByIdentifier scan) = false) {name : String}
    {r : Request} (h : ¬ Canonical.OrderingSettled name r) :
    (canonical name r).filter keep = [] := by
  rw [Canonical.filter_canonical_after hother hidentifier]
  rcases Canonical.dropOrdering_cases name r with hidle | ⟨-, hdropped⟩
  · exact absurd (Canonical.dropOrdering_eq_nil_iff.mp hidle) h
  · rw [hdropped, Canonical.filter_unsorted_eq_nil hother]

/-- What is neither a sort nor the fork stays in a canonical form, in its old order. -/
theorem filter_canonical {keep : Token → Bool}
    (hsort : ∀ t, Operation.sort.performedBy t = true → keep t = false)
    (hfork : keep Canonical.fork = false) (name : String) (r : Request) :
    (canonical name r).filter keep = r.filter keep := by
  rw [canonical_eq, Canonical.filter_after hsort hfork _ _ (by simp [Canonical.rules]),
    Canonical.filter_after hsort hfork _ _ (by simp [Canonical.rules]),
    Canonical.filter_after hsort hfork _ _ (by simp [Canonical.rules]),
    Canonical.filter_after hsort hfork _ _ (by simp [Canonical.rules])]

/-- A token that no rule adds is in a canonical form if it is no sort that is dropped. -/
theorem mem_canonical_iff {name : String} {r : Request} {t : Token} (hfork : t ≠ Canonical.fork)
    (hidentifier : ∀ scan, t ≠ Canonical.sortByIdentifier scan) :
    t ∈ canonical name r ↔
      t ∈ r ∧ (Operation.sort.performedBy t = true → Canonical.OrderingSettled name r) := by
  have hkept (s : Request) : t ∈ s ↔ t ∈ s.filter fun u => u = t := by simp
  rw [hkept, hkept r]
  by_cases hsort : Operation.sort.performedBy t = true
  · have hother : ∀ u, Operation.sort.performedBy u = false → decide (u = t) = false := by
      rintro u hu
      exact decide_eq_false fun heq => by rw [heq, hsort] at hu; cases hu
    have hadded : ∀ scan, decide (Canonical.sortByIdentifier scan = t) = false :=
      fun scan => decide_eq_false (hidentifier scan).symm
    by_cases hsettled : Canonical.OrderingSettled name r
    · rw [filter_canonical_sorts hother hadded hsettled]
      exact ⟨fun h => ⟨h, fun _ => hsettled⟩, And.left⟩
    · rw [filter_canonical_dropped hother hadded hsettled]
      exact ⟨fun h => (List.not_mem_nil h).elim, fun h => absurd (h.2 hsort) hsettled⟩
  · have hsorts : ∀ u, Operation.sort.performedBy u = true → decide (u = t) = false :=
      fun u hu => decide_eq_false fun heq => hsort (heq ▸ hu)
    rw [filter_canonical hsorts (decide_eq_false hfork.symm)]
    exact ⟨fun h => ⟨h, fun ht => absurd ht hsort⟩, And.left⟩

/-- Filters and slices stay in a canonical form, in their old order. -/
theorem filter_canonical_performedBy {operation : Operation} (h : operation ≠ .sort)
    (name : String) (r : Request) :
    (canonical name r).filter operation.performedBy = r.filter operation.performedBy := by
  refine filter_canonical (fun t ht => ?_) ?_ name r
  · exact Operation.not_performedBy_of_ne h.symm ht
  · cases operation <;> rfl

end RequestCompiler
