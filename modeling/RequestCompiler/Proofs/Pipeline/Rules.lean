import RequestCompiler.Proofs.Pipeline.Positions

/-!
# What a rule does to a pipeline

A rule answers with edits. Here each rule is described by what it leaves behind: it is idle, or the
pipeline is cut at the place where the rule works and the parts are put together anew.

* `dropOrdering_cases` — all sorts go.
* `orderPagination_cases` — the first slice gets a sort in front of it.
* `isolateAggregation_cases` — the first slice gets a fork behind it.
* `filterFirst_cases` — the sorts of the part in which the first filter stands go behind it.
* `canonical_eq` — the canonical form is one rule after the other.
-/

namespace RequestCompiler

namespace Canonical

/-! ## Sorts and the rest -/

/-- A pipeline without its sorts. -/
def unsorted (r : Request) : Request := r.filter fun t => !Operation.sort.performedBy t

/-- The sorts of a pipeline. -/
def sorts (r : Request) : Request := r.filter Operation.sort.performedBy

section Sorts

variable {t : Token} {r : Request}

theorem unsorted_cons_sort (h : Operation.sort.performedBy t = true) :
    unsorted (t :: r) = unsorted r := List.filter_cons_of_neg (by simp [h])

theorem unsorted_cons (h : Operation.sort.performedBy t = false) :
    unsorted (t :: r) = t :: unsorted r := List.filter_cons_of_pos (by simp [h])

theorem sorts_cons_sort (h : Operation.sort.performedBy t = true) :
    sorts (t :: r) = t :: sorts r := List.filter_cons_of_pos h

theorem sorts_cons (h : Operation.sort.performedBy t = false) : sorts (t :: r) = sorts r :=
  List.filter_cons_of_neg (by simp [h])

theorem unsorted_eq_self (h : firstPosition .sort r = none) : unsorted r = r := by
  refine List.filter_eq_self.mpr fun t ht => ?_
  rw [firstPosition_eq_none.mp h t ht]
  rfl

theorem sorts_eq_nil (h : firstPosition .sort r = none) : sorts r = [] :=
  List.filter_eq_nil_iff.mpr fun t ht => by simp [firstPosition_eq_none.mp h t ht]

theorem sorts_append (r s : Request) : sorts (r ++ s) = sorts r ++ sorts s := List.filter_append r s

theorem unsorted_append (r s : Request) : unsorted (r ++ s) = unsorted r ++ unsorted s :=
  List.filter_append r s

theorem unsorted_unsorted (r : Request) : unsorted (unsorted r) = unsorted r := by
  unfold unsorted
  simp

theorem unsorted_sorts (r : Request) : unsorted (sorts r) = [] := by
  unfold unsorted sorts
  simp [List.filter_filter]

theorem length_unsorted_add_sorts (r : Request) :
    (unsorted r).length + (sorts r).length = r.length := by
  induction r with
  | nil => rfl
  | cons t r ih =>
    cases ht : Operation.sort.performedBy t with
    | true =>
      rw [unsorted_cons_sort ht, sorts_cons_sort ht, List.length_cons, List.length_cons]
      omega
    | false =>
      rw [unsorted_cons ht, sorts_cons ht, List.length_cons, List.length_cons]
      omega

end Sorts

/-! ## One rule -/

/-- What a rule makes of a pipeline. -/
def after (rule : Tracked → List Edit) (name : String) (r : Request) : Request :=
  Edit.applyAll (rule (Tracked.of name r)) r

theorem after_idle {rule : Tracked → List Edit} {name : String} {r : Request}
    (h : rule (Tracked.of name r) = []) : after rule name r = r := by
  rw [after, h, Edit.applyAll_nil]

/-! ## Profiles of cut pipelines -/

theorem position_of (name : String) (r : Request) (operation : Operation) :
    (Profile.of name r).position operation = firstPosition operation r := by
  cases operation <;> rfl

/-- An operation occurs after another if both have a first position and its own is the later. -/
theorem occursAfter_iff {name : String} {r : Request} {a b : Operation} :
    (Profile.of name r).occursAfter a b = true ↔
      ∃ i j, firstPosition a r = some i ∧ firstPosition b r = some j ∧ j < i := by
  unfold Profile.occursAfter
  rw [position_of, position_of]
  cases firstPosition a r with
  | none => simp
  | some i =>
    cases firstPosition b r with
    | none => simp
    | some j => simp

theorem has_iff {name : String} {r : Request} {operation : Operation} :
    (Profile.of name r).has operation = true ↔ ∃ i, firstPosition operation r = some i := by
  rw [Profile.has, position_of, Option.isSome_iff_exists]

/-! ## Sorts that go -/

theorem dropOrdering_cases (name : String) (r : Request) :
    dropOrdering (Tracked.of name r) = [] ∨
      Edit.AllFit (dropOrdering (Tracked.of name r)) r ∧
        after dropOrdering name r = unsorted r := by
  by_cases h : dropOrdering (Tracked.of name r) = []
  · exact Or.inl h
  · right
    have he : dropOrdering (Tracked.of name r) =
        (positions .sort r).reverse.map Edit.remove := by
      unfold dropOrdering at h ⊢
      split at h
      · next hc => exact if_pos hc
      · exact absurd rfl h
    have hremove := applyAll_removals .sort [] r []
    simp only [List.length_nil, Nat.zero_add, List.map_id', List.nil_append,
      List.append_nil] at hremove
    rw [after, he]
    exact hremove

/-! ## The sort before a slice -/

theorem orderPagination_cases (name : String) (r : Request) :
    orderPagination (Tracked.of name r) = [] ∨
      ∃ scan before slice rest, r = before ++ slice :: rest ∧
        r.head? = some (.table scan) ∧ Operation.slice.performedBy slice = true ∧
        firstPosition .slice before = none ∧ firstPosition .sort before = none ∧
        Edit.AllFit (orderPagination (Tracked.of name r)) r ∧
        after orderPagination name r = before ++ sortByIdentifier scan :: slice :: rest := by
  by_cases h : orderPagination (Tracked.of name r) = []
  · exact Or.inl h
  · right
    unfold orderPagination at h
    split at h
    · next scan _ l ht hl =>
      split at h
      · exact absurd rfl h
      · next hs =>
        obtain ⟨before, slice, rest, rfl, rfl, hslice, hb⟩ := exists_cut_of_firstPosition hl
        have hhead : (before ++ slice :: rest).head? = some (.table scan) := by
          rw [show before ++ slice :: rest = _ from ht]
          rfl
        -- a sort before the slice would have stopped the rule
        have hsort : firstPosition .sort before = none := by
          cases hsort : firstPosition .sort before with
          | none => rfl
          | some i =>
            exfalso
            refine hs ?_
            refine occursAfter_iff.mpr ⟨before.length, i, hl, ?_, firstPosition_lt hsort⟩
            rw [firstPosition_append, hsort]
            rfl
        have he : orderPagination (Tracked.of name (before ++ slice :: rest)) =
            [.insert before.length (sortByIdentifier scan)] := by
          unfold orderPagination
          simp only [ht, hl, hs, Bool.false_eq_true, if_false]
        refine ⟨scan, before, slice, rest, rfl, hhead, hslice, hb, hsort, ?_, ?_⟩
        · rw [he]
          exact ⟨by simp [Edit.Fits], trivial⟩
        · rw [after, he]
          exact insertIdx_cut _ _ _
    · exact absurd rfl h

/-! ## The fork behind a slice -/

theorem isolateAggregation_cases (name : String) (r : Request) :
    isolateAggregation (Tracked.of name r) = [] ∨
      (Method.ofName name).isScalar = true ∧
        ∃ before slice rest, r = before ++ slice :: rest ∧
          Operation.slice.performedBy slice = true ∧ firstPosition .slice before = none ∧
          rest.head?.any (·.isCall "fork") = false ∧
          Edit.AllFit (isolateAggregation (Tracked.of name r)) r ∧
          after isolateAggregation name r = before ++ slice :: fork :: rest := by
  by_cases h : isolateAggregation (Tracked.of name r) = []
  · exact Or.inl h
  · right
    unfold isolateAggregation at h
    split at h
    · next hscalar =>
      split at h
      · exact absurd rfl h
      · next l hl =>
        split at h
        · exact absurd rfl h
        · next hfork =>
          obtain ⟨before, slice, rest, rfl, rfl, hslice, hb⟩ := exists_cut_of_firstPosition hl
          have he : isolateAggregation (Tracked.of name (before ++ slice :: rest)) =
              [.insert (before.length + 1) fork] := by
            unfold isolateAggregation
            simp only [hscalar, hl, hfork, if_true, Bool.false_eq_true, if_false]
          have hinsert := applyAll_insertions (before ++ [slice]) [fork] rest
          refine ⟨hscalar, before, slice, rest, rfl, hslice, hb, ?_, ?_, ?_⟩
          · rw [← getElem?_behind_cut before rest slice]
            exact (Bool.not_eq_true _).mp hfork
          · rw [he]
            simpa using hinsert.1
          · rw [after, he]
            simpa using hinsert.2
    · exact absurd rfl h

/-! ## Sorts behind the filter -/

/-- Whether a part of a pipeline begins behind these tokens: nothing or a slice is last. -/
def PartBegins (before : Request) : Prop :=
  before = [] ∨ ∃ earlier slice, before = earlier ++ [slice] ∧
    Operation.slice.performedBy slice = true

/-- Tokens are cut behind their last slice. -/
theorem exists_part (r : Request) :
    ∃ before middle, r = before ++ middle ∧ PartBegins before ∧
      firstPosition .slice middle = none := by
  induction r using List.reverseRecOn with
  | nil => exact ⟨[], [], rfl, Or.inl rfl, rfl⟩
  | append_singleton r t ih =>
    by_cases ht : Operation.slice.performedBy t = true
    · exact ⟨r ++ [t], [], by simp, Or.inr ⟨r, t, rfl, ht⟩, rfl⟩
    · obtain ⟨before, middle, rfl, hbefore, hmiddle⟩ := ih
      refine ⟨before, middle ++ [t], by simp, hbefore, ?_⟩
      rw [firstPosition_append, hmiddle, firstPosition_cons, if_neg ht]
      rfl

/-- Among the positions of a cut pipeline, those before the cut are those of its left side. -/
theorem positions_filter_lt (operation : Operation) (r s : Request) :
    (positions operation (r ++ s)).filter (· < r.length) = positions operation r := by
  rw [positions_append, List.filter_append, List.filter_map]
  have hl : (positions operation r).filter (· < r.length) = positions operation r := by
    refine List.filter_eq_self.mpr ?_
    intro i hi
    simpa using positions_lt hi
  have hr : (positions operation s).filter ((fun i => decide (i < r.length)) ∘ (r.length + ·)) =
      [] := by
    refine List.filter_eq_nil_iff.mpr ?_
    intro i _
    simp
  rw [hl, hr, List.map_nil, List.append_nil]

theorem afterLastSlice_part {before middle : Request} (rest : Request)
    (hbefore : PartBegins before) (hmiddle : firstPosition .slice middle = none) :
    afterLastSlice (before ++ middle ++ rest) (before ++ middle).length = before.length := by
  unfold afterLastSlice
  rw [positions_filter_lt, positions_append, positions_eq_nil.mpr hmiddle, List.map_nil,
    List.append_nil]
  rcases hbefore with rfl | ⟨earlier, slice, rfl, hslice⟩
  · rfl
  · rw [positions_append, positions_singleton, if_pos hslice]
    simp

theorem sortsToMove_part {before middle : Request} (rest : Request)
    (hbefore : PartBegins before) (hmiddle : firstPosition .slice middle = none) :
    sortsToMove (before ++ middle ++ rest) (before ++ middle).length =
      (positions .sort middle).map (before.length + ·) := by
  unfold sortsToMove
  rw [afterLastSlice_part rest hbefore hmiddle]
  rw [← List.filter_filter, positions_filter_lt, positions_append, List.filter_append,
    List.filter_map]
  have hl : (positions .sort before).filter (before.length ≤ ·) = [] := by
    refine List.filter_eq_nil_iff.mpr ?_
    intro i hi
    simpa using positions_lt hi
  have hr : (positions .sort middle).filter
      ((fun i => decide (before.length ≤ i)) ∘ (before.length + ·)) = positions .sort middle := by
    refine List.filter_eq_self.mpr ?_
    intro i _
    simp
  rw [hl, hr, List.nil_append]

/-- The tokens at the positions of an operation are those that perform it. -/
theorem filterMap_positions (operation : Operation) (before middle rest : Request) :
    ((positions operation middle).map (before.length + ·)).filterMap
        ((before ++ middle ++ rest)[·]?) = middle.filter operation.performedBy := by
  induction middle using List.reverseRecOn generalizing rest with
  | nil => rfl
  | append_singleton middle t ih =>
    have hcut : before ++ (middle ++ [t]) ++ rest = before ++ middle ++ t :: rest := by simp
    rw [positions_append, List.map_append, List.filterMap_append, hcut, ih, List.filter_append,
      positions_singleton]
    by_cases ht : operation.performedBy t = true <;> simp [ht]

/-- The moved sorts leave their part and stand behind the filter in their old order. -/
theorem moveSorts_part {before middle : Request} (filter : Token) (rest : Request)
    (hbefore : PartBegins before) (hmiddle : firstPosition .slice middle = none) :
    let r := before ++ middle ++ filter :: rest
    let es := moveSorts r (before ++ middle).length
    Edit.AllFit es r ∧
      Edit.applyAll es r = before ++ unsorted middle ++ filter :: (sorts middle ++ rest) := by
  obtain ⟨hfit, happly⟩ := applyAll_removals .sort before middle (filter :: rest)
  obtain ⟨hfit', happly'⟩ :=
    applyAll_insertions (before ++ unsorted middle ++ [filter]) (sorts middle) rest
  have hcut : before ++ unsorted middle ++ [filter] ++ rest =
      before ++ unsorted middle ++ filter :: rest := by simp
  have hindex : (before ++ middle).length - (sorts middle).length + 1 =
      (before ++ unsorted middle ++ [filter]).length := by
    have hlen := length_unsorted_add_sorts middle
    simp only [List.length_append, List.length_singleton]
    omega
  have hmoves : moveSorts (before ++ middle ++ filter :: rest) (before ++ middle).length =
      ((positions .sort middle).map (before.length + ·)).reverse.map Edit.remove ++
        (sorts middle).mapIdx fun i t =>
          Edit.insert ((before ++ unsorted middle ++ [filter]).length + i) t := by
    simp only [moveSorts, sortsToMove_part _ hbefore hmiddle, filterMap_positions,
      List.length_map, length_positions]
    rw [← hindex]
    rfl
  rw [hcut] at hfit' happly'
  intro r es
  rw [show es = _ from hmoves]
  refine ⟨Edit.allFit_append hfit ?_, ?_⟩
  · rw [happly]
    exact hfit'
  · rw [Edit.applyAll_append, happly]
    exact happly'.trans (by simp)

theorem filterFirst_cases (name : String) (r : Request) :
    filterFirst (Tracked.of name r) = [] ∨
      ∃ before middle filter rest, r = before ++ middle ++ filter :: rest ∧
        Operation.filter.performedBy filter = true ∧
        firstPosition .filter (before ++ middle) = none ∧
        PartBegins before ∧ firstPosition .slice middle = none ∧
        (Profile.of name r).occursAfter .filter .sort = true ∧
        slicedApart (Profile.of name r) = false ∧
        Edit.AllFit (filterFirst (Tracked.of name r)) r ∧
        after filterFirst name r =
          before ++ unsorted middle ++ filter :: (sorts middle ++ rest) := by
  by_cases h : filterFirst (Tracked.of name r) = []
  · exact Or.inl h
  · right
    unfold filterFirst at h
    split at h
    · next hc =>
      split at h
      · exact absurd rfl h
      · next f hf =>
        obtain ⟨early, filter, rest, rfl, rfl, hfilter, hb⟩ := exists_cut_of_firstPosition hf
        obtain ⟨before, middle, rfl, hbefore, hmiddle⟩ := exists_part early
        have hconditions := hc
        rw [Bool.and_eq_true, Bool.not_eq_true'] at hconditions
        obtain ⟨hfit, happly⟩ := moveSorts_part filter rest hbefore hmiddle
        have he : filterFirst (Tracked.of name (before ++ middle ++ filter :: rest)) =
            moveSorts (before ++ middle ++ filter :: rest) (before ++ middle).length := by
          unfold filterFirst
          rw [if_pos hc]
          simp only [hf]
          rfl
        refine ⟨before, middle, filter, rest, rfl, hfilter, hb, hbefore, hmiddle,
          hconditions.1, hconditions.2, ?_, ?_⟩
        · rw [he]
          exact hfit
        · rw [after, he]
          exact happly
    · exact absurd rfl h

/-! ## One rule after the other -/

/-- Every edit of a rule stays inside the pipeline. -/
theorem rules_fit (name : String) (r : Request) :
    ∀ rule ∈ rules, Edit.AllFit (rule (Tracked.of name r)) r := by
  have hidle : ∀ rule : Tracked → List Edit, rule (Tracked.of name r) = [] →
      Edit.AllFit (rule (Tracked.of name r)) r := by
    intro rule h
    rw [h]
    trivial
  intro rule hrule
  simp only [rules, List.mem_cons, List.not_mem_nil, or_false] at hrule
  rcases hrule with rfl | rfl | rfl | rfl
  · rcases dropOrdering_cases name r with h | ⟨h, -⟩
    · exact hidle _ h
    · exact h
  · rcases orderPagination_cases name r with h | ⟨_, _, _, _, -, -, -, -, -, h, -⟩
    · exact hidle _ h
    · exact h
  · rcases isolateAggregation_cases name r with h | ⟨-, _, _, _, -, -, -, -, h, -⟩
    · exact hidle _ h
    · exact h
  · rcases filterFirst_cases name r with h | ⟨_, _, _, _, -, -, -, -, -, -, -, h, -⟩
    · exact hidle _ h
    · exact h

theorem applyRules_of (name : String) (r : Request) (todo : List (Tracked → List Edit))
    (h : ∀ rule ∈ todo, rule ∈ rules) :
    applyRules todo (Tracked.of name r) =
      Tracked.of name (todo.foldl (fun r rule => after rule name r) r) := by
  induction todo generalizing r with
  | nil => rfl
  | cons rule todo ih =>
    have hfit := rules_fit name r rule (h rule (by simp))
    show applyRules todo ((Tracked.of name r).run (rule (Tracked.of name r))) = _
    rw [Tracked.run_of name hfit]
    exact ih (after rule name r) fun other hother => h other (by simp [hother])

end Canonical

/-- The canonical form is what the four rules make of a pipeline, one after the other. -/
theorem canonical_eq (name : String) (r : Request) :
    canonical name r =
      Canonical.after Canonical.filterFirst name
        (Canonical.after Canonical.isolateAggregation name
          (Canonical.after Canonical.orderPagination name
            (Canonical.after Canonical.dropOrdering name r))) := by
  rw [canonical, Canonical.applyRules_of name r Canonical.rules fun _ h => h]
  rfl

end RequestCompiler
