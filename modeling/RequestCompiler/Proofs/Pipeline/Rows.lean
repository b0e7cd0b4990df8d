import RequestCompiler.Proofs.Pipeline.Explicit

/-!
# The rows that a pipeline yields

Read on rows, a filter keeps some of them, a sort puts them in order and leaves equal ones as they
stand, a slice cuts them, and every other token passes them on. What a token does in particular is
open (`RowReading`), so what is said here holds of any database.

Sorting stably is inserting each row before those it does not follow (`mergeSort_cons_eq`). This is
why a sort commutes with a filter, and why a sort of rows in order does nothing.

* `yields_canonical` — under a method that looks at the order, a canonical form yields the same
  rows in the same order.
* `yields_canonical_perm` — under any method it yields the same rows, if it is sliced once at most.

Both need rows that come in the order of the identifier, which a slice without a sort relies on.
-/

namespace RequestCompiler

universe u

/-! ## Stable sorting -/

section StableSort

variable {α : Type u} {le : α → α → Bool}
  (htrans : ∀ a b c, le a b = true → le b c = true → le a c = true)
  (htotal : ∀ a b, (le a b || le b a) = true)

include htrans htotal

/-- The first element goes behind those that it may not precede. -/
theorem mergeSort_cons_eq (a : α) (l : List α) :
    (a :: l).mergeSort le =
      (l.mergeSort le).filter (fun b => !le a b) ++ a :: (l.mergeSort le).filter (le a) := by
  obtain ⟨l₁, l₂, hcons, htail, hbefore⟩ := List.mergeSort_cons htrans htotal a l
  have hsorted := List.pairwise_mergeSort htrans htotal (a :: l)
  rw [hcons, List.pairwise_append, List.pairwise_cons] at hsorted
  have hafter : ∀ b ∈ l₂, le a b = true := hsorted.2.1.1
  have h1 : l₁.filter (fun b => !le a b) = l₁ := List.filter_eq_self.mpr hbefore
  have h2 : l₂.filter (fun b => !le a b) = [] := by
    refine List.filter_eq_nil_iff.mpr fun b hb => ?_
    simp [hafter b hb]
  have h3 : l₁.filter (le a) = [] := by
    refine List.filter_eq_nil_iff.mpr fun b hb => ?_
    simpa using hbefore b hb
  have h4 : l₂.filter (le a) = l₂ := List.filter_eq_self.mpr hafter
  rw [hcons, htail, List.filter_append, List.filter_append, h1, h2, h3, h4, List.append_nil,
    List.nil_append]

/-- What is filtered may be sorted before or after. -/
theorem filter_mergeSort (p : α → Bool) (l : List α) :
    (l.mergeSort le).filter p = (l.filter p).mergeSort le := by
  induction l with
  | nil => rw [List.mergeSort_nil, List.filter_nil, List.mergeSort_nil]
  | cons a l ih =>
    by_cases ha : p a = true
    · rw [List.filter_cons_of_pos ha, mergeSort_cons_eq htrans htotal,
        mergeSort_cons_eq htrans htotal, ← ih, List.filter_append, List.filter_cons_of_pos ha]
      simp only [List.filter_filter, Bool.and_comm]
    · -- an element that does not pass leaves no trace
      obtain ⟨l₁, l₂, hcons, htail, -⟩ := List.mergeSort_cons htrans htotal a l
      rw [List.filter_cons_of_neg ha, ← ih, hcons, htail, List.filter_append, List.filter_append,
        List.filter_cons_of_neg ha]

end StableSort

/-! ## Pipelines without their sorts -/

namespace Canonical

/--
Sorts are dropped in two situations: no slice cuts the rows, or one slice does and no sort stands
before it.
-/
theorem after_dropOrdering_cases (name : String) {r : Request}
    (honce : (r.filter Operation.slice.performedBy).length ≤ 1) :
    after dropOrdering name r = r ∨
      (firstPosition .slice r = none ∧ after dropOrdering name r = unsorted r) ∨
      ∃ before slice rest, r = before ++ slice :: rest ∧ firstPosition .slice rest = none ∧
        after dropOrdering name r = before ++ slice :: unsorted rest := by
  cases hfirst : firstPosition .slice r with
  | none =>
    rcases dropOrdering_cases name r with hidle | ⟨-, h⟩
    · exact Or.inl (after_idle hidle)
    · exact Or.inr (Or.inl ⟨rfl, h⟩)
  | some i =>
    obtain ⟨before, slice, rest, rfl, -, hslice, hbefore⟩ := exists_cut_of_firstPosition hfirst
    have hrest : firstPosition .slice rest = none := by
      rw [List.filter_append, List.filter_cons_of_pos hslice, List.length_append,
        List.length_cons] at honce
      have hnone : rest.filter Operation.slice.performedBy = [] := by
        rw [← List.length_eq_zero_iff]
        omega
      rw [firstPosition_eq_none]
      exact fun t ht => (Bool.not_eq_true _).mp (List.filter_eq_nil_iff.mp hnone t ht)
    rw [after_dropOrdering_sliced hslice hbefore, behindPage]
    split
    · exact Or.inr (Or.inr ⟨before, slice, rest, rfl, hrest, rfl⟩)
    · exact Or.inl rfl

end Canonical

/-! ## Pipelines as functions on rows -/

/-- What the tokens of a pipeline mean on rows. -/
structure RowReading (Row : Type u) where
  /-- Whether a filter keeps a row. -/
  keeps : Token → Row → Bool
  /-- Whether a sort admits two rows in this order. -/
  precedes : Token → Row → Row → Bool
  /-- How many rows a slice leaves out. -/
  dropped : Token → Nat
  /-- How many rows a slice keeps. -/
  taken : Token → Nat
  precedes_trans : ∀ t a b c,
    precedes t a b = true → precedes t b c = true → precedes t a c = true
  precedes_total : ∀ t a b, (precedes t a b || precedes t b a) = true

namespace RowReading

variable {Row : Type u} (I : RowReading Row)

/-- The rows behind a token. -/
def apply (t : Token) (rows : List Row) : List Row :=
  match Operation.of? t with
  | some .filter => rows.filter (I.keeps t)
  | some .sort => rows.mergeSort (I.precedes t)
  | some .slice => (rows.drop (I.dropped t)).take (I.taken t)
  | none => rows

/-- The rows behind a pipeline, token by token. -/
def yields (r : Request) (rows : List Row) : List Row :=
  r.foldl (fun rows t => I.apply t rows) rows

/-- Whether rows come in the order of what identifies them in the table at the head. -/
def InOrder (r : Request) (rows : List Row) : Prop :=
  ∀ scan, r.head? = some (.table scan) →
    rows.Pairwise fun a b => I.precedes (Canonical.sortByIdentifier scan) a b = true

@[simp] theorem yields_cons (t : Token) (r : Request) (rows : List Row) :
    I.yields (t :: r) rows = I.yields r (I.apply t rows) := rfl

@[simp] theorem yields_append (r s : Request) (rows : List Row) :
    I.yields (r ++ s) rows = I.yields s (I.yields r rows) := List.foldl_append

variable {t : Token}

theorem apply_filter (h : Operation.filter.performedBy t = true) (rows : List Row) :
    I.apply t rows = rows.filter (I.keeps t) := by
  rw [apply, Operation.performedBy_iff.mp h]

theorem apply_sort (h : Operation.sort.performedBy t = true) (rows : List Row) :
    I.apply t rows = rows.mergeSort (I.precedes t) := by
  rw [apply, Operation.performedBy_iff.mp h]

/-- A token that performs no operation passes the rows on. -/
theorem apply_other (hfilter : Operation.filter.performedBy t = false)
    (hsort : Operation.sort.performedBy t = false)
    (hslice : Operation.slice.performedBy t = false) (rows : List Row) : I.apply t rows = rows := by
  have hnone : Operation.of? t = none := by
    cases hof : Operation.of? t with
    | none => rfl
    | some operation =>
      have hperformed := Operation.performedBy_iff.mpr hof
      cases operation with
      | filter => simp [hfilter] at hperformed
      | sort => simp [hsort] at hperformed
      | slice => simp [hslice] at hperformed
  rw [apply, hnone]

/-- A sort commutes with a filter. -/
theorem apply_filter_sort {filter sort : Token}
    (hfilter : Operation.filter.performedBy filter = true)
    (hsort : Operation.sort.performedBy sort = true) (rows : List Row) :
    I.apply filter (I.apply sort rows) = I.apply sort (I.apply filter rows) := by
  rw [I.apply_filter hfilter, I.apply_filter hfilter, I.apply_sort hsort, I.apply_sort hsort]
  exact filter_mergeSort (I.precedes_trans sort) (I.precedes_total sort) _ rows

/-! ## Parts of a pipeline -/

/-- In a part that only sorts, the sorts may be taken apart from what passes the rows on. -/
theorem yields_part {middle : Request} (hfilter : firstPosition .filter middle = none)
    (hslice : firstPosition .slice middle = none) (rows : List Row) :
    I.yields (Canonical.unsorted middle) rows = rows ∧
      I.yields middle rows = I.yields (Canonical.sorts middle) rows := by
  rw [firstPosition_eq_none] at hfilter hslice
  induction middle generalizing rows with
  | nil => exact ⟨rfl, rfl⟩
  | cons t middle ih =>
    have ih := ih (fun u hu => hfilter u (List.mem_cons_of_mem t hu))
      (fun u hu => hslice u (List.mem_cons_of_mem t hu))
    cases hsort : Operation.sort.performedBy t with
    | true =>
      rw [Canonical.unsorted_cons_sort hsort, Canonical.sorts_cons_sort hsort]
      exact ⟨(ih rows).1, (ih _).2⟩
    | false =>
      have hpass := I.apply_other (hfilter t List.mem_cons_self) hsort
        (hslice t List.mem_cons_self)
      rw [Canonical.unsorted_cons hsort, Canonical.sorts_cons hsort, yields_cons, yields_cons,
        hpass]
      exact ih rows

/-- A filter may stand before sorts as well as behind them. -/
theorem apply_filter_yields {filter : Token}
    (hfilter : Operation.filter.performedBy filter = true) {sorts : Request}
    (hsorts : ∀ t ∈ sorts, Operation.sort.performedBy t = true) (rows : List Row) :
    I.apply filter (I.yields sorts rows) = I.yields sorts (I.apply filter rows) := by
  induction sorts generalizing rows with
  | nil => rfl
  | cons sort sorts ih =>
    rw [yields_cons, yields_cons, ih (fun t ht => hsorts t (List.mem_cons_of_mem sort ht)),
      I.apply_filter_sort hfilter (hsorts sort List.mem_cons_self)]

/-- Rows stay in order where they are only filtered. -/
theorem pairwise_yields {before : Request} {le : Row → Row → Prop}
    (hsort : firstPosition .sort before = none) (hslice : firstPosition .slice before = none)
    {rows : List Row} (h : rows.Pairwise le) : (I.yields before rows).Pairwise le := by
  rw [firstPosition_eq_none] at hsort hslice
  induction before generalizing rows with
  | nil => exact h
  | cons t before ih =>
    rw [yields_cons]
    refine ih (fun u hu => hsort u (List.mem_cons_of_mem t hu))
      (fun u hu => hslice u (List.mem_cons_of_mem t hu)) ?_
    cases hfilter : Operation.filter.performedBy t with
    | true =>
      rw [I.apply_filter hfilter]
      exact h.filter _
    | false =>
      rw [I.apply_other hfilter (hsort t List.mem_cons_self) (hslice t List.mem_cons_self)]
      exact h

/-- Without a slice, the order of the rows does not show in which rows there are. -/
theorem yields_unsorted_perm {r : Request} (hslice : firstPosition .slice r = none)
    {rows rows' : List Row} (h : rows.Perm rows') :
    (I.yields (Canonical.unsorted r) rows).Perm (I.yields r rows') := by
  rw [firstPosition_eq_none] at hslice
  induction r generalizing rows rows' with
  | nil => exact h
  | cons t r ih =>
    have ih {rows rows' : List Row} (h : rows.Perm rows') :
        (I.yields (Canonical.unsorted r) rows).Perm (I.yields r rows') :=
      ih (fun u hu => hslice u (List.mem_cons_of_mem t hu)) h
    cases hsort : Operation.sort.performedBy t with
    | true =>
      rw [Canonical.unsorted_cons_sort hsort, yields_cons, I.apply_sort hsort]
      exact ih (h.trans (List.mergeSort_perm rows' _).symm)
    | false =>
      rw [Canonical.unsorted_cons hsort, yields_cons, yields_cons]
      refine ih ?_
      cases hfilter : Operation.filter.performedBy t with
      | true =>
        rw [I.apply_filter hfilter, I.apply_filter hfilter]
        exact h.filter _
      | false =>
        have hpass := I.apply_other hfilter hsort (hslice t List.mem_cons_self)
        rw [hpass, hpass]
        exact h

/-! ## One rule after the other -/

open Canonical in
/-- Sorts that step behind a filter yield the same rows there. -/
theorem yields_after_filterFirst (name : String) (r : Request) (rows : List Row) :
    I.yields (after filterFirst name r) rows = I.yields r rows := by
  rcases filterFirst_cases name r with
    h | ⟨before, middle, filter, rest, rfl, hfilter, hfirst, -, hslice, -, -, -, h⟩
  · rw [after_idle h]
  · have hmiddle : firstPosition .filter middle = none := by
      rw [firstPosition_append, Option.or_eq_none_iff, Option.map_eq_none_iff] at hfirst
      exact hfirst.2
    have hsorts : ∀ t ∈ sorts middle, Operation.sort.performedBy t = true :=
      fun t ht => (List.mem_filter.mp ht).2
    have hpart := I.yields_part hmiddle hslice (I.yields before rows)
    rw [h]
    simp only [yields_append, yields_cons]
    rw [hpart.1, hpart.2, I.apply_filter_yields hfilter hsorts]

open Canonical in
/-- A fork passes the rows on. -/
theorem yields_after_isolateAggregation (name : String) (r : Request) (rows : List Row) :
    I.yields (after isolateAggregation name r) rows = I.yields r rows := by
  rcases isolateAggregation_cases name r with
    h | ⟨-, before, slice, rest, rfl, -, -, -, -, h⟩
  · rw [after_idle h]
  · have hfork : ∀ rows, I.apply fork rows = rows := I.apply_other rfl rfl rfl
    rw [h]
    simp only [yields_append, yields_cons, hfork]

open Canonical in
/-- The sort before a slice finds the rows in order. -/
theorem yields_after_orderPagination (name : String) {r : Request} {rows : List Row}
    (horder : Occurs .slice r → I.InOrder r rows) :
    I.yields (after orderPagination name r) rows = I.yields r rows := by
  rcases orderPagination_cases name r with
    h | ⟨scan, before, slice, rest, rfl, hhead, hslice, hfirst, hsort, -, h⟩
  · rw [after_idle h]
  · have hrows := I.pairwise_yields hsort hfirst (horder ⟨slice, by simp, hslice⟩ scan hhead)
    have hidle : I.apply (sortByIdentifier scan) (I.yields before rows) = I.yields before rows := by
      rw [I.apply_sort (performedBy_sortByIdentifier scan)]
      exact List.mergeSort_of_pairwise hrows
    rw [h]
    simp only [yields_append, yields_cons, hidle]

open Canonical in
/-- The rules behind the first one keep the rows and their order. -/
theorem yields_canonical_of_dropOrdering (name : String) {r : Request} {rows : List Row}
    (horder : Occurs .slice (after dropOrdering name r) →
      I.InOrder (after dropOrdering name r) rows) :
    I.yields (canonical name r) rows = I.yields (after dropOrdering name r) rows := by
  rw [canonical_eq, I.yields_after_filterFirst, I.yields_after_isolateAggregation,
    I.yields_after_orderPagination name horder]

/-- Numbers as rows: the even ones pass a filter, and a slice keeps the second and the third. -/
def ofNumbers : RowReading Nat where
  keeps _ n := n % 2 == 0
  precedes t m n := if t.isCall "rsort" then decide (n ≤ m) else decide (m ≤ n)
  dropped _ := 1
  taken _ := 2
  precedes_trans t a b c := by
    split <;> simp only [decide_eq_true_eq] <;> omega
  precedes_total t a b := by
    split <;> simp only [Bool.or_eq_true, decide_eq_true_eq] <;> omega

/-- A page of orders that are sorted and filtered behind it only. -/
def lateSort : Request :=
  [.table ⟨"order", "id", false⟩, .call "slice" [[.parameter "start"], [.parameter "stop"]],
    .call "rsort" [[.read ⟨"order", "total", .integer, false⟩]],
    .call "filter" [[.read ⟨"order", "open", .boolean, false⟩]]]

theorem inOrder_lateSort : ofNumbers.InOrder lateSort [1, 2, 3, 4, 5] := by
  intro scan hhead
  cases hhead
  decide

/--
Where the order of the rows can show, the canonical form of a pipeline yields the same rows in the
same order.
-/
theorem yields_canonical {name : String}
    (hmethod : Method.ofName name = .get ∨ Method.ofName name = .insert) {r : Request}
    {rows : List Row} (horder : I.InOrder r rows) :
    I.yields (canonical name r) rows = I.yields r rows := by
  -- no sort is dropped under these methods
  have hidle : Canonical.after Canonical.dropOrdering name r = r := by
    refine Canonical.after_idle (Canonical.dropOrdering_eq_nil_iff.mpr fun hignored => ?_)
    rcases hmethod with h | h <;> rw [h] at hignored <;> cases hignored
  rw [I.yields_canonical_of_dropOrdering name (by rw [hidle]; exact fun _ => horder), hidle]

theorem lateSort_yields_canonical : Method.ofName "get" = .get ∧
    ofNumbers.InOrder lateSort [1, 2, 3, 4, 5] ∧
    ofNumbers.yields (canonical "get" lateSort) [1, 2, 3, 4, 5] =
      ofNumbers.yields lateSort [1, 2, 3, 4, 5] :=
  ⟨by decide, inOrder_lateSort, ofNumbers.yields_canonical (by decide) inOrder_lateSort⟩

/-! ## Sorts that go -/

open Canonical in
/-- Sorts that are dropped are not missed. -/
theorem yields_after_dropOrdering_perm (name : String) {r : Request}
    (honce : (r.filter Operation.slice.performedBy).length ≤ 1) (rows : List Row) :
    (I.yields (after dropOrdering name r) rows).Perm (I.yields r rows) := by
  rcases after_dropOrdering_cases name honce with
    h | ⟨hslice, h⟩ | ⟨before, slice, rest, rfl, hslice, h⟩
  · rw [h]
  · rw [h]
    exact I.yields_unsorted_perm hslice (List.Perm.refl rows)
  · rw [h, yields_append, yields_append, yields_cons, yields_cons]
    exact I.yields_unsorted_perm hslice (List.Perm.refl _)

open Canonical in
/-- Where a slice is left, dropping sorts leaves the head of the pipeline. -/
theorem InOrder.dropOrdering {I : RowReading Row} {name : String} {r : Request}
    {rows : List Row} (h : I.InOrder r rows)
    (honce : (r.filter Operation.slice.performedBy).length ≤ 1)
    (hslices : Occurs .slice (after Canonical.dropOrdering name r)) :
    I.InOrder (after Canonical.dropOrdering name r) rows := by
  rcases after_dropOrdering_cases name honce with
    hafter | ⟨hslice, hafter⟩ | ⟨before, slice, rest, rfl, -, hafter⟩
  · rw [hafter]
    exact h
  · rw [hafter] at hslices
    obtain ⟨t, ht, hp⟩ := hslices
    rw [firstPosition_eq_none.mp hslice t (List.mem_filter.mp ht).1] at hp
    cases hp
  · rw [hafter]
    intro scan hhead
    refine h scan ?_
    cases before <;> exact hhead

/--
Under every method, the canonical form of a pipeline with one slice at most yields the rows of the
pipeline, be it in another order.
-/
theorem yields_canonical_perm {name : String} {r : Request}
    (honce : (r.filter Operation.slice.performedBy).length ≤ 1) {rows : List Row}
    (horder : I.InOrder r rows) : (I.yields (canonical name r) rows).Perm (I.yields r rows) := by
  rw [I.yields_canonical_of_dropOrdering name (horder.dropOrdering honce)]
  exact I.yields_after_dropOrdering_perm name honce rows

theorem lateSort_yields_canonical_perm :
    (lateSort.filter Operation.slice.performedBy).length ≤ 1 ∧
      ofNumbers.InOrder lateSort [1, 2, 3, 4, 5] ∧
      (ofNumbers.yields (canonical "delete" lateSort) [1, 2, 3, 4, 5]).Perm
        (ofNumbers.yields lateSort [1, 2, 3, 4, 5]) :=
  ⟨by decide, inOrder_lateSort, ofNumbers.yields_canonical_perm (by decide) inOrder_lateSort⟩

end RowReading

end RequestCompiler
