import Mathlib.Computability.Language
import RequestCompiler.Compiler.Stages

/-!
# Words of stages

The phases of its stages spell a word. What a canonical form spells must be in order
(`Phase.InOrder`) to be compiled; the languages of this module are those of the words as they were
written, of which canonical forms become words in order.

* `inOrder_cut` — a word in order, cut at its slice.
* `mem_rowsLanguage_cut` — a word whose first filter has to be brought ahead.
* `mem_getLanguage_cut`, `mem_deleteLanguage_cut`, `mem_countLanguage_cut` — the languages of three
  methods, cut at the first slice.
-/

namespace RequestCompiler

open scoped Computability

namespace Phase

/-- Whether each phase may follow all phases before it. -/
def InOrder (w : List Phase) : Prop :=
  w.Pairwise fun reached phase => phase.mayFollow reached = true

/-- Whether stages that spell a word can be compiled under a method. -/
def Admitted (method : Method) (w : List Phase) : Prop :=
  InOrder w ∧ (.fork ∈ w → method.isScalar = true)

/-- The word without the sorts in it. -/
def withoutSorts (w : List Phase) : List Phase := w.filter (· ≠ .sort)

/-! ## Languages -/

/-- The language of a single letter. -/
def letter (p : Phase) : Language Phase := {[p]}

/-- A filter behind all sorts but those that follow it: `S⁺FS*`. -/
def lateFilter : Language Phase :=
  letter .sort * (letter .sort)∗ * letter .filter * (letter .sort)∗

/-- Filters and sorts that can be compiled once a filter is brought ahead: `F*S* | S⁺FS*`. -/
def rowsLanguage : Language Phase := (letter .filter)∗ * (letter .sort)∗ + lateFilter

/-- The words of a get: `(F*S* | S⁺FS*)L?`. -/
def getLanguage : Language Phase := rowsLanguage * (1 + letter .slice)

/-- The words of a deletion: `(F|S)* | F*LS* | (F*S* | S⁺FS*)L`. -/
def deleteLanguage : Language Phase :=
  (letter .filter + letter .sort)∗ + (letter .filter)∗ * letter .slice * (letter .sort)∗ +
    rowsLanguage * letter .slice

/-- The words that are in a language without their sorts. -/
def sortedFrom (l : Language Phase) : Language Phase := {w | withoutSorts w ∈ l}

/--
The words of a count: without their sorts they are in `F*K?`, or they are filters, a slice and,
without sorts, a fork at most; or else they are in `(F*S⁺ | S⁺FS*)LK?`.
-/
def countLanguage : Language Phase :=
  sortedFrom ((letter .filter)∗ * (1 + letter .fork)) +
    (letter .filter)∗ * letter .slice * sortedFrom (1 + letter .fork) +
    ((letter .filter)∗ * (letter .sort * (letter .sort)∗) + lateFilter) * letter .slice *
      (1 + letter .fork)

/-- The words of the stages that can be compiled under a method. -/
def language : Method → Language Phase
  | .get | .insert => getLanguage
  | .delete | .set => deleteLanguage
  | .count | .aggregate => countLanguage

/-! ## Letters -/

section Letters

variable {p : Phase} {l : Language Phase} {w : List Phase}

theorem mem_letter : w ∈ letter p ↔ w = [p] := Iff.rfl

theorem mem_letter_mul : w ∈ letter p * l ↔ ∃ v ∈ l, w = p :: v := by
  rw [Language.mem_mul]
  constructor
  · rintro ⟨_, rfl, v, hv, rfl⟩
    exact ⟨v, hv, rfl⟩
  · rintro ⟨v, hv, rfl⟩
    exact ⟨[p], rfl, v, hv, rfl⟩

theorem mem_optional_letter : w ∈ 1 + letter p ↔ w = [] ∨ w = [p] := by
  rw [Language.mem_add, Language.mem_one, mem_letter]

/-- The words over some letters are those with no other letter. -/
theorem mem_kstar_of_letters {P : Phase → Prop} (hl : ∀ v, v ∈ l ↔ ∃ p, v = [p] ∧ P p) :
    w ∈ l∗ ↔ ∀ p ∈ w, P p := by
  rw [Language.mem_kstar]
  constructor
  · rintro ⟨words, rfl, hwords⟩ p hp
    obtain ⟨v, hv, hpv⟩ := List.mem_flatten.mp hp
    obtain ⟨q, rfl, hq⟩ := (hl v).mp (hwords v hv)
    rw [List.mem_singleton.mp hpv]
    exact hq
  · intro hw
    refine ⟨w.map fun p => [p], ?_, ?_⟩
    · rw [← List.flatMap_def, List.flatMap_singleton']
    · intro v hv
      obtain ⟨p, hp, rfl⟩ := List.mem_map.mp hv
      exact (hl [p]).mpr ⟨p, rfl, hw p hp⟩

theorem mem_kstar_letter : w ∈ (letter p)∗ ↔ ∀ q ∈ w, q = p :=
  mem_kstar_of_letters fun v => by rw [mem_letter]; simp

theorem mem_kstar_letters {q : Phase} :
    w ∈ (letter p + letter q)∗ ↔ ∀ r ∈ w, r = p ∨ r = q :=
  mem_kstar_of_letters fun v => by
    rw [Language.mem_add, mem_letter, mem_letter]
    constructor
    · rintro (rfl | rfl)
      · exact ⟨p, rfl, Or.inl rfl⟩
      · exact ⟨q, rfl, Or.inr rfl⟩
    · rintro ⟨r, rfl, rfl | rfl⟩
      · exact Or.inl rfl
      · exact Or.inr rfl

/-- A word is cut at the first place of a letter in one way only. -/
theorem append_cons_inj {u u' v v' : List Phase} (hu : p ∉ u) (hu' : p ∉ u')
    (h : u ++ p :: v = u' ++ p :: v') : u = u' ∧ v = v' := by
  rcases List.append_eq_append_iff.mp h with ⟨middle, rfl, htail⟩ | ⟨middle, rfl, htail⟩
  all_goals
    cases middle with
    | nil => simp_all
    | cons q middle =>
      rw [List.cons_append, List.cons_eq_cons] at htail
      simp [htail.1] at hu hu'

/-- A word that is cut at the first slice is read part by part. -/
theorem mem_mul_slice_mul {k : Language Phase} (hk : ∀ v ∈ k, .slice ∉ v) {u v : List Phase}
    (hu : .slice ∉ u) : u ++ .slice :: v ∈ k * letter .slice * l ↔ u ∈ k ∧ v ∈ l := by
  rw [mul_assoc, Language.mem_mul]
  constructor
  · rintro ⟨u', hu', w', hw', hcut⟩
    obtain ⟨v', hv', rfl⟩ := mem_letter_mul.mp hw'
    obtain ⟨rfl, rfl⟩ := append_cons_inj (hk u' hu') hu hcut
    exact ⟨hu', hv'⟩
  · rintro ⟨hu, hv⟩
    exact ⟨u, hu, _, mem_letter_mul.mpr ⟨v, hv, rfl⟩, rfl⟩

theorem slice_mem_of_mem_mul {k : Language Phase} (h : w ∈ k * letter .slice * l) :
    .slice ∈ w := by
  rw [mul_assoc, Language.mem_mul] at h
  obtain ⟨u, -, _, hv, rfl⟩ := h
  obtain ⟨v, -, rfl⟩ := mem_letter_mul.mp hv
  simp

end Letters

/-! ## Words in order -/

/-- Whether a word has no slice and no fork. -/
def FiltersAndSorts (w : List Phase) : Prop := ∀ p ∈ w, p = .filter ∨ p = .sort

section InOrder

variable {p : Phase} {u v w : List Phase}

theorem mayFollow_filter (p : Phase) : p.mayFollow .filter = true := by cases p <;> rfl

theorem mayFollow_sort_iff : p.mayFollow .sort = true ↔ p ≠ .filter := by cases p <;> decide

theorem mayFollow_slice_iff : p.mayFollow .slice = true ↔ p = .fork := by cases p <;> decide

theorem slice_mayFollow_iff : Phase.slice.mayFollow p = true ↔ p = .filter ∨ p = .sort := by
  cases p <;> decide

theorem inOrder_filter_cons : InOrder (.filter :: w) ↔ InOrder w := by
  rw [InOrder, List.pairwise_cons]
  exact and_iff_right fun p _ => mayFollow_filter p

theorem inOrder_sort_cons : InOrder (.sort :: w) ↔ .filter ∉ w ∧ InOrder w := by
  rw [InOrder, List.pairwise_cons]
  refine and_congr_left fun _ => ?_
  simp only [mayFollow_sort_iff]
  exact ⟨fun h hw => h _ hw rfl, fun h p hp hpw => h (hpw ▸ hp)⟩

theorem inOrder_of_sorts (hw : ∀ p ∈ w, p = .sort) : InOrder w := by
  refine List.pairwise_of_forall_mem_list fun p hp q hq => ?_
  rw [hw p hp, hw q hq]
  rfl

/-- A fork may stand behind all that is none. -/
theorem inOrder_concat_fork (hu : InOrder u) (hfork : .fork ∉ u) : InOrder (u ++ [.fork]) := by
  refine List.pairwise_append.mpr ⟨hu, List.pairwise_singleton _ _, fun p hp q hq => ?_⟩
  rw [List.mem_singleton.mp hq]
  cases p with
  | fork => exact absurd hp hfork
  | _ => rfl

/-- Behind a slice stands nothing but a fork, and before it stands no fork. -/
theorem inOrder_cut : InOrder (u ++ .slice :: v) ↔
    InOrder u ∧ FiltersAndSorts u ∧ (v = [] ∨ v = [.fork]) := by
  unfold InOrder
  rw [List.pairwise_append, List.pairwise_cons]
  constructor
  · rintro ⟨hu, ⟨hslice, hv⟩, hcross⟩
    refine ⟨hu, fun p hp => slice_mayFollow_iff.mp (hcross p hp _ List.mem_cons_self), ?_⟩
    have hforks : ∀ p ∈ v, p = .fork := fun p hp => mayFollow_slice_iff.mp (hslice p hp)
    -- a fork may not follow a fork
    match v, hv, hforks with
    | [], _, _ => exact Or.inl rfl
    | [p], _, hforks => exact Or.inr (by rw [hforks p List.mem_cons_self])
    | p :: q :: v, hv, hforks =>
      have hpq := (List.pairwise_cons.mp hv).1 q List.mem_cons_self
      rw [hforks p (by simp), hforks q (by simp)] at hpq
      cases hpq
  · rintro ⟨hu, hrows, hv⟩
    refine ⟨hu, ⟨fun p hp => ?_, ?_⟩, fun p hp q hq => ?_⟩
    · rcases hv with rfl | rfl
      · cases hp
      · rw [List.mem_singleton.mp hp]
        rfl
    · rcases hv with rfl | rfl
      · exact List.Pairwise.nil
      · exact List.pairwise_singleton _ _
    · rcases List.mem_cons.mp hq with rfl | hq
      · exact slice_mayFollow_iff.mpr (hrows p hp)
      · have hfork : q = .fork := by
          rcases hv with rfl | rfl
          · cases hq
          · exact List.mem_singleton.mp hq
        rw [hfork]
        rcases hrows p hp with rfl | rfl <;> rfl

/-- The same under a method, which may have no use for a fork. -/
theorem admitted_cut {method : Method} : Admitted method (u ++ .slice :: v) ↔
    (InOrder u ∧ FiltersAndSorts u) ∧ (v = [] ∨ v = [.fork] ∧ method.isScalar = true) := by
  rw [Admitted, inOrder_cut, ← and_assoc, and_assoc]
  refine and_congr_right fun ⟨_, hrows⟩ => ?_
  have hfork : .fork ∉ u := fun h => by rcases hrows _ h with h | h <;> cases h
  constructor
  · rintro ⟨rfl | rfl, hscalar⟩
    · exact Or.inl rfl
    · exact Or.inr ⟨rfl, hscalar (by simp)⟩
  · rintro (rfl | ⟨rfl, hscalar⟩)
    · exact ⟨Or.inl rfl, fun h => absurd h (by simp [hfork])⟩
    · exact ⟨Or.inr rfl, fun _ => hscalar⟩

end InOrder

/-! ## Rows -/

section Rows

variable {u v w : List Phase}

theorem mem_filters_mul_sorts : w ∈ (letter .filter)∗ * (letter .sort)∗ ↔
    InOrder w ∧ FiltersAndSorts w := by
  rw [Language.mem_mul]
  simp only [mem_kstar_letter]
  constructor
  · rintro ⟨u, hu, v, hv, rfl⟩
    induction u with
    | nil => exact ⟨inOrder_of_sorts hv, fun p hp => Or.inr (hv p hp)⟩
    | cons p u ih =>
      rw [List.forall_mem_cons] at hu
      obtain ⟨rfl, hu⟩ := hu
      obtain ⟨horder, hrows⟩ := ih hu
      exact ⟨inOrder_filter_cons.mpr horder, List.forall_mem_cons.mpr ⟨Or.inl rfl, hrows⟩⟩
  · rintro ⟨horder, hrows⟩
    induction w with
    | nil => exact ⟨[], by simp, [], by simp, rfl⟩
    | cons p w ih =>
      obtain ⟨hp, hw⟩ := List.forall_mem_cons.mp hrows
      rcases hp with rfl | rfl
      · obtain ⟨u, hu, v, hv, rfl⟩ := ih (inOrder_filter_cons.mp horder) hw
        exact ⟨.filter :: u, List.forall_mem_cons.mpr ⟨rfl, hu⟩, v, hv, rfl⟩
      · -- from the first sort on there are sorts only
        refine ⟨[], by simp, .sort :: w, List.forall_mem_cons.mpr ⟨rfl, fun q hq => ?_⟩, rfl⟩
        refine (hw q hq).resolve_left fun hfilter => ?_
        exact (inOrder_sort_cons.mp horder).1 (hfilter ▸ hq)

theorem mem_lateFilter : w ∈ lateFilter ↔
    ∃ u v, w = .sort :: (u ++ .filter :: v) ∧ (∀ p ∈ u, p = .sort) ∧ ∀ p ∈ v, p = .sort := by
  unfold lateFilter
  rw [mul_assoc, mul_assoc, mem_letter_mul]
  constructor
  · rintro ⟨_, htail, rfl⟩
    obtain ⟨u, hu, _, hrest, rfl⟩ := Language.mem_mul.mp htail
    obtain ⟨v, hv, rfl⟩ := mem_letter_mul.mp hrest
    exact ⟨u, v, rfl, mem_kstar_letter.mp hu, mem_kstar_letter.mp hv⟩
  · rintro ⟨u, v, rfl, hu, hv⟩
    refine ⟨_, Language.mem_mul.mpr ⟨u, mem_kstar_letter.mpr hu, _, ?_, rfl⟩, rfl⟩
    exact mem_letter_mul.mpr ⟨v, mem_kstar_letter.mpr hv, rfl⟩

theorem mem_rowsLanguage :
    w ∈ rowsLanguage ↔ InOrder w ∧ FiltersAndSorts w ∨ w ∈ lateFilter := by
  rw [rowsLanguage, Language.mem_add, mem_filters_mul_sorts]

theorem filtersAndSorts_of_mem (h : w ∈ rowsLanguage) : FiltersAndSorts w := by
  rcases mem_rowsLanguage.mp h with ⟨-, hrows⟩ | hlate
  · exact hrows
  · obtain ⟨u, v, rfl, hu, hv⟩ := mem_lateFilter.mp hlate
    intro p hp
    simp only [List.mem_cons, List.mem_append] at hp
    rcases hp with rfl | hp | rfl | hp
    · exact Or.inr rfl
    · exact Or.inr (hu p hp)
    · exact Or.inl rfl
    · exact Or.inr (hv p hp)

theorem slice_notMem_of_mem (h : w ∈ rowsLanguage) : .slice ∉ w := fun hw => by
  rcases filtersAndSorts_of_mem h _ hw with h | h <;> cases h

/-- A word is of rows if it is in order once its first filter is ahead of the sorts before it. -/
theorem mem_rowsLanguage_cut (hu : ∀ p ∈ u, p = .sort) (hv : FiltersAndSorts v) :
    u ++ .filter :: v ∈ rowsLanguage ↔ InOrder (u ++ v) := by
  rw [mem_rowsLanguage]
  cases u with
  | nil =>
    constructor
    · rintro (⟨horder, -⟩ | hlate)
      · exact inOrder_filter_cons.mp horder
      · obtain ⟨_, _, hcut, -, -⟩ := mem_lateFilter.mp hlate
        cases hcut
    · intro horder
      exact Or.inl ⟨inOrder_filter_cons.mpr horder, List.forall_mem_cons.mpr ⟨Or.inl rfl, hv⟩⟩
  | cons p u =>
    rw [List.forall_mem_cons] at hu
    obtain ⟨rfl, hu⟩ := hu
    have hfirst : .filter ∉ u := fun hfilter => by cases hu _ hfilter
    constructor
    · rintro (⟨horder, -⟩ | hlate)
      · exact absurd (by simp) (inOrder_sort_cons.mp horder).1
      · obtain ⟨u', v', hcut, hu', hv'⟩ := mem_lateFilter.mp hlate
        have hfirst' : .filter ∉ u' := fun hfilter => by cases hu' _ hfilter
        obtain ⟨rfl, rfl⟩ := append_cons_inj hfirst hfirst' (List.cons_eq_cons.mp hcut).2
        refine inOrder_of_sorts (List.forall_mem_append.mpr ⟨?_, hv'⟩)
        exact List.forall_mem_cons.mpr ⟨rfl, hu⟩
    · intro horder
      have hlast : .filter ∉ v := fun hfilter =>
        (inOrder_sort_cons.mp horder).1 (List.mem_append_right u hfilter)
      refine Or.inr (mem_lateFilter.mpr ⟨u, v, rfl, hu, fun q hq => ?_⟩)
      exact (hv q hq).resolve_left fun h => hlast (h ▸ hq)

/-- Words of rows without sorts. -/
theorem mem_rowsLanguage_of_notMem (h : .sort ∉ w) :
    w ∈ rowsLanguage ↔ w ∈ (letter .filter)∗ := by
  rw [mem_kstar_letter]
  constructor
  · intro hw p hp
    exact (filtersAndSorts_of_mem hw p hp).resolve_right fun hsort => h (hsort ▸ hp)
  · intro hw
    have hfilters : w ∈ (letter .filter)∗ * (letter .sort)∗ := Language.mem_mul.mpr
      ⟨w, mem_kstar_letter.mpr hw, [], Language.nil_mem_kstar _, List.append_nil w⟩
    exact Or.inl hfilters

/-- Words of rows with sorts. -/
theorem mem_sortedRows : w ∈ (letter .filter)∗ * (letter .sort * (letter .sort)∗) + lateFilter ↔
    w ∈ rowsLanguage ∧ .sort ∈ w := by
  rw [rowsLanguage, Language.mem_add, Language.mem_add, or_and_right]
  refine or_congr ?_ ⟨fun h => ⟨h, ?_⟩, And.left⟩
  · rw [Language.mem_mul, Language.mem_mul]
    constructor
    · rintro ⟨u, hu, _, hsorts, rfl⟩
      obtain ⟨v, hv, rfl⟩ := mem_letter_mul.mp hsorts
      refine ⟨⟨u, hu, .sort :: v, ?_, rfl⟩, by simp⟩
      exact mem_kstar_letter.mpr (List.forall_mem_cons.mpr ⟨rfl, mem_kstar_letter.mp hv⟩)
    · rintro ⟨⟨u, hu, v, hv, rfl⟩, hsort⟩
      have hsorts : .sort ∈ v := (List.mem_append.mp hsort).resolve_left fun h => by
        cases mem_kstar_letter.mp hu _ h
      rw [mem_kstar_letter] at hv
      cases v with
      | nil => cases hsorts
      | cons p v =>
        rw [List.forall_mem_cons] at hv
        obtain ⟨rfl, hv⟩ := hv
        exact ⟨u, hu, _, mem_letter_mul.mpr ⟨v, mem_kstar_letter.mpr hv, rfl⟩, rfl⟩
  · obtain ⟨u, v, rfl, -, -⟩ := mem_lateFilter.mp h
    simp

/-- Filters, and behind them at most one fork. -/
theorem mem_filters_mul_fork : w ∈ (letter .filter)∗ * (1 + letter .fork) ↔
    InOrder w ∧ ∀ p ∈ w, p = .filter ∨ p = .fork := by
  rw [Language.mem_mul]
  simp only [mem_kstar_letter, mem_optional_letter]
  constructor
  · rintro ⟨u, hu, v, hv, rfl⟩
    induction u with
    | nil => rcases hv with rfl | rfl <;> simp [InOrder]
    | cons p u ih =>
      rw [List.forall_mem_cons] at hu
      obtain ⟨rfl, hu⟩ := hu
      obtain ⟨horder, hletters⟩ := ih hu
      exact ⟨inOrder_filter_cons.mpr horder, List.forall_mem_cons.mpr ⟨Or.inl rfl, hletters⟩⟩
  · rintro ⟨horder, hletters⟩
    induction w with
    | nil => exact ⟨[], by simp, [], Or.inl rfl, rfl⟩
    | cons p w ih =>
      obtain ⟨hp, hw⟩ := List.forall_mem_cons.mp hletters
      rcases hp with rfl | rfl
      · obtain ⟨u, hu, v, hv, rfl⟩ := ih (inOrder_filter_cons.mp horder) hw
        exact ⟨.filter :: u, List.forall_mem_cons.mpr ⟨rfl, hu⟩, v, hv, rfl⟩
      · -- nothing may follow a fork
        cases w with
        | nil => exact ⟨[], by simp, [.fork], Or.inr rfl, rfl⟩
        | cons q w =>
          have hfollow := (List.pairwise_cons.mp horder).1 q List.mem_cons_self
          cases q <;> cases hfollow

end Rows

/-! ## The words of the methods -/

section Methods

variable {u v w : List Phase}

/-- The word behind a slice once sorts that cannot show are gone from it. -/
def behind (u v : List Phase) : List Phase := if .sort ∈ u then v else withoutSorts v

theorem mem_getLanguage :
    w ∈ getLanguage ↔ w ∈ rowsLanguage ∨ w ∈ rowsLanguage * letter .slice := by
  rw [getLanguage, mul_add, mul_one, Language.mem_add]

theorem mem_rows_mul_slice (hu : .slice ∉ u) :
    u ++ .slice :: v ∈ rowsLanguage * letter .slice ↔ u ∈ rowsLanguage ∧ v = [] := by
  rw [← mul_one (rowsLanguage * letter .slice), mem_mul_slice_mul (fun _ => slice_notMem_of_mem) hu,
    Language.mem_one]

theorem mem_getLanguage_unsliced (hw : .slice ∉ w) : w ∈ getLanguage ↔ w ∈ rowsLanguage := by
  rw [mem_getLanguage]
  refine or_iff_left fun h => hw ?_
  rw [← mul_one (rowsLanguage * letter .slice)] at h
  exact slice_mem_of_mem_mul h

theorem mem_getLanguage_cut (hu : .slice ∉ u) :
    u ++ .slice :: v ∈ getLanguage ↔ u ∈ rowsLanguage ∧ v = [] := by
  rw [mem_getLanguage, mem_rows_mul_slice hu]
  exact or_iff_right fun h => slice_notMem_of_mem h (by simp)

theorem slice_notMem_of_mem_kstar {p : Phase} (hp : p ≠ .slice) :
    ∀ w ∈ (letter p)∗, .slice ∉ w :=
  fun _ h hw => hp (mem_kstar_letter.mp h _ hw).symm

theorem mem_deleteLanguage : w ∈ deleteLanguage ↔ FiltersAndSorts w ∨
    w ∈ (letter .filter)∗ * letter .slice * (letter .sort)∗ ∨
    w ∈ rowsLanguage * letter .slice := by
  rw [deleteLanguage, Language.mem_add, Language.mem_add, mem_kstar_letters, or_assoc]
  rfl

theorem mem_deleteLanguage_unsliced (hw : .slice ∉ w) :
    w ∈ deleteLanguage ↔ FiltersAndSorts w := by
  rw [mem_deleteLanguage]
  refine or_iff_left ?_
  rintro (h | h)
  · exact hw (slice_mem_of_mem_mul h)
  · rw [← mul_one (rowsLanguage * letter .slice)] at h
    exact hw (slice_mem_of_mem_mul h)

theorem sort_notMem_withoutSorts : .sort ∉ withoutSorts w := by
  simp [withoutSorts]

theorem mem_withoutSorts_of_ne {p : Phase} (hp : p ≠ .sort) : p ∈ withoutSorts w ↔ p ∈ w := by
  simp [withoutSorts, hp]

theorem admitted_iff_of_not_scalar {method : Method} (hmethod : method.isScalar = false) :
    Admitted method w ↔ InOrder w ∧ .fork ∉ w := by
  rw [Admitted, hmethod]
  exact and_congr_right fun _ => imp_congr_right fun _ => ⟨Bool.false_ne_true, False.elim⟩

/-- Where there is no slice, no letters but filters and sorts are left if there is no fork. -/
theorem filtersAndSorts_iff (hw : .slice ∉ w) : FiltersAndSorts w ↔ .fork ∉ w := by
  constructor
  · intro h hfork
    rcases h _ hfork with h | h <;> cases h
  · intro hfork p hp
    cases p with
    | filter => exact Or.inl rfl
    | sort => exact Or.inr rfl
    | slice => exact absurd hp hw
    | fork => exact absurd hp hfork

/-- Without its sorts, a word without a slice is filters and forks. -/
theorem mem_filters_mul_fork_iff_inOrder (hw : .slice ∉ w) :
    withoutSorts w ∈ (letter .filter)∗ * (1 + letter .fork) ↔ InOrder (withoutSorts w) := by
  rw [mem_filters_mul_fork]
  refine and_iff_left fun p hp => ?_
  cases p with
  | filter => exact Or.inl rfl
  | sort => exact absurd hp sort_notMem_withoutSorts
  | slice => exact absurd ((mem_withoutSorts_of_ne (by decide)).mp hp) hw
  | fork => exact Or.inr rfl

theorem inOrder_withoutSorts (h : FiltersAndSorts w) : InOrder (withoutSorts w) := by
  refine List.pairwise_of_forall_mem_list fun p hp q hq => ?_
  have hfilter (r : Phase) (hr : r ∈ withoutSorts w) : r = .filter :=
    (h r (List.mem_filter.mp hr).1).resolve_right fun hsort =>
      sort_notMem_withoutSorts (hsort ▸ hr)
  rw [hfilter p hp, hfilter q hq]
  rfl

theorem withoutSorts_eq_nil : withoutSorts v = [] ↔ v ∈ (letter .sort)∗ := by
  rw [mem_kstar_letter, withoutSorts, List.filter_eq_nil_iff]
  simp

theorem mem_deleteLanguage_cut (hu : .slice ∉ u) :
    u ++ .slice :: v ∈ deleteLanguage ↔ u ∈ rowsLanguage ∧ behind u v = [] := by
  have hnot : ¬ FiltersAndSorts (u ++ .slice :: v) := fun h => by
    rcases h .slice (by simp) with h | h <;> cases h
  rw [mem_deleteLanguage, or_iff_right hnot, mem_rows_mul_slice hu,
    mem_mul_slice_mul (slice_notMem_of_mem_kstar (by decide)) hu, behind]
  by_cases hsort : .sort ∈ u
  · rw [if_pos hsort]
    refine or_iff_right fun h => ?_
    cases mem_kstar_letter.mp h.1 _ hsort
  · rw [if_neg hsort, mem_rowsLanguage_of_notMem hsort, withoutSorts_eq_nil]
    refine or_iff_left_of_imp fun ⟨hfilters, hv⟩ => ⟨hfilters, ?_⟩
    rw [hv]
    exact Language.nil_mem_kstar _

theorem mem_sortedFrom {l : Language Phase} : w ∈ sortedFrom l ↔ withoutSorts w ∈ l := Iff.rfl

theorem mem_countLanguage_unsliced (hw : .slice ∉ w) :
    w ∈ countLanguage ↔ withoutSorts w ∈ (letter .filter)∗ * (1 + letter .fork) := by
  rw [countLanguage, Language.mem_add, Language.mem_add, mem_sortedFrom, or_assoc]
  refine or_iff_left ?_
  rintro (h | h)
  · exact hw (slice_mem_of_mem_mul h)
  · exact hw (slice_mem_of_mem_mul h)

theorem mem_countLanguage_cut (hu : .slice ∉ u) : u ++ .slice :: v ∈ countLanguage ↔
    u ∈ rowsLanguage ∧ (behind u v = [] ∨ behind u v = [.fork]) := by
  have hnot :
      withoutSorts (u ++ .slice :: v) ∉ (letter .filter)∗ * (1 + letter .fork) := fun h => by
    have hslice : .slice ∈ withoutSorts (u ++ .slice :: v) :=
      (mem_withoutSorts_of_ne (by decide)).mpr (by simp)
    rcases (mem_filters_mul_fork.mp h).2 _ hslice with h | h <;> cases h
  have hrows : ∀ w ∈ (letter .filter)∗ * (letter .sort * (letter .sort)∗) + lateFilter,
      .slice ∉ w := fun w h => slice_notMem_of_mem (mem_sortedRows.mp h).1
  rw [countLanguage, Language.mem_add, Language.mem_add, mem_sortedFrom, or_iff_right hnot,
    mem_mul_slice_mul (slice_notMem_of_mem_kstar (by decide)) hu, mem_mul_slice_mul hrows hu,
    mem_sortedRows, mem_sortedFrom, mem_optional_letter, mem_optional_letter, behind]
  by_cases hsort : .sort ∈ u
  · rw [if_pos hsort, and_iff_left hsort]
    refine or_iff_right fun h => ?_
    cases mem_kstar_letter.mp h.1 _ hsort
  · rw [if_neg hsort, mem_rowsLanguage_of_notMem hsort]
    exact or_iff_left fun h => hsort h.1.2

end Methods

end Phase

end RequestCompiler
