import Mathlib.Data.List.Basic
import Mathlib.Data.List.Induction

/-!
# Lists that grow by what is new

Arguments of a statement and exposed columns are kept in the same way: what is there already is not
appended again, so every element keeps the index at which it was first appended.

* `idxOf_appendAllNew` — an index stays as the list grows.
* `appendAllNew_nil` — from nothing, what grows is the list without later duplicates.
-/

namespace RequestCompiler

variable {α : Type} [BEq α] [LawfulBEq α]

/-- The list with an element appended, unless it is there already. -/
def appendNew (l : List α) (a : α) : List α := if a ∈ l then l else l ++ [a]

/-- The list with elements appended one after the other, each unless it is there already. -/
def appendAllNew (l as : List α) : List α := as.foldl appendNew l

theorem appendAllNew_append (l as bs : List α) :
    appendAllNew l (as ++ bs) = appendAllNew (appendAllNew l as) bs :=
  List.foldl_append

theorem prefix_appendNew (l : List α) (a : α) : l <+: appendNew l a := by
  unfold appendNew
  split
  · exact List.prefix_refl l
  · exact List.prefix_append l _

theorem mem_appendNew (l : List α) (a : α) : a ∈ appendNew l a := by
  unfold appendNew
  split
  · assumption
  · exact List.mem_append_right l (List.mem_singleton_self a)

theorem prefix_appendAllNew (l as : List α) : l <+: appendAllNew l as := by
  induction as generalizing l with
  | nil => exact List.prefix_refl l
  | cons a as ih => exact (prefix_appendNew l a).trans (ih _)

theorem subset_appendAllNew (l as : List α) : as ⊆ appendAllNew l as := by
  induction as generalizing l with
  | nil => exact List.nil_subset _
  | cons a as ih =>
    refine List.cons_subset.mpr ⟨?_, ih _⟩
    exact (prefix_appendAllNew _ as).subset (mem_appendNew l a)

/-- Nothing but the elements given is appended. -/
theorem appendAllNew_subset (l as : List α) : appendAllNew l as ⊆ l ++ as := by
  induction as generalizing l with
  | nil => exact List.subset_append_left l []
  | cons a as ih =>
    refine List.Subset.trans (ih (appendNew l a)) ?_
    unfold appendNew
    split
    · intro b hb
      rcases List.mem_append.mp hb with hb | hb
      · exact List.mem_append_left _ hb
      · exact List.mem_append_right _ (List.mem_cons_of_mem a hb)
    · rw [← List.append_cons]
      exact List.Subset.refl _

/-- In a longer list an element keeps its index. -/
theorem idxOf_of_prefix {l m : List α} (h : l <+: m) {a : α} (ha : a ∈ l) :
    m.idxOf a = l.idxOf a := by
  obtain ⟨tail, rfl⟩ := h
  rw [List.idxOf_append, if_pos ha]

/-- From nothing, what grows is the list without later duplicates. -/
theorem appendAllNew_nil (as : List α) : appendAllNew [] as = as.eraseDups := by
  induction as using List.reverseRecOn with
  | nil => rfl
  | append_singleton as a ih =>
    rw [appendAllNew_append, ih, List.eraseDups_append]
    show appendNew as.eraseDups a = _
    unfold appendNew
    by_cases h : a ∈ as
    · rw [if_pos (List.mem_eraseDups.mpr h)]
      simp [List.removeAll, h]
    · rw [if_neg (fun h' => h (List.mem_eraseDups.mp h'))]
      simp [List.removeAll, h, List.eraseDups_cons]

end RequestCompiler
