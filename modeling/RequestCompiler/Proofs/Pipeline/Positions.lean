import Mathlib.Data.List.Induction
import RequestCompiler.Pipeline.Canonical

/-!
# Positions and edits

An edit happens at a cut of a pipeline: `before ++ after` becomes `before ++ t :: after`, or the
other way round. Positions are computed side by side (`firstPosition_append`, `positions_append`),
so what an edit does to them is read off the cut.

* `Tracked.edit_of` — a patched profile is the profile of the edited pipeline.
* `Tracked.run_of` — the same for a list of edits that stay inside the pipeline.
* `applyAll_removals`, `applyAll_insertions` — the two lists of edits that the rules make.
-/

namespace RequestCompiler

/-- Whether a token performs the operation. -/
def Operation.performedBy (operation : Operation) (t : Token) : Bool :=
  Operation.of? t == some operation

theorem Operation.performedBy_iff {operation : Operation} {t : Token} :
    operation.performedBy t = true ↔ Operation.of? t = some operation := beq_iff_eq

/-- A token performs one operation at most. -/
theorem Operation.not_performedBy_of_ne {a b : Operation} {t : Token} (hab : a ≠ b)
    (h : a.performedBy t = true) : b.performedBy t = false := by
  rw [performedBy_iff] at h
  simp [performedBy, h, hab]

/-! ## The first position -/

theorem firstPosition_cons (operation : Operation) (t : Token) (r : Request) :
    firstPosition operation (t :: r) =
      if operation.performedBy t then some 0 else (firstPosition operation r).map (· + 1) := by
  unfold firstPosition
  rw [List.findIdx?_cons]
  rfl

@[simp] theorem firstPosition_nil (operation : Operation) : firstPosition operation [] = none := rfl

/-- The first position on the left of a cut, or else the one on the right, shifted. -/
theorem firstPosition_append (operation : Operation) (r s : Request) :
    firstPosition operation (r ++ s) =
      (firstPosition operation r).or ((firstPosition operation s).map (r.length + ·)) := by
  simp only [firstPosition, List.findIdx?_append, Nat.add_comm]

theorem firstPosition_eq_none {operation : Operation} {r : Request} :
    firstPosition operation r = none ↔ ∀ t ∈ r, operation.performedBy t = false :=
  List.findIdx?_eq_none_iff

theorem firstPosition_lt {operation : Operation} {r : Request} {i : Nat}
    (h : firstPosition operation r = some i) : i < r.length :=
  (List.findIdx?_eq_some_iff_findIdx_eq.mp h).1

/-- A pipeline is cut at the first position of an operation. -/
theorem exists_cut_of_firstPosition {operation : Operation} {r : Request} {i : Nat}
    (h : firstPosition operation r = some i) :
    ∃ before t after, r = before ++ t :: after ∧ before.length = i ∧
      operation.performedBy t = true ∧ firstPosition operation before = none := by
  induction r generalizing i with
  | nil => cases h
  | cons u r ih =>
    rw [firstPosition_cons] at h
    split at h
    · next hu =>
      cases h
      exact ⟨[], u, r, rfl, rfl, hu, rfl⟩
    · next hu =>
      obtain ⟨j, hj, rfl⟩ := Option.map_eq_some_iff.mp h
      obtain ⟨before, t, after, rfl, hlen, ht, hb⟩ := ih hj
      refine ⟨u :: before, t, after, rfl, by simp [hlen], ht, ?_⟩
      rw [firstPosition_cons, if_neg hu, hb]
      rfl

/-- The first position is where the cut is, if nothing before it performs the operation. -/
theorem firstPosition_cut {operation : Operation} {before after : Request} {t : Token}
    (hb : firstPosition operation before = none) (ht : operation.performedBy t = true) :
    firstPosition operation (before ++ t :: after) = some before.length := by
  rw [firstPosition_append, hb, firstPosition_cons, if_pos ht]
  rfl

/-- A pipeline is cut at the first position of an operation in one way only. -/
theorem cut_unique {operation : Operation} {before before' after after' : Request} {t t' : Token}
    (ht : operation.performedBy t = true) (hb : firstPosition operation before = none)
    (ht' : operation.performedBy t' = true) (hb' : firstPosition operation before' = none)
    (hcut : before ++ t :: after = before' ++ t' :: after') :
    before = before' ∧ t = t' ∧ after = after' := by
  have hposition : firstPosition operation (before ++ t :: after) = some before.length :=
    firstPosition_cut hb ht
  rw [hcut, firstPosition_cut hb' ht', Option.some.injEq] at hposition
  obtain ⟨hbefore, htail⟩ := List.append_inj hcut hposition.symm
  cases htail
  exact ⟨hbefore, rfl, rfl⟩

/-- A token that does not perform the operation shifts the positions behind it. -/
theorem firstPosition_skip {operation : Operation} {t : Token} {r : Request}
    (ht : operation.performedBy t = false) :
    firstPosition operation (t :: r) = (firstPosition operation r).map (· + 1) := by
  rw [firstPosition_cons, if_neg (by simp [ht])]

/-! ## One edit -/

theorem eraseIdx_cut (before after : Request) (t : Token) :
    (before ++ t :: after).eraseIdx before.length = before ++ after := by
  rw [List.eraseIdx_append_of_length_le (Nat.le_refl _), Nat.sub_self, List.eraseIdx_cons_zero]

theorem insertIdx_cut (before after : Request) (t : Token) :
    (before ++ after).insertIdx before.length t = before ++ t :: after := by
  induction before with
  | nil => rfl
  | cons u before ih => simp [List.insertIdx_succ_cons, ih]

theorem getElem?_behind_cut (before after : Request) (t : Token) :
    (before ++ t :: after)[before.length + 1]? = after.head? := by
  rw [List.getElem?_append_right (by omega), Nat.add_sub_cancel_left, List.getElem?_cons_succ,
    List.head?_eq_getElem?]

/-- A request is cut at every index inside it. -/
theorem exists_cut_of_lt {r : Request} {i : Nat} (h : i < r.length) :
    ∃ before t after, r = before ++ t :: after ∧ before.length = i :=
  ⟨r.take i, r[i], r.drop (i + 1), by simp, by simp [Nat.le_of_lt h]⟩

/-- A first position is patched correctly when a token is removed. -/
theorem firstPosition_eraseIdx (operation : Operation) {r : Request} {i : Nat}
    (h : i < r.length) :
    firstPosition operation (r.eraseIdx i) =
      Profile.positionAfterRemoval i (r.eraseIdx i) operation (firstPosition operation r) := by
  obtain ⟨before, t, after, rfl, rfl⟩ := exists_cut_of_lt h
  rw [eraseIdx_cut, firstPosition_append, firstPosition_append, firstPosition_cons]
  cases hb : firstPosition operation before with
  | some j =>
    have hj : j < before.length := firstPosition_lt hb
    have h1 : ¬ before.length < j := by omega
    have h2 : j ≠ before.length := by omega
    simp [Profile.positionAfterRemoval, h1, h2]
  | none =>
    by_cases ht : operation.performedBy t = true
    · simp [Profile.positionAfterRemoval, ht]
    · cases ha : firstPosition operation after with
      | none => simp [Profile.positionAfterRemoval, ht]
      | some j =>
        simp [Profile.positionAfterRemoval, ht]

/-- A first position is patched correctly when a token is inserted. -/
theorem firstPosition_insertIdx (operation : Operation) (t : Token) {r : Request} {i : Nat}
    (h : i ≤ r.length) :
    firstPosition operation (r.insertIdx i t) =
      Profile.positionAfterInsertion i t operation (firstPosition operation r) := by
  obtain ⟨before, after, rfl, rfl⟩ : ∃ before after, r = before ++ after ∧ before.length = i :=
    ⟨r.take i, r.drop i, by simp, by simp [h]⟩
  rw [insertIdx_cut, firstPosition_append, firstPosition_append, firstPosition_cons]
  by_cases ht : operation.performedBy t = true
  · have hof := Operation.performedBy_iff.mp ht
    cases hb : firstPosition operation before with
    | some j =>
      have hj : j < before.length := firstPosition_lt hb
      have h1 : ¬ before.length ≤ j := by omega
      have h2 : ¬ before.length < j := by omega
      simp [Profile.positionAfterInsertion, hof, h1, h2]
    | none =>
      cases ha : firstPosition operation after with
      | none => simp [Profile.positionAfterInsertion, hof, ht]
      | some j =>
        have h1 : before.length < before.length + j + 1 := by omega
        simp [Profile.positionAfterInsertion, hof, ht, h1]
  · have hof : Operation.of? t ≠ some operation := fun hc =>
      ht (Operation.performedBy_iff.mpr hc)
    cases hb : firstPosition operation before with
    | some j =>
      have hj : j < before.length := firstPosition_lt hb
      have h1 : ¬ before.length ≤ j := by omega
      simp [Profile.positionAfterInsertion, hof, h1]
    | none =>
      cases ha : firstPosition operation after with
      | none => simp [Profile.positionAfterInsertion, hof, ht]
      | some j => simp [Profile.positionAfterInsertion, hof, ht, Nat.add_assoc]

/-- A patched profile is the profile of the edited pipeline. -/
theorem Tracked.edit_of (name : String) {e : Edit} {r : Request} (h : e.Fits r) :
    (Tracked.of name r).edit e = Tracked.of name (e.apply r) := by
  cases e with
  | remove i =>
    simp only [Tracked.edit, Tracked.of, Edit.apply, Profile.patch, Profile.mapPositions,
      Profile.of, firstPosition_eraseIdx _ h]
  | insert i t =>
    simp only [Tracked.edit, Tracked.of, Edit.apply, Profile.patch, Profile.mapPositions,
      Profile.of, firstPosition_insertIdx _ t h]

/-! ## Lists of edits -/

/-- The request after one change upon the other. -/
def Edit.applyAll (changes : List Edit) (r : Request) : Request :=
  changes.foldl (fun r e => e.apply r) r

@[simp] theorem Edit.applyAll_nil (r : Request) : Edit.applyAll [] r = r := rfl

@[simp] theorem Edit.applyAll_cons (e : Edit) (es : List Edit) (r : Request) :
    Edit.applyAll (e :: es) r = Edit.applyAll es (e.apply r) := rfl

theorem Edit.applyAll_append (es fs : List Edit) (r : Request) :
    Edit.applyAll (es ++ fs) r = Edit.applyAll fs (Edit.applyAll es r) :=
  List.foldl_append

theorem Edit.allFit_append {es fs : List Edit} {r : Request} (he : Edit.AllFit es r)
    (hf : Edit.AllFit fs (Edit.applyAll es r)) : Edit.AllFit (es ++ fs) r := by
  induction es generalizing r with
  | nil => exact hf
  | cons e es ih => exact ⟨he.1, ih he.2 hf⟩

/-- Edits that stay inside the pipeline keep its profile right. -/
theorem Tracked.run_of (name : String) {es : List Edit} {r : Request} (h : Edit.AllFit es r) :
    (Tracked.of name r).run es = Tracked.of name (Edit.applyAll es r) := by
  induction es generalizing r with
  | nil => rfl
  | cons e es ih => rw [Tracked.run_cons, Tracked.edit_of name h.1, ih h.2, Edit.applyAll_cons]

/-! ## Every position -/

/-- The positions on the left of a cut, then those on the right, shifted. -/
theorem positions_append (operation : Operation) (r s : Request) :
    positions operation (r ++ s) =
      positions operation r ++ (positions operation s).map (r.length + ·) := by
  unfold positions
  rw [List.length_append, List.range_add, List.filter_append, List.filter_map]
  congr 1
  · refine List.filter_congr ?_
    intro i hi
    rw [List.getElem?_append_left (List.mem_range.mp hi)]
  · congr 1
    refine List.filter_congr ?_
    intro i _
    simp only [Function.comp_apply]
    rw [List.getElem?_append_right (by omega), Nat.add_sub_cancel_left]

theorem positions_singleton (operation : Operation) (t : Token) :
    positions operation [t] = if operation.performedBy t then [0] else [] := by
  by_cases ht : Operation.of? t = some operation <;> simp [positions, Operation.performedBy, ht]

theorem positions_lt {operation : Operation} {r : Request} {i : Nat}
    (h : i ∈ positions operation r) : i < r.length :=
  List.mem_range.mp (List.mem_filter.mp h).1

theorem length_positions (operation : Operation) (r : Request) :
    (positions operation r).length = (r.filter operation.performedBy).length := by
  induction r using List.reverseRecOn with
  | nil => rfl
  | append_singleton r t ih =>
    rw [positions_append, List.length_append, List.length_map, ih, List.filter_append,
      List.length_append, positions_singleton]
    by_cases ht : operation.performedBy t = true <;> simp [ht]

/-- There are positions only where the operation is performed. -/
theorem positions_eq_nil {operation : Operation} {r : Request} :
    positions operation r = [] ↔ firstPosition operation r = none := by
  rw [firstPosition_eq_none, ← List.length_eq_zero_iff, length_positions, List.length_eq_zero_iff,
    List.filter_eq_nil_iff]
  simp only [Bool.not_eq_true]

/--
Removing the tokens that perform an operation, from the last to the first, leaves the other ones.
The tokens stand between two parts that are not touched.
-/
theorem applyAll_removals (operation : Operation) (before middle after : Request) :
    let es := ((positions operation middle).map (before.length + ·)).reverse.map Edit.remove
    Edit.AllFit es (before ++ middle ++ after) ∧
      Edit.applyAll es (before ++ middle ++ after) =
        before ++ middle.filter (fun t => !operation.performedBy t) ++ after := by
  -- the last token of the middle part is the first to go
  induction middle using List.reverseRecOn generalizing after with
  | nil => simp [positions, Edit.AllFit]
  | append_singleton middle t ih =>
    have hcut : before ++ (middle ++ [t]) ++ after = (before ++ middle) ++ t :: after := by simp
    rw [positions_append, positions_singleton]
    by_cases ht : operation.performedBy t = true
    · obtain ⟨hfit, happly⟩ := ih after
      have herase : (Edit.remove (before.length + middle.length)).apply
          (before ++ (middle ++ [t]) ++ after) = before ++ middle ++ after := by
        rw [hcut, ← List.length_append]
        exact eraseIdx_cut _ _ t
      simp only [ht, if_true, List.map_append, List.map_cons, List.map_nil, Nat.add_zero,
        List.reverse_append, List.reverse_cons, List.reverse_nil, List.nil_append,
        List.cons_append, Edit.AllFit, Edit.applyAll_cons, herase]
      refine ⟨⟨?_, hfit⟩, ?_⟩
      · simp only [Edit.Fits, List.length_append, List.length_singleton]
        omega
      · rw [happly, List.filter_append]
        simp [ht]
    · obtain ⟨hfit, happly⟩ := ih (t :: after)
      have hcut' : before ++ (middle ++ [t]) ++ after = before ++ middle ++ t :: after := by simp
      simp only [ht, Bool.false_eq_true, if_false, List.map_nil, List.append_nil, hcut']
      refine ⟨hfit, ?_⟩
      rw [happly, List.filter_append]
      simp [ht]

/-- Inserting tokens one behind the other puts them all at the cut. -/
theorem applyAll_insertions (before tokens after : Request) :
    let es := tokens.mapIdx fun i t => Edit.insert (before.length + i) t
    Edit.AllFit es (before ++ after) ∧
      Edit.applyAll es (before ++ after) = before ++ tokens ++ after := by
  induction tokens generalizing before with
  | nil => simp [Edit.AllFit]
  | cons t tokens ih =>
    obtain ⟨hfit, happly⟩ := ih (before ++ [t])
    have hinsert : (Edit.insert (before.length + 0) t).apply (before ++ after) =
        before ++ [t] ++ after := by
      rw [Nat.add_zero, List.append_assoc]
      exact insertIdx_cut before after t
    have hshift : (fun (i : Nat) (u : Token) => Edit.insert (before.length + (i + 1)) u) =
        fun i u => Edit.insert ((before ++ [t]).length + i) u := by
      funext i u
      rw [List.length_append, List.length_singleton, Nat.add_assoc, Nat.add_comm 1]
    simp only [List.mapIdx_cons, Edit.AllFit, Edit.applyAll_cons, hinsert, hshift]
    refine ⟨⟨?_, hfit⟩, ?_⟩
    · simp [Edit.Fits]
    · rw [happly, List.append_assoc before, List.singleton_append]

end RequestCompiler
