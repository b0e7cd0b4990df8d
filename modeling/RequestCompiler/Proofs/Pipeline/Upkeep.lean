import RequestCompiler.Proofs.Pipeline.Idempotence

/-!
# Keeping a profile

While rules change a pipeline, its profile is patched. It could as well be read off again after
every change: an `Upkeep` is a way to keep a profile, and it is `Exact` if the profile of a pipeline
always becomes the profile of the changed pipeline. Both ways are.

Here the rules run as a list of changes, each made where the profile of that moment says. The first
rule, which looks the first sort up in the profile before it takes it out, does so for one sort
after the other (`removeFirstSorts`).

* `changesBy_of` — however the profile is kept, if exactly, the changes stay inside the pipeline and
  come to the canonical form.
* `profile_exact` — the patched profile is the profile of the pipeline after every change.
-/

namespace RequestCompiler

/-- A way to keep a profile: what it becomes by a change, given what the change left. -/
abbrev Upkeep := Profile → Edit → Request → Profile

/-- Changes that stay inside a pipeline do so one after the other. -/
theorem Edit.AllFit.of_append {es fs : List Edit} {r : Request} (h : Edit.AllFit (es ++ fs) r) :
    Edit.AllFit es r := by
  induction es generalizing r with
  | nil => trivial
  | cons e es ih => exact ⟨h.1, ih h.2⟩

namespace Upkeep

/-- The profile is read off again. -/
def afresh (name : String) : Upkeep := fun _ _ after => Profile.of name after

/-- Whether the profile of a pipeline becomes that of the changed pipeline. -/
def Exact (upkeep : Upkeep) (name : String) : Prop :=
  ∀ (r : Request) (e : Edit), e.Fits r →
    upkeep (Profile.of name r) e (e.apply r) = Profile.of name (e.apply r)

theorem exact_patch (name : String) : Exact Profile.patch name :=
  fun _ _ h => congrArg Tracked.profile (Tracked.edit_of name h)

theorem exact_afresh (name : String) : Exact (afresh name) name := fun _ _ _ => rfl

end Upkeep

namespace Tracked

/-- The pipeline after a change, its profile kept in this way. -/
def editBy (upkeep : Upkeep) (t : Tracked) (change : Edit) : Tracked :=
  let after := change.apply t.tokens
  ⟨after, upkeep t.profile change after⟩

/-- The pipeline after one change upon the other. -/
def runBy (upkeep : Upkeep) (t : Tracked) (changes : List Edit) : Tracked :=
  changes.foldl (editBy upkeep) t

variable {upkeep : Upkeep} {name : String} (h : upkeep.Exact name)

include h

theorem editBy_of {r : Request} {e : Edit} (hfit : e.Fits r) :
    (Tracked.of name r).editBy upkeep e = Tracked.of name (e.apply r) :=
  congrArg (Tracked.mk (e.apply r)) (h r e hfit)

theorem runBy_of {r : Request} {es : List Edit} (hfit : Edit.AllFit es r) :
    (Tracked.of name r).runBy upkeep es = Tracked.of name (Edit.applyAll es r) := by
  induction es generalizing r with
  | nil => rfl
  | cons e es ih =>
    show ((Tracked.of name r).editBy upkeep e).runBy upkeep es = _
    rw [editBy_of h hfit.1, ih hfit.2, Edit.applyAll_cons]

end Tracked

namespace Canonical

/-! ## One sort after the other -/

/--
Takes out the first sort, where the profile says that it is, as long as the profile says that there
is one. A position outside of the pipeline would be the last.
-/
def removeFirstSorts (upkeep : Upkeep) (t : Tracked) : List Edit :=
  match t.profile.sort with
  | none => []
  | some i =>
    if i < t.tokens.length then
      .remove i :: removeFirstSorts upkeep (t.editBy upkeep (.remove i))
    else [.remove i]
termination_by t.tokens.length
decreasing_by
  simp only [Tracked.editBy, Edit.apply, List.length_eraseIdx_of_lt ‹_›]
  omega

/-- Sorts go one by one where the order of the rows cannot show. -/
def dropOrderingInTurn (upkeep : Upkeep) (t : Tracked) : List Edit :=
  if t.profile.method.ignoresOrder &&
      (t.profile.occursAfter .sort .slice || (t.profile.has .sort && !t.profile.has .slice)) then
    removeFirstSorts upkeep t
  else []

/-- The rules in the order in which they run, the first one a sort at a time. -/
def rulesInTurn (upkeep : Upkeep) : List (Tracked → List Edit) :=
  [dropOrderingInTurn upkeep, orderPagination, isolateAggregation, filterFirst]

/-- The changes of rules, each rule on what the one before it left. -/
def changesBy (upkeep : Upkeep) : List (Tracked → List Edit) → Tracked → List Edit
  | [], _ => []
  | rule :: todo, t => rule t ++ changesBy upkeep todo (t.runBy upkeep (rule t))

/-- A pipeline under a method of this name after the changes of all rules. -/
def canonicalBy (upkeep : Upkeep) (name : String) (r : Request) : Request :=
  let t := Tracked.of name r
  (t.runBy upkeep (changesBy upkeep (rulesInTurn upkeep) t)).tokens

section Exact

variable {upkeep : Upkeep} {name : String} (h : upkeep.Exact name)

include h

/-- One by one, all sorts go. -/
theorem removeFirstSorts_of (r : Request) :
    Edit.AllFit (removeFirstSorts upkeep (Tracked.of name r)) r ∧
      Edit.applyAll (removeFirstSorts upkeep (Tracked.of name r)) r = unsorted r := by
  -- each removal leaves a shorter pipeline with the same other tokens
  induction hlength : r.length generalizing r with
  | zero =>
    obtain rfl := List.length_eq_zero_iff.mp hlength
    rw [removeFirstSorts]
    exact ⟨trivial, rfl⟩
  | succ n ih =>
    rw [removeFirstSorts]
    cases hsort : firstPosition .sort r with
    | none =>
      simp only [Tracked.of, Profile.of, hsort, Edit.applyAll_nil]
      exact ⟨trivial, (unsorted_eq_self hsort).symm⟩
    | some i =>
      obtain ⟨before, sort, after, rfl, rfl, hs, -⟩ := exists_cut_of_firstPosition hsort
      have hfit : (Edit.remove before.length).Fits (before ++ sort :: after) :=
        firstPosition_lt hsort
      have herase : (Edit.remove before.length).apply (before ++ sort :: after) = before ++ after :=
        eraseIdx_cut before after sort
      obtain ⟨hrest, hall⟩ := ih (before ++ after) (by simp at hlength ⊢; omega)
      have hsome : (Tracked.of name (before ++ sort :: after)).profile.sort =
          some before.length := hsort
      have hinside : before.length < (Tracked.of name (before ++ sort :: after)).tokens.length :=
        hfit
      simp only [hsome, if_pos hinside, Tracked.editBy_of h hfit, Edit.AllFit, Edit.applyAll_cons,
        herase]
      refine ⟨⟨hfit, hrest⟩, hall.trans ?_⟩
      rw [unsorted_append, unsorted_append, unsorted_cons_sort hs]

/-- The first rule comes to the same, one by one or all at once. -/
theorem dropOrderingInTurn_of (r : Request) :
    Edit.AllFit (dropOrderingInTurn upkeep (Tracked.of name r)) r ∧
      after (dropOrderingInTurn upkeep) name r = after dropOrdering name r := by
  unfold after dropOrderingInTurn dropOrdering
  split
  · obtain ⟨hfit, hall⟩ := removeFirstSorts_of h r
    have hremove := applyAll_removals .sort [] r []
    simp only [List.length_nil, Nat.zero_add, List.map_id', List.nil_append,
      List.append_nil] at hremove
    exact ⟨hfit, hall.trans hremove.2.symm⟩
  · exact ⟨trivial, rfl⟩

/-- However the profile is kept, the rules make one pipeline of the other, and stay inside. -/
theorem changesBy_of {todo : List (Tracked → List Edit)}
    (htodo : ∀ rule ∈ todo, ∀ r, Edit.AllFit (rule (Tracked.of name r)) r) (r : Request) :
    Edit.AllFit (changesBy upkeep todo (Tracked.of name r)) r ∧
      Edit.applyAll (changesBy upkeep todo (Tracked.of name r)) r =
        todo.foldl (fun r rule => after rule name r) r := by
  induction todo generalizing r with
  | nil => exact ⟨trivial, rfl⟩
  | cons rule todo ih =>
    have hfit := htodo rule (List.mem_cons_self ..) r
    obtain ⟨hrest, hall⟩ := ih (fun other hother => htodo other (List.mem_cons_of_mem _ hother))
      (after rule name r)
    simp only [changesBy, Tracked.runBy_of h hfit]
    refine ⟨Edit.allFit_append hfit hrest, ?_⟩
    rw [Edit.applyAll_append]
    exact hall

/-- The changes of all rules stay inside the pipeline and come to its canonical form. -/
theorem changesBy_rulesInTurn (r : Request) :
    Edit.AllFit (changesBy upkeep (rulesInTurn upkeep) (Tracked.of name r)) r ∧
      canonicalBy upkeep name r = canonical name r := by
  have htodo : ∀ rule ∈ rulesInTurn upkeep, ∀ r, Edit.AllFit (rule (Tracked.of name r)) r := by
    intro rule hrule r
    rcases List.mem_cons.mp hrule with rfl | hrule
    · exact (dropOrderingInTurn_of h r).1
    · exact rules_fit name r rule (List.mem_cons_of_mem _ hrule)
  obtain ⟨hfit, hall⟩ := changesBy_of h htodo r
  refine ⟨hfit, ?_⟩
  rw [canonicalBy, Tracked.runBy_of h hfit, canonical_eq, ← (dropOrderingInTurn_of h r).2]
  exact hall

end Exact

end Canonical

/--
The patched profile never drifts: after every one of a list of changes that stay inside the
pipeline, it is the profile of the pipeline as it is by then. So the rules come to the same if the
profile is read off again after every change, and all their changes stay inside the pipeline.
-/
theorem profile_exact (name : String) (r : Request) :
    (∀ changes made : List Edit, Edit.AllFit changes r → made <+: changes →
      (Tracked.of name r).run made = Tracked.of name (Edit.applyAll made r)) ∧
    canonical name r = Canonical.canonicalBy Profile.patch name r ∧
    canonical name r = Canonical.canonicalBy (.afresh name) name r ∧
    Edit.AllFit (Canonical.changesBy Profile.patch (Canonical.rulesInTurn Profile.patch)
      (Tracked.of name r)) r := by
  have hpatch := Canonical.changesBy_rulesInTurn (Upkeep.exact_patch name) r
  have hafresh := Canonical.changesBy_rulesInTurn (Upkeep.exact_afresh name) r
  refine ⟨?_, hpatch.2.symm, hafresh.2.symm, hpatch.1⟩
  rintro _ made hfit ⟨rest, rfl⟩
  exact Tracked.run_of name (hfit.of_append)

/-- A table in front moves the first sort and the first slice on by one, whatever comes after. -/
theorem tableInFront_profile_exact :
    (Tracked.of "get" [.call "slice" [], .call "sort" []]).run
        [.insert 0 (.table ⟨"people", "id", false⟩)] =
      ⟨[.table ⟨"people", "id", false⟩, .call "slice" [], .call "sort" []],
        ⟨.get, none, some 2, some 1⟩⟩ := by
  have hfit : Edit.AllFit [.insert 0 (.table ⟨"people", "id", false⟩), .remove 2]
      [.call "slice" [], .call "sort" []] := ⟨Nat.zero_le 2, Nat.lt_succ_self 2, trivial⟩
  exact (profile_exact "get" _).1 _ _ hfit (List.prefix_append _ _)

end RequestCompiler
