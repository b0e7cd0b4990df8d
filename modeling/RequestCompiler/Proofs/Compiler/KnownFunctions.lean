import RequestCompiler.Proofs.Compiler.Requests
import RequestCompiler.Proofs.Pipeline.Kept
import RequestCompiler.Proofs.Token.Nested

/-!
# Unknown functions

A function is known as a stage or as a function of expressions. Whatever is compiled calls known
functions only, at any depth (`Compiles.known`, `RowsRun.known`). What the canonical form drops is
not compiled, so an unknown function in a dropped sort goes unnoticed.

* `compile_unknown_function` — an unknown function is an error wherever it is called, in sorts that
  are dropped excepted.
* `droppedInitials_compiles` — in a sort that is dropped it is none.
-/

namespace RequestCompiler

/-- Whether a name is that of a stage or of a function of expressions. -/
def IsKnown (f : String) : Prop :=
  (Phase.ofName? f).isSome = true ∨ (unaryOperator? f).isSome = true ∨
    (BinaryForm.ofName? f).isSome = true ∨ f = "substring"

instance (f : String) : Decidable (IsKnown f) := inferInstanceAs (Decidable (_ ∨ _ ∨ _ ∨ _))

/-- Whether a request calls known functions only, at any depth. -/
abbrev CallsKnown (r : Request) : Prop := Throughout Token.callName? IsKnown r

namespace CallsKnown

theorem of_call {name : String} {arguments : List Request} (hname : IsKnown name)
    (harguments : ∀ argument ∈ arguments, CallsKnown argument) :
    CallsKnown [.call name arguments] :=
  Throughout.call_iff.mpr ⟨fun _ hx => Option.some.inj hx ▸ hname, harguments⟩

theorem of_call_singleton {name : String} {argument : Request} (hname : IsKnown name)
    (h : CallsKnown argument) : CallsKnown [.call name [argument]] :=
  of_call hname (List.forall_mem_singleton.mpr h)

end CallsKnown

/-- Bounds that are parameters call nothing. -/
theorem forall_bounds_known {start stop : String} :
    ∀ bound ∈ [[Token.parameter start], [.parameter stop]], CallsKnown bound :=
  List.forall_mem_cons.mpr ⟨.of_nestedIn_eq_nil rfl rfl,
    List.forall_mem_singleton.mpr (.of_nestedIn_eq_nil rfl rfl)⟩

/-! ## What compiles -/

/-- A compiled expression calls known functions only. -/
theorem Compiles.known {c : Compiler} {context : Context} {requiredness : Requiredness}
    {tokens : List Token} {d d' : Draft} {e : Typed}
    (h : Compiles c context requiredness tokens d e d') : CallsKnown tokens := by
  induction h with
  | join h ih => exact Throughout.cons_iff.mpr ⟨.of_nestedIn_eq_nil rfl rfl, ih⟩
  | parameter h => exact .of_nestedIn_eq_nil rfl rfl
  | read h => exact .of_nestedIn_eq_nil rfl rfl
  | length h ih => exact .of_call_singleton (by decide) ih
  | unary hname hlength h htype ih =>
    exact .of_call_singleton (.inr (.inl (by rw [hname]; rfl))) ih
  | binary hname hleft hright htype ihleft ihright =>
    refine .of_call (.inr (.inr (.inl (by rw [hname]; rfl)))) ?_
    simp only [List.forall_mem_cons, List.not_mem_nil, IsEmpty.forall_iff, implies_true, and_true]
    exact ⟨ihleft, ihright⟩
  | substring h hfirst hlength ih =>
    refine .of_call (by decide) (List.forall_mem_cons.mpr ⟨ih, ?_⟩)
    exact forall_bounds_known

theorem FiltersRun.known {c : Compiler} {context : Context} {arguments : List Request}
    {s s' : Session} {ps : List Expression} (h : FiltersRun c context arguments s ps s') :
    ∀ argument ∈ arguments, CallsKnown argument := by
  induction h with
  | nil => exact fun _ h => by cases h
  | cons hp hrest ih =>
    obtain ⟨e, -, hcompiles, -⟩ := compiles_of_predicate_ok c hp
    exact List.forall_mem_cons.mpr ⟨hcompiles.known, ih⟩

theorem SortsRun.known {c : Compiler} {context : Context} {sorts : List SortKey}
    {s s' : Session} {os : List Order} (h : SortsRun c context sorts s os s') :
    ∀ key ∈ sorts, CallsKnown key.argument := by
  induction h with
  | nil => exact fun _ h => by cases h
  | cons he hrest ih =>
    obtain ⟨hcompiles, -⟩ := compiles_of_expression_ok c _ he
    exact List.forall_mem_cons.mpr ⟨hcompiles.known, ih⟩

/-- The stages of a plan that was followed call known functions only. -/
theorem StagesRun.known {c : Compiler} {method : String} {context : Context} {plan : StagePlan}
    {s s' : Session} {gathered : Gathered} (h : StagesRun c method context plan s gathered s') :
    CallsKnown plan.tokens := by
  obtain @⟨filters, sorts, slice, forked, predicates, orders, limit, _, s₁, s₂, s₃, _, hfilters,
    hsorts, hslice, hfork⟩ := h
  simp only [StagePlan.tokens, Throughout.append_iff]
  refine ⟨⟨⟨.map fun argument hargument => ?_, .map fun key hkey => ?_⟩,
    .map fun bounds _ => ?_⟩, ?_⟩
  · exact CallsKnown.of_call_singleton (by decide) (hfilters.known argument hargument)
  · refine CallsKnown.of_call_singleton ?_ (hsorts.known key hkey)
    cases key.descending <;> decide
  · exact CallsKnown.of_call (by decide) forall_bounds_known
  · cases forked with
    | true => exact CallsKnown.of_call (by decide) fun _ h => by cases h
    | false => exact .nil

/-- So does the canonical form of a pipeline. -/
theorem RowsRun.known {c : Compiler} {name : String} {types : ParameterTypes}
    {pipeline : Request} (run : RowsRun c name types pipeline) :
    CallsKnown (canonical name pipeline) := by
  rw [run.shape]
  exact Throughout.cons_iff.mpr ⟨.of_nestedIn_eq_nil rfl rfl,
    Throughout.append_iff.mpr ⟨.map fun _ _ => .of_nestedIn_eq_nil rfl rfl, run.stages.known⟩⟩

theorem AssignmentsRun.known {c : Compiler} {context : Context}
    {pairs : List (Assignment Request)} {d d' : Draft} {values : List ColumnValue}
    (h : AssignmentsRun c context pairs d values d') : CallsKnown [.assignments pairs] := by
  refine Throughout.assignments_iff.mpr ⟨nofun, ?_⟩
  induction h with
  | nil => exact fun _ h => by cases h
  | cons hcolumn h hrest ih =>
    exact List.forall_mem_cons.mpr ⟨⟨.of_nestedIn_eq_nil rfl rfl, h.known⟩, ih⟩

/-- What a compiled method call is compiled from calls known functions only. -/
theorem Compiled.known {c : Compiler} {name : String} {types : ParameterTypes} {rows : Request}
    {others : List Request} {result : CompiledStatement}
    (h : Compiled c name types (rows :: others) result) :
    (CallsKnown rows ∨ CallsKnown (canonical name rows)) ∧
      ∀ argument ∈ others, CallsKnown argument := by
  cases h with
  | get _ run h hd => exact ⟨.inr run.known, List.forall_mem_singleton.mpr h.known⟩
  | count _ run hd => exact ⟨.inr run.known, fun _ h => by cases h⟩
  | aggregate _ _ run h hd => exact ⟨.inr run.known, List.forall_mem_singleton.mpr h.known⟩
  | delete _ run hd => exact ⟨.inr run.known, fun _ h => by cases h⟩
  | set _ run h hd => exact ⟨.inr run.known, List.forall_mem_singleton.mpr h.known⟩
  | insert _ h =>
    exact ⟨.inl (.of_nestedIn_eq_nil rfl rfl), List.forall_mem_singleton.mpr h.known⟩

/-! ## What the canonical form leaves out -/

namespace CallsKnown

variable {name : String} {r : Request}

/-- The tokens that rules add call known functions, so a token that does not is kept. -/
theorem of_mem (h : CallsKnown (canonical name r)) {t : Token} (ht : t ∈ r)
    (hkept : Operation.sort.performedBy t = true → Canonical.OrderingSettled name r) :
    CallsKnown [t] := by
  by_contra hunknown
  have hfork : t ≠ Canonical.fork := by
    rintro rfl
    exact hunknown (of_call (by decide) fun _ h => by cases h)
  have hidentifier : ∀ scan, t ≠ Canonical.sortByIdentifier scan := by
    rintro scan rfl
    exact hunknown (of_call_singleton (by decide) (.of_nestedIn_eq_nil rfl rfl))
  have hmem : t ∈ canonical name r := (mem_canonical_iff hfork hidentifier).mpr ⟨ht, hkept⟩
  exact hunknown (Throughout.iff_forall.mp h t hmem)

/-- Apart from its sorts, a pipeline calls what its canonical form calls. -/
theorem unsorted_of_canonical (h : CallsKnown (canonical name r)) :
    CallsKnown (Canonical.unsorted r) := by
  refine Throughout.iff_forall.mpr fun t ht => ?_
  obtain ⟨ht, hsort⟩ := List.mem_filter.mp ht
  exact h.of_mem ht fun hsorted => by simp [hsorted] at hsort

/-- So do its sorts, unless the first rule drops them. -/
theorem of_canonical (h : CallsKnown (canonical name r))
    (hsettled : Canonical.OrderingSettled name r) : CallsKnown r :=
  Throughout.iff_forall.mpr fun _ ht => h.of_mem ht fun _ => hsettled

end CallsKnown

/-! ## Errors -/

/--
A request that calls an unknown function does not compile, whether the call stands in a stage, in a
projection or an aggregate, or in an assignment. Only in a sort it must be one that is not dropped.
-/
theorem compile_unknown_function {c : Compiler} {name f : String} {rows : Request}
    {others : List Request} {rest : Request} (hunknown : ¬ IsKnown f)
    (hcalled : f ∈ calledNames (Canonical.unsorted rows) ∨
      (∃ argument ∈ others, f ∈ calledNames argument) ∨
      (f ∈ calledNames rows ∧ Canonical.OrderingSettled name rows)) :
    ∃ cause, c.compile (.call name (rows :: others) :: rest) = .error cause := by
  cases hresult : c.compile (.call name (rows :: others) :: rest) with
  | error cause => exact ⟨cause, rfl⟩
  | ok result =>
    exfalso
    obtain ⟨_, _, hcall, hcompiled⟩ := compiled_of_compile_ok hresult
    cases hcall
    obtain ⟨hrows, hothers⟩ := hcompiled.known
    rcases hcalled with hf | ⟨argument, hargument, hf⟩ | ⟨hf, hsettled⟩
    · have hunsorted : CallsKnown (Canonical.unsorted rows) :=
        hrows.elim (fun h => Throughout.iff_forall.mpr fun t ht =>
          Throughout.iff_forall.mp h t (List.mem_filter.mp ht).1) (·.unsorted_of_canonical)
      exact hunknown (hunsorted f hf)
    · exact hunknown (hothers argument hargument f hf)
    · exact hunknown (hrows.elim id (·.of_canonical hsettled) f hf)

/-- People in the order of their initials in capitals, cut to a page. -/
def pageByInitials : Request :=
  [.table ⟨"people", "id", false⟩,
    .call "rsort"
      [[.call "uppercase" [[.call "initials" [[.read ⟨"people", "name", .string, false⟩]]]]]],
    .call "slice" [[.parameter "begin"], [.parameter "end"]]]

/-- The slice behind the sort keeps it, so the function in its key is missed. -/
theorem pageByInitials_unknown_function :
    ¬ IsKnown "initials" ∧ "initials" ∈ calledNames pageByInitials ∧
      Canonical.OrderingSettled "sum" pageByInitials ∧
      ∃ cause, standardCompiler.compile
        [.call "sum" [pageByInitials, [.read ⟨"people", "age", .integer, false⟩]]] =
          .error cause := by
  have hcalled : "initials" ∈ calledNames pageByInitials := by decide
  have hsettled : Canonical.OrderingSettled "sum" pageByInitials := fun _ _ => by decide
  exact ⟨by decide, hcalled, hsettled,
    compile_unknown_function (by decide) (.inr (.inr ⟨hcalled, hsettled⟩))⟩

/-! ## An unknown function in a dropped sort -/

/-- People in the order of their initials. -/
def sortedByInitials : Request :=
  [.table ⟨"people", "id", false⟩,
    .call "sort" [[.call "initials" [[.read ⟨"people", "name", .string, false⟩]]]]]

/-- To count people their order does not matter, and the function in its key is not missed. -/
theorem droppedInitials_compiles :
    ¬ IsKnown "initials" ∧ "initials" ∈ calledNames sortedByInitials ∧
      standardCompiler.compile [.call "count" [sortedByInitials]] = .ok
        { statement := .select
            { source := .table "people", projection := [⟨.aggregateRows .count, none⟩] } none
          parameters := []
          output := .value (some .integer) } :=
  ⟨by decide, by decide, rfl⟩

end RequestCompiler
