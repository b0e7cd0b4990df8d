import RequestCompiler.Proofs.Compiler.Pagination
import RequestCompiler.Proofs.Compiler.TypeAgreement

/-!
# Requests in canonical form

A pipeline is compiled from its canonical form, which is its own canonical form, so a request whose
pipeline is canonical already is compiled from the same stages. The types of its parameters are
inferred from the pipeline as it was written, though. Sorts that the canonical form drops or moves
take part in that, and the first type found for a parameter stays.

* `compile_canonical` — a request is compiled as it is with its pipeline in canonical form, if the
  parameters of sorts that are dropped or moved stand in sorts only.
* `sharedParameter_not_canonical` — if they do not, a parameter may have another type.
-/

namespace RequestCompiler

open Compilation ParameterTypes

/-! ## Rules on a canonical form -/

namespace Canonical

/-- In a canonical form no sort is left that does not show. -/
theorem orderingSettled_canonical (name : String) (r : Request) :
    OrderingSettled name (canonical name r) := by
  rw [canonical_eq]
  exact (orderingSettled_after_dropOrdering name r).orderPagination.isolateAggregation.filterFirst

/-- No rule changes a canonical form. -/
theorem after_canonical {rule : Tracked → List Edit} (hrule : rule ∈ rules) (name : String)
    (r : Request) : after rule name (canonical name r) = canonical name r := by
  refine after_idle ?_
  simp only [rules, List.mem_cons, List.not_mem_nil, or_false] at hrule
  rcases hrule with rfl | rfl | rfl | rfl
  · exact dropOrdering_eq_nil_iff.mpr (orderingSettled_canonical name r)
  · exact orderPagination_eq_nil_iff.mpr (paginationSettled_canonical name r)
  · exact isolateAggregation_eq_nil_iff.mpr (aggregationSettled_canonical name r)
  · rw [canonical_eq]
    exact filterFirst_settles name _

end Canonical

/-! ## Compiling a canonical form -/

section Openings

variable {c : Compiler} {name : String} {rows : Request}

/-- A pipeline is compiled from its canonical form, and so is its canonical form. -/
theorem overRows_canonical (body : TableScan → Context → Compilation Closing) :
    c.overRows name (canonical name rows) body = c.overRows name rows body := by
  have htwice : canonical name (canonical name rows) = canonical name rows := by
    rw [canonical_eq name (canonical name rows),
      Canonical.after_canonical (by simp [Canonical.rules]),
      Canonical.after_canonical (by simp [Canonical.rules]),
      Canonical.after_canonical (by simp [Canonical.rules]),
      Canonical.after_canonical (by simp [Canonical.rules])]
  rw [Compiler.overRows, Compiler.overRows, htwice]

section Calls

variable {first first' : Request} {others : List Request}
  {k : MethodCall → Except CompileError Opening}

theorem withOne_congr {call : Request → MethodCall} (h : k (call first) = k (call first')) :
    (MethodCall.withOne name (first :: others) call >>= k) =
      (MethodCall.withOne name (first' :: others) call >>= k) := by
  cases others with
  | nil => exact h
  | cons second others => rfl

theorem withTwo_congr {call : Request → Request → MethodCall}
    (h : ∀ second, k (call first second) = k (call first' second)) :
    (MethodCall.withTwo name (first :: others) call >>= k) =
      (MethodCall.withTwo name (first' :: others) call >>= k) := by
  match others with
  | [] => rfl
  | [second] => exact h second
  | _ :: _ :: _ => rfl

end Calls

/-- A method call opens the same over rows and over their canonical form. -/
theorem methodCall_canonical (hmethod : Method.ofName name ≠ .insert) (others : List Request) :
    (MethodCall.of name (canonical name rows :: others) >>= c.methodCall name) =
      (MethodCall.of name (rows :: others) >>= c.methodCall name) := by
  unfold MethodCall.of
  cases hname : Method.ofName name with
  | get => exact withTwo_congr fun _ => overRows_canonical _
  | count => exact withOne_congr (overRows_canonical _)
  | delete => exact withOne_congr (overRows_canonical _)
  | set => exact withTwo_congr fun _ => overRows_canonical _
  | insert => exact absurd hname hmethod
  | aggregate =>
    simp only
    split
    · rfl
    · exact withTwo_congr fun _ => overRows_canonical _

end Openings

/-! ## The types of a request and of its canonical form -/

/-- Whether a token mentions parameters, at any depth. -/
def Token.mentionsParameters (t : Token) : Bool := !(parameterNames [t]).isEmpty

theorem Token.mentionsParameters_of_mem {t : Token} {parameter : String}
    (h : parameter ∈ parameterNames [t]) : t.mentionsParameters = true := by
  rw [mentionsParameters, Bool.not_eq_true', List.isEmpty_eq_false_iff]
  exact List.ne_nil_of_mem h

/-- Whether the tokens that mention parameters stand as they do in the canonical form. -/
def ParametersInPlace (name : String) (rows : Request) : Prop :=
  (canonical name rows).filter Token.mentionsParameters = rows.filter Token.mentionsParameters

instance (name : String) (rows : Request) : Decidable (ParametersInPlace name rows) :=
  inferInstanceAs (Decidable (_ = _))

/--
Whether the parameters of sorts stand in no other stage and, where sorts are dropped, in no other
argument.
-/
structure SortsApart (name : String) (rows : Request) (others : List Request) : Prop where
  stages : ∀ parameter ∈ parameterNames (Canonical.sorts rows),
    parameter ∉ parameterNames (Canonical.unsorted rows)
  others : ¬ Canonical.OrderingSettled name rows →
    ∀ parameter ∈ parameterNames (Canonical.sorts rows), ∀ argument ∈ others,
      parameter ∉ parameterNames argument

section Types

variable {name : String} {rows : Request}

/-- Sorts that mention parameters. -/
def sortsByParameters (t : Token) : Bool := Operation.sort.performedBy t && t.mentionsParameters

/-- Other tokens that mention parameters. -/
def usesParameters (t : Token) : Bool := !Operation.sort.performedBy t && t.mentionsParameters

theorem filter_sortsByParameters_canonical (h : Canonical.OrderingSettled name rows) :
    (canonical name rows).filter sortsByParameters = rows.filter sortsByParameters :=
  filter_canonical_sorts (fun t ht => by simp [sortsByParameters, ht]) (fun _ => rfl) h

theorem filter_usesParameters_canonical (name : String) (rows : Request) :
    (canonical name rows).filter usesParameters = rows.filter usesParameters :=
  filter_canonical (fun t ht => by simp [usesParameters, ht]) (by decide) name rows

/-- The tokens that rules add mention no parameters. -/
theorem mem_of_mem_canonical {t : Token} (ht : t ∈ canonical name rows)
    (hmentions : t.mentionsParameters = true) :
    t ∈ rows ∧ (Operation.sort.performedBy t = true → Canonical.OrderingSettled name rows) := by
  refine (mem_canonical_iff ?_ ?_).mp ht
  · rintro rfl
    cases hmentions
  · rintro scan rfl
    cases hmentions

end Types

/-- Whether a parameter is left in the canonical form: all are, unless sorts are dropped. -/
def ParameterLeft (name : String) (rows : Request) (parameter : String) : Prop :=
  Canonical.OrderingSettled name rows ∨ parameter ∉ parameterNames (Canonical.sorts rows)

namespace SortsApart

variable {name : String} {rows : Request} {others : List Request}
  (h : SortsApart name rows others)

include h

/-- A token with a parameter of a sort is a sort. -/
theorem performedBy_iff {t : Token} (ht : t ∈ rows) {parameter : String}
    (hparameter : parameter ∈ parameterNames [t]) : Operation.sort.performedBy t = true ↔
      parameter ∈ parameterNames (Canonical.sorts rows) := by
  constructor
  · intro hsort
    exact (mem_collect_iff _).mpr ⟨t, List.mem_filter.mpr ⟨ht, hsort⟩, hparameter⟩
  · intro hmem
    by_contra hsort
    refine h.stages parameter hmem ((mem_collect_iff _).mpr ⟨t, ?_, hparameter⟩)
    exact List.mem_filter.mpr ⟨ht, by simpa using hsort⟩

/-- Where tokens with parameters are those of the pipeline, sorts have parameters of their own. -/
theorem parts_sorts {r : Request} (hr : ∀ t ∈ r, t.mentionsParameters = true → t ∈ rows) :
    Parts sortsByParameters (· ∈ parameterNames (Canonical.sorts rows)) r := by
  intro t ht parameter hparameter
  have hmentions := Token.mentionsParameters_of_mem hparameter
  rw [sortsByParameters, hmentions, Bool.and_true]
  exact h.performedBy_iff (hr t ht hmentions) hparameter

/-- And so have all other tokens. -/
theorem parts_uses {r : Request} (hr : ∀ t ∈ r, t.mentionsParameters = true → t ∈ rows) :
    Parts usesParameters (· ∉ parameterNames (Canonical.sorts rows)) r := by
  intro t ht parameter hparameter
  have hmentions := Token.mentionsParameters_of_mem hparameter
  rw [usesParameters, hmentions, Bool.and_true, Bool.not_eq_true', ← Bool.not_eq_true,
    h.performedBy_iff (hr t ht hmentions) hparameter]

/-- The parameters that are left have the same types in the pipeline and in its canonical form. -/
theorem agreeOn_ofRequest (signatures : SignatureTable) (types : ParameterTypes) :
    AgreeOn (ParameterLeft name rows) (ofRequest signatures (canonical name rows) none types).2
      (ofRequest signatures rows none types).2 := by
  intro parameter hleft
  by_cases hsort : parameter ∈ parameterNames (Canonical.sorts rows)
  · have hsettled := hleft.resolve_right (not_not_intro hsort)
    exact agreeOn_ofRequest_of_filter (filter_sortsByParameters_canonical hsettled)
      (h.parts_sorts fun _ ht hmentions => (mem_of_mem_canonical ht hmentions).1)
      (h.parts_sorts fun _ ht _ => ht) signatures types parameter hsort
  · exact agreeOn_ofRequest_of_filter (filter_usesParameters_canonical name rows)
      (h.parts_uses fun _ ht hmentions => (mem_of_mem_canonical ht hmentions).1)
      (h.parts_uses fun _ ht _ => ht) signatures types parameter hsort

theorem throughout_canonical :
    Throughout Token.parameter? (ParameterLeft name rows) (canonical name rows) := by
  intro parameter hparameter
  obtain ⟨t, ht, hparameter⟩ := (mem_collect_iff _).mp hparameter
  obtain ⟨ht, hkept⟩ := mem_of_mem_canonical ht (Token.mentionsParameters_of_mem hparameter)
  by_cases hsort : Operation.sort.performedBy t = true
  · exact Or.inl (hkept hsort)
  · exact Or.inr fun hmem => hsort ((h.performedBy_iff ht hparameter).mpr hmem)

theorem throughout_others :
    ∀ argument ∈ others, Throughout Token.parameter? (ParameterLeft name rows) argument := by
  intro argument hargument parameter hparameter
  by_cases hsettled : Canonical.OrderingSettled name rows
  · exact Or.inl hsettled
  · exact Or.inr fun hsort => h.others hsettled parameter hsort argument hargument hparameter

end SortsApart

/-- In place, the parameters of a pipeline and of its canonical form have the same types. -/
theorem ParametersInPlace.agreeOn_ofRequest {name : String} {rows : Request}
    (h : ParametersInPlace name rows) (signatures : SignatureTable) (types : ParameterTypes) :
    AgreeOn (fun _ => True) (ofRequest signatures (canonical name rows) none types).2
      (ofRequest signatures rows none types).2 := by
  have hparts (r : Request) : Parts Token.mentionsParameters (fun _ => True) r :=
    fun t _ parameter hparameter =>
      iff_of_true (Token.mentionsParameters_of_mem hparameter) trivial
  exact agreeOn_ofRequest_of_filter h (hparts _) (hparts _) signatures types

/-! ## Requests -/

/--
Bringing the pipeline of a request into canonical form first makes no difference to what it is
compiled to, or to the error, unless the types of parameters are inferred and a parameter of a sort
stands elsewhere too.
-/
theorem compile_canonical {c : Compiler} {name : String} {rows : Request} {others : List Request}
    {rest : Request} (hmethod : Method.ofName name ≠ .insert)
    (hparameters : c.settings.inferParameterTypes = true →
      ParametersInPlace name rows ∨ SortsApart name rows others) :
    c.compile (.call name (canonical name rows :: others) :: rest) =
      c.compile (.call name (rows :: others) :: rest) := by
  obtain ⟨P, hrows, hothers, htypes⟩ : ∃ P,
      Throughout Token.parameter? P (canonical name rows) ∧
      (∀ argument ∈ others, Throughout Token.parameter? P argument) ∧
      AgreeOn P (c.parameterTypes (.call name (canonical name rows :: others) :: rest))
        (c.parameterTypes (.call name (rows :: others) :: rest)) := by
    unfold Compiler.parameterTypes
    split
    · next hinfer =>
      rcases hparameters hinfer with hplace | hapart
      · exact ⟨fun _ => True, fun _ _ => trivial, fun _ _ _ _ => trivial,
          agreeOn_ofArguments (hplace.agreeOn_ofRequest _ _) fun _ _ _ _ => trivial⟩
      · exact ⟨_, hapart.throughout_canonical, hapart.throughout_others,
          agreeOn_ofArguments (hapart.agreeOn_ofRequest _ _) hapart.throughout_others⟩
    · exact ⟨fun _ => True, fun _ _ => trivial, fun _ _ _ _ => trivial, .refl _⟩
  have hopening : c.opening (.call name (canonical name rows :: others) :: rest) =
      c.opening (.call name (rows :: others) :: rest) := methodCall_canonical hmethod others
  unfold Compiler.compile
  rw [hopening]
  cases ho : c.opening (.call name (rows :: others) :: rest) with
  | error cause => rfl
  | ok o =>
    obtain ⟨head, hhead, ho⟩ := resultBind_ok.mp ho
    cases hhead
    obtain ⟨call, hcall, ho⟩ := resultBind_ok.mp ho
    exact Opening.run_congr (respects_methodCall hmethod hcall ho hrows hothers) htypes

/-- A page of people up to an age, those of a name last, with the sort before the filter. -/
def namesakesLast : Request :=
  [.table ⟨"people", "id", false⟩,
    .call "sort" [[.call "equal"
      [[.read ⟨"people", "name", .string, false⟩], [.parameter "name"]]]],
    .call "filter" [[.call "less"
      [[.read ⟨"people", "age", .integer, false⟩], [.parameter "age"]]]],
    .call "slice" [[.parameter "begin"], [.parameter "end"]]]

/-- How many years are left up to that age. -/
def yearsLeft : Request :=
  [.call "minus" [[.parameter "age"], [.read ⟨"people", "age", .integer, false⟩]]]

/-- The sort steps behind the filter, and its parameter goes with it. -/
theorem namesakesLast_compile_canonical :
    ¬ ParametersInPlace "get" namesakesLast ∧ SortsApart "get" namesakesLast [yearsLeft] ∧
      standardCompiler.compile [.call "get" [canonical "get" namesakesLast, yearsLeft]] =
        standardCompiler.compile [.call "get" [namesakesLast, yearsLeft]] := by
  have hapart : SortsApart "get" namesakesLast [yearsLeft] :=
    ⟨by decide, fun hsettled => absurd (fun hignores _ => absurd hignores (by decide)) hsettled⟩
  exact ⟨by decide, hapart, compile_canonical (by decide) fun _ => .inr hapart⟩

/-! ## A parameter of a dropped sort -/

/-- People up to an age, in an order that compares their names with the age. -/
def namedByAge : Request :=
  [.table ⟨"people", "id", false⟩,
    .call "sort" [[.call "equal"
      [[.read ⟨"people", "name", .string, false⟩], [.parameter "x"]]]],
    .call "filter" [[.call "less"
      [[.read ⟨"people", "age", .integer, false⟩], [.parameter "x"]]]]]

/-- What their number is compiled to, if the parameter has this type. -/
def namedByAgeCompiled (type : ValueType) : CompiledStatement where
  statement := .select
    { source := .table "people"
      filter := some (.binary .less (.column .root "age") (.argument 0))
      projection := [⟨.aggregateRows .count, none⟩] } none
  parameters := [⟨.named "x" .required, some type⟩]
  output := .value (some .integer)

/-- The sort is dropped, but the parameter keeps the type it has in the sort. -/
theorem sharedParameter_not_canonical :
    standardCompiler.compile [.call "count" [namedByAge]] = .ok (namedByAgeCompiled .string) ∧
      standardCompiler.compile [.call "count" [canonical "count" namedByAge]] =
        .ok (namedByAgeCompiled .integer) ∧
      standardCompiler.compile [.call "count" [canonical "count" namedByAge]] ≠
        standardCompiler.compile [.call "count" [namedByAge]] := by
  have hwritten : standardCompiler.compile [.call "count" [namedByAge]] =
    .ok (namedByAgeCompiled .string) := rfl
  have hcanonical : standardCompiler.compile [.call "count" [canonical "count" namedByAge]] =
    .ok (namedByAgeCompiled .integer) := rfl
  refine ⟨hwritten, hcanonical, ?_⟩
  rw [hwritten, hcanonical, ne_eq, Except.ok.injEq]
  decide

end RequestCompiler
