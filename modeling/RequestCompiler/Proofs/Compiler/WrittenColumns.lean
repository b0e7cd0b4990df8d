import RequestCompiler.Proofs.Compiler.Requests
import RequestCompiler.Proofs.Pipeline.Arrangement

/-!
# The columns that are written

An assigned property is one token, which the resolver must read as a column of the root. Whether
the property is one of the written table is not looked at: the default resolver goes by the name
of the property alone, and of its table nothing is left in the column.

* `AssignmentsRun.columns` — what is written are the columns that the resolver reads.
* `refines_assignments` — assignments yield the same whatever tables their properties name.
* `compile_written_columns` — so it is for every compiled update and insertion.
* `foreignColumn_written` — a property of another table is written.
-/

namespace RequestCompiler

open Compilation

/-- Whether a statement writes values to a table. -/
inductive Statement.Writes (table : String) (values : List ColumnValue) : Statement → Prop where
  | update {rows : Select} (hsource : rows.source = .table table) :
      Writes table values (.update rows values)
  | insert : Writes table values (.insert table values)

/-- Whether a value is written to the column as which the resolver reads an assigned property. -/
def Compiler.WritesTo (c : Compiler) (pair : Assignment Request) (value : ColumnValue) : Prop :=
  ∃ property type, pair.property = [.read property] ∧
    c.resolver property .root none = .ok (.column .root value.column, type)

theorem resolver_of_assignedColumn_ok {c : Compiler} {property : Property} {column : String}
    {type : ValueType} (h : c.assignedColumn property = .ok (column, type)) :
    c.resolver property .root none = .ok (.column .root column, type) := by
  unfold Compiler.assignedColumn at h
  split at h
  · cases h
  · next hresolver =>
    cases h
    exact hresolver
  · cases h

/-- What is written are the columns as which the resolver reads the assigned properties. -/
theorem AssignmentsRun.columns {c : Compiler} {context : Context}
    {pairs : List (Assignment Request)} {d d' : Draft} {values : List ColumnValue}
    (h : AssignmentsRun c context pairs d values d') : List.Forall₂ c.WritesTo pairs values := by
  induction h with
  | nil => exact .nil
  | cons hcolumn h hrest ih =>
    exact .cons ⟨_, _, rfl, resolver_of_assignedColumn_ok hcolumn⟩ ih

/-! ## Other tables -/

/-- The assignment of a property of the same name in another table. -/
def Assignment.inTable (f : Property → String) (pair : Assignment Request) : Assignment Request :=
  match pair.property with
  | [.read property] => { pair with property := [.read { property with table := f property }] }
  | _ => pair

theorem Assignment.value_inTable (f : Property → String) (pair : Assignment Request) :
    (pair.inTable f).value = pair.value := by
  unfold inTable
  split <;> rfl

/-- A property has its type in every table. -/
theorem ofRequest_inTable (signatures : SignatureTable) (f : Property → String)
    (pair : Assignment Request) (types : ParameterTypes) :
    ParameterTypes.ofRequest signatures (pair.inTable f).property none types =
      ParameterTypes.ofRequest signatures pair.property none types := by
  unfold Assignment.inTable
  split
  · next property hproperty =>
    rw [hproperty]
    rfl
  · rfl

/-- The types of parameters do not depend on the tables of assigned properties. -/
theorem ofPairs_inTable (signatures : SignatureTable) (f : Property → String)
    (pairs : List (Assignment Request)) (types : ParameterTypes) :
    ParameterTypes.ofPairs signatures (pairs.map (Assignment.inTable f)) types =
      ParameterTypes.ofPairs signatures pairs types := by
  induction pairs generalizing types with
  | nil => rfl
  | cons pair rest ih =>
    show ParameterTypes.ofPairs signatures
      (⟨(pair.inTable f).property, (pair.inTable f).value⟩ :: rest.map (Assignment.inTable f))
        types = ParameterTypes.ofPairs signatures (⟨pair.property, pair.value⟩ :: rest) types
    rw [ParameterTypes.ofPairs, ParameterTypes.ofPairs, pair.value_inTable, ofRequest_inTable]
    simp only [ih]

theorem parameterTypes_inTable (c : Compiler) (name : String) (rows : Request)
    (f : Property → String) (pairs : List (Assignment Request)) (rest : Request) :
    c.parameterTypes
        (.call name [rows, [.assignments (pairs.map (Assignment.inTable f))]] :: rest) =
      c.parameterTypes (.call name [rows, [.assignments pairs]] :: rest) := by
  unfold Compiler.parameterTypes inferTypes ParameterTypes.ofArguments
  simp only [ParameterTypes.ofOperands, ParameterTypes.ofRequest, ParameterTypes.ofToken,
    ofPairs_inTable]

namespace Compilation

variable {α β : Type} {x y : Compilation α}

/-- Whether a computation succeeds where another one does, with the same result. -/
def Refines (x y : Compilation α) : Prop := ∀ s a t, x s = .ok a t → y s = .ok a t

namespace Refines

theorem refl (x : Compilation α) : Refines x x := fun _ _ _ h => h

theorem ofResult {r r' : Except CompileError α} (h : ∀ a, r = .ok a → r' = .ok a) :
    Refines (ofResult r) (ofResult r') := by
  intro s a t hok
  obtain ⟨hr, rfl⟩ := ofResult_eq_ok.mp hok
  rw [h a hr]
  rfl

theorem bind {f g : α → Compilation β} (h : Refines x y) (hf : ∀ a, Refines (f a) (g a)) :
    Refines (x >>= f) (y >>= g) := by
  intro s b t hok
  obtain ⟨a, u, ha, hb⟩ := bind_eq_ok.mp hok
  exact bind_eq_ok.mpr ⟨a, u, h s a u ha, hf a u b t hb⟩

theorem run_ok {table : String} {body body' : Compilation Closing} (h : Refines body body')
    {types : ParameterTypes} {result : CompiledStatement}
    (hok : (Opening.mk table body).run types = .ok result) :
    (Opening.mk table body').run types = .ok result := by
  unfold Opening.run at hok ⊢
  dsimp only at hok ⊢
  cases hbody : body (Session.start table types) with
  | error cause s =>
    rw [hbody] at hok
    cases hok
  | ok close s =>
    rw [hbody] at hok
    rw [h _ close s hbody]
    exact hok

theorem overRows_ok {c : Compiler} {name : String} {types : ParameterTypes} {rows : Request}
    {body body' : TableScan → Context → Compilation Closing}
    (h : ∀ scan context, Refines (body scan context) (body' scan context))
    {result : CompiledStatement}
    (hok : (c.overRows name rows body >>= fun o => o.run types) = .ok result) :
    (c.overRows name rows body' >>= fun o => o.run types) = .ok result := by
  unfold Compiler.overRows at hok ⊢
  split at hok
  · next scan stages _ => exact run_ok (.bind (.refl _) fun context => h scan context) hok
  · cases hok

end Refines

end Compilation

section Refines

variable {c : Compiler} (hresolver : c.resolver = columnResolver) (f : Property → String)
  (context : Context)

include hresolver

/-- The default resolver reads a property at the root by its name alone. -/
theorem assignedColumn_inTable {property : Property} {column : String × ValueType}
    (h : c.assignedColumn property = .ok column) (table : String) :
    c.assignedColumn { property with table := table } = .ok column := by
  unfold Compiler.assignedColumn at h ⊢
  rw [hresolver] at h ⊢
  unfold columnResolver at h ⊢
  cases hname : isBlank property.expression with
  | true =>
    simp only [hname, if_true] at h
    cases h
  | false =>
    simp only [hname] at h ⊢
    exact h

theorem refines_assignment (pair : Assignment Request) :
    Refines (c.assignment context pair) (c.assignment context (pair.inTable f)) := by
  obtain ⟨tokens, value⟩ := pair
  unfold Assignment.inTable
  dsimp only
  split
  · next property =>
    show Refines (ofResult (c.assignedColumn property) >>= _)
      (ofResult (c.assignedColumn { property with table := f property }) >>= _)
    exact .bind (.ofResult fun column h => assignedColumn_inTable hresolver h _) fun _ => .refl _
  · exact .refl _

/-- Assignments yield the same whatever tables their properties name. -/
theorem refines_assignments (pairs : List (Assignment Request)) :
    Refines (c.assignments context pairs)
      (c.assignments context (pairs.map (Assignment.inTable f))) := by
  induction pairs with
  | nil => exact .refl _
  | cons pair rest ih =>
    exact .bind (refines_assignment hresolver f context pair) fun _ => .bind ih fun _ => .refl _

/-- So does a request that writes them. -/
theorem compile_inTable {name : String} (hname : name = "set" ∨ name = "insert")
    {rows rest : Request} {pairs : List (Assignment Request)} {result : CompiledStatement}
    (h : c.compile (.call name [rows, [.assignments pairs]] :: rest) = .ok result) :
    c.compile (.call name [rows, [.assignments (pairs.map (Assignment.inTable f))]] :: rest) =
      .ok result := by
  unfold Compiler.compile at h ⊢
  rw [parameterTypes_inTable]
  rcases hname with rfl | rfl
  · refine Refines.overRows_ok (fun _ context s close t hok => ?_) h
    exact Refines.bind (refines_assignments hresolver f context pairs) (fun _ => .refl _) s close t
      hok
  · obtain ⟨o, ho, h⟩ := resultBind_ok.mp h
    obtain ⟨_, hhead, ho⟩ := resultBind_ok.mp ho
    cases hhead
    obtain ⟨call, hcall, ho⟩ := resultBind_ok.mp ho
    cases hcall
    obtain ⟨scan, hscan, ho⟩ := resultBind_ok.mp ho
    cases ho
    refine resultBind_ok.mpr ⟨_, resultBind_ok.mpr ⟨_, rfl, resultBind_ok.mpr ⟨_, rfl,
      resultBind_ok.mpr ⟨scan, hscan, rfl⟩⟩⟩, ?_⟩
    exact Refines.run_ok (.bind (refines_assignments hresolver f .root pairs) fun _ => .refl _) h

end Refines

/-- The table that is written heads the pipeline, unless it is sorts that do. -/
theorem RowsRun.head?_unsorted {c : Compiler} {name : String} {types : ParameterTypes}
    {pipeline : Request} (run : RowsRun c name types pipeline)
    (hscalar : (Method.ofName name).isScalar = false) :
    (Canonical.unsorted pipeline).head? = some (.table run.scan) := by
  rcases Canonical.unsorted_canonical name pipeline with h | ⟨h, -⟩
  · rw [← h, run.shape]
    rfl
  · rw [hscalar] at h
    cases h

/--
A compiled update or insertion writes to the table at the head of its pipeline. Each property in
its assignments is one token, and the column that is written is the one of the root as which the
resolver reads it. The default resolver does not look at the table of the property: with any other
tables in their places, the request is compiled to the same.
-/
theorem compile_written_columns {c : Compiler} {name : String} {arguments : List Request}
    {rest : Request} {result : CompiledStatement} (hname : name = "set" ∨ name = "insert")
    (h : c.compile (.call name arguments :: rest) = .ok result) :
    ∃ scan rows pairs values, arguments = [rows, [.assignments pairs]] ∧
      (Canonical.unsorted rows).head? = some (.table scan) ∧
      result.statement.Writes scan.table values ∧
      List.Forall₂ c.WritesTo pairs values ∧
      (c.resolver = columnResolver → ∀ f : Property → String,
        c.compile (.call name [rows, [.assignments (pairs.map (Assignment.inTable f))]] :: rest) =
          .ok result) := by
  obtain ⟨_, _, hhead, hcompiled⟩ := compiled_of_compile_ok h
  cases hhead
  cases hcompiled with
  | set hmethod run hvalues hd =>
    exact ⟨run.scan, _, _, _, rfl, run.head?_unsorted (by rw [hmethod]; rfl), .update rfl,
      hvalues.columns, fun hresolver f => compile_inTable hresolver f hname h⟩
  | insert hmethod hvalues =>
    exact ⟨_, _, _, _, rfl, rfl, .insert, hvalues.columns,
      fun hresolver f => compile_inTable hresolver f hname h⟩
  | get hmethod => rcases hname with rfl | rfl <;> cases hmethod
  | count hmethod => rcases hname with rfl | rfl <;> cases hmethod
  | aggregate hmethod => rcases hname with rfl | rfl <;> cases hmethod
  | delete hmethod => rcases hname with rfl | rfl <;> cases hmethod

/-- A name, and a year more of age. -/
def birthdayPairs : List (Assignment Request) :=
  [⟨[.read ⟨"people", "name", .string, false⟩], [.parameter "name"]⟩,
    ⟨[.read ⟨"people", "age", .integer, true⟩],
      [.call "plus" [[.read ⟨"people", "age", .integer, true⟩], [.parameter "years"]]]⟩]

/-- Written to the people of an age; that they are sorted makes no difference. -/
def birthday (pairs : List (Assignment Request)) : Request :=
  [.call "set"
    [[.call "sort" [[.read ⟨"people", "name", .string, false⟩]],
      .table ⟨"people", "id", false⟩,
      .call "filter" [[.call "equal" [[.read ⟨"people", "age", .integer, true⟩],
        [.parameter "age"]]]]],
    [.assignments pairs]]]

/-- In the tables of cities and countries, there are names and ages as well. -/
theorem birthday_written_columns :
    ∃ result values, standardCompiler.compile (birthday birthdayPairs) = .ok result ∧
      values.map (·.column) = ["name", "age"] ∧ result.statement.Writes "people" values ∧
      List.Forall₂ standardCompiler.WritesTo birthdayPairs values ∧
      standardCompiler.compile (birthday (birthdayPairs.map
        (Assignment.inTable fun property => if property.hasZero then "countries" else "cities"))) =
          .ok result := by
  have h : ∃ result, standardCompiler.compile (birthday birthdayPairs) = .ok result := ⟨_, rfl⟩
  obtain ⟨result, h⟩ := h
  obtain ⟨scan, rows, pairs, values, harguments, hhead, hwrites, hcolumns, htables⟩ :=
    compile_written_columns (.inl rfl) h
  cases harguments
  cases hhead
  refine ⟨result, values, h, ?_, hwrites, hcolumns, htables rfl _⟩
  cases h
  cases hwrites
  rfl

/-! ## A property of another table -/

/-- The name of a city, taken for one of a person. -/
def foreignPairs : List (Assignment Request) :=
  [⟨[.read ⟨"cities", "name", .string, false⟩], [.parameter "name"]⟩]

/-- A property of another table is written, by an update and by an insertion. -/
theorem foreignColumn_written :
    standardCompiler.compile
        [.call "set" [[.table ⟨"people", "id", false⟩], [.assignments foreignPairs]]] =
      .ok ⟨.update { source := .table "people" } [⟨"name", .argument 0⟩],
        [⟨.named "name" .required, some .string⟩], .mutation⟩ ∧
    standardCompiler.compile
        [.call "insert" [[.table ⟨"people", "id", false⟩], [.assignments foreignPairs]]] =
      .ok ⟨.insert "people" [⟨"name", .argument 0⟩],
        [⟨.named "name" .required, some .string⟩], .mutation⟩ ∧
    ¬ ∀ pair ∈ foreignPairs, ∃ property : Property,
      pair.property = [.read property] ∧ property.table = "people" := by
  refine ⟨rfl, rfl, fun h => ?_⟩
  obtain ⟨property, hproperty, htable⟩ := h _ (List.mem_singleton_self _)
  cases hproperty
  exact absurd htable (by decide)

end RequestCompiler
