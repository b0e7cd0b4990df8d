import RequestCompiler.Proofs.Compiler.Reads

/-!
# The values of insertions

An insertion has no rows, so the joins that its values follow are not part of the statement. They
are followed nevertheless: a property behind a join is compiled to a column of the join, which the
statement cannot read. A contextual join does more than that. It is remembered for the rest of the
insertion, and a property of its table is read at it without standing behind a join.

* `Compiles.selfContained_iff` — without contextual joins, an expression at the root reads no join
  just if none of its properties stands behind one.
* `compile_insert_values` — so it is for the values of a compiled insertion, if there is no
  contextual join in its assignments.
* `rememberedJoin_inserted` — if there is one, a later value can read it.
* `compile_insert_values_staysAtRoot` — what holds of insertions with contextual joins, too.
* `joinedValue_inserted` — a value behind a join is inserted as a column of the join.
-/

namespace RequestCompiler

/-- Whether an expression reads columns of the root only, at any depth. -/
def Expression.SelfContained (e : Expression) : Prop := ∀ column ∈ e.columns, column.1 = .root

/-- Whether no property in an expression stands behind a join. -/
def ReadsAtRoot (tokens : Request) : Prop := ∀ read ∈ readsOf tokens, read.1 = []

/-- Only the root is reached without links. -/
theorem Select.chain_eq_nil_iff {s : Select} {context : Context} :
    s.chain context = some [] ↔ context = .root := by
  rw [chain_eq_some_iff]
  constructor
  · intro h
    generalize hnone : ([] : Chain) = chain at h
    cases h with
    | root => rfl
    | join hj h => simp at hnone
  · rintro rfl
    exact .root

/-- An expression at the root reads no join just if none of its properties stands behind one. -/
theorem Compiles.selfContained_iff {c : Compiler} {requiredness : Requiredness}
    {tokens : List Token} {d d' : Draft} {e : Typed}
    (h : Compiles c .root requiredness tokens d e d') (hresolver : c.resolver = columnResolver)
    (hplain : plainTokens tokens = true) (hcontextual : d.contextual = none)
    (hnumbered : d.builder.active.Numbered) :
    e.expression.SelfContained ↔ ReadsAtRoot tokens := by
  have hreads := h.reads hresolver hplain hcontextual (h.numbered hnumbered) (List.Subset.refl _)
  rw [Select.chain_eq_nil_iff.mpr rfl] at hreads
  -- column by column, the chain of the context is the way that the tokens name
  have hways : e.expression.columns.map (fun column => d'.builder.active.chain column.1) =
      (readsOf tokens).map fun read => some read.1 := by
    simpa [Select.trace, readsUnder, Function.comp_def] using congrArg (List.map Prod.fst) hreads
  calc e.expression.SelfContained
    _ ↔ ∀ way ∈ e.expression.columns.map (fun column => d'.builder.active.chain column.1),
          way = some [] := by
      simp only [Expression.SelfContained, List.forall_mem_map, Select.chain_eq_nil_iff]
    _ ↔ ReadsAtRoot tokens := by
      rw [hways]
      simp only [ReadsAtRoot, List.forall_mem_map, Option.some.injEq]

/-- Assignments at the root yield one value each, which reads no join just if its tokens do not. -/
theorem AssignmentsRun.selfContained_iff {c : Compiler} {pairs : List (Assignment Request)}
    {d d' : Draft} {values : List ColumnValue} (h : AssignmentsRun c .root pairs d values d')
    (hresolver : c.resolver = columnResolver) (hplain : plainPairs pairs = true)
    (hcontextual : d.contextual = none) (hnumbered : d.builder.active.Numbered) :
    List.Forall₂ (fun pair value => value.value.SelfContained ↔ ReadsAtRoot pair.value)
      pairs values := by
  induction h with
  | nil => exact .nil
  | @cons property value rest column type d d' d'' e values hcolumn h hrest ih =>
    simp only [plainPairs, Bool.and_eq_true] at hplain
    obtain ⟨⟨-, hvalue⟩, hpairs⟩ := hplain
    exact .cons (h.selfContained_iff hresolver hvalue hcontextual hnumbered)
      (ih hpairs ((h.contextual_eq hvalue).trans hcontextual) (h.numbered hnumbered))

/-- The values of a compiled insertion are those of its assignments, compiled in a new session. -/
theorem assignmentsRun_of_insert_ok {c : Compiler} {arguments : List Request} {rest : Request}
    {result : CompiledStatement} (h : c.compile (.call "insert" arguments :: rest) = .ok result) :
    ∃ scan pairs types values d, arguments = [[.table scan], [.assignments pairs]] ∧
      result.statement = .insert scan.table values ∧
      AssignmentsRun c .root pairs (Session.start scan.table types).draft values d := by
  obtain ⟨name, _, hcall, hcompiled⟩ := compiled_of_compile_ok h
  cases hcall
  cases hcompiled with
  | @insert scan pairs d values _ hvalues => exact ⟨scan, pairs, _, values, d, rfl, rfl, hvalues⟩
  | get hmethod => cases hmethod
  | count hmethod => cases hmethod
  | aggregate hmethod => cases hmethod
  | delete hmethod => cases hmethod
  | set hmethod => cases hmethod

/--
With the default resolver and without contextual joins in its values, a compiled insertion has one
value for each assignment, and the value reads columns of the root only, just if no property in the
assigned expression stands behind a join. The statement has no select, so no join either.
-/
theorem compile_insert_values {c : Compiler} {arguments : List Request} {rest : Request}
    {result : CompiledStatement} (hresolver : c.resolver = columnResolver)
    (h : c.compile (.call "insert" arguments :: rest) = .ok result) :
    ∃ scan pairs values, arguments = [[.table scan], [.assignments pairs]] ∧
      result.statement = .insert scan.table values ∧
      (plainPairs pairs = true →
        List.Forall₂ (fun pair value => value.value.SelfContained ↔ ReadsAtRoot pair.value)
          pairs values) := by
  obtain ⟨scan, pairs, types, values, d, harguments, hstatement, hvalues⟩ :=
    assignmentsRun_of_insert_ok h
  exact ⟨scan, pairs, values, harguments, hstatement, fun hplain =>
    hvalues.selfContained_iff hresolver hplain rfl (.of_nil rfl)⟩

/-- A name in capitals, an age that may be left out, and the name of the city at home. -/
def newPersonPairs : List (Assignment Request) :=
  [⟨[.read ⟨"people", "name", .string, false⟩], [.call "uppercase" [[.parameter "name"]]]⟩,
    ⟨[.read ⟨"people", "age", .integer, true⟩], [.parameter "age"]⟩,
    ⟨[.read ⟨"people", "town", .string, false⟩],
      [.call "plus" [[.read ⟨"people", "name", .string, false⟩],
        [.join ⟨"cities", "{parent}.city = {child}.id", false⟩,
          .read ⟨"cities", "name", .string, false⟩]]]⟩]

/-- The insertion of a person. -/
def newPerson : Request :=
  [.call "insert" [[.table ⟨"people", "id", false⟩], [.assignments newPersonPairs]]]

/-- What it is compiled to: the last value reads a join that is not there. -/
def newPersonCompiled : CompiledStatement where
  statement := .insert "people"
    [⟨"name", .unary .upper (.argument 0)⟩, ⟨"age", .argument 1⟩,
      ⟨"town", .binary .concat (.column .root "name") (.column (.join 1) "name")⟩]
  parameters := [⟨.named "name" .required, some .string⟩,
    ⟨.named "age" .defaultsToZero, some .integer⟩]
  output := .mutation

theorem newPerson_insert_values :
    standardCompiler.resolver = columnResolver ∧
      standardCompiler.compile newPerson = .ok newPersonCompiled ∧
      ∃ values, newPersonCompiled.statement = .insert "people" values ∧
        List.Forall₂ (fun pair value => value.value.SelfContained ↔ ReadsAtRoot pair.value)
          newPersonPairs values := by
  have h : standardCompiler.compile newPerson = .ok newPersonCompiled := rfl
  obtain ⟨scan, pairs, values, harguments, hstatement, hvalues⟩ := compile_insert_values rfl h
  cases harguments
  exact ⟨rfl, h, values, hstatement, hvalues rfl⟩

/-! ## Contextual joins -/

/-- A town behind a contextual join, and a name of the table to which the join leads. -/
def rememberedJoinPairs : List (Assignment Request) :=
  [⟨[.read ⟨"people", "town", .string, false⟩],
      [.join ⟨"cities", "{parent}.city = {child}.id", true⟩,
        .read ⟨"cities", "name", .string, false⟩]⟩,
    ⟨[.read ⟨"people", "name", .string, false⟩], [.read ⟨"cities", "name", .string, false⟩]⟩]

/-- Without a join in its own expression, the second value reads the join of the first one. -/
theorem rememberedJoin_inserted :
    let values : List ColumnValue :=
      [⟨"town", .column (.join 1) "name"⟩, ⟨"name", .column (.join 1) "name"⟩]
    standardCompiler.compile
        [.call "insert" [[.table ⟨"people", "id", false⟩], [.assignments rememberedJoinPairs]]] =
      .ok ⟨.insert "people" values, [], .mutation⟩ ∧
    plainPairs rememberedJoinPairs = false ∧
    ¬ List.Forall₂ (fun pair value => value.value.SelfContained ↔ ReadsAtRoot pair.value)
      rememberedJoinPairs values := by
  refine ⟨rfl, rfl, fun h => ?_⟩
  cases h with
  | cons _ h =>
    cases h with
    | cons hname _ =>
      have hreads : ReadsAtRoot [.read ⟨"cities", "name", .string, false⟩] :=
        List.forall_mem_singleton.mpr rfl
      have hroot : Context.join 1 = Context.root :=
        hname.mpr hreads (.join 1, "name") (List.mem_singleton_self _)
      cases hroot

/-- The table to which the contextual join last followed leads. -/
def Draft.joinedTable (d : Draft) : Option String := d.contextual.map (·.edge.table)

mutual
/-- The table to which the last contextual join of an expression leads, or the one from before. -/
def tableBehind : List Token → Option String → Option String
  | [], joined => joined
  | t :: rest, joined => tableBehind rest (tableBehindToken t joined)
termination_by structural tokens => tokens

/-- The same for a single token. -/
def tableBehindToken : Token → Option String → Option String
  | .join edge, joined => if edge.contextual then some edge.table else joined
  | .call _ arguments, joined => tableBehindArguments arguments joined
  | _, joined => joined
termination_by structural t => t

/-- The same for operands, one after the other. -/
def tableBehindArguments : List (List Token) → Option String → Option String
  | [], joined => joined
  | argument :: rest, joined => tableBehindArguments rest (tableBehind argument joined)
termination_by structural arguments => arguments
end

mutual
/--
Whether every property in an expression at the root is read there: none stands behind a join, and
none is of the table to which the last contextual join before it leads.
-/
def staysAtRoot : List Token → Option String → Bool
  | [], _ => true
  | .join _ :: rest, _ => (readsOf rest).isEmpty
  | t :: rest, joined => tokenStaysAtRoot t joined && staysAtRoot rest (tableBehindToken t joined)
termination_by structural tokens => tokens

/-- The same for a single token. -/
def tokenStaysAtRoot : Token → Option String → Bool
  | .read property, joined => joined ≠ some property.table
  | .call _ arguments, joined => argumentsStayAtRoot arguments joined
  | _, _ => true
termination_by structural t => t

/-- The same for operands, one after the other. -/
def argumentsStayAtRoot : List (List Token) → Option String → Bool
  | [], _ => true
  | argument :: rest, joined =>
    staysAtRoot argument joined && argumentsStayAtRoot rest (tableBehind argument joined)
termination_by structural arguments => arguments
end

/-- Assignments, each with the table to which the last contextual join before its value leads. -/
def withJoinedTables : Option String → List (Assignment Request) →
    List (Option String × Assignment Request)
  | _, [] => []
  | joined, pair :: rest =>
    (joined, pair) :: withJoinedTables (tableBehind pair.value joined) rest

/-- A property at the root is read there unless its table is the joined one. -/
theorem Draft.readingContext_eq_root_iff (d : Draft) (table : String) :
    readingContext table .root d.contextual = .root ↔ d.joinedTable ≠ some table := by
  unfold joinedTable
  cases d.contextual with
  | none => simp [readingContext]
  | some followed =>
    by_cases htable : followed.edge.table = table <;> simp [readingContext, htable]

theorem staysAtRoot_call_one (name : String) (argument : Request) (joined : Option String) :
    staysAtRoot [.call name [argument]] joined = staysAtRoot argument joined := by
  simp [staysAtRoot, tokenStaysAtRoot, argumentsStayAtRoot]

theorem Draft.joinedTable_followJoin (d : Draft) (context : Context) (edge : JoinEdge) :
    (d.followJoin context edge).2.joinedTable = tableBehindToken (.join edge) d.joinedTable := by
  simp only [Draft.followJoin, joinedTable, tableBehindToken]
  split <;> rfl

namespace Compiles

variable {c : Compiler} {context : Context} {requiredness : Requiredness} {tokens : List Token}
  {d d' : Draft} {e : Typed}

theorem joinedTable_eq (h : Compiles c context requiredness tokens d e d') :
    d'.joinedTable = tableBehind tokens d.joinedTable := by
  induction h with
  | @join context requiredness edge rest d d' e h ih =>
    rw [ih, d.joinedTable_followJoin, tableBehind]
  | parameter h => rfl
  | read h => rfl
  | length h ih => exact ih
  | unary hname hlength h htype ih => exact ih
  | @binary context requiredness name form left right d d' d'' l r type hname hleft hright htype
      ihleft ihright =>
    rw [ihright, ihleft]
    rfl
  | substring h hfirst hlength ih => exact ih

/-- The columns of a compiled expression carry the names of its properties. -/
theorem names (h : Compiles c context requiredness tokens d e d')
    (hresolver : c.resolver = columnResolver) :
    e.expression.columns.map Prod.snd = (readsOf tokens).map Prod.snd := by
  induction h with
  | @join context requiredness edge rest d d' e h ih =>
    rw [ih, readsOf, List.map_map]
    rfl
  | parameter h => rfl
  | read h =>
    rw [hresolver] at h
    rw [columnResolver_ok h]
    rfl
  | length h ih =>
    rw [readsOf_call, List.flatMap_singleton]
    exact ih
  | unary hname hlength h htype ih =>
    rw [readsOf_call, List.flatMap_singleton]
    exact ih
  | binary hname hleft hright htype ihleft ihright =>
    rw [columns_apply, List.map_append, ihleft, ihright, readsOf_call, List.flatMap_cons,
      List.flatMap_singleton, List.map_append]
  | substring h hfirst hlength ih =>
    rw [readsOf_call]
    simpa [Expression.columns, readsOf, tokenReads] using ih

/-- Behind a join nothing is read at the root. -/
theorem ne_root_of_mem_columns (h : Compiles c context requiredness tokens d e d')
    (hresolver : c.resolver = columnResolver) (hcontext : context ≠ .root) :
    ∀ column ∈ e.expression.columns, column.1 ≠ .root := by
  induction h with
  | join h ih => exact ih nofun
  | parameter h => exact fun column hcolumn => by cases hcolumn
  | @read context requiredness property d expression type h =>
    rw [hresolver] at h
    rw [columnResolver_ok h]
    refine List.forall_mem_singleton.mpr ?_
    cases context with
    | root => exact absurd rfl hcontext
    | join number =>
      rw [readingContext_join]
      exact nofun
  | length h ih => exact ih hcontext
  | unary hname hlength h htype ih => exact ih hcontext
  | binary hname hleft hright htype ihleft ihright =>
    rw [columns_apply, List.forall_mem_append]
    exact ⟨ihleft hcontext, ihright hcontext⟩
  | substring h hfirst hlength ih =>
    simpa [Expression.columns] using ih hcontext

/-- An expression at the root reads no join just if its tokens stay at the root. -/
theorem selfContained_iff_staysAtRoot (h : Compiles c .root requiredness tokens d e d')
    (hresolver : c.resolver = columnResolver) :
    e.expression.SelfContained ↔ staysAtRoot tokens d.joinedTable = true := by
  generalize hroot : Context.root = context at h
  induction h with
  | @join context requiredness edge rest d d' e h ih =>
    have hjoined := h.ne_root_of_mem_columns hresolver nofun
    have hempty : e.expression.columns = [] ↔ readsOf rest = [] := by
      rw [← List.map_eq_nil_iff (f := Prod.snd), h.names hresolver, List.map_eq_nil_iff]
    rw [staysAtRoot, List.isEmpty_iff, ← hempty]
    constructor
    · intro hself
      exact List.eq_nil_iff_forall_not_mem.mpr fun column hcolumn =>
        hjoined column hcolumn (hself column hcolumn)
    · intro hcolumns column hcolumn
      rw [hcolumns] at hcolumn
      cases hcolumn
  | parameter h => exact iff_of_true (fun column hcolumn => by cases hcolumn) rfl
  | @read context requiredness property d expression type h =>
    subst hroot
    rw [hresolver] at h
    rw [columnResolver_ok h]
    simp [Expression.SelfContained, Expression.columns, staysAtRoot, tokenStaysAtRoot,
      d.readingContext_eq_root_iff]
  | length h ih =>
    rw [staysAtRoot_call_one]
    exact ih hroot
  | unary hname hlength h htype ih =>
    rw [staysAtRoot_call_one]
    exact ih hroot
  | @binary context requiredness name form left right d d' d'' l r type hname hleft hright htype
      ihleft ihright =>
    have hoperands : (form.apply l r).SelfContained ↔
        l.expression.SelfContained ∧ r.expression.SelfContained := by
      simp only [Expression.SelfContained, columns_apply, List.forall_mem_append]
    rw [hoperands, ihleft hroot, ihright hroot, hleft.joinedTable_eq]
    simp [staysAtRoot, tokenStaysAtRoot, argumentsStayAtRoot]
  | substring h hfirst hlength ih =>
    simpa [Expression.SelfContained, Expression.columns, staysAtRoot, tokenStaysAtRoot,
      argumentsStayAtRoot] using ih hroot

end Compiles

/-- In assignments at the root, contextual joins of a value count for the values behind it, too. -/
theorem AssignmentsRun.selfContained_iff_staysAtRoot {c : Compiler}
    {pairs : List (Assignment Request)} {d d' : Draft} {values : List ColumnValue}
    (h : AssignmentsRun c .root pairs d values d') (hresolver : c.resolver = columnResolver) :
    List.Forall₂ (fun (joined, pair) value =>
        value.value.SelfContained ↔ staysAtRoot pair.value joined = true)
      (withJoinedTables d.joinedTable pairs) values := by
  induction h with
  | nil => exact .nil
  | cons hcolumn h hrest ih =>
    rw [h.joinedTable_eq] at ih
    exact .cons (h.selfContained_iff_staysAtRoot hresolver) ih

/--
With the default resolver, whatever the joins in its values, a compiled insertion has one value for
each assignment. The value reads columns of the root only, just if no property in the assigned
expression stands behind a join or is of the table to which the last contextual join leads, in this
value or in one before it.
-/
theorem compile_insert_values_staysAtRoot {c : Compiler} {arguments : List Request}
    {rest : Request} {result : CompiledStatement} (hresolver : c.resolver = columnResolver)
    (h : c.compile (.call "insert" arguments :: rest) = .ok result) :
    ∃ scan pairs values, arguments = [[.table scan], [.assignments pairs]] ∧
      result.statement = .insert scan.table values ∧
      List.Forall₂ (fun (joined, pair) value =>
          value.value.SelfContained ↔ staysAtRoot pair.value joined = true)
        (withJoinedTables none pairs) values := by
  obtain ⟨scan, pairs, types, values, d, harguments, hstatement, hvalues⟩ :=
    assignmentsRun_of_insert_ok h
  exact ⟨scan, pairs, values, harguments, hstatement,
    hvalues.selfContained_iff_staysAtRoot hresolver⟩

example : (withJoinedTables none rememberedJoinPairs).map
    (fun (joined, pair) => staysAtRoot pair.value joined) = [false, false] := rfl

/-! ## A value behind a join -/

/-- The insertion of a person whose town is the name of a city. -/
def joinedValue : Request :=
  [.call "insert" [[.table ⟨"people", "id", false⟩],
    [.assignments [⟨[.read ⟨"people", "town", .string, false⟩],
      [.join ⟨"cities", "{parent}.city = {child}.id", false⟩,
        .read ⟨"cities", "name", .string, false⟩]⟩]]]]

/-- A value behind a join is inserted as a column of the join, but the statement has no rows. -/
theorem joinedValue_inserted :
    standardCompiler.compile joinedValue =
        .ok ⟨.insert "people" [⟨"town", .column (.join 1) "name"⟩], [], .mutation⟩ ∧
      standardCompiler.resolver = columnResolver ∧
      (Statement.insert "people" [⟨"town", .column (.join 1) "name"⟩]).rows? = none ∧
      ¬ (Expression.column (.join 1) "name").SelfContained := by
  refine ⟨rfl, rfl, rfl, fun h => ?_⟩
  have hroot : Context.join 1 = Context.root := h (.join 1, "name") (List.mem_singleton_self _)
  cases hroot

end RequestCompiler
