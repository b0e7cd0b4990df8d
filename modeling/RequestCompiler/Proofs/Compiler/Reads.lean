import RequestCompiler.Proofs.Compiler.Requests
import RequestCompiler.Proofs.Select.JoinGraph
import RequestCompiler.Proofs.Session.Reached

/-!
# Columns are read along their joins

The tokens of an expression say of each property by which joins it is reached (`readsOf`): those of
the context at which the expression stands, then the ones that enclose the property, from the
outermost to the innermost. In the compiled expression the way is a bare number, and joins are
shared between operands. The number stands for the same way nevertheless: the chain of its join.

This holds in the select at the end, whatever was joined in the meantime, so the statements are
about any select that holds the joins of a draft (`final`).

* `Compiles.script` — compiling an expression does what some script of steps does.
* `Compiles.joins_below` — compiling an expression adds joins below its context only.
* `Compiles.reads` — its columns are read along the joins that the tokens name.
* `Session.Reached.reads_along_joins` — so it is in every session that steps can reach.
-/

namespace RequestCompiler

/-! ## Reads -/

/-- The link that following a join adds. -/
def JoinEdge.link (edge : JoinEdge) : String × String := (edge.table, edge.condition)

mutual
/-- The properties in an expression from left to right, each with the joins that enclose it. -/
def readsOf : List Token → List (Chain × String)
  | [] => []
  | .join edge :: rest => (readsOf rest).map fun read => (edge.link :: read.1, read.2)
  | t :: rest => tokenReads t ++ readsOf rest
termination_by structural tokens => tokens

/-- The properties in a single token. -/
def tokenReads : Token → List (Chain × String)
  | .read property => [([], property.expression)]
  | .call _ arguments => argumentReads arguments
  | .assignments pairs => pairReads pairs
  | _ => []
termination_by structural t => t

/-- The properties in operands, one after the other. -/
def argumentReads : List (List Token) → List (Chain × String)
  | [] => []
  | argument :: rest => readsOf argument ++ argumentReads rest
termination_by structural arguments => arguments

/-- The properties in assignments, one after the other. -/
def pairReads : List (Assignment (List Token)) → List (Chain × String)
  | [] => []
  | ⟨property, value⟩ :: rest => readsOf property ++ readsOf value ++ pairReads rest
termination_by structural pairs => pairs
end

mutual
/-- Whether no join in an expression is contextual, at any depth. -/
def plainTokens : List Token → Bool
  | [] => true
  | t :: rest => plainToken t && plainTokens rest
termination_by structural tokens => tokens

/-- Whether no join in a token is contextual. -/
def plainToken : Token → Bool
  | .join edge => !edge.contextual
  | .call _ arguments => plainArguments arguments
  | .assignments pairs => plainPairs pairs
  | _ => true
termination_by structural t => t

/-- Whether no join in operands is contextual. -/
def plainArguments : List (List Token) → Bool
  | [] => true
  | argument :: rest => plainTokens argument && plainArguments rest
termination_by structural arguments => arguments

/-- Whether no join in assignments is contextual. -/
def plainPairs : List (Assignment (List Token)) → Bool
  | [] => true
  | ⟨property, value⟩ :: rest => (plainTokens property && plainTokens value) && plainPairs rest
termination_by structural pairs => pairs
end

/-- Reads with their joins continued from the chain of a context. -/
def readsUnder (chain : Option Chain) (reads : List (Chain × String)) :
    List (Option Chain × String) :=
  reads.map fun read => (chain.map (· ++ read.1), read.2)

/-- Columns with their contexts replaced by the chains to them. -/
def Select.trace (s : Select) (columns : List (Context × String)) : List (Option Chain × String) :=
  columns.map fun column => (s.chain column.1, column.2)

theorem readsUnder_append (chain : Option Chain) (rs qs : List (Chain × String)) :
    readsUnder chain (rs ++ qs) = readsUnder chain rs ++ readsUnder chain qs := List.map_append

theorem Select.trace_append (s : Select) (cs ds : List (Context × String)) :
    s.trace (cs ++ ds) = s.trace cs ++ s.trace ds := List.map_append

/-- A join that encloses reads may be counted to the chain as well. -/
theorem readsUnder_join (chain : Option Chain) (edge : JoinEdge) (rest : List Token) :
    readsUnder chain (readsOf (.join edge :: rest)) =
      readsUnder (chain.map (· ++ [edge.link])) (readsOf rest) := by
  rw [readsOf, readsUnder, readsUnder, List.map_map]
  refine List.map_congr_left fun read _ => ?_
  cases chain <;> simp

theorem readsOf_call (name : String) (arguments : List Request) :
    readsOf [.call name arguments] = arguments.flatMap readsOf := by
  have harguments : ∀ arguments, argumentReads arguments = arguments.flatMap readsOf := by
    intro arguments
    induction arguments with
    | nil => rfl
    | cons argument rest ih => rw [argumentReads, ih, List.flatMap_cons]
  rw [readsOf, tokenReads, harguments, readsOf, List.append_nil]
  simp

theorem plainTokens_iff {tokens : List Token} :
    plainTokens tokens = true ↔ ∀ t ∈ tokens, plainToken t = true := by
  induction tokens with
  | nil => simp [plainTokens]
  | cons t rest ih => simp [plainTokens, ih]

theorem plainTokens_join {edge : JoinEdge} {rest : List Token} :
    plainTokens (.join edge :: rest) = true ↔
      edge.contextual = false ∧ plainTokens rest = true := by
  simp [plainTokens, plainToken]

theorem plainToken_call {name : String} {arguments : List Request} :
    plainToken (.call name arguments) = true ↔
      ∀ tokens ∈ arguments, plainTokens tokens = true := by
  have harguments : ∀ arguments, plainArguments arguments = arguments.all plainTokens := by
    intro arguments
    induction arguments with
    | nil => rfl
    | cons argument rest ih => rw [plainArguments, ih, List.all_cons]
  simp [plainToken, harguments]

theorem plainTokens_call {name : String} {arguments : List Request} :
    plainTokens [.call name arguments] = true ↔
      ∀ tokens ∈ arguments, plainTokens tokens = true := by
  simp [plainTokens_iff, plainToken_call]

/-! ## Columns in the order of a visit -/

namespace Expression

/-- The columns in the order in which `mapColumns` comes to them. -/
def visitedColumns (e : Expression) : List (Context × String) :=
  (e.mapColumns (fun context name seen => (.column context name, seen ++ [(context, name)])) []).2

/-- Columns are visited from left to right. -/
theorem visitedColumns_eq (e : Expression) : e.visitedColumns = e.columns := by
  have hseen : ∀ seen, e.mapColumns
      (fun context name seen => (.column context name, seen ++ [(context, name)])) seen =
        (e, seen ++ e.columns) := by
    induction e <;> simp_all [mapColumns, columns]
  rw [visitedColumns, hseen, List.nil_append]

end Expression

/-- Whatever a function of two operands becomes, their columns stay in order. -/
theorem columns_apply (form : BinaryForm) (l r : Typed) :
    (form.apply l r).columns = l.expression.columns ++ r.expression.columns := by
  unfold BinaryForm.apply
  split
  · rfl
  · split <;> rfl
  · rfl

/-! ## Following joins -/

theorem Draft.active_followJoin (d : Draft) (context : Context) (edge : JoinEdge) :
    (d.followJoin context edge).2.builder.active =
      (d.builder.active.addJoin context edge.table edge.condition).2 :=
  SelectBuilder.active_withActive _ _

/-- The chain of a join that was followed is that of the context and the link of the join. -/
theorem Draft.chain_followJoin (d : Draft) (context : Context) (edge : JoinEdge) {final : Select}
    (hfinal : final.Numbered)
    (hsub : (d.followJoin context edge).2.builder.active.joins ⊆ final.joins) :
    final.chain (.join (d.followJoin context edge).1) =
      (final.chain context).map (· ++ [edge.link]) := by
  obtain ⟨j, hj, hnumber, hparent, hlink⟩ :=
    d.builder.active.exists_mem_addJoin context edge.table edge.condition
  rw [← d.active_followJoin] at hj
  have hchain := hfinal.chain_join (hsub hj)
  rw [hnumber, hparent, hlink] at hchain
  exact hchain

theorem Draft.joins_subset_followJoin (d : Draft) (context : Context) (edge : JoinEdge) :
    d.builder.active.joins ⊆ (d.followJoin context edge).2.builder.active.joins := by
  obtain ⟨added, hadded, -⟩ := d.builder.active.joins_addJoin context edge.table edge.condition
  rw [d.active_followJoin, hadded]
  exact List.subset_append_left _ _

theorem Draft.numbered_followJoin {d : Draft} (h : d.builder.active.Numbered) (context : Context)
    (edge : JoinEdge) : (d.followJoin context edge).2.builder.active.Numbered := by
  rw [d.active_followJoin]
  exact h.addJoin context edge.table edge.condition

namespace JoinsRun

variable {context context' : Context} {edges : List JoinEdge} {d d' : Draft}

theorem joins_subset (h : JoinsRun context edges d context' d') :
    d.builder.active.joins ⊆ d'.builder.active.joins := by
  induction h with
  | nil => exact List.Subset.refl _
  | @cons context context' edge edges d d' h ih =>
    exact List.Subset.trans (d.joins_subset_followJoin context edge) ih

theorem numbered (h : JoinsRun context edges d context' d') (hd : d.builder.active.Numbered) :
    d'.builder.active.Numbered := by
  induction h with
  | nil => exact hd
  | @cons context context' edge edges d d' h ih =>
    exact ih (Draft.numbered_followJoin hd context edge)

/-- Without contextual joins among them, none is remembered. -/
theorem contextual_eq_none (h : JoinsRun context edges d context' d')
    (hplain : ∀ edge ∈ edges, edge.contextual = false) (hd : d.contextual = none) :
    d'.contextual = none := by
  induction h with
  | nil => exact hd
  | @cons context context' edge edges d d' h ih =>
    refine ih (fun other hother => hplain other (List.mem_cons_of_mem edge hother)) ?_
    simp only [Draft.followJoin, hplain edge List.mem_cons_self, Bool.false_eq_true, if_false, hd]

/-- The chain of the context that joins lead to goes on along them. -/
theorem chain (h : JoinsRun context edges d context' d') {final : Select}
    (hfinal : final.Numbered) (hsub : d'.builder.active.joins ⊆ final.joins) :
    final.chain context' = (final.chain context).map (· ++ edges.map JoinEdge.link) := by
  induction h with
  | nil => simp
  | @cons context context' edge edges d d' h ih =>
    rw [ih hsub, d.chain_followJoin context edge hfinal (List.Subset.trans h.joins_subset hsub),
      Option.map_map]
    simp [Function.comp_def]

end JoinsRun

namespace Compiles

variable {c : Compiler} {context : Context} {requiredness : Requiredness} {tokens : List Token}
  {d d' : Draft} {e : Typed}

/-- What a derivation does to a draft, a script of steps does as well. -/
theorem script (h : Compiles c context requiredness tokens d e d') (points : List RollbackPoint) :
    ∃ steps, (Session.performAll steps ⟨d, points⟩).2 = ⟨d', points⟩ := by
  induction h with
  | @join context requiredness edge rest d d' e h ih =>
    obtain ⟨steps, hsteps⟩ := ih
    exact ⟨.followJoin context edge :: steps, hsteps⟩
  | @parameter context requiredness name d ordinal binder h =>
    refine ⟨[.use (.named name requiredness)], ?_⟩
    simp only [Session.performAll, Session.perform, h, Session.withBinder]
  | read h => exact ⟨[], rfl⟩
  | length h ih => exact ih
  | unary hname hlength h htype ih => exact ih
  | binary hname hleft hright htype ihleft ihright =>
    obtain ⟨first, hfirst⟩ := ihleft
    obtain ⟨second, hsecond⟩ := ihright
    exact ⟨first ++ second, by rw [Session.performAll_append, hfirst, hsecond]⟩
  | @substring context requiredness string start stop d d' e first length bound bound' h hfirst
      hlength ih =>
    obtain ⟨steps, hsteps⟩ := ih
    refine ⟨steps ++ [.use (.substringBegin start), .use (.substringLength start stop)], ?_⟩
    rw [Session.performAll_append, hsteps]
    simp only [Session.performAll, Session.perform, hfirst, Session.withBinder, hlength]

/-- Without contextual joins in an expression, the one remembered stays. -/
theorem contextual_eq (h : Compiles c context requiredness tokens d e d')
    (hplain : plainTokens tokens = true) : d'.contextual = d.contextual := by
  induction h with
  | @join context requiredness edge rest d d' e h ih =>
    obtain ⟨hedge, hrest⟩ := plainTokens_join.mp hplain
    rw [ih hrest]
    simp only [Draft.followJoin, hedge, Bool.false_eq_true, if_false]
  | parameter h => rfl
  | read h => rfl
  | length h ih => exact ih (plainTokens_call.mp hplain _ (by simp))
  | unary hname hlength h htype ih => exact ih (plainTokens_call.mp hplain _ (by simp))
  | binary hname hleft hright htype ihleft ihright =>
    have hoperands := plainTokens_call.mp hplain
    exact (ihright (hoperands _ (by simp))).trans (ihleft (hoperands _ (by simp)))
  | substring h hfirst hlength ih => exact ih (plainTokens_call.mp hplain _ (by simp))

/-- Joins that were there before are there after. -/
theorem joins_subset (h : Compiles c context requiredness tokens d e d') :
    d.builder.active.joins ⊆ d'.builder.active.joins := by
  induction h with
  | @join context requiredness edge rest d d' e h ih =>
    exact List.Subset.trans (d.joins_subset_followJoin context edge) ih
  | parameter h => exact List.Subset.refl _
  | read h => exact List.Subset.refl _
  | length h ih => exact ih
  | unary hname hlength h htype ih => exact ih
  | binary hname hleft hright htype ihleft ihright => exact List.Subset.trans ihleft ihright
  | substring h hfirst hlength ih => exact ih

/-- Joins stay numbered as further ones are followed. -/
theorem numbered (h : Compiles c context requiredness tokens d e d')
    (hd : d.builder.active.Numbered) : d'.builder.active.Numbered := by
  induction h with
  | @join context requiredness edge rest d d' e h ih =>
    exact ih (Draft.numbered_followJoin hd context edge)
  | parameter h => exact hd
  | read h => exact hd
  | length h ih => exact ih hd
  | unary hname hlength h htype ih => exact ih hd
  | binary hname hleft hright htype ihleft ihright => exact ihright (ihleft hd)
  | substring h hfirst hlength ih => exact ih hd

/-- Compiling an expression adds joins below its context only. -/
theorem joins_below (h : Compiles c context requiredness tokens d e d') {final : Select}
    (hfinal : final.Numbered) (hsub : d'.builder.active.joins ⊆ final.joins) :
    ∃ added, d'.builder.active.joins = d.builder.active.joins ++ added ∧
      ∀ j ∈ added, final.Below context j.parent := by
  induction h with
  | @join context requiredness edge rest d d' e h ih =>
    obtain ⟨added, hadded, hparents⟩ :=
      d.builder.active.joins_addJoin context edge.table edge.condition
    rw [← d.active_followJoin] at hadded
    obtain ⟨further, hfurther, hbelow⟩ := ih hsub
    -- the rest hangs on the join that was followed, and this one on the context
    have hnext : final.Below context (.join (d.followJoin context edge).1) :=
      ⟨[edge.link], d.chain_followJoin context edge hfinal (List.Subset.trans h.joins_subset hsub)⟩
    refine ⟨added ++ further, by rw [hfurther, hadded, List.append_assoc], ?_⟩
    rw [List.forall_mem_append]
    refine ⟨fun j hj => ?_, fun j hj => hnext.trans (hbelow j hj)⟩
    rw [hparents j hj]
    exact .refl final context
  | parameter h => exact ⟨[], (List.append_nil _).symm, fun j hj => by cases hj⟩
  | read h => exact ⟨[], (List.append_nil _).symm, fun j hj => by cases hj⟩
  | length h ih => exact ih hsub
  | unary hname hlength h htype ih => exact ih hsub
  | binary hname hleft hright htype ihleft ihright =>
    obtain ⟨added, hadded, hbelow⟩ := ihleft (List.Subset.trans hright.joins_subset hsub)
    obtain ⟨further, hfurther, hbelow'⟩ := ihright hsub
    exact ⟨added ++ further, by rw [hfurther, hadded, List.append_assoc],
      List.forall_mem_append.mpr ⟨hbelow, hbelow'⟩⟩
  | substring h hfirst hlength ih => exact ih hsub

/-- The columns of a compiled expression are read along the joins that its tokens name. -/
theorem reads (h : Compiles c context requiredness tokens d e d')
    (hresolver : c.resolver = columnResolver) (hplain : plainTokens tokens = true)
    (hd : d.contextual = none) {final : Select} (hfinal : final.Numbered)
    (hsub : d'.builder.active.joins ⊆ final.joins) :
    final.trace e.expression.columns = readsUnder (final.chain context) (readsOf tokens) := by
  -- the select at the end is fixed, so operands compiled earlier and later are read in the same one
  induction h with
  | @join context requiredness edge rest d d' e h ih =>
    obtain ⟨hedge, hrest⟩ := plainTokens_join.mp hplain
    have hnext : (d.followJoin context edge).2.contextual = none := by
      simp only [Draft.followJoin, hedge, Bool.false_eq_true, if_false, hd]
    rw [ih hrest hnext hsub, readsUnder_join,
      d.chain_followJoin context edge hfinal (List.Subset.trans h.joins_subset hsub)]
  | parameter h => rfl
  | @read context requiredness property d expression type h =>
    rw [hresolver, hd] at h
    have hhere : readingContext property.table context none = context := by
      cases context <;> rfl
    have hreads : readsOf [.read property] = [([], property.expression)] := rfl
    rw [columnResolver_ok h, hhere, hreads]
    simp [Expression.columns, Select.trace, readsUnder]
  | length h ih =>
    rw [readsOf_call, List.flatMap_singleton]
    exact ih (plainTokens_call.mp hplain _ (by simp)) hd hsub
  | unary hname hlength h htype ih =>
    rw [readsOf_call, List.flatMap_singleton]
    exact ih (plainTokens_call.mp hplain _ (by simp)) hd hsub
  | @binary context requiredness name form left right d d' d'' l r type hname hleft hright htype
      ihleft ihright =>
    have hoperands := plainTokens_call.mp hplain
    have hl := ihleft (hoperands left (by simp)) hd (List.Subset.trans hright.joins_subset hsub)
    have hr := ihright (hoperands right (by simp))
      ((hleft.contextual_eq (hoperands left (by simp))).trans hd) hsub
    rw [columns_apply, Select.trace_append, hl, hr, readsOf_call, List.flatMap_cons,
      List.flatMap_singleton, readsUnder_append]
  | @substring context requiredness string start stop d d' e first length bound bound' h hfirst
      hlength ih =>
    have hstring := ih (plainTokens_call.mp hplain string (by simp)) hd hsub
    -- the bounds are parameters, in which nothing is read
    have hcolumns : (Expression.substring e.expression (.argument first)
        (.argument length)).columns = e.expression.columns := by
      simp [Expression.columns]
    have hreads : readsOf [.call "substring" [string, [.parameter start], [.parameter stop]]] =
        readsOf string := by
      rw [readsOf_call]
      simp [readsOf, tokenReads]
    rw [hcolumns, hreads, hstring]

end Compiles

/-! ## Sessions -/

/-- Whether no two contexts of a select have the same chain. -/
def Select.ChainsApart (s : Select) : Prop :=
  ∀ {a b : Context} {chain : Chain}, s.chain a = some chain → s.chain b = some chain → a = b

theorem SelectBuilder.Numbered.chainsApart {b : SelectBuilder} (h : b.Numbered) :
    ∀ s ∈ b.selects, s.ChainsApart := fun s hs => (h s hs).chain_injective

namespace Session

/-- In a session that was reached, the joins of every select are numbered. -/
theorem Reached.numbered {s : Session} (h : s.Reached) : s.draft.builder.Numbered :=
  (h.all SelectBuilder.Numbered.ofTable fun h hperform => h.perform hperform).draft

/-- Compiling an expression leads to sessions that steps reach as well. -/
theorem Reached.of_expression_ok {s s' : Session} (hs : s.Reached) {c : Compiler}
    {context : Context} {requiredness : Requiredness} {tokens : List Token} {e : Typed}
    (h : c.expression context requiredness tokens s = .ok e s') : s'.Reached := by
  obtain ⟨hcompiles, hpoints⟩ := compiles_of_expression_ok c tokens h
  obtain ⟨steps, hsteps⟩ := hcompiles.script s.points
  have hs' : s' = (performAll steps s).2 := by rw [hsteps, ← hpoints]
  rw [hs']
  exact hs.onward steps

/-- Columns are read along their joins in every session that steps can reach, and no two contexts
of a select have the same chain. -/
theorem Reached.reads_along_joins {s : Session} (hs : s.Reached) :
    (∀ select ∈ s.draft.builder.selects, select.ChainsApart) ∧
      ∀ {c : Compiler} {context : Context} {requiredness : Requiredness} {tokens : List Token}
        {e : Typed} {s' : Session}, c.resolver = columnResolver → s.draft.contextual = none →
        plainTokens tokens = true → c.expression context requiredness tokens s = .ok e s' →
          s'.draft.builder.active.trace e.expression.visitedColumns =
            readsUnder (s.draft.builder.active.chain context) (readsOf tokens) ∧
          ∀ select ∈ s'.draft.builder.selects, select.ChainsApart := by
  refine ⟨hs.numbered.chainsApart, ?_⟩
  intro c context requiredness tokens e s' hresolver hcontextual hplain h
  obtain ⟨hcompiles, -⟩ := compiles_of_expression_ok c tokens h
  have hnumbered' : s'.draft.builder.Numbered := (hs.of_expression_ok h).numbered
  -- the chain of the context is the same before and after, as nothing was added on the way to it
  obtain ⟨added, hadded, hbelow⟩ :=
    hcompiles.joins_below hnumbered'.active (List.Subset.refl _)
  refine ⟨?_, hnumbered'.chainsApart⟩
  rw [Expression.visitedColumns_eq,
    hcompiles.reads hresolver hplain hcontextual hnumbered'.active (List.Subset.refl _),
    Select.chain_eq_of_below hadded hbelow]

/-- From a person to the city, and to a country that is not the one of the city. -/
def personAndCity : Session :=
  (performAll [.followJoin .root ⟨"city", "home", false⟩,
    .followJoin .root ⟨"country", "lies in", false⟩] (start "person" OrderedMap.empty)).2

/-- Whether the name of the country is its code; each operand joins the country. -/
def namedByCode : Request :=
  [.call "equal"
    [[.join ⟨"country", "lies in", false⟩, .read ⟨"country", "name", .string, false⟩],
      [.join ⟨"country", "lies in", false⟩,
        .call "uppercase" [[.read ⟨"country", "code", .string, false⟩]]]]]

/-- What it is compiled to at the city: both operands read at the third join. -/
def namedByCodeCompiled : Typed where
  expression :=
    .binary .equal (.column (.join 3) "name") (.unary .upper (.column (.join 3) "code"))
  type := some .boolean

theorem namedByCode_reads_along_joins : ∃ s',
    standardCompiler.expression (.join 1) .required namedByCode personAndCity =
        .ok namedByCodeCompiled s' ∧
      s'.draft.builder.active.trace namedByCodeCompiled.expression.visitedColumns =
        [(some [("city", "home"), ("country", "lies in")], "name"),
          (some [("city", "home"), ("country", "lies in")], "code")] ∧
      ∀ select ∈ s'.draft.builder.selects, select.ChainsApart := by
  have hreached : personAndCity.Reached := ⟨_, _, _, rfl⟩
  obtain ⟨s', h⟩ : ∃ s', standardCompiler.expression (.join 1) .required namedByCode
      personAndCity = .ok namedByCodeCompiled s' := ⟨_, rfl⟩
  obtain ⟨htrace, hapart⟩ := hreached.reads_along_joins.2 rfl rfl rfl h
  exact ⟨s', h, htrace.trans rfl, hapart⟩

end Session

end RequestCompiler
