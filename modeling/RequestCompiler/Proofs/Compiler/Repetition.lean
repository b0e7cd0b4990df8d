import RequestCompiler.Proofs.Compiler.Reads
import RequestCompiler.Proofs.Compiler.Transaction

/-!
# Compiling an expression again

Joins and arguments are looked for before they are added. So an expression that was compiled once,
and is compiled again, finds all that it needs and adds nothing. In between more may have been added
for other expressions: what comes later stands behind what was there, and is not found in its place.

A contextual join is remembered in place of the one before it, so a second run could read other
columns than the first one; the statements are about expressions without such joins.

* `Compiles.again` — in every draft that the first run has grown to, a second run changes nothing.
* `expression_ok_again` — so a second run right behind the first one is free.
-/

namespace RequestCompiler

/-! ## Joins and arguments are found again -/

namespace Select

/-- A join that is found is found in front of what is added behind it. -/
theorem findJoin?_appendJoins {s : Select} {parent : Context} {table condition : String} {j : Join}
    (h : s.findJoin? parent table condition = some j) (joins : List Join) :
    (s.appendJoins joins).findJoin? parent table condition = some j := by
  unfold findJoin? at h ⊢
  rw [appendJoins, List.find?_append, h, Option.some_or]

/-- A join that was added, or was there already, is found. -/
theorem findJoin?_addJoin (s : Select) (parent : Context) (table condition : String) :
    ∃ j, (s.addJoin parent table condition).2.findJoin? parent table condition = some j ∧
      j.number = (s.addJoin parent table condition).1 := by
  unfold addJoin
  split
  · next j hfound => exact ⟨j, hfound, rfl⟩
  · next hfound =>
    refine ⟨⟨parent, s.joins.length + 1, table, condition⟩, ?_, rfl⟩
    unfold findJoin? at hfound ⊢
    rw [List.find?_append, hfound, Option.none_or]
    simp

/-- Adding a join again gives its number again, whatever was added in between. -/
theorem addJoin_again (s : Select) (parent : Context) (table condition : String)
    (joins : List Join) :
    ((s.addJoin parent table condition).2.appendJoins joins).addJoin parent table condition =
      ((s.addJoin parent table condition).1,
        (s.addJoin parent table condition).2.appendJoins joins) := by
  obtain ⟨j, hfound, hnumber⟩ := s.findJoin?_addJoin parent table condition
  rw [← hnumber, addJoin, findJoin?_appendJoins hfound]

end Select

/-- Following a join again leads to where it led, and a draft that has grown since stays. -/
theorem Draft.GrowsTo.followJoin_again {d later : Draft} {context : Context} {edge : JoinEdge}
    (h : (d.followJoin context edge).2.GrowsTo later) (hedge : edge.contextual = false) :
    later.followJoin context edge = ((d.followJoin context edge).1, later) := by
  obtain ⟨joins, hbuilder⟩ := h.builder
  have hactive : later.builder.active =
      (d.builder.active.addJoin context edge.table edge.condition).2.appendJoins joins := by
    rw [hbuilder, SelectBuilder.active_withActive, Draft.active_followJoin]
  have hadd : later.builder.addJoin context edge.table edge.condition =
      ((d.followJoin context edge).1, later.builder.withActive later.builder.active) := by
    rw [SelectBuilder.addJoin, hactive, Select.addJoin_again]
    rfl
  rw [SelectBuilder.withActive_active] at hadd
  simp only [Draft.followJoin, hadd, hedge, Bool.false_eq_true, if_false]

theorem ArgumentBinder.bind_of_mem {b : ArgumentBinder} {a : Argument} (h : a ∈ b.arguments) :
    b.bind a = b := dif_pos h

/-- A use that was bound has its ordinal, and a binder that has grown since stays. -/
theorem use?_again {b b' later : ArgumentBinder} {use : ParameterUse} {ordinal : Nat}
    (h : b.use? use = some (ordinal, b')) (hgrown : b'.arguments <+: later.arguments)
    (htypes : later.types = b'.types) : later.use? use = some (ordinal, later) := by
  obtain ⟨hbinds, hordinal⟩ := use?_eq_some h
  have hargument : later.types.argument use = b.types.argument use := by
    rw [htypes, hbinds.types]
  have hmem : later.types.argument use ∈ later.arguments := by
    rw [hargument]
    exact hgrown.subset (hbinds.mem (List.mem_singleton_self use))
  have hplace : ordinal = later.ordinal (later.types.argument use) := by
    rw [hargument]
    exact List.singleton_inj.mp (hordinal later.arguments hgrown)
  unfold ArgumentBinder.use? at h ⊢
  split at h
  · next hvalid =>
    rw [if_pos hvalid]
    simp only [ArgumentBinder.bind_of_mem hmem, ← hplace]
  · cases h

/-! ## Expressions -/

/--
An expression without contextual joins that was compiled once is compiled to the same in every draft
that has grown from there and remembers the same join, and it leaves this draft as it is.
-/
theorem Compiles.again {c : Compiler} {context : Context} {requiredness : Requiredness}
    {tokens : List Token} {d d' later : Draft} {e : Typed}
    (h : Compiles c context requiredness tokens d e d') (hplain : plainTokens tokens = true)
    (hgrown : d'.GrowsTo later) (hcontextual : later.contextual = d.contextual) :
    Compiles c context requiredness tokens later e later := by
  -- `later` is fixed: each part of the expression was left behind by a draft that has grown to it
  induction h with
  | @join context requiredness edge rest d d' e h ih =>
    obtain ⟨hedge, hrest⟩ := plainTokens_join.mp hplain
    have hfollowed : later.contextual = (d.followJoin context edge).2.contextual := by
      simp only [Draft.followJoin, hedge, Bool.false_eq_true, if_false, hcontextual]
    have hagain := (h.growsTo.trans hgrown).followJoin_again hedge
    refine .join ?_
    rw [hagain]
    exact ih hrest hgrown hfollowed
  | @parameter context requiredness name d ordinal binder h =>
    have htype : binder.typeOf name = later.binder.typeOf name :=
      congrArg (·.find? name) hgrown.types.symm
    rw [htype]
    exact .parameter (use?_again h hgrown.arguments hgrown.types)
  | read h => exact .read (hcontextual ▸ h)
  | length h ih => exact .length (ih (plainTokens_call.mp hplain _ (by simp)) hgrown hcontextual)
  | unary hname hlength h htype ih =>
    exact .unary hname hlength (ih (plainTokens_call.mp hplain _ (by simp)) hgrown hcontextual)
      htype
  | @binary context requiredness name form left right d d' d'' l r type hname hleft hright htype
      ihleft ihright =>
    have hoperands := plainTokens_call.mp hplain
    have hl := hoperands left (by simp)
    have hr := hoperands right (by simp)
    exact .binary hname (ihleft hl (hright.growsTo.trans hgrown) hcontextual)
      (ihright hr hgrown (hcontextual.trans (hleft.contextual_eq hl).symm)) htype
  | @substring context requiredness string start stop d d' e first length bound bound' h hfirst
      hlength ih =>
    have hstring : d'.GrowsTo later :=
      (Draft.GrowsTo.of_binds ((use?_eq_some hfirst).1.append (use?_eq_some hlength).1)).trans
        hgrown
    have hbound := (use?_eq_some hlength).1
    have hlater := use?_again hfirst (hbound.isPrefix.trans hgrown.arguments)
      (hgrown.types.trans hbound.types)
    exact .substring (ih (plainTokens_call.mp hplain string (by simp)) hstring hcontextual) hlater
      (use?_again hlength hgrown.arguments hgrown.types)

/-- An expression without contextual joins that was compiled is compiled to the same again, and this
leaves the session as it is. -/
theorem expression_ok_again {c : Compiler} {context : Context} {requiredness : Requiredness}
    {tokens : Request} {s s' : Session} {e : Typed} (hplain : plainTokens tokens = true)
    (h : c.expression context requiredness tokens s = .ok e s') :
    c.expression context requiredness tokens s' = .ok e s' := by
  obtain ⟨hcompiles, -⟩ := compiles_of_expression_ok c tokens h
  have hagain := hcompiles.again hplain (.refl s'.draft) (hcompiles.contextual_eq hplain)
  exact hagain.expression_ok s'.points

/-- Whether a part of the name of a country's capital is a parameter, at a city of the country. -/
def capitalName : Request :=
  [.call "equal"
    [[.join ⟨"country", "city.country = country.id", false⟩,
        .call "substring"
          [[.join ⟨"city", "country.capital = city.id", false⟩,
            .read ⟨"city", "name", .string, false⟩], [.parameter "start"], [.parameter "stop"]]],
      [.join ⟨"country", "city.country = country.id", false⟩,
        .join ⟨"city", "country.capital = city.id", false⟩, .parameter "name"]]]

/-- The first run adds two joins to the one there is, and three arguments; the second nothing. -/
theorem capitalName_ok_again :
    plainTokens capitalName = true ∧ ∃ e s',
      standardCompiler.expression (.join 1) .required capitalName Session.personInTown = .ok e s' ∧
      s'.draft.builder.active.joins.length = 3 ∧ s'.draft.binder.arguments.length = 3 ∧
      standardCompiler.expression (.join 1) .required capitalName s' = .ok e s' := by
  have hplain : plainTokens capitalName = true := rfl
  have hrun : (match standardCompiler.expression (.join 1) .required capitalName
        Session.personInTown with
      | .ok _ s' => decide (s'.draft.builder.active.joins.length = 3) &&
          decide (s'.draft.binder.arguments.length = 3)
      | .error _ _ => false) = true := by decide +kernel
  cases h : standardCompiler.expression (.join 1) .required capitalName Session.personInTown with
  | error cause s' =>
    rw [h] at hrun
    cases hrun
  | ok e s' =>
    rw [h, Bool.and_eq_true, decide_eq_true_iff, decide_eq_true_iff] at hrun
    exact ⟨hplain, e, s', rfl, hrun.1, hrun.2, expression_ok_again hplain h⟩

end RequestCompiler
