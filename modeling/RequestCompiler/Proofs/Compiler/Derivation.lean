import RequestCompiler.Compiler.Operand
import RequestCompiler.Proofs.Select.Growth

/-!
# Derivations of compiled expressions

`Compiles` says once what compiling an expression can do when it succeeds: one constructor for each
way, over drafts, as rollback points come and go in pairs. Every fact about compiled expressions is
an induction over it.

* `compiles_of_expression_ok` — a successful run is a derivation, and leaves the rollback points.
* `Compiles.expression_ok` — a derivation is a successful run.
* `Compiles.holds` — a derivation adds joins to the select of the draft and nothing else.
-/

namespace RequestCompiler

open Compilation

/-! ## Successful steps of a computation -/

namespace Compilation

variable {α β : Type} {s s' : Session}

theorem bind_eq_ok {x : Compilation α} {f : α → Compilation β} {b : β} :
    (x >>= f) s = .ok b s' ↔ ∃ a t, x s = .ok a t ∧ f a t = .ok b s' := by
  rw [outcome_bind]
  cases x s with
  | ok a t =>
    constructor
    · exact fun h => ⟨a, t, rfl, h⟩
    · rintro ⟨_, _, h, hf⟩
      cases h
      exact hf
  | error cause t => simp

/-- A computation goes on behind one that succeeds. -/
theorem bind_of_ok {x : Compilation α} {f : α → Compilation β} {a : α} (h : x s = .ok a s') :
    (x >>= f) s = f a s' := by
  rw [outcome_bind, h]

theorem pure_eq_ok {a b : α} : (pure a : Compilation α) s = .ok b s' ↔ a = b ∧ s = s' := by
  show EStateM.Result.ok a s = _ ↔ _
  simp

theorem fail_ne_ok {cause : CompileError} {a : α} :
    (fail cause : Compilation α) s ≠ .ok a s' := by
  show EStateM.Result.error cause s ≠ _
  simp

theorem ofResult_eq_ok {r : Except CompileError α} {a : α} :
    ofResult r s = .ok a s' ↔ r = .ok a ∧ s = s' := by
  cases r with
  | ok b => rw [ofResult, pure_eq_ok, Except.ok.injEq]
  | error cause =>
    constructor
    · intro h
      exact absurd h fail_ne_ok
    · rintro ⟨h, -⟩
      cases h

theorem useParameter_eq_ok {use : ParameterUse} {name : String} {ordinal : Nat} :
    useParameter use name s = .ok ordinal s' ↔
      ∃ binder, s.draft.binder.use? use = some (ordinal, binder) ∧ s.withBinder binder = s' := by
  rw [outcome_useParameter]
  cases s.draft.binder.use? use with
  | none => simp
  | some r =>
    constructor
    · intro h
      cases h
      exact ⟨r.2, rfl, rfl⟩
    · rintro ⟨binder, h, rfl⟩
      cases h
      rfl

theorem perform_eq_ok {step : SelectBuilder.Step} :
    perform step s = .ok () s' ↔
      ∃ answer builder, s.draft.builder.perform step = .ok (answer, builder) ∧
        s.withBuilder builder = s' := by
  rw [outcome_perform]
  cases s.draft.builder.perform step with
  | error cause => simp
  | ok r =>
    constructor
    · intro h
      cases h
      exact ⟨r.1, r.2, rfl, rfl⟩
    · rintro ⟨answer, builder, h, rfl⟩
      cases h
      rfl

theorem savepoint_eq_ok {context : Context} {body : Compilation α} {a : α} :
    savepoint context body s = .ok a s' ↔
      ∃ t, body (s.setPoint context) = .ok a t ∧ t.clearPoint = .ok s' := by
  rw [outcome_savepoint]
  split
  · next b t hbody =>
    rw [hbody]
    constructor
    · intro h
      split at h
      · next hclear =>
        cases h
        exact ⟨t, rfl, hclear⟩
      · cases h
    · rintro ⟨_, h, hclear⟩
      cases h
      rw [hclear]
  · next cause t hbody =>
    rw [hbody]
    constructor
    · intro h
      split at h <;> cases h
    · rintro ⟨_, h, -⟩
      cases h

end Compilation

/-- Follows a join and gives its number; a contextual one is remembered. -/
def Draft.followJoin (d : Draft) (context : Context) (edge : JoinEdge) : Nat × Draft :=
  let (number, builder) := d.builder.addJoin context edge.table edge.condition
  let contextual := if edge.contextual then some ⟨edge, number⟩ else d.contextual
  (number, { d with builder, contextual })

/-! ## Derivations -/

/-- What compiling an expression does to a draft when it succeeds. -/
inductive Compiles (c : Compiler) :
    Context → Requiredness → List Token → Draft → Typed → Draft → Prop where
  | join {context : Context} {requiredness : Requiredness} {edge : JoinEdge} {rest : List Token}
      {d d' : Draft} {e : Typed}
      (h : Compiles c (.join (d.followJoin context edge).1) requiredness rest
        (d.followJoin context edge).2 e d') :
      Compiles c context requiredness (.join edge :: rest) d e d'
  | parameter {context : Context} {requiredness : Requiredness} {name : String} {d : Draft}
      {ordinal : Nat} {binder : ArgumentBinder}
      (h : d.binder.use? (.named name requiredness) = some (ordinal, binder)) :
      Compiles c context requiredness [.parameter name] d
        ⟨.argument ordinal, binder.typeOf name⟩ { d with binder }
  | read {context : Context} {requiredness : Requiredness} {property : Property} {d : Draft}
      {expression : Expression} {type : ValueType}
      (h : c.resolver property context d.contextual = .ok (expression, type)) :
      Compiles c context requiredness [.read property] d ⟨expression, some type⟩ d
  | length {context : Context} {requiredness : Requiredness} {argument : Request} {d d' : Draft}
      {e : Typed} (h : Compiles c context .required argument d e d') :
      Compiles c context requiredness [.call "length" [argument]] d
        ⟨.unary .charLength e.expression, some .integer⟩ d'
  | unary {context : Context} {requiredness : Requiredness} {name : String}
      {operator : UnaryOperator} {argument : Request} {d d' : Draft} {e : Typed}
      {type : Option ValueType} (hname : unaryOperator? name = some operator)
      (hlength : name ≠ "length") (h : Compiles c context requiredness argument d e d')
      (htype : c.returnType name [e.type] = .ok type) :
      Compiles c context requiredness [.call name [argument]] d
        ⟨.unary operator e.expression, type⟩ d'
  | binary {context : Context} {requiredness : Requiredness} {name : String} {form : BinaryForm}
      {left right : Request} {d d' d'' : Draft} {l r : Typed} {type : Option ValueType}
      (hname : BinaryForm.ofName? name = some form)
      (hleft : Compiles c context requiredness left d l d')
      (hright : Compiles c context requiredness right d' r d'')
      (htype : c.returnType name [l.type, r.type] = .ok type) :
      Compiles c context requiredness [.call name [left, right]] d ⟨form.apply l r, type⟩ d''
  | substring {context : Context} {requiredness : Requiredness} {string : Request}
      {start stop : String} {d d' : Draft} {e : Typed} {first length : Nat}
      {bound bound' : ArgumentBinder} (h : Compiles c context .required string d e d')
      (hfirst : d'.binder.use? (.substringBegin start) = some (first, bound))
      (hlength : bound.use? (.substringLength start stop) = some (length, bound')) :
      Compiles c context requiredness
        [.call "substring" [string, [.parameter start], [.parameter stop]]] d
        ⟨.substring e.expression (.argument first) (.argument length), some .string⟩
        { d' with binder := bound' }

theorem columnResolver_ok {property : Property} {context : Context}
    {contextual : Option ContextualJoin} {expression : Expression} {type : ValueType}
    (h : columnResolver property context contextual = .ok (expression, type)) :
    expression =
      .column (readingContext property.table context contextual) property.expression := by
  unfold columnResolver at h
  split at h
  · cases h
  · cases h
    rfl

theorem boundName_eq_ok {function : String} {position : Nat} {bound : Request} {name : String} :
    boundName function position bound = .ok name ↔ bound = [.parameter name] := by
  rw [← bareParameter?_eq_some_iff]
  unfold boundName
  cases bareParameter? bound with
  | none => simp
  | some found => simp

/-- The bounds of a substring are bare parameters, used one after the other. -/
theorem substringBounds_eq_ok {function : String} {start stop : Request} {s s' : Session}
    {first length : Nat} (h : substringBounds function start stop s = .ok (first, length) s') :
    ∃ b b', start = [.parameter b] ∧ stop = [.parameter b'] ∧ ∃ bound bound',
      s.draft.binder.use? (.substringBegin b) = some (first, bound) ∧
      bound.use? (.substringLength b b') = some (length, bound') ∧ s.withBinder bound' = s' := by
  unfold substringBounds at h
  obtain ⟨b, t, hb, h⟩ := bind_eq_ok.mp h
  obtain ⟨hstart, rfl⟩ := ofResult_eq_ok.mp hb
  obtain ⟨b', t, hb', h⟩ := bind_eq_ok.mp h
  obtain ⟨hstop, rfl⟩ := ofResult_eq_ok.mp hb'
  obtain ⟨first', t, huse, h⟩ := bind_eq_ok.mp h
  obtain ⟨bound, hfirst, rfl⟩ := useParameter_eq_ok.mp huse
  obtain ⟨length', t, huse', h⟩ := bind_eq_ok.mp h
  obtain ⟨bound', hlength, rfl⟩ := useParameter_eq_ok.mp huse'
  cases h
  exact ⟨b, b', boundName_eq_ok.mp hstart, boundName_eq_ok.mp hstop, bound, bound', hfirst,
    hlength, rfl⟩

theorem unaryOperator?_eq_charLength {name : String} :
    unaryOperator? name = some .charLength ↔ name = "length" := by
  unfold unaryOperator?
  constructor
  · intro h
    split at h
    · assumption
    · split at h
      · cases h
      · split at h
        · cases h
        · split at h <;> cases h
  · rintro rfl
    rfl

/-- All functions with one operand but `length` ask for the type of the call. -/
theorem operand_unary (c : Compiler) {context : Context} {requiredness : Requiredness}
    {name : String} {operator : UnaryOperator} {argument : Request}
    (hname : unaryOperator? name = some operator) (hlength : name ≠ "length") :
    c.operand context requiredness (.call name [argument]) = (do
      let argument ← c.expression context requiredness argument
      let type ← ofResult (c.returnType name [argument.type])
      return ⟨.unary operator argument.expression, type⟩) := by
  -- `Compiler.operand` singles out the operator, not the name
  have hne : operator ≠ .charLength := by
    rintro rfl
    exact hlength (unaryOperator?_eq_charLength.mp hname)
  cases operator with
  | charLength => exact absurd rfl hne
  | _ => simp only [Compiler.operand, hname]

mutual
/-- A successful run over an expression is a derivation, and leaves the rollback points. -/
theorem compiles_of_expression_ok (c : Compiler) :
    (tokens : List Token) → ∀ {context : Context} {requiredness : Requiredness} {s s' : Session}
      {e : Typed}, c.expression context requiredness tokens s = .ok e s' →
        Compiles c context requiredness tokens s.draft e s'.draft ∧ s'.points = s.points
  | [], _, _, _, _, _, h => absurd h fail_ne_ok
  | t :: rest, context, requiredness, s, s', e, h => by
    cases t with
    | join edge =>
      rw [Compiler.expression, savepoint_eq_ok] at h
      obtain ⟨t, hbody, hclear⟩ := h
      obtain ⟨next, u, hfollow, hrest⟩ := bind_eq_ok.mp hbody
      cases hfollow
      obtain ⟨hd, hp⟩ := compiles_of_expression_ok c rest hrest
      -- the point that was set is still the newest one
      unfold Session.clearPoint at hclear
      rw [hp] at hclear
      cases hclear
      exact ⟨.join hd, rfl⟩
    | _ =>
      cases rest with
      | nil => exact compiles_of_operand_ok c _ h
      | cons next rest => exact absurd h fail_ne_ok
termination_by structural tokens => tokens

/-- The same for an expression that is a single token. -/
theorem compiles_of_operand_ok (c : Compiler) :
    (t : Token) → ∀ {context : Context} {requiredness : Requiredness} {s s' : Session}
      {e : Typed}, c.operand context requiredness t s = .ok e s' →
        Compiles c context requiredness [t] s.draft e s'.draft ∧ s'.points = s.points
  | .parameter name, _, _, s, s', e, h => by
    rw [Compiler.operand] at h
    obtain ⟨ordinal, t, huse, h⟩ := bind_eq_ok.mp h
    obtain ⟨binder, hb, rfl⟩ := useParameter_eq_ok.mp huse
    cases h
    exact ⟨.parameter hb, rfl⟩
  | .read property, _, _, s, s', e, h => by
    rw [Compiler.operand] at h
    obtain ⟨followed, t, hc, h⟩ := bind_eq_ok.mp h
    cases hc
    obtain ⟨⟨expression, type⟩, t, hanswer, h⟩ := bind_eq_ok.mp h
    obtain ⟨hresolved, rfl⟩ := ofResult_eq_ok.mp hanswer
    cases h
    exact ⟨.read hresolved, rfl⟩
  | .call name [], _, _, s, s', e, h => absurd h fail_ne_ok
  | .call name [argument], _, _, s, s', e, h => by
    cases hname : unaryOperator? name with
    | none =>
      simp only [Compiler.operand, hname] at h
      exact absurd h fail_ne_ok
    | some operator =>
      by_cases hlength : name = "length"
      · subst hlength
        obtain ⟨a, t, ha, h⟩ := bind_eq_ok.mp h
        obtain ⟨hd, hp⟩ := compiles_of_expression_ok c argument ha
        cases h
        exact ⟨.length hd, hp⟩
      · rw [operand_unary c hname hlength] at h
        obtain ⟨a, t, ha, h⟩ := bind_eq_ok.mp h
        obtain ⟨hd, hp⟩ := compiles_of_expression_ok c argument ha
        obtain ⟨type, u, htype, h⟩ := bind_eq_ok.mp h
        obtain ⟨hreturn, rfl⟩ := ofResult_eq_ok.mp htype
        cases h
        exact ⟨.unary hname hlength hd hreturn, hp⟩
  | .call name [left, right], _, _, s, s', e, h => by
    cases hname : BinaryForm.ofName? name with
    | none =>
      simp only [Compiler.operand, hname] at h
      exact absurd h fail_ne_ok
    | some form =>
      simp only [Compiler.operand, hname] at h
      obtain ⟨l, t, hl, h⟩ := bind_eq_ok.mp h
      obtain ⟨hdl, hpl⟩ := compiles_of_expression_ok c left hl
      obtain ⟨r, u, hr, h⟩ := bind_eq_ok.mp h
      obtain ⟨hdr, hpr⟩ := compiles_of_expression_ok c right hr
      obtain ⟨type, v, htype, h⟩ := bind_eq_ok.mp h
      obtain ⟨hreturn, rfl⟩ := ofResult_eq_ok.mp htype
      cases h
      exact ⟨.binary hname hdl hdr hreturn, hpr.trans hpl⟩
  | .call name [string, start, stop], _, _, s, s', e, h => by
    rw [Compiler.operand] at h
    split at h
    · next hname =>
      subst hname
      obtain ⟨a, t, ha, h⟩ := bind_eq_ok.mp h
      obtain ⟨hd, hp⟩ := compiles_of_expression_ok c string ha
      obtain ⟨⟨first, length⟩, u, hb, h⟩ := bind_eq_ok.mp h
      cases h
      obtain ⟨b, b', rfl, rfl, bound, bound', hfirst, hlength, rfl⟩ := substringBounds_eq_ok hb
      exact ⟨.substring hd hfirst hlength, hp⟩
    · exact absurd h fail_ne_ok
  | .call name (_ :: _ :: _ :: _ :: _), _, _, s, s', e, h => absurd h fail_ne_ok
  | .table scan, _, _, s, s', e, h => absurd h fail_ne_ok
  | .join edge, _, _, s, s', e, h => absurd h fail_ne_ok
  | .assignments pairs, _, _, s, s', e, h => absurd h fail_ne_ok
termination_by structural t => t
end

/-- A derivation is a run, over whatever rollback points there are. -/
theorem Compiles.expression_ok {c : Compiler} {context : Context} {requiredness : Requiredness}
    {tokens : List Token} {d d' : Draft} {e : Typed}
    (h : Compiles c context requiredness tokens d e d') (points : List RollbackPoint) :
    c.expression context requiredness tokens ⟨d, points⟩ = .ok e ⟨d', points⟩ := by
  induction h generalizing points with
  | @join context requiredness edge rest d d' e h ih =>
    rw [Compiler.expression, savepoint_eq_ok]
    exact ⟨_, ih (⟨context, d⟩ :: points), rfl⟩
  | @parameter context requiredness name d ordinal binder h =>
    show c.operand context requiredness (.parameter name) _ = _
    rw [Compiler.operand]
    exact bind_of_ok (useParameter_eq_ok.mpr ⟨binder, h, rfl⟩)
  | @read context requiredness property d expression type h =>
    show c.operand context requiredness (.read property) _ = _
    rw [Compiler.operand]
    exact bind_of_ok (ofResult_eq_ok.mpr ⟨h, rfl⟩)
  | length h ih => exact bind_of_ok (ih points)
  | @unary context requiredness name operator argument d d' e type hname hlength h htype ih =>
    show c.operand context requiredness (.call name [argument]) _ = _
    rw [operand_unary c hname hlength]
    exact (bind_of_ok (ih points)).trans (bind_of_ok (ofResult_eq_ok.mpr ⟨htype, rfl⟩))
  | @binary context requiredness name form left right d d' d'' l r type hname hleft hright htype
      ihleft ihright =>
    show c.operand context requiredness (.call name [left, right]) _ = _
    simp only [Compiler.operand, hname]
    exact (bind_of_ok (ihleft points)).trans
      ((bind_of_ok (ihright points)).trans (bind_of_ok (ofResult_eq_ok.mpr ⟨htype, rfl⟩)))
  | @substring context requiredness string start stop d d' e first length bound bound' h hfirst
      hlength ih =>
    show c.operand context requiredness (.call "substring" _) _ = _
    rw [Compiler.operand, if_pos rfl]
    refine (bind_of_ok (ih points)).trans (bind_of_ok (a := (first, length)) ?_)
    exact (bind_of_ok (useParameter_eq_ok.mpr ⟨bound, hfirst, rfl⟩)).trans
      (bind_of_ok (useParameter_eq_ok.mpr ⟨bound', hlength, rfl⟩))

/-- A predicate is a required expression. -/
theorem compiles_of_predicate_ok (c : Compiler) {context : Context} {tokens : Request}
    {s s' : Session} {p : Expression} (h : c.predicate context tokens s = .ok p s') :
    ∃ e : Typed, e.expression = p ∧ Compiles c context .required tokens s.draft e s'.draft ∧
      s'.points = s.points := by
  unfold Compiler.predicate at h
  obtain ⟨e, t, he, h⟩ := bind_eq_ok.mp h
  obtain ⟨hd, hp⟩ := compiles_of_expression_ok c tokens he
  -- only an unknown type and the boolean type pass
  cases htype : e.type with
  | none =>
    rw [htype] at h
    cases h
    exact ⟨e, rfl, hd, hp⟩
  | some type =>
    rw [htype] at h
    cases type with
    | boolean =>
      cases h
      exact ⟨e, rfl, hd, hp⟩
    | _ => exact absurd h fail_ne_ok

/-! ## The select of a draft -/

/-- A draft that holds one select, to which a contextual join belongs. -/
structure Draft.Holds (d : Draft) (forked : Bool) (select : Select) : Prop where
  builder : d.builder = .holding forked select
  contextual : ∀ followed, d.contextual = some followed → select.HasContext (.join followed.number)

theorem Draft.Holds.active {d : Draft} {forked : Bool} {select : Select}
    (h : d.Holds forked select) : d.builder.active = select := by
  rw [h.builder, SelectBuilder.active_holding]

theorem Draft.Holds.withBinder {d : Draft} {forked : Bool} {select : Select}
    (h : d.Holds forked select) (binder : ArgumentBinder) :
    Draft.Holds { d with binder } forked select :=
  ⟨h.builder, h.contextual⟩

/-- The join that is followed belongs to the select, be it new or not. -/
theorem Draft.Holds.followJoin {d : Draft} {forked : Bool} {select : Select}
    (h : d.Holds forked select) (context : Context) (edge : JoinEdge) :
    ∃ joins, (d.followJoin context edge).2.Holds forked (select.appendJoins joins) ∧
      (select.appendJoins joins).HasContext (.join (d.followJoin context edge).1) := by
  obtain ⟨joins, hbuilder, hcontext⟩ :=
    SelectBuilder.addJoin_holding forked select context edge.table edge.condition
  rw [← h.builder] at hbuilder hcontext
  refine ⟨joins, ⟨hbuilder, ?_⟩, hcontext⟩
  intro followed hfollowed
  -- the contextual join is the one just followed, or still the one from before
  by_cases hedge : edge.contextual = true
  · simp only [Draft.followJoin, if_pos hedge, Option.some.injEq] at hfollowed
    subst hfollowed
    exact hcontext
  · simp only [Draft.followJoin, if_neg hedge] at hfollowed
    exact (h.contextual followed hfollowed).appendJoins joins

/-- Compiling an expression adds joins to the select in its place. -/
theorem Compiles.holds {c : Compiler} {context : Context} {requiredness : Requiredness}
    {tokens : List Token} {d d' : Draft} {e : Typed} {forked : Bool} {select : Select}
    (h : Compiles c context requiredness tokens d e d') (hd : d.Holds forked select) :
    ∃ joins, d'.Holds forked (select.appendJoins joins) := by
  -- each premise of a derivation starts from the select that the one before it left
  induction h generalizing select with
  | @join context requiredness edge rest d d' e h ih =>
    obtain ⟨joins, hd, -⟩ := hd.followJoin context edge
    obtain ⟨further, hd⟩ := ih hd
    rw [Select.appendJoins_appendJoins] at hd
    exact ⟨joins ++ further, hd⟩
  | parameter h =>
    refine ⟨[], ?_⟩
    rw [Select.appendJoins_nil]
    exact hd.withBinder _
  | read h =>
    refine ⟨[], ?_⟩
    rw [Select.appendJoins_nil]
    exact hd
  | length h ih => exact ih hd
  | unary hname hlength h htype ih => exact ih hd
  | binary hname hleft hright htype ihleft ihright =>
    obtain ⟨joins, hd⟩ := ihleft hd
    obtain ⟨further, hd⟩ := ihright hd
    rw [Select.appendJoins_appendJoins] at hd
    exact ⟨joins ++ further, hd⟩
  | substring h hfirst hlength ih =>
    obtain ⟨joins, hd⟩ := ih hd
    exact ⟨joins, hd.withBinder _⟩

end RequestCompiler
