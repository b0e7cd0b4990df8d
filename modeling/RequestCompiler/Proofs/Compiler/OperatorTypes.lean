import RequestCompiler.Signature.Standard
import RequestCompiler.Proofs.Compiler.CompiledTypes

/-!
# The type of an expression is what its operator yields

A call gets its operator from the name of the function and, if something is added to a string, from
the type of the left operand. It gets its type from the overloads of the function. With the built-in
functions the two fit together as long as an overload accepts the operands. Without one, the
tolerant policy goes on with the first overload, which for all functions but `plus` returns what the
operator yields as well.

* `returnType_plus` — what is appended to a string is a string, or it is taken for a number.
* `expression_type_yields` — an expression has a type that its operator yields, unless something
  else is appended to a string: then it is a concatenation, and has the type of an integer.
-/

namespace RequestCompiler

open Compilation SignatureTable

/-! ## What operators yield -/

/-- The types of what an operator yields. -/
def UnaryOperator.resultTypes : UnaryOperator → List ValueType
  | .not => [.boolean]
  | .upper | .lower => [.string]
  | .charLength => [.integer]

/-- The types of what an operator yields. -/
def BinaryOperator.resultTypes : BinaryOperator → List ValueType
  | .plus | .minus | .times => [.integer, .float]
  | .divides => [.float]
  | .concat => [.string]
  | .equal | .and | .or | .less | .lessEqual | .greater | .greaterEqual | .regexpBinary =>
    [.boolean]

/-- The types of what a function with two operands yields. -/
def BinaryForm.resultTypes : BinaryForm → List ValueType
  | .operator op => op.resultTypes
  | .notEqual => [.boolean]

/--
Whether the root of an expression yields values of a type. Columns and arguments may be of any, and
aggregates are left to the methods.
-/
def Expression.Yields : Expression → ValueType → Prop
  | .column _ _, _ | .argument _, _ => True
  | .unary operator _, type => type ∈ operator.resultTypes
  | .binary operator _ _, type => type ∈ operator.resultTypes
  | .substring _ _ _, type => type = .string
  | .aggregate _ _, _ | .aggregateRows _, _ | .derived _, _ => False

/-- All functions with two operands but `plus` have one operator for all operands. -/
theorem yields_apply {form : BinaryForm} (hplus : form ≠ .operator .plus) (l r : Typed)
    {type : ValueType} (h : type ∈ form.resultTypes) : (form.apply l r).Yields type := by
  cases form with
  | notEqual => exact h
  | operator operator =>
    cases operator with
    | plus => exact absurd rfl hplus
    | _ => exact h

theorem apply_plus_of_eq {l r : Typed} (h : l.type = some .string) :
    (BinaryForm.operator .plus).apply l r = .binary .concat l.expression r.expression := if_pos h

theorem apply_plus_of_ne {l r : Typed} (h : l.type ≠ some .string) :
    (BinaryForm.operator .plus).apply l r = .binary .plus l.expression r.expression := if_neg h

/-! ## What overloads return -/

section Overloads

variable {c : Compiler} {name : String} {known : List (Option ValueType)} {type : ValueType}

/-- The type of a call is what one of the overloads returns, be it accepted or the first. -/
theorem exists_overload_of_returnType (h : c.returnType name known = .ok (some type)) :
    ∃ overload ∈ c.signatures.overloads name, overload.returns = type := by
  unfold Compiler.returnType at h
  split at h
  · next overload hfind =>
    cases h
    exact ⟨overload, List.mem_of_find?_eq_some hfind, rfl⟩
  · split at h
    · simp only [Except.ok.injEq, Option.map_eq_some_iff] at h
      obtain ⟨overload, hhead, hreturns⟩ := h
      exact ⟨overload, List.mem_of_head? hhead, hreturns⟩
    · cases h

theorem returns_mem_of_unaryOperator? {operator : UnaryOperator} {overload : Signature}
    (hname : unaryOperator? name = some operator) (h : overload ∈ standard.overloads name) :
    overload.returns ∈ operator.resultTypes := by
  have htable : ∀ declaration ∈ standardDeclarations,
      ∀ operator ∈ unaryOperator? declaration.1, ∀ overload ∈ declaration.2,
        overload.returns ∈ operator.resultTypes := by decide
  exact htable _ (mem_standardDeclarations_of_mem_overloads h) operator hname overload h

theorem returns_mem_of_binaryForm {form : BinaryForm} {overload : Signature}
    (hname : BinaryForm.ofName? name = some form) (hplus : name ≠ "plus")
    (h : overload ∈ standard.overloads name) :
    form ≠ .operator .plus ∧ overload.returns ∈ form.resultTypes := by
  have htable : ∀ declaration ∈ standardDeclarations,
      ∀ form ∈ BinaryForm.ofName? declaration.1, declaration.1 ≠ "plus" →
        ∀ overload ∈ declaration.2,
          form ≠ .operator .plus ∧ overload.returns ∈ form.resultTypes := by decide
  exact htable _ (mem_standardDeclarations_of_mem_overloads h) form hname hplus overload h

/-- Numbers are added to numbers, and strings to strings. -/
theorem accepts_plus {left right : Option ValueType} {overload : Signature}
    (h : overload ∈ standard.overloads "plus") (haccepts : overload.accepts [left, right] = true) :
    left ≠ some .string ∧ overload.returns ∈ BinaryOperator.plus.resultTypes ∨
      left = some .string ∧ right = some .string ∧ overload.returns = .string := by
  have hslots := (overload.accepts_iff _).mp haccepts
  have htable : standard.overloads "plus" = arithmetic ++ [⟨[.string, .string], .string⟩] := rfl
  rw [htable, List.mem_append, List.mem_singleton] at h
  rcases h with h | rfl
  · simp only [arithmetic, List.mem_cons, List.not_mem_nil, or_false] at h
    left
    rcases h with rfl | rfl | rfl | rfl
    all_goals
      obtain ⟨rfl, -⟩ := List.cons_prefix_cons.mp hslots
      exact ⟨by decide, by decide⟩
  · obtain ⟨rfl, hright⟩ := List.cons_prefix_cons.mp hslots
    obtain ⟨rfl, -⟩ := List.cons_prefix_cons.mp hright
    exact .inr ⟨rfl, rfl, rfl⟩

/--
A sum is a number, or a string made of two. What else is added to a string the tolerant policy takes
for an integer, and the strict policy rejects.
-/
theorem returnType_plus (hsignatures : c.signatures = .standard)
    {left right found : Option ValueType} (h : c.returnType "plus" [left, right] = .ok found) :
    left ≠ some .string ∧ (∃ type ∈ BinaryOperator.plus.resultTypes, found = some type) ∨
      left = some .string ∧ right = some .string ∧ found = some .string ∨
        left = some .string ∧ right ≠ some .string ∧ c.settings.overloadPolicy = .tolerant ∧
          found = some .integer := by
  cases hfind : (standard.overloads "plus").find? (·.accepts [left, right]) with
  | some overload =>
    have haccepts := List.find?_some hfind
    simp only [Compiler.returnType, hsignatures, hfind, Except.ok.injEq] at h
    subst h
    rcases accepts_plus (List.mem_of_find?_eq_some hfind) haccepts with
      ⟨hleft, hreturns⟩ | ⟨hleft, hright, hreturns⟩
    · exact .inl ⟨hleft, _, hreturns, rfl⟩
    · exact .inr (.inl ⟨hleft, hright, congrArg some hreturns⟩)
  | none =>
    simp only [Compiler.returnType, hsignatures, hfind] at h
    cases hpolicy : c.settings.overloadPolicy with
    | strict =>
      rw [hpolicy] at h
      cases h
    | tolerant =>
      rw [hpolicy] at h
      cases h
      by_cases hleft : left = some .string
      · refine .inr (.inr ⟨hleft, ?_, rfl, rfl⟩)
        rintro rfl
        subst hleft
        -- two strings would be accepted
        exact List.find?_eq_none.mp hfind ⟨[.string, .string], .string⟩ (by decide) (by decide)
      · exact .inl ⟨hleft, .integer, by decide, rfl⟩

end Overloads

/-! ## Expressions -/

/-- Whether a request appends to a string what does not compile to one, behind any joins. -/
inductive AppendsOther (c : Compiler) (types : ParameterTypes) : Request → Prop where
  | join {edge : JoinEdge} {rest : Request} (h : AppendsOther c types rest) :
      AppendsOther c types (.join edge :: rest)
  | plus {left right : Request} (hleft : CompilesTo c types left (some .string))
      (hright : ¬ CompilesTo c types right (some .string)) :
      AppendsOther c types [.call "plus" [left, right]]

theorem AppendsOther.operands {c : Compiler} {types : ParameterTypes} {name : String}
    {operands : List Request} (h : AppendsOther c types [.call name operands]) :
    name = "plus" ∧ ∃ left right, operands = [left, right] ∧
      CompilesTo c types left (some .string) ∧ ¬ CompilesTo c types right (some .string) := by
  cases h with
  | plus hleft hright => exact ⟨rfl, _, _, rfl, hleft, hright⟩

/-- What becomes of a string and something else: a concatenation, taken for an integer. -/
structure TakenForInteger (c : Compiler) (e : Typed) : Prop where
  tolerant : c.settings.overloadPolicy = .tolerant
  concat : ∃ left right, e.expression = .binary .concat left right
  type : e.type = some .integer

/-- Whether an expression has a type that its operator yields, or this is a string and more. -/
def TypeFits (c : Compiler) (types : ParameterTypes) (tokens : Request) (e : Typed) : Prop :=
  ¬ AppendsOther c types tokens ∧ (∀ type, e.type = some type → e.expression.Yields type) ∨
    AppendsOther c types tokens ∧ TakenForInteger c e

namespace TypeFits

variable {c : Compiler} {types : ParameterTypes} {e : Typed}

theorem join {rest : Request} (h : TypeFits c types rest e) (edge : JoinEdge) :
    TypeFits c types (.join edge :: rest) e := by
  rcases h with ⟨hother, hyields⟩ | ⟨hother, htaken⟩
  · refine .inl ⟨?_, hyields⟩
    rintro (h | -)
    exact hother h
  · exact .inr ⟨.join hother, htaken⟩

/-- Nothing but `plus` appends. -/
theorem call {name : String} (hname : name ≠ "plus") (operands : List Request)
    (h : ∀ type, e.type = some type → e.expression.Yields type) :
    TypeFits c types [.call name operands] e :=
  .inl ⟨fun hother => hname hother.operands.1, h⟩

theorem plus (hsignatures : c.signatures = .standard) {left right : Request} {l r : Typed}
    {type : Option ValueType} (hleft : CompilesTo c types left l.type)
    (hright : CompilesTo c types right r.type)
    (htype : c.returnType "plus" [l.type, r.type] = .ok type) :
    TypeFits c types [.call "plus" [left, right]]
      ⟨(BinaryForm.operator .plus).apply l r, type⟩ := by
  rcases returnType_plus hsignatures htype with
    ⟨hl, found, hfound, rfl⟩ | ⟨hl, hr, rfl⟩ | ⟨hl, hr, hpolicy, rfl⟩
  · refine .inl ⟨fun h => ?_, ?_⟩
    · obtain ⟨-, _, _, ⟨⟩, hstring, -⟩ := h.operands
      exact hl (hleft.unique hstring)
    · rintro type ⟨⟩
      rw [apply_plus_of_ne hl]
      exact hfound
  · refine .inl ⟨fun h => ?_, ?_⟩
    · obtain ⟨-, _, _, ⟨⟩, -, hother⟩ := h.operands
      exact hother (hr ▸ hright)
    · rintro type ⟨⟩
      rw [apply_plus_of_eq hl]
      exact List.mem_singleton_self _
  · exact .inr ⟨.plus (hl ▸ hleft) fun h => hr (hright.unique h),
      ⟨hpolicy, ⟨_, _, apply_plus_of_eq hl⟩, rfl⟩⟩

end TypeFits

/-- What a compiled expression has for a type fits to it. -/
theorem Compiles.typeFits {c : Compiler} (hsignatures : c.signatures = .standard)
    (hresolver : c.resolver = columnResolver) {context : Context} {requiredness : Requiredness}
    {tokens : List Token} {d d' : Draft} {e : Typed}
    (h : Compiles c context requiredness tokens d e d') :
    TypeFits c d.binder.types tokens e := by
  induction h with
  | join h ih => exact ih.join _
  | parameter h => exact .inl ⟨nofun, fun _ _ => trivial⟩
  | read h =>
    rw [hresolver] at h
    rw [columnResolver_ok h]
    exact .inl ⟨nofun, fun _ _ => trivial⟩
  | length h ih =>
    refine .call (by decide) _ ?_
    rintro type ⟨⟩
    exact List.mem_singleton_self _
  | unary hname hlength h htype ih =>
    refine .call ?_ _ ?_
    · rintro rfl
      cases hname
    · rintro type rfl
      obtain ⟨overload, hmem, rfl⟩ := exists_overload_of_returnType htype
      rw [hsignatures] at hmem
      exact returns_mem_of_unaryOperator? hname hmem
  | @binary context requiredness name form left right d d' d'' l r type hname hleft hright htype
      ihleft ihright =>
    by_cases hplus : name = "plus"
    · subst hplus
      cases hname
      have hcompiled := hright.compilesTo hresolver
      rw [hleft.binds.types] at hcompiled
      exact .plus hsignatures (hleft.compilesTo hresolver) hcompiled htype
    · refine .call hplus _ ?_
      rintro type rfl
      obtain ⟨overload, hmem, rfl⟩ := exists_overload_of_returnType htype
      rw [hsignatures] at hmem
      obtain ⟨hform, hreturns⟩ := returns_mem_of_binaryForm hname hplus hmem
      exact yields_apply hform l r hreturns
  | substring h hfirst hlength ih =>
    refine .call (by decide) _ ?_
    rintro type ⟨⟩
    rfl

/--
If an expression compiles, then its type, if known, is one that the operator at its root yields,
unless something is appended to a string that does not compile to one. This compiles under the
tolerant policy only, to a concatenation whose type is that of integers.
-/
theorem expression_type_yields {c : Compiler} (hsignatures : c.signatures = .standard)
    (hresolver : c.resolver = columnResolver) {context : Context} {requiredness : Requiredness}
    {tokens : Request} {s s' : Session} {e : Typed}
    (h : c.expression context requiredness tokens s = .ok e s') :
    (¬ AppendsOther c s.draft.binder.types tokens →
      ∀ type, e.type = some type → e.expression.Yields type) ∧
    (AppendsOther c s.draft.binder.types tokens → TakenForInteger c e) := by
  obtain ⟨hcompiles, -⟩ := compiles_of_expression_ok c tokens h
  rcases hcompiles.typeFits hsignatures hresolver with ⟨hnot, hyields⟩ | ⟨hother, htaken⟩
  · exact ⟨fun _ => hyields, fun hother => absurd hother hnot⟩
  · exact ⟨fun hnot => absurd hother hnot, fun _ => htaken⟩

/-- The age of a person added to another property. -/
def plusAge (property : Property) : Request :=
  [.call "plus" [[.read property], [.read ⟨"people", "age", .integer, false⟩]]]

/-- A score and an age make a number; a name and an age make a string that is taken for one. -/
theorem plusAge_type_yields :
    (∃ e s', standardCompiler.expression .root .required
        (plusAge ⟨"people", "score", .float, false⟩) (Session.start "people" OrderedMap.empty) =
          .ok e s' ∧
      e.expression.Yields .float) ∧
    ∃ e s', standardCompiler.expression .root .required
        (plusAge ⟨"people", "name", .string, false⟩) (Session.start "people" OrderedMap.empty) =
          .ok e s' ∧
      TakenForInteger standardCompiler e := by
  have hage : CompilesTo standardCompiler OrderedMap.empty
      [.read ⟨"people", "age", .integer, false⟩] (some .integer) := compilesTo_read rfl rfl
  have hscore : CompilesTo standardCompiler OrderedMap.empty
      [.read ⟨"people", "score", .float, false⟩] (some .float) := compilesTo_read rfl rfl
  have hnumbers : ∃ e s', standardCompiler.expression .root .required
      (plusAge ⟨"people", "score", .float, false⟩) (Session.start "people" OrderedMap.empty) =
        .ok e s' ∧ e.type = some .float := ⟨_, _, rfl, rfl⟩
  have hstring : ∃ e s', standardCompiler.expression .root .required
      (plusAge ⟨"people", "name", .string, false⟩) (Session.start "people" OrderedMap.empty) =
        .ok e s' := ⟨_, _, rfl⟩
  constructor
  · obtain ⟨e, s', hrun, htype⟩ := hnumbers
    refine ⟨e, s', hrun, (expression_type_yields rfl rfl hrun).1 (fun h => ?_) _ htype⟩
    obtain ⟨-, _, _, ⟨⟩, hleft, -⟩ := h.operands
    cases hleft.unique hscore
  · obtain ⟨e, s', hrun⟩ := hstring
    refine ⟨e, s', hrun, (expression_type_yields rfl rfl hrun).2 ?_⟩
    exact .plus (compilesTo_read rfl rfl) fun hright => by cases hright.unique hage

/-- So a name with an age behind it is a concatenation, but not of the type of a string. -/
theorem plusAge_not_yields :
    ∃ e s', standardCompiler.expression .root .required
        (plusAge ⟨"people", "name", .string, false⟩) (Session.start "people" OrderedMap.empty) =
          .ok e s' ∧
      e.type = some .integer ∧ ¬ e.expression.Yields .integer :=
  ⟨_, _, rfl, rfl, show .integer ∉ BinaryOperator.concat.resultTypes by decide⟩

end RequestCompiler
