import RequestCompiler.Signature.Standard
import RequestCompiler.Proofs.Compiler.Acceptance
import RequestCompiler.Proofs.Compiler.Progress
import RequestCompiler.Proofs.ParameterTypes.Visits

/-!
# Inferred types are compiled types

Inference and compilation choose overloads by rules of their own: inference takes the first one
that is compatible with what it knows, which leaves room for parameters without a type, and types
these parameters by its slots; compilation takes the first one that accepts the operands, whose
types are known by then. With the built-in functions both choose the same one
(`returnType_of_compatible`): an overload that accepts the operands then was compatible with them
before.

* `IsExpression.agrees` — so an expression compiles to the type that is inferred for it, if its
  parameters have the types that the walk over it leaves.
* `compiled_type_eq_inferred` — and they do, if nothing else in the request mentions them.
-/

namespace RequestCompiler

open Compilation ParameterTypes

/-! ## Expressions of the built-in functions -/

mutual
/-- An expression made of properties with names and of calls, behind joins. -/
inductive IsExpression : Request → Prop where
  | join {edge : JoinEdge} {rest : Request} (h : IsExpression rest) :
      IsExpression (.join edge :: rest)
  | read {property : Property} (hname : isBlank property.expression = false) :
      IsExpression [.read property]
  | unary {name : String} {operator : UnaryOperator} {operand : Request}
      (hname : unaryOperator? name = some operator) (h : IsOperand operand) :
      IsExpression [.call name [operand]]
  | binary {name : String} {form : BinaryForm} {left right : Request}
      (hname : BinaryForm.ofName? name = some form) (hleft : IsOperand left)
      (hright : IsOperand right) : IsExpression [.call name [left, right]]
  | substring {string : Request} {start stop : String} (h : IsOperand string) :
      IsExpression [.call "substring" [string, [.parameter start], [.parameter stop]]]

/-- An operand of a call is a bare parameter or an expression. -/
inductive IsOperand : Request → Prop where
  | parameter (name : String) : IsOperand [.parameter name]
  | expression {r : Request} (h : IsExpression r) : IsOperand r
end

theorem IsExpression.bareParameter?_eq_none {r : Request} (h : IsExpression r) :
    bareParameter? r = none := by
  cases h <;> rfl

mutual
/-- The tokens of an expression, at any depth, are expressions, parameters and joins. -/
theorem IsExpression.of_nested : {r : Request} → IsExpression r →
    ∀ t ∈ nested r, t.parameter? = none → t.isJoin = false → IsExpression [t]
  | _, .join h => List.forall_mem_cons.mpr ⟨fun _ hjoin => (nomatch hjoin), h.of_nested⟩
  | _, .read hname => List.forall_mem_singleton.mpr fun _ _ => .read hname
  | _, .unary hname h => forall_mem_nested_call.mpr
      ⟨fun _ _ => .unary hname h, List.forall_mem_singleton.mpr h.of_nested⟩
  | _, .binary hname hleft hright => forall_mem_nested_call.mpr
      ⟨fun _ _ => .binary hname hleft hright, List.forall_mem_cons.mpr
        ⟨hleft.of_nested, List.forall_mem_singleton.mpr hright.of_nested⟩⟩
  | _, .substring h => forall_mem_nested_call.mpr
      ⟨fun _ _ => .substring h, List.forall_mem_cons.mpr
        ⟨h.of_nested, List.forall_mem_cons.mpr ⟨(IsOperand.parameter _).of_nested,
          List.forall_mem_singleton.mpr (IsOperand.parameter _).of_nested⟩⟩⟩

theorem IsOperand.of_nested : {r : Request} → IsOperand r →
    ∀ t ∈ nested r, t.parameter? = none → t.isJoin = false → IsExpression [t]
  | _, .parameter name => List.forall_mem_singleton.mpr fun hparameter => nomatch hparameter
  | _, .expression h => h.of_nested
end

/-! ## Overloads -/

/-- The overloads of a built-in function have the same number of operands. -/
theorem length_eq_of_mem_overloads {name : String} {overload other : Signature}
    (h : overload ∈ SignatureTable.standard.overloads name)
    (hother : other ∈ SignatureTable.standard.overloads name) :
    other.arguments.length = overload.arguments.length := by
  have htable : ∀ declaration ∈ SignatureTable.standardDeclarations, ∀ overload ∈ declaration.2,
      ∀ other ∈ declaration.2, other.arguments.length = overload.arguments.length := by decide
  have hdeclared := SignatureTable.mem_standardDeclarations_of_mem_overloads h
  exact htable _ hdeclared overload h other hother

/-- Two predicates find the same, if what is found first satisfies the second, which is stronger. -/
theorem find?_eq_some_of_imp {α : Type} {p q : α → Bool} {l : List α} {a : α}
    (hfind : l.find? p = some a) (ha : q a = true) (himp : ∀ b ∈ l, q b = true → p b = true) :
    l.find? q = some a := by
  rw [List.find?_eq_some_iff_append] at hfind ⊢
  obtain ⟨-, before, after, rfl, hbefore⟩ := hfind
  refine ⟨ha, before, after, rfl, fun b hb => ?_⟩
  have hp := hbefore b hb
  have hq := himp b (List.mem_append_left _ hb)
  cases hqb : q b with
  | false => rfl
  | true => rw [hq hqb] at hp; cases hp

/--
If an overload is the first that is compatible with what is known of operands, then operands of the
types of its slots have the type that it returns.
-/
theorem returnType_of_compatible {c : Compiler} (hsignatures : c.signatures = .standard)
    {name : String} {known : List (Option ValueType)} {overload : Signature}
    (hfind : (SignatureTable.standard.overloads name).find? (·.compatible known) = some overload) :
    c.returnType name (overload.arguments.map some) = .ok (some overload.returns) := by
  have hmem := List.mem_of_find?_eq_some hfind
  have hcompatible := List.find?_some hfind
  have haccepts : (SignatureTable.standard.overloads name).find?
      (·.accepts (overload.arguments.map some)) = some overload := by
    refine find?_eq_some_of_imp hfind ?_ fun other hother h => ?_
    · exact (Signature.accepts_iff _ _).mpr (List.prefix_refl _)
    -- with as many slots as there are operands, an overload that accepts them has their types
    · have harguments : other.arguments = overload.arguments := by
        refine List.map_injective_iff.mpr (Option.some_injective _) ?_
        refine ((Signature.accepts_iff _ _).mp h).eq_of_length ?_
        rw [List.length_map, List.length_map, length_eq_of_mem_overloads hmem hother]
      simpa only [Signature.compatible, harguments] using hcompatible
  rw [Compiler.returnType, hsignatures, haccepts]

theorem compatible_singleton {s : Signature} {known : Option ValueType}
    (h : s.compatible [known] = true) :
    ∃ slot, s.arguments = [slot] ∧ (known = none ∨ known = some slot) := by
  obtain ⟨hlength, hslots⟩ := (s.compatible_iff _).mp h
  obtain ⟨slot, hslot⟩ := List.length_eq_one_iff.mp hlength
  rw [hslot] at hslots
  exact ⟨slot, hslot, hslots _ (List.mem_singleton_self _)⟩

theorem compatible_pair {s : Signature} {known known' : Option ValueType}
    (h : s.compatible [known, known'] = true) :
    ∃ slot slot', s.arguments = [slot, slot'] ∧ (known = none ∨ known = some slot) ∧
      (known' = none ∨ known' = some slot') := by
  obtain ⟨hlength, hslots⟩ := (s.compatible_iff _).mp h
  obtain ⟨slot, slot', hslot⟩ := List.length_eq_two.mp hlength
  rw [hslot] at hslots
  obtain ⟨hfirst, hsecond⟩ := List.forall_mem_cons.mp hslots
  exact ⟨slot, slot', hslot, hfirst, hsecond _ (List.mem_singleton_self _)⟩

/-! ## Operands -/

/-- Whether inference finds an overload for a token, if it is a call that needs one. -/
def FindsOverload (signatures : SignatureTable) (types : ParameterTypes) : Token → Prop
  | .call name operands =>
    name = "length" ∨ name = "substring" ∨
      ∃ overload ∈ signatures.overloads name,
        overload.compatible (ofOperands signatures operands types).1 = true
  | _ => True

instance (signatures : SignatureTable) (types : ParameterTypes) :
    DecidablePred (FindsOverload signatures types)
  | .call _ _ => inferInstanceAs (Decidable (_ ∨ _ ∨ _))
  | .read _ | .parameter _ | .join _ | .table _ | .assignments _ => inferInstanceAs (Decidable True)

/-- What an expression is before the walk over it: its parameters stand for themselves alone. -/
structure Ready (types : ParameterTypes) (r : Request) : Prop where
  identifiers : ∀ name ∈ parameterNames r, isIdentifier name = true
  once : (parameterNames r).Nodup
  fresh : ∀ name ∈ parameterNames r, types.find? name = none
  found : ∀ v ∈ visits .standard r types, FindsOverload .standard v.2 v.1

/-- Whether a request compiles to its inferred type, if parameters have the types that it leaves. -/
def Agrees (c : Compiler) (final : ParameterTypes) (r : Request) : Prop :=
  ∀ types, Ready types r →
    AgreeOn (· ∈ parameterNames r) final (ofRequest .standard r none types).2 →
      ∀ context requiredness, Succeeds final (c.expression context requiredness r) fun e =>
        ∃ type, e.type = some type ∧ (ofRequest .standard r none types).1 = some type

/-- Whether an operand is a parameter, or compiles to its inferred type. -/
def OperandAgrees (c : Compiler) (final : ParameterTypes) (r : Request) : Prop :=
  (∃ name, r = [.parameter name]) ∨ bareParameter? r = none ∧ Agrees c final r

section Operands

variable {c : Compiler} {types final : ParameterTypes} {r : Request} {context : Context}
  {requiredness : Requiredness}

/-- An operand compiles, whatever its type. -/
theorem OperandAgrees.succeeds (h : OperandAgrees c final r) (hready : Ready types r)
    (hfinal : AgreeOn (· ∈ parameterNames r) final (ofRequest .standard r none types).2) :
    Succeeds final (c.expression context requiredness r) fun _ => True := by
  rcases h with ⟨name, rfl⟩ | ⟨-, hagrees⟩
  · have hname := hready.identifiers name (List.mem_singleton_self name)
    exact (succeeds_parameter hname).mono fun _ _ => trivial
  · exact (hagrees types hready hfinal context requiredness).mono fun _ _ => trivial

/-- An operand of a call compiles to the type of its slot, which a parameter takes from there. -/
theorem OperandAgrees.fills (h : OperandAgrees c final r) (hready : Ready types r)
    {slot : ValueType}
    (hslot : (ofRequest .standard r none types).1 = none ∨
      (ofRequest .standard r none types).1 = some slot)
    (hfinal : AgreeOn (· ∈ parameterNames r) final
      (bindSlots [r] [slot] (ofRequest .standard r none types).2)) :
    Succeeds final (c.expression context requiredness r) fun e => e.type = some slot := by
  rcases h with ⟨name, rfl⟩ | ⟨hbare, hagrees⟩
  · have hmem : name ∈ parameterNames [.parameter name] := List.mem_singleton_self name
    have htype : final.find? name = some slot := by
      rw [hfinal name hmem]
      show (types.bindNew name slot).find? name = _
      rw [OrderedMap.find?_bindNew, if_pos rfl, hready.fresh name hmem, Option.none_or]
    exact (succeeds_parameter (hready.identifiers name hmem)).mono fun e he => he.trans htype
  · have hkept (types : ParameterTypes) : bindSlots [r] [slot] types = types := by
      simp only [bindSlots, hbare]
    rw [hkept] at hfinal
    refine (hagrees types hready hfinal context requiredness).mono ?_
    rintro e ⟨type, he, htype⟩
    rw [htype] at hslot
    rw [he]
    exact hslot.resolve_left (Option.some_ne_none type)

end Operands

/-! ## Calls -/

/-- What is ready stays so part by part, behind a walk that types none of the part's parameters. -/
theorem Ready.part {types types' : ParameterTypes} {r part : Request} (h : Ready types r)
    (hnames : (parameterNames part).Sublist (parameterNames r))
    (hvisits : visits .standard part types' ⊆ visits .standard r types)
    (hkept : AgreeOn (· ∈ parameterNames part) types' types) : Ready types' part where
  identifiers := fun name hname => h.identifiers name (hnames.subset hname)
  once := h.once.sublist hnames
  fresh := fun name hname => (hkept name hname).trans (h.fresh name (hnames.subset hname))
  found := fun v hv => h.found v (hvisits hv)

/-- The functions that inference has rules for, `length` aside. -/
def ruledNames : List String := ["slice", "filter", "sort", "rsort", "fork", "substring"]

theorem not_mem_ruledNames_of_unaryOperator? {name : String} {operator : UnaryOperator}
    (h : unaryOperator? name = some operator) : name ∉ ruledNames := by
  have hnone : ∀ name ∈ ruledNames, unaryOperator? name = none := by decide
  intro hmem
  rw [hnone name hmem] at h
  cases h

theorem not_mem_ruledNames_of_binaryForm {name : String} {form : BinaryForm}
    (h : BinaryForm.ofName? name = some form) : name ∉ ruledNames ∧ name ≠ "length" := by
  have hnone : ∀ name ∈ "length" :: ruledNames, BinaryForm.ofName? name = none := by decide
  rw [← not_or, or_comm, ← List.mem_cons]
  intro hmem
  rw [hnone name hmem] at h
  cases h

section Calls

variable {name : String} {operands : List Request} {types : ParameterTypes}

/-- Any other call is typed by the first overload that is compatible with its operands. -/
theorem ofToken_call (hruled : name ∉ ruledNames) (hlength : name ≠ "length")
    {overload : Signature} (hfind : (SignatureTable.standard.overloads name).find?
      (·.compatible (ofOperands .standard operands types).1) = some overload) :
    ofToken .standard (.call name operands) types = (some overload.returns,
      bindSlots operands overload.arguments (ofOperands .standard operands types).2) := by
  simp only [ruledNames, List.mem_cons, List.not_mem_nil, or_false, not_or] at hruled
  obtain ⟨hslice, hfilter, hsort, hrsort, hfork, hsubstring⟩ := hruled
  have hstage : ¬ isRowStage name = true := by simp [isRowStage, hfilter, hsort, hrsort, hfork]
  rw [ofToken.eq_def]
  dsimp only
  rw [if_neg hslice, if_neg hstage, if_neg hsubstring, if_neg hlength]
  simp only [conclude, hfind]

theorem visits_call (hruled : name ∉ ruledNames) :
    visits .standard [.call name operands] types =
      (.call name operands, types) :: visitsInOperands .standard operands types := by
  simp only [ruledNames, List.mem_cons, List.not_mem_nil, or_false, not_or] at hruled
  obtain ⟨hslice, -, -, -, -, hsubstring⟩ := hruled
  rw [visits, visits, visitsIn.eq_def, List.append_nil]
  dsimp only
  rw [if_neg hslice, if_neg hsubstring]

theorem Ready.overload (h : Ready types [.call name operands]) (hruled : name ∉ ruledNames)
    (hlength : name ≠ "length") :
    ∃ overload, overload.compatible (ofOperands .standard operands types).1 = true ∧
      (SignatureTable.standard.overloads name).find?
        (·.compatible (ofOperands .standard operands types).1) = some overload := by
  have hvisit : (.call name operands, types) ∈ visits .standard [.call name operands] types :=
    List.mem_cons_self
  have hfound : FindsOverload .standard types (.call name operands) := h.found _ hvisit
  rcases hfound with hname | hname | ⟨overload, hmem, hcompatible⟩
  · exact absurd hname hlength
  · exact absurd hname fun heq => hruled (by simp [ruledNames, heq])
  · have hsome : ((SignatureTable.standard.overloads name).find?
        (·.compatible (ofOperands .standard operands types).1)).isSome = true :=
      List.find?_isSome.mpr ⟨overload, hmem, hcompatible⟩
    obtain ⟨first, hfind⟩ := Option.isSome_iff_exists.mp hsome
    have hfirst := List.find?_some hfind
    exact ⟨first, hfirst, hfind⟩

theorem parameterNames_call : parameterNames [.call name operands] =
    operands.flatMap (collect Token.parameter?) := collect_call _ name operands

/-- The first operand is ready if the call is. -/
theorem Ready.head {operand : Request} {rest : List Request}
    (h : Ready types [.call name (operand :: rest)]) (hruled : name ∉ ruledNames) :
    Ready types operand := by
  refine h.part ?_ ?_ (.refl types)
  · rw [parameterNames_call]
    exact List.sublist_append_left _ _
  · rw [visits_call hruled]
    exact fun v hv => List.mem_cons_of_mem _ (List.mem_append_left _ hv)

/-- The operands of a call that is ready have no parameter in common. -/
theorem Ready.disjoint {left right : Request} (h : Ready types [.call name [left, right]]) :
    ∀ name ∈ parameterNames left, name ∉ parameterNames right := by
  have honce := h.once
  rw [parameterNames_call, List.flatMap_cons, List.flatMap_singleton] at honce
  exact fun name hleft hright => List.disjoint_of_nodup_append honce hleft hright

/-- What is outside of a request, the walk over it leaves alone. -/
theorem agreeOn_ofRequest_of_disjoint {P : String → Prop} {r : Request}
    (h : ∀ name ∈ parameterNames r, ¬ P name) :
    AgreeOn P (ofRequest .standard r none types).2 types :=
  ((confined_ofRequest .standard r (fun _ hname => hname) none).frame types).mono
    fun name hname hmem => h name hmem hname

/-- The second operand is ready behind the first if the call is. -/
theorem Ready.second {left right : Request} (h : Ready types [.call name [left, right]])
    (hruled : name ∉ ruledNames) : Ready (ofRequest .standard left none types).2 right := by
  refine h.part ?_ ?_ (agreeOn_ofRequest_of_disjoint h.disjoint)
  · rw [parameterNames_call, List.flatMap_cons, List.flatMap_singleton]
    exact List.sublist_append_right _ _
  · rw [visits_call hruled]
    exact fun v hv => List.mem_cons_of_mem _ (List.mem_append_right _ (List.mem_append_left _ hv))

end Calls

/-- Two operands without a parameter in common are typed each by its own slot. -/
theorem agreeOn_bindSlots_pair {left right : Request} {slot slot' : ValueType}
    {types : ParameterTypes}
    (hdisjoint : ∀ name ∈ parameterNames left, name ∉ parameterNames right) :
    AgreeOn (· ∈ parameterNames left)
        (bindSlots [left, right] [slot, slot']
          (ofOperands .standard [left, right] types).2)
        (bindSlots [left] [slot] (ofRequest .standard left none types).2) ∧
      AgreeOn (· ∈ parameterNames right)
        (bindSlots [left, right] [slot, slot']
          (ofOperands .standard [left, right] types).2)
        (bindSlots [right] [slot']
          (ofRequest .standard right none (ofRequest .standard left none types).2).2) := by
  have hbind (operand : Request) (slot : ValueType) : Confined (· ∈ parameterNames operand)
      fun types => ((), bindSlots [operand] [slot] types) :=
    confined_bindSlots (List.forall_mem_singleton.mpr fun _ hname => hname) [slot]
  have hleft := hbind left slot
  have hright := hbind right slot'
  have hpair (types : ParameterTypes) : bindSlots [left, right] [slot, slot'] types =
      bindSlots [right] [slot'] (bindSlots [left] [slot] types) := by
    simp only [bindSlots]
    cases bareParameter? left <;> rfl
  rw [hpair]
  constructor
  · exact ((hright.frame _).mono hdisjoint).trans
      (hleft.congr (agreeOn_ofRequest_of_disjoint fun name hright hleft =>
        hdisjoint name hleft hright)).2
  · exact (hright.congr ((hleft.frame _).mono fun name hright hleft =>
      hdisjoint name hleft hright)).2

section Agreement

variable {c : Compiler} {final : ParameterTypes}

theorem agrees_length {operand : Request} (h : OperandAgrees c final operand) :
    Agrees c final [.call "length" [operand]] := by
  intro types hready hfinal context requiredness
  rw [parameterNames_call, List.flatMap_singleton] at hfinal
  have hoperand : Succeeds final (c.expression context .required operand) fun _ => True :=
    h.succeeds (hready.head (by decide)) hfinal
  exact (succeeds_length hoperand).mono fun e he => ⟨.integer, he, rfl⟩

theorem agrees_unary (hsignatures : c.signatures = .standard) {name : String}
    {operator : UnaryOperator} {operand : Request}
    (hname : unaryOperator? name = some operator) (hlength : name ≠ "length")
    (h : OperandAgrees c final operand) : Agrees c final [.call name [operand]] := by
  intro types hready hfinal context requiredness
  have hruled := not_mem_ruledNames_of_unaryOperator? hname
  obtain ⟨overload, hcompatible, hfind⟩ := hready.overload hruled hlength
  obtain ⟨slot, hslots, hslot⟩ := compatible_singleton hcompatible
  have hcall : ofRequest .standard [.call name [operand]] none types =
      (some overload.returns,
        bindSlots [operand] [slot] (ofRequest .standard operand none types).2) := by
    rw [← hslots]
    exact ofToken_call hruled hlength hfind
  rw [hcall, parameterNames_call, List.flatMap_singleton] at hfinal
  have htype := returnType_of_compatible hsignatures hfind
  rw [hslots] at htype
  have hoperand : Succeeds final (c.expression context requiredness operand) fun e =>
      e.type = some slot := h.fills (hready.head hruled) hslot hfinal
  rw [hcall]
  exact (succeeds_unary hname hlength hoperand htype).mono fun e he => ⟨_, he, rfl⟩

theorem agrees_binary (hsignatures : c.signatures = .standard) {name : String}
    {form : BinaryForm} {left right : Request}
    (hname : BinaryForm.ofName? name = some form) (hleft : OperandAgrees c final left)
    (hright : OperandAgrees c final right) : Agrees c final [.call name [left, right]] := by
  intro types hready hfinal context requiredness
  obtain ⟨hruled, hlength⟩ := not_mem_ruledNames_of_binaryForm hname
  obtain ⟨overload, hcompatible, hfind⟩ := hready.overload hruled hlength
  obtain ⟨slot, slot', hslots, hslot, hslot'⟩ := compatible_pair hcompatible
  have hcall : ofRequest .standard [.call name [left, right]] none types =
      (some overload.returns, bindSlots [left, right] [slot, slot']
        (ofOperands .standard [left, right] types).2) := by
    rw [← hslots]
    exact ofToken_call hruled hlength hfind
  rw [hcall, parameterNames_call, List.flatMap_cons, List.flatMap_singleton] at hfinal
  obtain ⟨hkept, hkept'⟩ := agreeOn_bindSlots_pair hready.disjoint
  have hfirst := (hfinal.mono fun _ hmem => List.mem_append_left _ hmem).trans hkept
  have hsecond := (hfinal.mono fun _ hmem => List.mem_append_right _ hmem).trans hkept'
  have htype := returnType_of_compatible hsignatures hfind
  rw [hslots] at htype
  have hl : Succeeds final (c.expression context requiredness left) fun e => e.type = some slot :=
    hleft.fills (hready.head hruled) hslot hfirst
  have hr : Succeeds final (c.expression context requiredness right) fun e => e.type = some slot' :=
    hright.fills (hready.second hruled) hslot' hsecond
  rw [hcall]
  exact (succeeds_binary hname hl hr htype).mono fun e he => ⟨_, he, rfl⟩

theorem agrees_substring {string : Request} {start stop : String}
    (h : OperandAgrees c final string) :
    Agrees c final [.call "substring" [string, [.parameter start], [.parameter stop]]] := by
  intro types hready hfinal context requiredness
  have hnames : parameterNames [.call "substring" [string, [.parameter start], [.parameter stop]]] =
      parameterNames string ++ [start, stop] := parameterNames_call
  have hidentifiers := hready.identifiers
  have honce := hready.once
  rw [hnames] at hidentifiers honce hfinal
  have hstring : Ready types string := by
    refine hready.part ?_ ?_ (.refl types)
    · rw [hnames]
      exact List.sublist_append_left _ _
    · exact fun v hv => List.mem_cons_of_mem _ (List.mem_append_left _ (List.mem_append_left _ hv))
  -- the bounds are typed behind the string, which mentions neither of them
  have hkept : AgreeOn (· ∈ parameterNames string) final
      (ofRequest .standard string none types).2 := by
    have hbind (bound : String) (hbound : bound ∈ [start, stop]) (types : ParameterTypes) :
        AgreeOn (· ∈ parameterNames string) (types.bindNew bound .integer) types := by
      refine ((Confined.bindNew (rfl : bound = bound) .integer).frame types).mono ?_
      rintro name hname rfl
      exact List.disjoint_of_nodup_append honce hname hbound
    exact ((hfinal.mono fun _ hname => List.mem_append_left _ hname).trans
      (hbind stop (by simp) _)).trans (hbind start (by simp) _)
  have hoperand : Succeeds final (c.expression context .required string) fun _ => True :=
    h.succeeds hstring hkept
  exact (succeeds_substring hoperand (hidentifiers start (by simp))
    (hidentifiers stop (by simp))).mono fun e he => ⟨.string, he, rfl⟩

mutual
/-- An expression compiles to the type that is inferred for it. -/
theorem IsExpression.agrees (hsignatures : c.signatures = .standard)
    (hresolver : c.resolver = columnResolver) : {r : Request} → IsExpression r → Agrees c final r
  | _, @IsExpression.join edge rest h => fun types hready hfinal context requiredness => by
    have hrest : Ready types rest := ⟨hready.identifiers, hready.once, hready.fresh,
      fun v hv => hready.found v (List.mem_cons_of_mem _ hv)⟩
    have hagrees := h.agrees hsignatures hresolver types hrest hfinal
    exact succeeds_joins (fun next => hagrees next requiredness) [edge] context
  | _, .read hname => fun types _ _ context requiredness s hs =>
    ⟨_, s, expression_read hresolver hname context requiredness s, ⟨_, rfl, rfl⟩, hs, rfl⟩
  | _, @IsExpression.unary name operator operand hname h => by
    by_cases hlength : name = "length"
    · subst hlength
      exact agrees_length (h.agrees hsignatures hresolver)
    · exact agrees_unary hsignatures hname hlength (h.agrees hsignatures hresolver)
  | _, .binary hname hleft hright =>
    agrees_binary hsignatures hname (hleft.agrees hsignatures hresolver)
      (hright.agrees hsignatures hresolver)
  | _, .substring h => agrees_substring (h.agrees hsignatures hresolver)

theorem IsOperand.agrees (hsignatures : c.signatures = .standard)
    (hresolver : c.resolver = columnResolver) :
    {r : Request} → IsOperand r → OperandAgrees c final r
  | _, .parameter name => .inl ⟨name, rfl⟩
  | _, .expression h => .inr ⟨h.bareParameter?_eq_none, h.agrees hsignatures hresolver⟩
end

end Agreement

/-! ## Requests -/

section Requests

variable {method : String} {arguments : List Request} {rest : Request} {t : Token}

/-- What only one token of a request mentions is ready there, and typed there for good. -/
theorem ready_of_visited
    (honce : ∀ name ∈ parameterNames [t], isIdentifier name = true ∧
      (parameterNames (.call method arguments :: rest)).count name = 1)
    {types : ParameterTypes}
    (hvisit : (t, types) ∈ visitsInOperands .standard arguments OrderedMap.empty)
    (hparameter : t.parameter? = none)
    (hfound : ∀ v ∈ visits .standard [t] types, FindsOverload .standard v.2 v.1) :
    Ready types [t] ∧ AgreeOn (· ∈ parameterNames [t])
      (inferTypes .standard (.call method arguments :: rest)) (ofToken .standard t types).2 := by
  have hwalk := walked_operands (walked_arguments .standard arguments) OrderedMap.empty
  have hnames := hwalk.mentioned _ hvisit
  have hcount (name : String) (hname : name ∈ parameterNames [t]) :
      (namesAmong (nestedInArguments arguments)).count name = 1 := by
    have hrequest : parameterNames (.call method arguments :: rest) =
        namesAmong (nestedInArguments arguments) ++ parameterNames rest :=
      namesAmong_append _ _
    have hone := (honce name hname).2
    have hpos := List.count_pos_iff.mpr (hnames.subset hname)
    rw [hrequest, List.count_append] at hone
    omega
  have hsettled (name : String) (hname : name ∈ parameterNames [t]) :=
    hwalk.settled _ hvisit hparameter name hname (hcount name hname)
  refine ⟨⟨fun name hname => (honce name hname).1, ?_, ?_, hfound⟩, ?_⟩
  · refine List.nodup_iff_count_le_one.mpr fun name => ?_
    by_cases hname : name ∈ parameterNames [t]
    · exact (hnames.count_le name).trans (hcount name hname).le
    · rw [List.count_eq_zero.mpr hname]
      exact Nat.zero_le 1
  · exact fun name hname => (hsettled name hname).1.symm
  · exact fun name hname => (hsettled name hname).2

theorem ofRequest_singleton (signatures : SignatureTable) (h : t.isJoin = false)
    (types : ParameterTypes) :
    ofRequest signatures [t] none types = ofToken signatures t types := by
  cases t with
  | join edge => cases h
  | _ => rfl

/--
Take an expression inside of the arguments of a request, whose parameters are identifiers that
nothing else in the request mentions. Inference comes to it, and let it find an overload for every
call in it that needs one. Then wherever it comes to a property or a call in it, this compiles,
behind any joins and at any context, with the types that are inferred from the request, and its type
is the one that inference returns for it there. This is so under both policies, as all overloads are
found. The types of parameters stay, so the operands of a call, at any depth, are compiled with the
same.
-/
theorem compiled_type_eq_inferred {c : Compiler} (hsignatures : c.signatures = .standard)
    (hresolver : c.resolver = columnResolver) (hinfer : c.settings.inferParameterTypes = true)
    (ht : t ∈ arguments.flatMap nested) (hexpression : IsExpression [t])
    (honce : ∀ name ∈ parameterNames [t], isIdentifier name = true ∧
      (parameterNames (.call method arguments :: rest)).count name = 1) :
    (∃ types, (t, types) ∈ visitsInOperands .standard arguments OrderedMap.empty) ∧
    ∀ types, (t, types) ∈ visitsInOperands .standard arguments OrderedMap.empty →
      (∀ v ∈ visits .standard [t] types, FindsOverload .standard v.2 v.1) →
      ∀ v ∈ visits .standard [t] types, v.1.parameter? = none → v.1.isJoin = false →
        ∀ (edges : List JoinEdge) (context : Context) (requiredness : Requiredness) (s : Session),
          s.draft.binder.types = c.parameterTypes (.call method arguments :: rest) →
            ∃ typed s', c.expression context requiredness (edges.map Token.join ++ [v.1]) s =
                .ok typed s' ∧
              typed.type = (ofToken .standard v.1 v.2).1 ∧
              s'.draft.binder.types = s.draft.binder.types := by
  have hwalk := walked_operands (walked_arguments .standard arguments) OrderedMap.empty
  constructor
  · have hparameter : t.parameter? = none := by cases hexpression <;> rfl
    rw [← nestedInArguments_eq_flatMap] at ht
    exact hwalk.complete t ht hparameter
  · intro types hvisit hfound v hv hparameter hjoin edges context requiredness s hs
    have hinside := walked_ofRequest .standard [t] none types
    have hmentioned : (parameterNames [v.1]).Sublist (parameterNames [t]) := hinside.mentioned v hv
    obtain ⟨hready, hfinal⟩ := ready_of_visited
      (fun name hname => honce name (hmentioned.subset hname)) (hwalk.closed _ hvisit hv) hparameter
      fun w hw => hfound w (hinside.closed v hv hw)
    rw [← ofRequest_singleton .standard hjoin] at hfinal
    have htypes : s.draft.binder.types = inferTypes .standard (.call method arguments :: rest) := by
      rw [hs, Compiler.parameterTypes, if_pos hinfer, hsignatures]
    have hagrees := (hexpression.of_nested v.1 (hinside.sound v hv) hparameter hjoin).agrees
      hsignatures hresolver v.2 hready hfinal
    obtain ⟨typed, s', hok, ⟨type, htype, hinferred⟩, hkept, -⟩ :=
      succeeds_joins (fun context => hagrees context requiredness) edges context s htypes
    rw [ofRequest_singleton .standard hjoin] at hinferred
    exact ⟨typed, s', hok, htype.trans hinferred.symm, hkept.trans htypes.symm⟩

end Requests

/-- The age of a person, raised by some years. -/
def raisedAge : Token :=
  .call "plus" [[.read ⟨"people", "age", .integer, false⟩], [.parameter "years"]]

/-- Whether the raised age exceeds a limit and the name of the town begins in a certain way. -/
def isCounted : Token :=
  .call "and"
    [[.call "greater" [[raisedAge], [.parameter "limit"]]],
      [.join ⟨"towns", "people.town = towns.id", false⟩,
        .call "equal"
          [[.call "substring" [[.read ⟨"towns", "name", .string, false⟩], [.parameter "start"],
            [.parameter "stop"]]],
          [.parameter "beginning"]]]]

/-- The names of the people counted. -/
def countedNames : Request :=
  [.call "get"
    [[.table ⟨"people", "id", false⟩, .call "filter" [[isCounted]]],
      [.read ⟨"people", "name", .string, false⟩]]]

/-- The standard compiler under the strict policy. -/
def strictCompiler : Compiler :=
  { standardCompiler with settings := standardCompiler.settings.strict }

/--
The years are taken for an integer, so the raised age is one, and so is the limit. What is inferred
for the raised age is its type behind a join, too.
-/
theorem countedNames_compiled_type_eq_inferred :
    (∃ typed s', strictCompiler.expression .root .required [isCounted]
        (Session.start "people" (strictCompiler.parameterTypes countedNames)) = .ok typed s' ∧
      typed.type = some .boolean) ∧
    ∃ typed s', strictCompiler.expression .root .defaultsToZero
        [.join ⟨"towns", "people.town = towns.id", false⟩, raisedAge]
        (Session.start "people" (strictCompiler.parameterTypes countedNames)) = .ok typed s' ∧
      typed.type = some .integer := by
  have hexpression : IsExpression [isCounted] :=
    .binary rfl
      (.expression (.binary rfl (.expression (.binary rfl (.expression (.read rfl))
        (.parameter "years"))) (.parameter "limit")))
      (.expression (.join (.binary rfl (.expression (.substring (.expression (.read rfl))))
        (.parameter "beginning"))))
  have hmem : isCounted ∈ ([[.table ⟨"people", "id", false⟩, .call "filter" [[isCounted]]],
      [.read ⟨"people", "name", .string, false⟩]] : List Request).flatMap nested := by
    decide +kernel
  have honce : ∀ name ∈ parameterNames [isCounted], isIdentifier name = true ∧
      (parameterNames countedNames).count name = 1 := by
    decide +kernel
  have hempty : ∀ v ∈ visitsInOperands .standard
      [[.table ⟨"people", "id", false⟩, .call "filter" [[isCounted]]],
        [.read ⟨"people", "name", .string, false⟩]] OrderedMap.empty,
      v.1 = isCounted → v.2 = OrderedMap.empty := by
    decide +kernel
  have hfound : ∀ v ∈ visits .standard [isCounted] OrderedMap.empty,
      FindsOverload .standard v.2 v.1 := by
    decide +kernel
  have hraised : (raisedAge, OrderedMap.empty) ∈ visits .standard [isCounted] OrderedMap.empty := by
    decide +kernel
  obtain ⟨⟨types, hvisit⟩, hcompiled⟩ :=
    compiled_type_eq_inferred (c := strictCompiler) rfl rfl rfl hmem hexpression honce
  obtain rfl : types = OrderedMap.empty := hempty _ hvisit rfl
  obtain ⟨typed, s', hok, htype, -⟩ := hcompiled _ hvisit hfound _ List.mem_cons_self rfl rfl []
    .root .required (Session.start "people" (strictCompiler.parameterTypes countedNames)) rfl
  obtain ⟨typed', s'', hok', htype', -⟩ := hcompiled _ hvisit hfound _ hraised rfl rfl
    [⟨"towns", "people.town = towns.id", false⟩] .root .defaultsToZero
    (Session.start "people" (strictCompiler.parameterTypes countedNames)) rfl
  exact ⟨⟨typed, s', hok, htype.trans (by decide +kernel)⟩,
    ⟨typed', s'', hok', htype'.trans (by decide +kernel)⟩⟩

end RequestCompiler
