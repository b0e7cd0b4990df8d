import RequestCompiler.Proofs.Compiler.CompiledTypes
import RequestCompiler.Proofs.Compiler.Policies
import RequestCompiler.Proofs.Token.Nested

/-!
# What the strict policy lets through

The strict policy asks for an overload that accepts the operands, at every call whose type it looks
up. It does not look up those of `length` and `substring`, which are an integer and a string
whatever their operands are.

* `expression_strict_ok_iff` — an expression compiles under the strict policy if and only if it does
  under the tolerant one and an overload accepts the operands of all its other calls.
* `middleOfAge_compiles_strict` — so a part of an integer compiles, too.
-/

namespace RequestCompiler

open Compilation

/-- Whether an overload accepts the types that operands compile to. -/
def AcceptsOperands (c : Compiler) (types : ParameterTypes) (name : String)
    (operands : List Request) : Prop :=
  ∃ known, List.Forall₂ (CompilesTo c types) operands known ∧
    ∃ overload ∈ c.signatures.overloads name, overload.accepts known = true

/-- Whether an overload accepts the operands of a token, if this is a call that is looked up. -/
def IsAccepted (c : Compiler) (types : ParameterTypes) : Token → Prop
  | .call name operands =>
    name ≠ "length" → name ≠ "substring" → AcceptsOperands c types name operands
  | _ => True

/-! ## Types of calls -/

section Overloads

variable {c : Compiler} {name : String} {known : List (Option ValueType)} {type : Option ValueType}

/-- Under the strict policy a call has a type only from an overload that accepts the operands. -/
theorem accepts_of_returnType (hpolicy : c.settings.overloadPolicy = .strict)
    (h : c.returnType name known = .ok type) :
    ∃ overload ∈ c.signatures.overloads name, overload.accepts known = true := by
  cases hfind : (c.signatures.overloads name).find? (·.accepts known) with
  | none =>
    simp only [Compiler.returnType, hfind, hpolicy] at h
    cases h
  | some overload =>
    have haccepts := List.find?_some hfind
    exact ⟨overload, List.mem_of_find?_eq_some hfind, haccepts⟩

/-- Where an overload accepts the operands, the policies agree on the type. -/
theorem returnType_strict_of_accepts
    (haccepts : ∃ overload ∈ c.signatures.overloads name, overload.accepts known = true)
    (h : (c.withPolicy .tolerant).returnType name known = .ok type) :
    (c.withPolicy .strict).returnType name known = .ok type := by
  have hsome : ((c.signatures.overloads name).find? (·.accepts known)).isSome = true :=
    List.find?_isSome.mpr haccepts
  obtain ⟨overload, hfind⟩ := Option.isSome_iff_exists.mp hsome
  simp only [Compiler.returnType, Compiler.withPolicy, hfind] at h ⊢
  exact h

end Overloads

/-! ## Expressions -/

/-- An overload accepts the operands of every call that is looked up under the strict policy. -/
theorem Compiles.isAccepted {c : Compiler} (hpolicy : c.settings.overloadPolicy = .strict)
    (hresolver : c.resolver = columnResolver) {context : Context} {requiredness : Requiredness}
    {tokens : List Token} {d d' : Draft} {e : Typed}
    (h : Compiles c context requiredness tokens d e d') :
    ∀ t ∈ nested tokens, IsAccepted c d.binder.types t := by
  induction h with
  | join h ih => exact List.forall_mem_cons.mpr ⟨trivial, ih⟩
  | parameter h => exact List.forall_mem_singleton.mpr trivial
  | read h => exact List.forall_mem_singleton.mpr trivial
  | length h ih =>
    exact forall_mem_nested_call.mpr
      ⟨fun hlength => absurd rfl hlength, List.forall_mem_singleton.mpr ih⟩
  | unary hname hlength h htype ih =>
    have hoperand := h.compilesTo hresolver
    exact forall_mem_nested_call.mpr
      ⟨fun _ _ => ⟨_, .cons hoperand .nil, accepts_of_returnType hpolicy htype⟩,
        List.forall_mem_singleton.mpr ih⟩
  | binary hname hleft hright htype ihleft ihright =>
    have hl := hleft.compilesTo hresolver
    have hr := hright.compilesTo hresolver
    rw [hleft.binds.types] at hr ihright
    exact forall_mem_nested_call.mpr
      ⟨fun _ _ => ⟨_, .cons hl (.cons hr .nil), accepts_of_returnType hpolicy htype⟩,
        List.forall_mem_cons.mpr ⟨ihleft, List.forall_mem_singleton.mpr ihright⟩⟩
  | @substring context requiredness string start stop d d' e first length bound bound' h hfirst
      hlength ih =>
    have hbound (name : String) : ∀ t ∈ nested [.parameter name], IsAccepted c d.binder.types t :=
      List.forall_mem_singleton.mpr trivial
    exact forall_mem_nested_call.mpr ⟨fun _ hsubstring => absurd rfl hsubstring,
      List.forall_mem_cons.mpr
        ⟨ih, List.forall_mem_cons.mpr ⟨hbound _, List.forall_mem_singleton.mpr (hbound _)⟩⟩⟩

/-- If an overload accepts them all, then the strict policy lets pass what the tolerant one does. -/
theorem Compiles.strict_of_isAccepted {c : Compiler}
    (hresolver : (c.withPolicy .strict).resolver = columnResolver) {context : Context}
    {requiredness : Requiredness} {tokens : List Token} {d d' : Draft} {e : Typed}
    (h : Compiles (c.withPolicy .tolerant) context requiredness tokens d e d')
    (haccepted : ∀ t ∈ nested tokens, IsAccepted (c.withPolicy .strict) d.binder.types t) :
    Compiles (c.withPolicy .strict) context requiredness tokens d e d' := by
  induction h with
  | join h ih => exact .join (ih (List.forall_mem_cons.mp haccepted).2)
  | parameter h => exact .parameter h
  | read h => exact .read h
  | length h ih =>
    rw [forall_mem_nested_call, List.forall_mem_singleton] at haccepted
    exact .length (ih haccepted.2)
  | unary hname hlength h htype ih =>
    rw [forall_mem_nested_call, List.forall_mem_singleton] at haccepted
    obtain ⟨hcall, hoperand⟩ := haccepted
    have hstrict := ih hoperand
    -- the operand compiles to one type only, so that is what the overload accepts
    obtain ⟨known, hknown, haccepts⟩ := hcall hlength (ne_substring_of_unaryOperator? hname)
    cases hknown with
    | cons hfirst hrest =>
      cases hrest
      cases hfirst.unique (hstrict.compilesTo hresolver)
      exact .unary hname hlength hstrict (returnType_strict_of_accepts haccepts htype)
  | binary hname hleft hright htype ihleft ihright =>
    rw [forall_mem_nested_call, List.forall_mem_cons, List.forall_mem_singleton] at haccepted
    obtain ⟨hcall, hl, hr⟩ := haccepted
    have hstrict := ihleft hl
    rw [← hleft.binds.types] at hr
    have hstrict' := ihright hr
    have hsecond := hstrict'.compilesTo hresolver
    rw [hleft.binds.types] at hsecond
    obtain ⟨hlength, hsubstring⟩ := ne_of_binaryForm hname
    obtain ⟨known, hknown, haccepts⟩ := hcall hlength hsubstring
    cases hknown with
    | cons hleft' hrest =>
      cases hrest with
      | cons hright' hrest =>
        cases hrest
        cases hleft'.unique (hstrict.compilesTo hresolver)
        cases hright'.unique hsecond
        exact .binary hname hstrict hstrict' (returnType_strict_of_accepts haccepts htype)
  | substring h hfirst hlength ih =>
    rw [forall_mem_nested_call, List.forall_mem_cons] at haccepted
    exact .substring (ih haccepted.2.1) hfirst hlength

/--
An expression compiles under the strict policy, to some result, if and only if it compiles to this
result under the tolerant one and the following holds of every call in it, at any depth, but those
of `length` and `substring`: its operands compile to types that one of its overloads accepts.
-/
theorem expression_strict_ok_iff {c : Compiler} (hresolver : c.resolver = columnResolver)
    {context : Context} {requiredness : Requiredness} {tokens : Request} {s s' : Session}
    {e : Typed} :
    (c.withPolicy .strict).expression context requiredness tokens s = .ok e s' ↔
      (c.withPolicy .tolerant).expression context requiredness tokens s = .ok e s' ∧
        ∀ t ∈ nested tokens, IsAccepted (c.withPolicy .strict) s.draft.binder.types t := by
  have hstrictResolver : (c.withPolicy .strict).resolver = columnResolver := hresolver
  have hpolicies := orMismatch_expression c tokens context requiredness s
  constructor
  · intro h
    have haccepted := (compiles_of_expression_ok _ tokens h).1.isAccepted rfl hstrictResolver
    rcases hpolicies with heq | ⟨name, operands, t, heq⟩
    · exact ⟨heq ▸ h, haccepted⟩
    · rw [heq] at h
      cases h
  · rintro ⟨h, haccepted⟩
    have hstrict :=
      (compiles_of_expression_ok _ tokens h).1.strict_of_isAccepted hstrictResolver haccepted
    obtain ⟨e', s'', hrun, -⟩ := hstrict.compilesTo hstrictResolver context requiredness s rfl
    rcases hpolicies with heq | ⟨name, operands, t, heq⟩
    · rw [heq, h]
    · rw [heq] at hrun
      cases hrun

/-- How long a property of a person is in capitals. -/
def lengthInCapitals (property : Property) : Request :=
  [.call "length" [[.call "uppercase" [[.read property]]]]]

/--
A name has capitals, so how long they are compiles. An age has none, and this compiles under the
tolerant policy only.
-/
theorem lengthInCapitals_strict_ok_iff :
    (∀ t ∈ nested (lengthInCapitals ⟨"people", "name", .string, false⟩),
      IsAccepted (standardCompiler.withPolicy .strict) OrderedMap.empty t) ∧
    ¬ ∀ t ∈ nested (lengthInCapitals ⟨"people", "age", .integer, false⟩),
      IsAccepted (standardCompiler.withPolicy .strict) OrderedMap.empty t := by
  constructor
  · have hname : ∃ e s', (standardCompiler.withPolicy .strict).expression .root .required
        (lengthInCapitals ⟨"people", "name", .string, false⟩)
        (Session.start "people" OrderedMap.empty) = .ok e s' := ⟨_, _, rfl⟩
    obtain ⟨e, s', hname⟩ := hname
    exact ((expression_strict_ok_iff rfl).mp hname).2
  · intro haccepted
    have hage : ∃ e s', (standardCompiler.withPolicy .tolerant).expression .root .required
        (lengthInCapitals ⟨"people", "age", .integer, false⟩)
        (Session.start "people" OrderedMap.empty) = .ok e s' := ⟨_, _, rfl⟩
    obtain ⟨e, s', hage⟩ := hage
    cases (expression_strict_ok_iff rfl).mpr ⟨hage, haccepted⟩

/-! ## Calls that are not looked up -/

/-- A part of the age of a person. -/
def middleOfAge : Request :=
  [.call "substring" [[.read ⟨"people", "age", .integer, false⟩], [.parameter "start"],
    [.parameter "stop"]]]

/-- The strict policy lets a part of an integer through, which no overload accepts. -/
theorem middleOfAge_compiles_strict :
    (∃ e s', (standardCompiler.withPolicy .strict).expression .root .required middleOfAge
        (Session.start "people" OrderedMap.empty) = .ok e s') ∧
      CompilesTo (standardCompiler.withPolicy .strict) OrderedMap.empty
        [.read ⟨"people", "age", .integer, false⟩] (some .integer) ∧
      ∀ overload ∈ SignatureTable.standard.overloads "substring",
        overload.accepts [some .integer, some .integer, some .integer] = false :=
  ⟨⟨_, _, rfl⟩, compilesTo_read rfl rfl, by decide⟩

end RequestCompiler
