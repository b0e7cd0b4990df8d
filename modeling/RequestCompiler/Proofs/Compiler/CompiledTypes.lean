import RequestCompiler.Proofs.Compiler.Acceptance
import RequestCompiler.Proofs.Compiler.Progress
import RequestCompiler.Proofs.Compiler.Uses

/-!
# Types of compiled expressions

Where columns are read without looking at more than their names, an expression that compiles in one
session does so in all that have the same types of parameters, at every context, and always to the
same type. So the type is one of the expression, not of the run (`CompilesTo`).

* `Compiles.compilesTo` — an expression compiles everywhere to the type that it did once.
* `CompilesTo.unique` — and to no other.
-/

namespace RequestCompiler

open Compilation

/--
Whether an expression compiles to a type, if these are the types of parameters: at any context, as
any requiredness and in any session.
-/
def CompilesTo (c : Compiler) (types : ParameterTypes) (r : Request) (type : Option ValueType) :
    Prop :=
  ∀ context requiredness,
    Succeeds types (c.expression context requiredness r) fun e => e.type = type

namespace CompilesTo

variable {c : Compiler} {types : ParameterTypes} {r : Request} {type type' : Option ValueType}

/-- The type of a single run is the type. -/
theorem type_eq (h : CompilesTo c types r type) {context : Context} {requiredness : Requiredness}
    {s s' : Session} {e : Typed} (hs : s.draft.binder.types = types)
    (hrun : c.expression context requiredness r s = .ok e s') : e.type = type := by
  obtain ⟨e', s'', hrun', htype, -⟩ := h context requiredness s hs
  cases hrun.symm.trans hrun'
  exact htype

theorem unique (h : CompilesTo c types r type) (h' : CompilesTo c types r type') :
    type = type' := by
  obtain ⟨e, s', hrun, htype, -⟩ := h .root .required (Session.start "" types) rfl
  rw [← htype]
  exact h'.type_eq rfl hrun

end CompilesTo

/-! ## Single tokens -/

section Tokens

variable {c : Compiler} {types : ParameterTypes}

/-- Names that are used are identifiers. -/
theorem isIdentifier_of_use? {b b' : ArgumentBinder} {use : ParameterUse} {ordinal : Nat}
    (h : b.use? use = some (ordinal, b')) : ∀ name ∈ use.names, isIdentifier name = true := by
  unfold ArgumentBinder.use? at h
  split at h
  · next hvalid => exact List.all_eq_true.mp hvalid
  · cases h

theorem compilesTo_read (hresolver : c.resolver = columnResolver) {property : Property}
    (hname : isBlank property.expression = false) :
    CompilesTo c types [.read property] (some property.type) :=
  fun context requiredness s hs =>
    ⟨_, s, expression_read hresolver hname context requiredness s, rfl, hs, rfl⟩

end Tokens

/-! ## Expressions -/

/-- An expression that compiles does so everywhere, to the same type. -/
theorem Compiles.compilesTo {c : Compiler} (hresolver : c.resolver = columnResolver)
    {context : Context} {requiredness : Requiredness} {tokens : List Token} {d d' : Draft}
    {e : Typed} (h : Compiles c context requiredness tokens d e d') :
    CompilesTo c d.binder.types tokens e.type := by
  induction h with
  | @join context requiredness edge rest d d' e h ih =>
    exact fun context requiredness =>
      succeeds_joins (fun next => ih next requiredness) [edge] context
  | @parameter context requiredness name d ordinal binder h =>
    have htype : binder.typeOf name = d.binder.types.find? name :=
      congrArg (·.find? name) (use?_eq_some h).1.types
    have hname := isIdentifier_of_use? h name (List.mem_singleton_self name)
    rw [htype]
    exact fun context requiredness => succeeds_parameter hname
  | @read context requiredness property d expression type h =>
    rw [hresolver] at h
    unfold columnResolver at h
    split at h
    · cases h
    · next hname =>
      cases h
      exact compilesTo_read hresolver (Bool.eq_false_iff.mpr hname)
  | length h ih => exact fun context requiredness => succeeds_length (ih context .required)
  | unary hname hlength h htype ih =>
    exact fun context requiredness => succeeds_unary hname hlength (ih context requiredness) htype
  | binary hname hleft hright htype ihleft ihright =>
    -- the left operand binds parameters, but leaves their types
    rw [hleft.binds.types] at ihright
    exact fun context requiredness =>
      succeeds_binary hname (ihleft context requiredness) (ihright context requiredness) htype
  | @substring context requiredness string start stop d d' e first length bound bound' h hfirst
      hlength ih =>
    have hnames := isIdentifier_of_use? hlength
    exact fun context requiredness => succeeds_substring (ih context .required)
      (hnames start (by simp [ParameterUse.names])) (hnames stop (by simp [ParameterUse.names]))

end RequestCompiler
