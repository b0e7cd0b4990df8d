import RequestCompiler.Proofs.Compiler.Derivation
import RequestCompiler.Proofs.Session.Rollback

/-!
# Computations that succeed

A computation that `Succeeds` does so in every session whose parameters have the given types; its
result has some property, and it leaves these types and the rollback points as they are. Such
computations are put together step by step, and a savepoint finds the point that it set.

* `succeeds_joins` — an expression that succeeds at every context does so behind joins.
* `succeeds_parameter`, `succeeds_substringBounds` — parameters need only be identifiers.
* `succeeds_unary`, `succeeds_binary` — a call has the type that overloads have for its operands.
-/

namespace RequestCompiler

open Compilation

namespace Compilation

/-- Whether a computation succeeds in every session that has these types of parameters. -/
def Succeeds {α : Type} (types : ParameterTypes) (x : Compilation α) (post : α → Prop) : Prop :=
  ∀ s, s.draft.binder.types = types →
    ∃ a s', x s = .ok a s' ∧ post a ∧ s'.draft.binder.types = types ∧ s'.points = s.points

namespace Succeeds

variable {α β : Type} {types : ParameterTypes} {x : Compilation α} {post post' : α → Prop}

theorem mono (h : Succeeds types x post) (himp : ∀ a, post a → post' a) :
    Succeeds types x post' := by
  intro s hs
  obtain ⟨a, s', hok, ha, hkept⟩ := h s hs
  exact ⟨a, s', hok, himp a ha, hkept⟩

theorem pure {a : α} (h : post a) : Succeeds types (Pure.pure a) post :=
  fun s hs => ⟨a, s, rfl, h, hs, rfl⟩

theorem ofResult {r : Except CompileError α} {a : α} (hr : r = .ok a) (h : post a) :
    Succeeds types (ofResult r) post :=
  fun s hs => ⟨a, s, ofResult_eq_ok.mpr ⟨hr, rfl⟩, h, hs, rfl⟩

theorem bind {f : α → Compilation β} {post' : β → Prop} (h : Succeeds types x post)
    (hf : ∀ a, post a → Succeeds types (f a) post') : Succeeds types (x >>= f) post' := by
  intro s hs
  obtain ⟨a, t, hok, ha, ht, hpoints⟩ := h s hs
  obtain ⟨b, s', hok', hb, hs', hpoints'⟩ := hf a ha t ht
  exact ⟨b, s', (bind_of_ok hok).trans hok', hb, hs', hpoints'.trans hpoints⟩

/-- The point that a savepoint sets is there to be cleared. -/
theorem savepoint (context : Context) (h : Succeeds types x post) :
    Succeeds types (savepoint context x) post := by
  intro s hs
  obtain ⟨a, t, hok, ha, ht, hpoints⟩ := h (s.setPoint context) hs
  exact ⟨a, { t with points := s.points },
    savepoint_eq_ok.mpr ⟨t, hok, Session.clearPoint_of_points hpoints⟩, ha, ht, rfl⟩

theorem followJoin (context : Context) (edge : JoinEdge) :
    Succeeds types (followJoin context edge) fun _ => True :=
  fun _ hs => ⟨_, _, rfl, trivial, hs, rfl⟩

theorem typeOf (name : String) : Succeeds types (typeOf name) fun type => type = types.find? name :=
  fun _ hs => ⟨_, _, rfl, hs ▸ rfl, hs, rfl⟩

theorem useParameter {use : ParameterUse} (h : use.isValid = true) (name : String) :
    Succeeds types (useParameter use name) fun _ => True := by
  intro s hs
  have huse : s.draft.binder.use? use = some _ := if_pos h
  exact ⟨_, _, useParameter_eq_ok.mpr ⟨_, huse, rfl⟩, trivial,
    (ArgumentBinder.types_bind _ _).trans hs, rfl⟩

end Succeeds

end Compilation

/-! ## Expressions -/

section Expressions

variable {c : Compiler} {types : ParameterTypes} {context : Context} {requiredness : Requiredness}

/-- A parameter that is an identifier has the type that was found for it. -/
theorem succeeds_parameter {name : String} (hname : isIdentifier name = true) :
    Succeeds types (c.expression context requiredness [.parameter name]) fun e =>
      e.type = types.find? name := by
  have hvalid : (ParameterUse.named name requiredness).isValid = true := by
    simp [ParameterUse.isValid, ParameterUse.names, hname]
  show Succeeds types (c.operand context requiredness (.parameter name)) _
  rw [Compiler.operand]
  exact (Succeeds.useParameter hvalid name).bind fun _ _ =>
    (Succeeds.typeOf name).bind fun _ htype => .pure htype

theorem succeeds_substringBounds (function : String) {start stop : String}
    (hstart : isIdentifier start = true) (hstop : isIdentifier stop = true) :
    Succeeds types (substringBounds function [.parameter start] [.parameter stop])
      fun _ => True := by
  have hbegin : (ParameterUse.substringBegin start).isValid = true := by
    simp [ParameterUse.isValid, ParameterUse.names, hstart]
  have hlength : (ParameterUse.substringLength start stop).isValid = true := by
    simp [ParameterUse.isValid, ParameterUse.names, hstart, hstop]
  exact (Succeeds.useParameter hbegin start).bind fun _ _ =>
    (Succeeds.useParameter hlength stop).bind fun _ _ => .pure trivial

theorem succeeds_length {operand : Request} {post : Typed → Prop}
    (h : Succeeds types (c.expression context .required operand) post) :
    Succeeds types (c.expression context requiredness [.call "length" [operand]]) fun e =>
      e.type = some .integer := by
  show Succeeds types (c.operand context requiredness (.call "length" [operand])) _
  exact h.bind fun _ _ => .pure rfl

theorem succeeds_unary {name : String} {operator : UnaryOperator} {operand : Request}
    {known type : Option ValueType} (hname : unaryOperator? name = some operator)
    (hlength : name ≠ "length")
    (h : Succeeds types (c.expression context requiredness operand) fun e => e.type = known)
    (htype : c.returnType name [known] = .ok type) :
    Succeeds types (c.expression context requiredness [.call name [operand]]) fun e =>
      e.type = type := by
  show Succeeds types (c.operand context requiredness (.call name [operand])) _
  rw [operand_unary c hname hlength]
  refine h.bind fun e he => ?_
  rw [he]
  exact (Succeeds.ofResult htype rfl).bind fun _ hreturn => .pure hreturn.symm

theorem succeeds_binary {name : String} {form : BinaryForm} {left right : Request}
    {known known' type : Option ValueType} (hname : BinaryForm.ofName? name = some form)
    (hleft : Succeeds types (c.expression context requiredness left) fun e => e.type = known)
    (hright : Succeeds types (c.expression context requiredness right) fun e => e.type = known')
    (htype : c.returnType name [known, known'] = .ok type) :
    Succeeds types (c.expression context requiredness [.call name [left, right]]) fun e =>
      e.type = type := by
  show Succeeds types (c.operand context requiredness (.call name [left, right])) _
  simp only [Compiler.operand, hname]
  refine hleft.bind fun l hl => hright.bind fun r hr => ?_
  rw [hl, hr]
  exact (Succeeds.ofResult htype rfl).bind fun _ hreturn => .pure hreturn.symm

theorem succeeds_substring {string : Request} {start stop : String} {post : Typed → Prop}
    (h : Succeeds types (c.expression context .required string) post)
    (hstart : isIdentifier start = true) (hstop : isIdentifier stop = true) :
    Succeeds types (c.expression context requiredness
      [.call "substring" [string, [.parameter start], [.parameter stop]]]) fun e =>
        e.type = some .string := by
  show Succeeds types (c.operand context requiredness (.call "substring"
    [string, [.parameter start], [.parameter stop]])) _
  rw [Compiler.operand, if_pos rfl]
  exact h.bind fun _ _ =>
    (succeeds_substringBounds "substring" hstart hstop).bind fun _ _ => .pure rfl

/-- An expression behind joins compiles as it does at the context that they lead to. -/
theorem succeeds_joins {r : Request} {post : Typed → Prop}
    (h : ∀ context, Succeeds types (c.expression context requiredness r) post)
    (edges : List JoinEdge) (context : Context) :
    Succeeds types (c.expression context requiredness (edges.map Token.join ++ r)) post := by
  induction edges generalizing context with
  | nil => exact h context
  | cons edge edges ih =>
    rw [List.map_cons, List.cons_append, Compiler.expression]
    exact .savepoint context ((Succeeds.followJoin context edge).bind fun next _ => ih next)

end Expressions

end RequestCompiler
