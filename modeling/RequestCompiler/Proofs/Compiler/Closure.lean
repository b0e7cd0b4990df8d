import RequestCompiler.Proofs.Compiler.Derivation
import RequestCompiler.Proofs.Token.Nested

/-!
# Properties of compilations

An expression is compiled in steps: joins are followed, parameters are used, and the results of
such steps are put together. What each step has and what sequences and savepoints preserve, every
compilation of an expression has, whether it succeeds or fails (`Closed.expression`).

Of the parameters, only those that an expression mentions are used, so a property may ask for
something of their names.
-/

namespace RequestCompiler

namespace Compilation

/--
Whether a property of computations is one of every step, if the names of used parameters have a
property of their own, and is preserved by sequences and by savepoints.
-/
structure Closed (Q : ∀ {α : Type}, Compilation α → Prop) (P : String → Prop) : Prop where
  pure : ∀ {α : Type} (a : α), Q (pure a : Compilation α)
  fail : ∀ {α : Type} (cause : CompileError), Q (fail cause : Compilation α)
  followJoin : ∀ context edge, Q (followJoin context edge)
  contextual : Q contextual
  typeOf : ∀ {name}, P name → Q (typeOf name)
  useParameter : ∀ {use : ParameterUse},
    (∀ name requiredness, use = .named name requiredness → P name) →
      ∀ name, Q (useParameter use name)
  bind : ∀ {α β : Type} {x : Compilation α} {f : α → Compilation β}, Q x → (∀ a, Q (f a)) →
    Q (x >>= f)
  savepoint : ∀ {α : Type} (context : Context) {body : Compilation α}, Q body →
    Q (savepoint context body)

namespace Closed

variable {Q : ∀ {α : Type}, Compilation α → Prop} {P : String → Prop} (h : Closed Q P)

include h

theorem ofResult {α : Type} : (r : Except CompileError α) → Q (ofResult r)
  | .ok a => h.pure a
  | .error cause => h.fail cause

/-- The bounds of a substring are integers, whatever their names. -/
theorem substringBounds (function : String) (start stop : Request) :
    Q (substringBounds function start stop) := by
  refine h.bind (h.ofResult _) fun first => h.bind (h.ofResult _) fun last => ?_
  refine h.bind (h.useParameter ?_ _) fun begin => h.bind (h.useParameter ?_ _) fun length => ?_
  · exact nofun
  · exact nofun
  · exact h.pure _

end Closed

mutual
/-- A closed property is one of the compilation of every expression. -/
theorem Closed.expression {Q : ∀ {α : Type}, Compilation α → Prop} {P : String → Prop}
    (h : Closed Q P) (c : Compiler) : (tokens : List Token) →
    Throughout Token.parameter? P tokens →
    ∀ (context : Context) (requiredness : Requiredness),
      Q (c.expression context requiredness tokens)
  | [], _, _, _ => h.fail _
  | t :: rest, hmentions, context, requiredness => by
    have hrest := (Throughout.cons_iff.mp hmentions).2
    cases t with
    | join edge =>
      rw [Compiler.expression]
      exact h.savepoint context (h.bind (h.followJoin context edge) fun next =>
        Closed.expression h c rest hrest next requiredness)
    | _ =>
      cases rest with
      | nil => exact Closed.operand h c _ hmentions context requiredness
      | cons next rest => exact h.fail _
termination_by structural tokens => tokens

/-- So it is of the compilation of a single token. -/
theorem Closed.operand {Q : ∀ {α : Type}, Compilation α → Prop} {P : String → Prop}
    (h : Closed Q P) (c : Compiler) : (t : Token) → Throughout Token.parameter? P [t] →
    ∀ (context : Context) (requiredness : Requiredness), Q (c.operand context requiredness t)
  | .parameter name, hmentions, context, requiredness => by
    have hname : P name := hmentions name (List.mem_singleton_self name)
    rw [Compiler.operand]
    refine h.bind (h.useParameter (fun other requiredness' heq => ?_) _) fun ordinal =>
      h.bind (h.typeOf hname) fun type => h.pure _
    cases heq
    exact hname
  | .read property, _, context, requiredness => by
    rw [Compiler.operand]
    exact h.bind h.contextual fun followed => h.bind (h.ofResult _) fun answer => h.pure _
  | .call name [], _, _, _ => h.fail _
  | .call name [argument], hmentions, context, requiredness => by
    have hargument := Closed.expression h c argument
      (List.forall_mem_singleton.mp (Throughout.call_iff.mp hmentions).2) context
    cases hname : unaryOperator? name with
    | none =>
      simp only [Compiler.operand, hname]
      exact h.fail _
    | some operator =>
      by_cases hlength : name = "length"
      · subst hlength
        exact h.bind (hargument .required) fun a => h.pure _
      · rw [operand_unary c hname hlength]
        exact h.bind (hargument requiredness) fun a => h.bind (h.ofResult _) fun type => h.pure _
  | .call name [left, right], hmentions, context, requiredness => by
    obtain ⟨hmentions, hmentions'⟩ :=
      List.forall_mem_cons.mp (Throughout.call_iff.mp hmentions).2
    have hleft := Closed.expression h c left hmentions context requiredness
    have hright := Closed.expression h c right (List.forall_mem_singleton.mp hmentions') context
      requiredness
    cases hname : BinaryForm.ofName? name with
    | none =>
      simp only [Compiler.operand, hname]
      exact h.fail _
    | some form =>
      simp only [Compiler.operand, hname]
      exact h.bind hleft fun l => h.bind hright fun r => h.bind (h.ofResult _) fun type => h.pure _
  | .call name [string, start, stop], hmentions, context, requiredness => by
    have hstring := Closed.expression h c string
      (List.forall_mem_cons.mp (Throughout.call_iff.mp hmentions).2).1 context .required
    rw [Compiler.operand]
    split
    · exact h.bind hstring fun e => h.bind (h.substringBounds _ _ _) fun bounds => h.pure _
    · exact h.fail _
  | .call name (_ :: _ :: _ :: _ :: _), _, _, _ => h.fail _
  | .table scan, _, _, _ => h.fail _
  | .join edge, _, _, _ => h.fail _
  | .assignments pairs, _, _, _ => h.fail _
termination_by structural t => t
end

end Compilation

end RequestCompiler
