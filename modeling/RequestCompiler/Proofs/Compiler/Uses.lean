import RequestCompiler.Proofs.AppendNew
import RequestCompiler.Proofs.Compiler.Requests

/-!
# Uses of parameters

Which parameters an expression uses, and in which order, can be read off its tokens (`usesOf`).
Compiling it binds exactly these uses (`ArgumentBinder.Binds`), and the leaves of the compiled
expression are their ordinals, from left to right. As a binder only grows, the ordinals stay right
until the statement is finished.

* `Compiles.binds` — what compiling an expression binds.
* `Compiles.ordinals` — where the compiled expression refers to it.
-/

namespace RequestCompiler

/-! ## Uses -/

/-- The uses of two parameters as the bounds of a substring. -/
def substringUses : Request → Request → List ParameterUse
  | [.parameter start], [.parameter stop] => [.substringBegin start, .substringLength start stop]
  | _, _ => []

mutual
/-- The uses of parameters in an expression, joins skipped. -/
def usesOf : Requiredness → List Token → List ParameterUse
  | _, [] => []
  | requiredness, .join _ :: rest => usesOf requiredness rest
  | requiredness, t :: _ => operandUses requiredness t
termination_by structural _ tokens => tokens

/-- The uses of parameters in a single token. -/
def operandUses : Requiredness → Token → List ParameterUse
  | requiredness, .parameter name => [.named name requiredness]
  | requiredness, .call name arguments =>
    if name = "length" then argumentUses .required arguments
    else if name = "substring" then
      match arguments with
      | [string, start, stop] => usesOf .required string ++ substringUses start stop
      | _ => []
    else argumentUses requiredness arguments
  | _, _ => []
termination_by structural _ t => t

/-- The uses of parameters in operands, one after the other. -/
def argumentUses : Requiredness → List (List Token) → List ParameterUse
  | _, [] => []
  | requiredness, argument :: rest => usesOf requiredness argument ++ argumentUses requiredness rest
termination_by structural _ arguments => arguments
end

/-- The ordinals of arguments in an expression, from left to right. -/
def Expression.ordinals : Expression → List Nat
  | .argument ordinal => [ordinal]
  | .column _ _ | .aggregateRows _ | .derived _ => []
  | .unary _ operand | .aggregate _ operand => operand.ordinals
  | .binary _ left right => left.ordinals ++ right.ordinals
  | .substring string start length => string.ordinals ++ start.ordinals ++ length.ordinals

/-- The ordinals of uses in a list of arguments. -/
def ordinalsOf (types : ParameterTypes) (arguments : List Argument) (uses : List ParameterUse) :
    List Nat :=
  uses.map fun use => arguments.idxOf (types.argument use)

theorem ordinalsOf_append (types : ParameterTypes) (arguments : List Argument)
    (us vs : List ParameterUse) :
    ordinalsOf types arguments (us ++ vs) =
      ordinalsOf types arguments us ++ ordinalsOf types arguments vs :=
  List.map_append

/-! ## Binding -/

/-- Whether a binder has bound these uses, one after the other, and nothing else. -/
structure ArgumentBinder.Binds (b : ArgumentBinder) (uses : List ParameterUse)
    (b' : ArgumentBinder) : Prop where
  types : b'.types = b.types
  arguments : b'.arguments = appendAllNew b.arguments (uses.map b.types.argument)

namespace ArgumentBinder.Binds

variable {b b' b'' : ArgumentBinder} {us vs : List ParameterUse}

theorem nil (b : ArgumentBinder) : b.Binds [] b := ⟨rfl, rfl⟩

theorem append (h : b.Binds us b') (h' : b'.Binds vs b'') : b.Binds (us ++ vs) b'' := by
  refine ⟨h'.types.trans h.types, ?_⟩
  rw [h'.arguments, h.arguments, h.types, List.map_append, appendAllNew_append]

/-- What was bound before keeps its place. -/
theorem isPrefix (h : b.Binds us b') : b.arguments <+: b'.arguments := by
  rw [h.arguments]
  exact prefix_appendAllNew b.arguments _

theorem mem (h : b.Binds us b') {use : ParameterUse} (huse : use ∈ us) :
    b.types.argument use ∈ b'.arguments := by
  rw [h.arguments]
  exact subset_appendAllNew b.arguments _ (List.mem_map_of_mem huse)

end ArgumentBinder.Binds

theorem arguments_bind (b : ArgumentBinder) (a : Argument) :
    (b.bind a).arguments = appendNew b.arguments a := by
  unfold ArgumentBinder.bind appendNew
  split <;> rfl

/-- A use that succeeds binds its argument and answers with its ordinal, now and later. -/
theorem use?_eq_some {b b' : ArgumentBinder} {use : ParameterUse} {ordinal : Nat}
    (h : b.use? use = some (ordinal, b')) :
    b.Binds [use] b' ∧ ∀ arguments, b'.arguments <+: arguments →
      [ordinal] = ordinalsOf b.types arguments [use] := by
  unfold ArgumentBinder.use? at h
  split at h
  · cases h
    have hbinds : b.Binds [use] (b.bind (b.types.argument use)) :=
      ⟨ArgumentBinder.types_bind b _, arguments_bind b _⟩
    refine ⟨hbinds, fun arguments hpre => ?_⟩
    have hindex := idxOf_of_prefix hpre (hbinds.mem (List.mem_singleton_self use))
    show _ = [arguments.idxOf (b.types.argument use)]
    rw [hindex]
    rfl
  · cases h

/-! ## Expressions -/

theorem argumentUses_eq (requiredness : Requiredness) (arguments : List Request) :
    argumentUses requiredness arguments = arguments.flatMap (usesOf requiredness) := by
  induction arguments with
  | nil => rfl
  | cons argument rest ih => rw [argumentUses, ih, List.flatMap_cons]

theorem usesOf_call {requiredness : Requiredness} {name : String} {arguments : List Request}
    (hlength : name ≠ "length") (hsubstring : name ≠ "substring") :
    usesOf requiredness [.call name arguments] = arguments.flatMap (usesOf requiredness) := by
  show operandUses requiredness (.call name arguments) = _
  unfold operandUses
  rw [if_neg hlength, if_neg hsubstring, argumentUses_eq]

theorem usesOf_length (requiredness : Requiredness) (argument : Request) :
    usesOf requiredness [.call "length" [argument]] = usesOf .required argument := by
  show operandUses requiredness (.call "length" [argument]) = _
  unfold operandUses
  rw [if_pos rfl, argumentUses_eq, List.flatMap_singleton]

theorem usesOf_substring (requiredness : Requiredness) (string : Request) (start stop : String) :
    usesOf requiredness [.call "substring" [string, [.parameter start], [.parameter stop]]] =
      usesOf .required string ++ [.substringBegin start, .substringLength start stop] := by
  show operandUses requiredness (.call "substring" _) = _
  unfold operandUses
  rw [if_neg (by decide), if_pos rfl]
  rfl

theorem ne_substring_of_unaryOperator? {name : String} {operator : UnaryOperator}
    (h : unaryOperator? name = some operator) : name ≠ "substring" := by
  rintro rfl
  cases h

theorem ne_of_binaryForm {name : String} {form : BinaryForm}
    (h : BinaryForm.ofName? name = some form) : name ≠ "length" ∧ name ≠ "substring" := by
  constructor
  · rintro rfl
    cases h
  · rintro rfl
    cases h

theorem ordinals_apply (form : BinaryForm) (l r : Typed) :
    (form.apply l r).ordinals = l.expression.ordinals ++ r.expression.ordinals := by
  unfold BinaryForm.apply
  split
  · rfl
  · split <;> rfl
  · rfl

/-- Compiling an expression binds the uses of its tokens. -/
theorem Compiles.binds {c : Compiler} {context : Context} {requiredness : Requiredness}
    {tokens : List Token} {d d' : Draft} {e : Typed}
    (h : Compiles c context requiredness tokens d e d') :
    d.binder.Binds (usesOf requiredness tokens) d'.binder := by
  induction h with
  | join h ih => exact ih
  | parameter h => exact (use?_eq_some h).1
  | read h => exact .nil _
  | length h ih =>
    rw [usesOf_length]
    exact ih
  | unary hname hlength h htype ih =>
    rw [usesOf_call hlength (ne_substring_of_unaryOperator? hname), List.flatMap_singleton]
    exact ih
  | binary hname hleft hright htype ihleft ihright =>
    obtain ⟨hlength, hsubstring⟩ := ne_of_binaryForm hname
    rw [usesOf_call hlength hsubstring, List.flatMap_cons, List.flatMap_singleton]
    exact ihleft.append ihright
  | substring h hfirst hlength ih =>
    rw [usesOf_substring]
    exact ih.append ((use?_eq_some hfirst).1.append (use?_eq_some hlength).1)

/-- The leaves of a compiled expression are the ordinals of its uses, now and later. -/
theorem Compiles.ordinals {c : Compiler} (hresolver : c.resolver = columnResolver)
    {context : Context} {requiredness : Requiredness} {tokens : List Token} {d d' : Draft}
    {e : Typed} (h : Compiles c context requiredness tokens d e d') {arguments : List Argument}
    (hpre : d'.binder.arguments <+: arguments) :
    e.expression.ordinals = ordinalsOf d.binder.types arguments (usesOf requiredness tokens) := by
  induction h with
  | join h ih => exact ih hpre
  | parameter h => exact (use?_eq_some h).2 arguments hpre
  | read h =>
    rw [hresolver] at h
    rw [columnResolver_ok h]
    rfl
  | length h ih =>
    rw [usesOf_length]
    exact ih hpre
  | unary hname hlength h htype ih =>
    rw [usesOf_call hlength (ne_substring_of_unaryOperator? hname), List.flatMap_singleton]
    exact ih hpre
  | binary hname hleft hright htype ihleft ihright =>
    obtain ⟨hlength, hsubstring⟩ := ne_of_binaryForm hname
    -- the right operand may bind more, but the left one's ordinals stay
    have hl := ihleft (hright.binds.isPrefix.trans hpre)
    have hr := ihright hpre
    rw [hleft.binds.types] at hr
    rw [usesOf_call hlength hsubstring, List.flatMap_cons, List.flatMap_singleton,
      ordinalsOf_append, ordinals_apply, hl, hr]
  | @substring context requiredness string start stop d d' e first length bound bound' h hfirst
      hlength ih =>
    obtain ⟨hbind, hordinal⟩ := use?_eq_some hfirst
    obtain ⟨hbind', hordinal'⟩ := use?_eq_some hlength
    have hbound := hbind'.isPrefix.trans hpre
    have hs := ih (hbind.isPrefix.trans hbound)
    have hb := hordinal arguments hbound
    have hl := hordinal' arguments hpre
    rw [h.binds.types] at hb
    rw [hbind.types, h.binds.types] at hl
    rw [usesOf_substring, ordinalsOf_append, ← hs, ← List.singleton_append, ordinalsOf_append,
      ← hb, ← hl]
    show _ ++ [first] ++ [length] = _
    rw [List.append_assoc]

end RequestCompiler
