import RequestCompiler.ParameterTypes
import RequestCompiler.Proofs.Token.Nested

/-!
# Inference is local

To type parameters, a token looks only at the parameters that it mentions, and it types no others
(`Confined`). So the types of some parameters come from the tokens that mention them, in their
order, if no token mentions both those parameters and others.

* `confined_ofToken` — a walk over a token is confined to the parameters inside of it.
* `agreeOn_ofRequest_of_filter` — requests with the same tokens of one kind type the parameters of
  that kind in the same way.
-/

namespace RequestCompiler

namespace ParameterTypes

/-- Whether the parameters with a property have the same types. -/
def AgreeOn (P : String → Prop) (types types' : ParameterTypes) : Prop :=
  ∀ name, P name → types.find? name = types'.find? name

namespace AgreeOn

variable {P Q : String → Prop} {types types' types'' : ParameterTypes}

theorem refl (types : ParameterTypes) : AgreeOn P types types := fun _ _ => rfl

theorem symm (h : AgreeOn P types types') : AgreeOn P types' types :=
  fun name hname => (h name hname).symm

theorem trans (h : AgreeOn P types types') (h' : AgreeOn P types' types'') :
    AgreeOn P types types'' :=
  fun name hname => (h name hname).trans (h' name hname)

theorem mono (h : AgreeOn P types types') (hsub : ∀ name, Q name → P name) :
    AgreeOn Q types types' :=
  fun name hname => h name (hsub name hname)

theorem bindNew (h : AgreeOn P types types') (name : String) (type : ValueType) :
    AgreeOn P (types.bindNew name type) (types'.bindNew name type) := by
  intro other hother
  rw [OrderedMap.find?_bindNew, OrderedMap.find?_bindNew, h other hother]

end AgreeOn

/-! ## Walks -/

/-- Whether a walk looks at, and types, only parameters with a property. -/
structure Confined {α : Type} (P : String → Prop) (walk : ParameterTypes → α × ParameterTypes) :
    Prop where
  congr : ∀ {types types' : ParameterTypes}, AgreeOn P types types' →
    (walk types).1 = (walk types').1 ∧ AgreeOn P (walk types).2 (walk types').2
  frame : ∀ types, AgreeOn (fun name => ¬ P name) (walk types).2 types

namespace Confined

variable {α β : Type} {P : String → Prop} {walk : ParameterTypes → α × ParameterTypes}

theorem pure (a : α) : Confined P fun types => (a, types) :=
  ⟨fun h => ⟨rfl, h⟩, fun types => .refl types⟩

theorem find {name : String} (hname : P name) : Confined P fun types => (types.find? name, types) :=
  ⟨fun h => ⟨h name hname, h⟩, fun types => .refl types⟩

theorem bindNew {name : String} (hname : P name) (type : ValueType) :
    Confined P fun types => ((), types.bindNew name type) := by
  refine ⟨fun h => ⟨rfl, h.bindNew name type⟩, fun types other hother => ?_⟩
  have hne : other ≠ name := fun heq => hother (heq ▸ hname)
  rw [OrderedMap.find?_bindNew, if_neg hne, Option.or_none]

theorem bind {next : α → ParameterTypes → β × ParameterTypes} (h : Confined P walk)
    (hnext : ∀ a, Confined P (next a)) :
    Confined P fun types => next (walk types).1 (walk types).2 := by
  constructor
  · intro types types' hagree
    obtain ⟨hvalue, htypes⟩ := h.congr hagree
    rw [hvalue]
    exact (hnext _).congr htypes
  · exact fun types => ((hnext _).frame _).trans (h.frame types)

theorem map (h : Confined P walk) (f : α → β) :
    Confined P fun types => (f (walk types).1, (walk types).2) :=
  h.bind fun a => pure (f a)

end Confined

/-! ## Arguments -/

theorem of_bareParameter? {P : String → Prop} {r : Request} {name : String}
    (h : Throughout Token.parameter? P r) (hbare : bareParameter? r = some name) : P name := by
  cases bareParameter?_eq_some_iff.mp hbare
  exact h name (List.mem_singleton_self name)

theorem confined_bindSlots {P : String → Prop} {arguments : List Request}
    (h : ∀ argument ∈ arguments, Throughout Token.parameter? P argument) (slots : List ValueType) :
    Confined P fun types => ((), bindSlots arguments slots types) := by
  induction arguments generalizing slots with
  | nil => exact .pure ()
  | cons argument arguments ih =>
    rw [List.forall_mem_cons] at h
    cases slots with
    | nil => exact .pure ()
    | cons slot slots =>
      simp only [bindSlots]
      cases hbare : bareParameter? argument with
      | none => exact ih h.2 slots
      | some name =>
        exact (Confined.bindNew (of_bareParameter? h.1 hbare) slot).bind fun _ => ih h.2 slots

theorem confined_conclude {P : String → Prop} {arguments : List Request}
    (h : ∀ argument ∈ arguments, Throughout Token.parameter? P argument)
    (signatures : SignatureTable) (name : String) (known : List (Option ValueType)) :
    Confined P fun types => conclude signatures name arguments (known, types) := by
  cases hfind : (signatures.overloads name).find? (·.compatible known) with
  | none =>
    simp only [conclude, hfind]
    exact .pure none
  | some overload =>
    simp only [conclude, hfind]
    exact (confined_bindSlots h overload.arguments).map fun _ => some overload.returns

/-- Whether a request mentions only parameters with a property, and walks over it are confined. -/
structure WalkedWithin (P : String → Prop) (signatures : SignatureTable) (r : Request) : Prop where
  mentions : Throughout Token.parameter? P r
  confined : ∀ type, Confined P (ofRequest signatures r type)

section Arguments

variable {P : String → Prop} {signatures : SignatureTable}

theorem confined_ofOperands {operands : List Request}
    (h : ∀ operand ∈ operands, WalkedWithin P signatures operand) :
    Confined P (ofOperands signatures operands) := by
  induction operands with
  | nil => exact .pure []
  | cons operand rest ih =>
    rw [List.forall_mem_cons] at h
    exact (h.1.confined none).bind fun type => (ih h.2).map fun known => type :: known

theorem confined_ofBounds {bounds : List Request}
    (h : ∀ bound ∈ bounds, WalkedWithin P signatures bound) :
    Confined P fun types => ((), ofBounds signatures bounds types) := by
  induction bounds with
  | nil => exact .pure ()
  | cons bound rest ih =>
    rw [List.forall_mem_cons] at h
    simp only [ofBounds]
    cases hbare : bareParameter? bound with
    | none => exact (h.1.confined none).bind fun _ => ih h.2
    | some name =>
      exact (Confined.bindNew (of_bareParameter? h.1.mentions hbare) .integer).bind fun _ => ih h.2

theorem confined_ofPairs {pairs : List (Assignment Request)}
    (h : ∀ pair ∈ pairs,
      WalkedWithin P signatures pair.property ∧ WalkedWithin P signatures pair.value) :
    Confined P fun types => ((), ofPairs signatures pairs types) := by
  induction pairs with
  | nil => exact .pure ()
  | cons pair rest ih =>
    rw [List.forall_mem_cons] at h
    obtain ⟨⟨hproperty, hvalue⟩, hrest⟩ := h
    have hwalk := (hvalue.confined none).bind fun _ => ih hrest
    cases hbare : bareParameter? pair.value with
    | none =>
      simp only [ofPairs, hbare]
      exact (hproperty.confined none).bind fun _ => hwalk
    | some name =>
      -- a value that is a bare parameter takes the type of the property, if that is known
      have hpairs (types : ParameterTypes) : ofPairs signatures (pair :: rest) types =
          let typed := ofRequest signatures pair.property none types
          typed.1.elim (ofPairs signatures rest (ofRequest signatures pair.value none typed.2).2)
            fun type => ofPairs signatures rest (typed.2.bindNew name type) := by
        simp only [ofPairs, hbare]
        cases (ofRequest signatures pair.property none types).1 <;> rfl
      have hassigned (type : Option ValueType) : Confined P fun types => ((),
          type.elim (ofPairs signatures rest (ofRequest signatures pair.value none types).2)
            fun type => ofPairs signatures rest (types.bindNew name type)) := by
        cases type with
        | none => exact hwalk
        | some type =>
          exact (Confined.bindNew (of_bareParameter? hvalue.mentions hbare) type).bind fun _ =>
            ih hrest
      simp only [hpairs]
      exact (hproperty.confined none).bind hassigned

/-- A walk over a call is confined if those over its arguments are. -/
theorem confined_call (name : String) {arguments : List Request}
    (h : ∀ argument ∈ arguments, WalkedWithin P signatures argument) :
    Confined P (ofToken signatures (.call name arguments)) := by
  have hoperands := confined_ofOperands h
  have hconclude : Confined P fun types =>
      conclude signatures name arguments (ofOperands signatures arguments types) :=
    hoperands.bind (confined_conclude (fun argument ha => (h argument ha).mentions) signatures name)
  -- the names of stages and functions are told apart before the arguments are looked at
  rw [funext (ofToken.eq_def signatures (.call name arguments))]
  dsimp only
  split
  · exact (confined_ofBounds h).map fun _ => some ValueType.list
  split
  · exact hoperands.map fun _ => some ValueType.list
  split
  · cases arguments with
    | nil => exact hconclude
    | cons string bounds =>
      rw [List.forall_mem_cons] at h
      exact (h.1.confined none).bind fun _ => (confined_ofBounds h.2).map fun _ =>
        some ValueType.string
  split
  · split
    · exact ((h _ (List.mem_singleton_self _)).confined none).map fun _ =>
        some ValueType.integer
    · exact hconclude
  · exact hconclude

end Arguments

/-! ## Tokens and requests -/

/-- What a walk over a request does with its first token; only a join leaves the type as it is. -/
theorem ofRequest_cons (signatures : SignatureTable) (t : Token) (rest : Request)
    (type : Option ValueType) :
    ∃ result : Option ValueType → Option ValueType, ∀ types,
      ofRequest signatures (t :: rest) type types =
        ofRequest signatures rest (result (ofToken signatures t types).1)
          (ofToken signatures t types).2 := by
  cases t with
  | join edge => exact ⟨fun _ => type, fun types => rfl⟩
  | _ => exact ⟨id, fun types => rfl⟩

mutual
/-- A walk over a token is confined to the parameters inside of it. -/
theorem confined_ofToken {P : String → Prop} (signatures : SignatureTable) :
    (t : Token) → Throughout Token.parameter? P [t] → Confined P (ofToken signatures t)
  | .read _, _ => .pure _
  | .parameter name, h => .find (h name (List.mem_singleton_self name))
  | .table _, _ => .pure _
  | .join _, _ => .pure _
  | .call name arguments, h =>
    confined_call name (walkedWithin_arguments signatures arguments (Throughout.call_iff.mp h).2)
  | .assignments pairs, h =>
    (confined_ofPairs
      (walkedWithin_pairs signatures pairs (Throughout.assignments_iff.mp h).2)).map fun _ => none
termination_by structural t => t

/-- So is a walk over a request. -/
theorem confined_ofRequest {P : String → Prop} (signatures : SignatureTable) :
    (r : Request) → Throughout Token.parameter? P r →
      ∀ type, Confined P (ofRequest signatures r type)
  | [], _, _ => .pure _
  | t :: rest, h, type => by
    obtain ⟨result, hcons⟩ := ofRequest_cons signatures t rest type
    have ht := confined_ofToken signatures t (Throughout.cons_iff.mp h).1
    have hrest := confined_ofRequest signatures rest (Throughout.cons_iff.mp h).2
    rw [funext hcons]
    exact ht.bind fun type => hrest (result type)
termination_by structural r => r

theorem walkedWithin_arguments {P : String → Prop} (signatures : SignatureTable) :
    (arguments : List Request) → (∀ argument ∈ arguments, Throughout Token.parameter? P argument) →
      ∀ argument ∈ arguments, WalkedWithin P signatures argument
  | [], _ => fun _ h => by cases h
  | argument :: rest, h => by
    rw [List.forall_mem_cons] at h
    have hargument := confined_ofRequest signatures argument h.1
    exact List.forall_mem_cons.mpr
      ⟨⟨h.1, hargument⟩, walkedWithin_arguments signatures rest h.2⟩
termination_by structural arguments => arguments

theorem walkedWithin_pairs {P : String → Prop} (signatures : SignatureTable) :
    (pairs : List (Assignment Request)) →
      (∀ pair ∈ pairs,
        Throughout Token.parameter? P pair.property ∧ Throughout Token.parameter? P pair.value) →
      ∀ pair ∈ pairs,
        WalkedWithin P signatures pair.property ∧ WalkedWithin P signatures pair.value
  | [], _ => fun _ h => by cases h
  | ⟨property, value⟩ :: rest, h => by
    rw [List.forall_mem_cons] at h
    have hproperty := confined_ofRequest signatures property h.1.1
    have hvalue := confined_ofRequest signatures value h.1.2
    exact List.forall_mem_cons.mpr
      ⟨⟨⟨h.1.1, hproperty⟩, ⟨h.1.2, hvalue⟩⟩, walkedWithin_pairs signatures rest h.2⟩
termination_by structural pairs => pairs
end

/-! ## Tokens of one kind -/

/-- What a walk over a request types, token by token. -/
theorem ofRequest_snd (signatures : SignatureTable) (r : Request) (type : Option ValueType)
    (types : ParameterTypes) :
    (ofRequest signatures r type types).2 =
      r.foldl (fun types t => (ofToken signatures t types).2) types := by
  induction r generalizing type types with
  | nil => rfl
  | cons t rest ih =>
    obtain ⟨result, hcons⟩ := ofRequest_cons signatures t rest type
    rw [hcons, ih, List.foldl_cons]

/-- Whether the tokens of one kind mention only parameters with a property, and all others none. -/
def Parts (kind : Token → Bool) (P : String → Prop) (r : Request) : Prop :=
  ∀ t ∈ r, Throughout Token.parameter? (fun name => kind t = true ↔ P name) [t]

/-- The parameters with a property are typed by the tokens that mention them. -/
theorem Parts.agreeOn_filter {kind : Token → Bool} {P : String → Prop} {r : Request}
    (h : Parts kind P r) (signatures : SignatureTable) {types types' : ParameterTypes}
    (hagree : AgreeOn P types types') :
    AgreeOn P (ofRequest signatures r none types).2
      (ofRequest signatures (r.filter kind) none types').2 := by
  rw [ofRequest_snd, ofRequest_snd]
  induction r generalizing types types' with
  | nil => exact hagree
  | cons t rest ih =>
    obtain ⟨ht, hrest⟩ := List.forall_mem_cons.mp h
    cases hkind : kind t with
    | true =>
      have hwalk : Confined P (ofToken signatures t) :=
        confined_ofToken signatures t fun name hname => (ht name hname).mp hkind
      rw [List.filter_cons_of_pos hkind]
      exact ih hrest (hwalk.congr hagree).2
    | false =>
      have hwalk : Confined (fun name => ¬ P name) (ofToken signatures t) :=
        confined_ofToken signatures t fun name hname hp => by
          rw [(ht name hname).mpr hp] at hkind
          cases hkind
      have hframe := (hwalk.frame types).mono fun name hp hn => hn hp
      rw [List.filter_cons_of_neg (by simp [hkind])]
      exact ih hrest (hframe.trans hagree)

/-- Requests with the same tokens of one kind type the parameters of that kind in the same way. -/
theorem agreeOn_ofRequest_of_filter {kind : Token → Bool} {P : String → Prop} {r r' : Request}
    (hfilter : r.filter kind = r'.filter kind) (h : Parts kind P r) (h' : Parts kind P r')
    (signatures : SignatureTable) (types : ParameterTypes) :
    AgreeOn P (ofRequest signatures r none types).2 (ofRequest signatures r' none types).2 := by
  have hpart := h.agreeOn_filter signatures (.refl types)
  rw [hfilter] at hpart
  exact hpart.trans (h'.agreeOn_filter signatures (.refl types)).symm

/-- What follows the first argument keeps the agreement that this has come to. -/
theorem agreeOn_ofArguments {P : String → Prop} {signatures : SignatureTable} {r r' : Request}
    {others : List Request}
    (h : AgreeOn P (ofRequest signatures r none OrderedMap.empty).2
      (ofRequest signatures r' none OrderedMap.empty).2)
    (hothers : ∀ argument ∈ others, Throughout Token.parameter? P argument) :
    AgreeOn P (ofArguments signatures (r :: others)) (ofArguments signatures (r' :: others)) :=
  ((confined_ofOperands (walkedWithin_arguments signatures others hothers)).congr h).2

end ParameterTypes

end RequestCompiler
