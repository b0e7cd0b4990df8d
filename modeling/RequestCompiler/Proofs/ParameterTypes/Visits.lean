import RequestCompiler.Proofs.ParameterTypes.Locality

/-!
# What inference comes to

`visits` lists the tokens that a walk over a request comes to, from left to right, each with the
parameter types that the walk has found by then; what inference returns for a token there is
`ofToken` of it and of these types. A bare parameter that takes a type of its own accord, as a bound
or an assigned value does, is not come to.

* `walked_ofRequest` — a walk comes to all tokens but parameters, at any depth, and what it comes to
  at a token it comes to in the walk that starts there.
* `Walked.settled` — if a token that is come to is the only one to mention a parameter, then its
  type is there what it was at first, and stays what it is after the token.
* `Walked.lasting` — what a walk has typed by the end of a token stays typed so.
-/

namespace RequestCompiler

namespace ParameterTypes

mutual
/-- The tokens that a walk over a request comes to, each with the types found by then. -/
def visits (signatures : SignatureTable) :
    List Token → ParameterTypes → List (Token × ParameterTypes)
  | [], _ => []
  | t :: rest, types =>
    (t, types) :: (visitsIn signatures t types ++
      visits signatures rest (ofToken signatures t types).2)
termination_by structural r => r

/-- The tokens that a walk over a token comes to inside of it. -/
def visitsIn (signatures : SignatureTable) :
    Token → ParameterTypes → List (Token × ParameterTypes)
  | .call name arguments, types =>
    if name = "slice" then visitsInBounds signatures arguments types
    else if name = "substring" then
      match arguments with
      | string :: bounds =>
        visits signatures string types ++
          visitsInBounds signatures bounds (ofRequest signatures string none types).2
      | [] => []
    else visitsInOperands signatures arguments types
  | .assignments pairs, types => visitsInPairs signatures pairs types
  | _, _ => []
termination_by structural t => t

/-- The tokens that a walk over operands comes to. -/
def visitsInOperands (signatures : SignatureTable) :
    List (List Token) → ParameterTypes → List (Token × ParameterTypes)
  | [], _ => []
  | operand :: rest, types =>
    visits signatures operand types ++
      visitsInOperands signatures rest (ofRequest signatures operand none types).2
termination_by structural rs => rs

/-- The tokens that a walk over bounds comes to, which passes over bare parameters. -/
def visitsInBounds (signatures : SignatureTable) :
    List (List Token) → ParameterTypes → List (Token × ParameterTypes)
  | [], _ => []
  | bound :: rest, types =>
    match bareParameter? bound with
    | some name => visitsInBounds signatures rest (types.bindNew name .integer)
    | none =>
      visits signatures bound types ++
        visitsInBounds signatures rest (ofRequest signatures bound none types).2
termination_by structural rs => rs

/-- The tokens that a walk over assignments comes to. -/
def visitsInPairs (signatures : SignatureTable) :
    List (Assignment (List Token)) → ParameterTypes → List (Token × ParameterTypes)
  | [], _ => []
  | ⟨property, value⟩ :: rest, types =>
    let (type, next) := ofRequest signatures property none types
    visits signatures property types ++
      match bareParameter? value, type with
      | some name, some type => visitsInPairs signatures rest (next.bindNew name type)
      | _, _ =>
        visits signatures value next ++
          visitsInPairs signatures rest (ofRequest signatures value none next).2
termination_by structural ps => ps
end

/-! ## Types found stay -/

/-- Whether the types found are found later on, too. -/
def Extends (types types' : ParameterTypes) : Prop :=
  ∀ name type, types.find? name = some type → types'.find? name = some type

namespace Extends

variable {types types' types'' : ParameterTypes}

theorem refl (types : ParameterTypes) : Extends types types := fun _ _ h => h

theorem trans (h : Extends types types') (h' : Extends types' types'') : Extends types types'' :=
  fun name type hfind => h' name type (h name type hfind)

theorem bindNew (types : ParameterTypes) (name : String) (type : ValueType) :
    Extends types (types.bindNew name type) := by
  intro other type' hfind
  rw [OrderedMap.find?_bindNew, hfind, Option.some_or]

theorem bindSlots (arguments : List Request) (slots : List ValueType) (types : ParameterTypes) :
    Extends types (bindSlots arguments slots types) := by
  induction arguments generalizing slots types with
  | nil => exact refl types
  | cons argument rest ih =>
    cases slots with
    | nil => exact refl types
    | cons slot slots =>
      simp only [ParameterTypes.bindSlots]
      cases bareParameter? argument with
      | none => exact ih slots types
      | some name => exact (bindNew types name slot).trans (ih slots _)

end Extends

/-! ## Walks -/

/-- The names of the parameters among tokens. -/
def namesAmong (tokens : List Token) : List String := tokens.filterMap Token.parameter?

theorem namesAmong_append (tokens tokens' : List Token) :
    namesAmong (tokens ++ tokens') = namesAmong tokens ++ namesAmong tokens' :=
  List.filterMap_append

/--
What holds of a walk over some tokens that comes to the tokens `visited` and turns the types
`before` into the types `after`.
-/
structure Walked (signatures : SignatureTable) (tokens : List Token)
    (visited : List (Token × ParameterTypes)) (before after : ParameterTypes) : Prop where
  /-- It comes to all tokens but parameters. -/
  complete : ∀ t ∈ tokens, t.parameter? = none → ∃ types, (t, types) ∈ visited
  /-- It comes to no others. -/
  sound : ∀ v ∈ visited, v.1 ∈ tokens
  /-- A token that it comes to mentions parameters that are among the tokens. -/
  mentioned : ∀ v ∈ visited, (parameterNames [v.1]).Sublist (namesAmong tokens)
  /-- It goes on at a token as the walk that starts there. -/
  closed : ∀ v ∈ visited, visits signatures [v.1] v.2 ⊆ visited
  /-- It leaves all other parameters alone. -/
  frame : AgreeOn (· ∉ namesAmong tokens) after before
  /-- What only one token mentions is typed there and nowhere else. -/
  settled : ∀ v ∈ visited, v.1.parameter? = none → ∀ name ∈ parameterNames [v.1],
    (namesAmong tokens).count name = 1 →
      before.find? name = v.2.find? name ∧
        after.find? name = (ofToken signatures v.1 v.2).2.find? name
  /-- Types found before it stay. -/
  kept : Extends before after
  /-- So do those found at a token that it comes to. -/
  lasting : ∀ v ∈ visited, Extends (ofToken signatures v.1 v.2).2 after

namespace Walked

variable {signatures : SignatureTable} {tokens tokens' : List Token}
  {visited visited' : List (Token × ParameterTypes)} {before between after : ParameterTypes}

theorem nil (signatures : SignatureTable) (types : ParameterTypes) :
    Walked signatures [] [] types types where
  complete := by simp
  sound := by simp
  mentioned := by simp
  closed := by simp
  frame := .refl types
  settled := by simp
  kept := .refl types
  lasting := by simp

/-- A bare parameter that is given a type. -/
theorem bindNew (signatures : SignatureTable) (name : String) (type : ValueType)
    (types : ParameterTypes) :
    Walked signatures (nested [.parameter name]) [] types (types.bindNew name type) where
  complete := by simp [nested, nestedIn, Token.parameter?]
  sound := by simp
  mentioned := by simp
  closed := by simp
  frame := by
    intro other hother
    have hne : other ≠ name := fun heq => hother (heq ▸ List.mem_singleton_self _)
    rw [OrderedMap.find?_bindNew, if_neg hne, Option.or_none]
  settled := by simp
  kept := .bindNew types name type
  lasting := by simp

/-- One walk after the other. -/
theorem append (h : Walked signatures tokens visited before between)
    (h' : Walked signatures tokens' visited' between after) :
    Walked signatures (tokens ++ tokens') (visited ++ visited') before after where
  complete := by
    intro t ht hparameter
    rcases List.mem_append.mp ht with ht | ht
    · obtain ⟨types, hv⟩ := h.complete t ht hparameter
      exact ⟨types, List.mem_append_left _ hv⟩
    · obtain ⟨types, hv⟩ := h'.complete t ht hparameter
      exact ⟨types, List.mem_append_right _ hv⟩
  sound := List.forall_mem_append.mpr
    ⟨fun v hv => List.mem_append_left _ (h.sound v hv),
      fun v hv => List.mem_append_right _ (h'.sound v hv)⟩
  mentioned := by
    rw [namesAmong_append]
    exact List.forall_mem_append.mpr
      ⟨fun v hv => (h.mentioned v hv).trans (List.sublist_append_left _ _),
        fun v hv => (h'.mentioned v hv).trans (List.sublist_append_right _ _)⟩
  closed := List.forall_mem_append.mpr
    ⟨fun v hv _ hw => List.mem_append_left _ (h.closed v hv hw),
      fun v hv _ hw => List.mem_append_right _ (h'.closed v hv hw)⟩
  frame := by
    rw [namesAmong_append]
    exact (h'.frame.mono fun _ hname hn => hname (List.mem_append_right _ hn)).trans
      (h.frame.mono fun _ hname hn => hname (List.mem_append_left _ hn))
  settled := by
    rw [namesAmong_append]
    intro v hv hparameter name hname hcount
    rw [List.count_append] at hcount
    -- the part that the token is in mentions the parameter, so the other part does not
    rcases List.mem_append.mp hv with hv | hv
    · have hpos := List.count_pos_iff.mpr ((h.mentioned v hv).subset hname)
      have hother : name ∉ namesAmong tokens' := List.count_eq_zero.mp (by omega)
      obtain ⟨hbefore, hafter⟩ := h.settled v hv hparameter name hname (by omega)
      exact ⟨hbefore, (h'.frame name hother).trans hafter⟩
    · have hpos := List.count_pos_iff.mpr ((h'.mentioned v hv).subset hname)
      have hother : name ∉ namesAmong tokens := List.count_eq_zero.mp (by omega)
      obtain ⟨hbefore, hafter⟩ := h'.settled v hv hparameter name hname (by omega)
      exact ⟨(h.frame name hother).symm.trans hbefore, hafter⟩
  kept := h.kept.trans h'.kept
  lasting := List.forall_mem_append.mpr
    ⟨fun v hv => (h.lasting v hv).trans h'.kept, h'.lasting⟩

/-- A token and what is inside of it. -/
theorem self {t : Token} {types : ParameterTypes}
    (h : Walked signatures (nestedIn t) (visitsIn signatures t types) types
      (ofToken signatures t types).2) :
    Walked signatures (nested [t]) (visits signatures [t] types) types
      (ofToken signatures t types).2 := by
  have hnested : nested [t] = t :: nestedIn t := by rw [nested, nested, List.append_nil]
  have hvisits : visits signatures [t] types = (t, types) :: visitsIn signatures t types := by
    rw [visits, visits, List.append_nil]
  have hinside : (namesAmong (nestedIn t)).Sublist (namesAmong (nested [t])) := by
    rw [hnested]
    exact (List.sublist_cons_self t _).filterMap _
  rw [hvisits]
  refine ⟨?_, ?_, ?_, ?_, ?_, ?_, h.kept, List.forall_mem_cons.mpr ⟨.refl _, h.lasting⟩⟩
  · rw [hnested]
    intro u hu hparameter
    rcases List.mem_cons.mp hu with rfl | hu
    · exact ⟨types, List.mem_cons_self⟩
    · obtain ⟨types', hv⟩ := h.complete u hu hparameter
      exact ⟨types', List.mem_cons_of_mem _ hv⟩
  · rw [hnested]
    exact List.forall_mem_cons.mpr
      ⟨List.mem_cons_self, fun v hv => List.mem_cons_of_mem _ (h.sound v hv)⟩
  · exact List.forall_mem_cons.mpr
      ⟨List.Sublist.refl _, fun v hv => (h.mentioned v hv).trans hinside⟩
  · exact List.forall_mem_cons.mpr
      ⟨hvisits ▸ List.Subset.refl _, fun v hv _ hw => List.mem_cons_of_mem _ (h.closed v hv hw)⟩
  · exact h.frame.mono fun name hname hn => hname (hinside.subset hn)
  · refine List.forall_mem_cons.mpr ⟨fun _ _ _ _ => ⟨rfl, rfl⟩, ?_⟩
    intro v hv hparameter name hname hcount
    have hpos := List.count_pos_iff.mpr ((h.mentioned v hv).subset hname)
    have hle := hinside.count_le name
    exact h.settled v hv hparameter name hname (by omega)

end Walked

/-! ## Arguments -/

/-- What holds of all walks over a request. -/
def WalkedRequest (signatures : SignatureTable) (r : Request) : Prop :=
  ∀ type types, Walked signatures (nested r) (visits signatures r types) types
    (ofRequest signatures r type types).2

/-- A name that is no bare parameter among the arguments takes no type from their slots. -/
theorem find?_bindSlots_of_not_mem {arguments : List Request} {name : String}
    (h : [.parameter name] ∉ arguments) (slots : List ValueType) (types : ParameterTypes) :
    (bindSlots arguments slots types).find? name = types.find? name := by
  induction arguments generalizing slots types with
  | nil => rfl
  | cons argument rest ih =>
    rw [List.mem_cons, not_or] at h
    obtain ⟨hhead, hrest⟩ := h
    cases slots with
    | nil => rfl
    | cons slot slots =>
      simp only [bindSlots]
      cases hbare : bareParameter? argument with
      | none => exact ih hrest slots types
      | some other =>
        have hne : name ≠ other := by
          rintro rfl
          exact hhead (bareParameter?_eq_some_iff.mp hbare).symm
        rw [ih hrest, OrderedMap.find?_bindNew, if_neg hne, Option.or_none]

/-- A bare parameter among the arguments is among the parameters inside of them. -/
theorem mem_namesAmong_of_mem {arguments : List Request} {name : String}
    (h : [.parameter name] ∈ arguments) : name ∈ namesAmong (nestedInArguments arguments) := by
  induction arguments with
  | nil => cases h
  | cons argument rest ih =>
    rw [nestedInArguments, namesAmong_append, List.mem_append]
    rcases List.mem_cons.mp h with rfl | h
    · exact .inl (List.mem_singleton_self name)
    · exact .inr (ih h)

section Arguments

variable {signatures : SignatureTable}

theorem walked_operands {operands : List Request}
    (h : ∀ operand ∈ operands, WalkedRequest signatures operand) (types : ParameterTypes) :
    Walked signatures (nestedInArguments operands) (visitsInOperands signatures operands types)
      types (ofOperands signatures operands types).2 := by
  induction operands generalizing types with
  | nil => exact .nil signatures types
  | cons operand rest ih =>
    rw [List.forall_mem_cons] at h
    exact (h.1 none types).append (ih h.2 _)

theorem walked_bounds {bounds : List Request}
    (h : ∀ bound ∈ bounds, WalkedRequest signatures bound) (types : ParameterTypes) :
    Walked signatures (nestedInArguments bounds) (visitsInBounds signatures bounds types) types
      (ofBounds signatures bounds types) := by
  induction bounds generalizing types with
  | nil => exact .nil signatures types
  | cons bound rest ih =>
    rw [List.forall_mem_cons] at h
    simp only [visitsInBounds, ofBounds]
    cases hbare : bareParameter? bound with
    | none => exact (h.1 none types).append (ih h.2 _)
    | some name =>
      cases bareParameter?_eq_some_iff.mp hbare
      exact (Walked.bindNew signatures name .integer types).append (ih h.2 _)

theorem walked_pairs {pairs : List (Assignment Request)}
    (h : ∀ pair ∈ pairs,
      WalkedRequest signatures pair.property ∧ WalkedRequest signatures pair.value)
    (types : ParameterTypes) :
    Walked signatures (nestedInPairs pairs) (visitsInPairs signatures pairs types) types
      (ofPairs signatures pairs types) := by
  induction pairs generalizing types with
  | nil => exact .nil signatures types
  | cons pair rest ih =>
    rw [List.forall_mem_cons] at h
    obtain ⟨⟨hproperty, hvalue⟩, hrest⟩ := h
    have hwalk := (hproperty none types).append ((hvalue none _).append (ih hrest _))
    simp only [nestedInPairs, visitsInPairs, ofPairs, List.append_assoc]
    cases hbare : bareParameter? pair.value with
    | none => exact hwalk
    | some name =>
      cases htype : (ofRequest signatures pair.property none types).1 with
      | none => exact hwalk
      | some type =>
        rw [bareParameter?_eq_some_iff.mp hbare]
        exact (hproperty none types).append
          ((Walked.bindNew signatures name type _).append (ih hrest _))

/-- What a token inside of the operands mentions alone is not one of the operands. -/
theorem not_mem_of_visited {operands : List Request}
    (h : ∀ operand ∈ operands, WalkedRequest signatures operand) (types : ParameterTypes) :
    ∀ v ∈ visitsInOperands signatures operands types, v.1.parameter? = none →
      ∀ name ∈ parameterNames [v.1],
        (namesAmong (nestedInArguments operands)).count name = 1 →
          [.parameter name] ∉ operands := by
  induction operands generalizing types with
  | nil => simp
  | cons operand rest ih =>
    rw [List.forall_mem_cons] at h
    rw [nestedInArguments, namesAmong_append]
    intro v hv hparameter name hname hcount hmem
    rw [List.count_append] at hcount
    rcases List.mem_append.mp hv with hv | hv
    · have hpos := List.count_pos_iff.mpr (((h.1 none types).mentioned v hv).subset hname)
      rcases List.mem_cons.mp hmem with rfl | hmem
      · cases List.mem_singleton.mp hv
        cases hparameter
      · have hpos' := List.count_pos_iff.mpr (mem_namesAmong_of_mem hmem)
        omega
    · have hpos := List.count_pos_iff.mpr (((walked_operands h.2 _).mentioned v hv).subset hname)
      rcases List.mem_cons.mp hmem with rfl | hmem
      · have hpos' : 0 < (namesAmong (nested [.parameter name])).count name :=
          List.count_pos_iff.mpr (List.mem_singleton_self name)
        omega
      · exact ih h.2 _ v hv hparameter name hname (by omega) hmem

/-- The slots of an overload type the operands themselves, which no token inside of them does. -/
theorem walked_conclude {arguments : List Request}
    (h : ∀ argument ∈ arguments, WalkedRequest signatures argument) (name : String)
    (types : ParameterTypes) :
    Walked signatures (nestedInArguments arguments)
      (visitsInOperands signatures arguments types) types
      (conclude signatures name arguments (ofOperands signatures arguments types)).2 := by
  have hwalk := walked_operands h types
  cases hfind : (signatures.overloads name).find?
      (·.compatible (ofOperands signatures arguments types).1) with
  | none =>
    simp only [conclude, hfind]
    exact hwalk
  | some overload =>
    simp only [conclude, hfind]
    have hslots := Extends.bindSlots arguments overload.arguments
      (ofOperands signatures arguments types).2
    refine { hwalk with
      frame := ?_
      settled := ?_
      kept := hwalk.kept.trans hslots
      lasting := fun v hv => (hwalk.lasting v hv).trans hslots }
    · intro other hother
      have hbare : [.parameter other] ∉ arguments := fun hmem => hother (mem_namesAmong_of_mem hmem)
      rw [find?_bindSlots_of_not_mem hbare]
      exact hwalk.frame other hother
    · intro v hv hparameter other hname hcount
      have hbare := not_mem_of_visited h types v hv hparameter other hname hcount
      rw [find?_bindSlots_of_not_mem hbare]
      exact hwalk.settled v hv hparameter other hname hcount

/-- So it is for a walk over a call. -/
theorem walked_call (name : String) {arguments : List Request}
    (h : ∀ argument ∈ arguments, WalkedRequest signatures argument) (types : ParameterTypes) :
    Walked signatures (nestedIn (.call name arguments))
      (visitsIn signatures (.call name arguments) types) types
      (ofToken signatures (.call name arguments) types).2 := by
  have hoperands := walked_operands h types
  have hconclude := walked_conclude h name types
  rw [nestedIn, visitsIn.eq_def, ofToken.eq_def]
  dsimp only
  split
  · exact walked_bounds h types
  split
  · rename_i hsubstring
    subst hsubstring
    rw [if_neg (show ¬ isRowStage "substring" = true by decide)]
    cases arguments with
    | nil => exact hconclude
    | cons string bounds =>
      rw [List.forall_mem_cons] at h
      exact (h.1 none types).append (walked_bounds h.2 _)
  split
  · exact hoperands
  split
  · split
    · exact hoperands
    · exact hconclude
  · exact hconclude

end Arguments

/-! ## Tokens and requests -/

mutual
/-- What a walk over a token comes to inside of it. -/
theorem walked_ofToken (signatures : SignatureTable) : (t : Token) → ∀ types,
    Walked signatures (nestedIn t) (visitsIn signatures t types) types
      (ofToken signatures t types).2
  | .read _, types => .nil signatures types
  | .parameter _, types => .nil signatures types
  | .table _, types => .nil signatures types
  | .join _, types => .nil signatures types
  | .call name arguments, types => walked_call name (walked_arguments signatures arguments) types
  | .assignments pairs, types =>
    walked_pairs (walked_assignments signatures pairs) types
termination_by structural t => t

/-- What a walk over a request comes to. -/
theorem walked_ofRequest (signatures : SignatureTable) : (r : Request) → WalkedRequest signatures r
  | [] => fun _ types => .nil signatures types
  | t :: rest => fun type types => by
    obtain ⟨result, hcons⟩ := ofRequest_cons signatures t rest type
    have ht := (walked_ofToken signatures t types).self
    rw [hcons]
    simpa [nested, visits] using ht.append (walked_ofRequest signatures rest _ _)
termination_by structural r => r

theorem walked_arguments (signatures : SignatureTable) : (arguments : List Request) →
    ∀ argument ∈ arguments, WalkedRequest signatures argument
  | [] => fun _ h => by cases h
  | argument :: rest => List.forall_mem_cons.mpr
    ⟨walked_ofRequest signatures argument, walked_arguments signatures rest⟩
termination_by structural arguments => arguments

theorem walked_assignments (signatures : SignatureTable) : (pairs : List (Assignment Request)) →
    ∀ pair ∈ pairs, WalkedRequest signatures pair.property ∧ WalkedRequest signatures pair.value
  | [] => fun _ h => by cases h
  | ⟨property, value⟩ :: rest => List.forall_mem_cons.mpr
    ⟨⟨walked_ofRequest signatures property, walked_ofRequest signatures value⟩,
      walked_assignments signatures rest⟩
termination_by structural pairs => pairs
end

end ParameterTypes

end RequestCompiler
