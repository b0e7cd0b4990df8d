import RequestCompiler.Pipeline.Method

/-!
# Profiles of a pipeline

A `Profile` records the method of a pipeline and where its first filter, its first sort and its
first slice stand. `Profile.of` reads it off the tokens.

When a token is removed or inserted, the profile is *patched* instead of being read off again:
`Profile.patch` shifts each position past the edit, looks further for the next occurrence when the
recorded one was removed, and takes over an operation inserted before it. `Tracked` holds a
pipeline together with its profile, and `Tracked.edit` keeps the two in step.
-/

namespace RequestCompiler

/-- The first position of an operation. -/
def firstPosition (operation : Operation) (request : Request) : Option Nat :=
  request.findIdx? fun t => Operation.of? t == some operation

/-- Every position of an operation, in ascending order. -/
def positions (operation : Operation) (request : Request) : List Nat :=
  (List.range request.length).filter fun i =>
    request[i]?.bind Operation.of? == some operation

/-- What a pipeline is for and where its operations first stand. -/
structure Profile where
  method : Method
  filter : Option Nat
  sort : Option Nat
  slice : Option Nat
deriving DecidableEq, Repr

/-- A change of one token. -/
inductive Edit where
  | remove (index : Nat)
  | insert (index : Nat) (token : Token)
deriving DecidableEq, Repr

namespace Edit

/-- The request after the change. -/
def apply : Edit → Request → Request
  | .remove index, request => request.eraseIdx index
  | .insert index token, request => request.insertIdx index token

/-- Whether the change happens inside the request. -/
def Fits : Edit → Request → Prop
  | .remove index, request => index < request.length
  | .insert index _, request => index ≤ request.length

/-- Whether a list of changes stays inside the request as it changes. -/
def AllFit : List Edit → Request → Prop
  | [], _ => True
  | e :: es, request => e.Fits request ∧ AllFit es (e.apply request)

end Edit

namespace Profile

/-- The profile of a pipeline under a method of this name. -/
def of (name : String) (request : Request) : Profile where
  method := Method.ofName name
  filter := firstPosition .filter request
  sort := firstPosition .sort request
  slice := firstPosition .slice request

/-- Where an operation first stands. -/
def position (p : Profile) : Operation → Option Nat
  | .filter => p.filter
  | .sort => p.sort
  | .slice => p.slice

/-- Whether an operation occurs. -/
def has (p : Profile) (operation : Operation) : Bool := (p.position operation).isSome

/-- Whether both operations occur and the first `a` stands after the first `b`. -/
def occursAfter (p : Profile) (a b : Operation) : Bool :=
  match p.position a, p.position b with
  | some i, some j => j < i
  | _, _ => false

/-- Changes every position in its own way. -/
def mapPositions (p : Profile) (f : Operation → Option Nat → Option Nat) : Profile :=
  { p with filter := f .filter p.filter, sort := f .sort p.sort, slice := f .slice p.slice }

/-- A first position after the token at `index` was removed, which left `rest`. -/
def positionAfterRemoval (index : Nat) (rest : Request) (operation : Operation) :
    Option Nat → Option Nat
  | none => none
  | some position =>
    if index < position then some (position - 1)
    else if position = index then
      (firstPosition operation (rest.drop index)).map (index + ·)
    else some position

/-- A first position after a token was inserted at `index`. -/
def positionAfterInsertion (index : Nat) (token : Token) (operation : Operation)
    (slot : Option Nat) : Option Nat :=
  let shifted := slot.map fun position => if index ≤ position then position + 1 else position
  if Operation.of? token = some operation then
    match shifted with
    | none => some index
    | some position => some (if index < position then index else position)
  else shifted

/-- The profile after a change that leaves `after`. -/
def patch (p : Profile) (change : Edit) (after : Request) : Profile :=
  match change with
  | .remove index => p.mapPositions (positionAfterRemoval index after)
  | .insert index token => p.mapPositions (positionAfterInsertion index token)

end Profile

/-- A pipeline and its profile. -/
structure Tracked where
  tokens : Request
  profile : Profile
deriving DecidableEq, Repr

namespace Tracked

/-- A pipeline with the profile read off it. -/
def of (name : String) (request : Request) : Tracked := ⟨request, Profile.of name request⟩

/-- The pipeline after a change, its profile patched. -/
def edit (t : Tracked) (change : Edit) : Tracked :=
  let after := change.apply t.tokens
  ⟨after, t.profile.patch change after⟩

/-- The pipeline after one change upon the other. -/
def run (t : Tracked) (changes : List Edit) : Tracked := changes.foldl edit t

@[simp] theorem run_nil (t : Tracked) : t.run [] = t := rfl

@[simp] theorem run_cons (t : Tracked) (e : Edit) (es : List Edit) :
    t.run (e :: es) = (t.edit e).run es := rfl

theorem run_append (t : Tracked) (es fs : List Edit) : t.run (es ++ fs) = (t.run es).run fs :=
  List.foldl_append

end Tracked

end RequestCompiler
