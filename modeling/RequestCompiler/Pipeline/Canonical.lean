import RequestCompiler.Pipeline.Profile

/-!
# The canonical form of a pipeline

Four rules bring a pipeline into the form in which it is compiled. They run once each, in order,
every one on what the rule before it left:

1. `dropOrdering`: where the order of the rows cannot show, sorts go.
2. `orderPagination`: a slice of a table that nothing sorts before it is sorted by identifier.
3. `isolateAggregation`: what is computed from sliced rows is computed outside, behind a fork.
4. `filterFirst`: sorts step behind the filter that follows them, unless a slice lies between.

A rule looks at the pipeline and its profile and answers with the changes it wants, so that what
it does to the tokens and what it does to the profile cannot disagree.
-/

namespace RequestCompiler

namespace Canonical

/-- Orders the rows of a table by what identifies them. -/
def sortByIdentifier (scan : TableScan) : Token :=
  .call "sort" [[.read ⟨scan.table, scan.identifier, .integer, scan.hasZero⟩]]

/-- Continues outside of the rows gathered so far. -/
def fork : Token := .call "fork" []

/--
Sorts go where the order of the rows cannot show: the method does not look at it, and no slice
comes after the first sort to cut the rows in that order.
-/
def dropOrdering (t : Tracked) : List Edit :=
  if t.profile.method.ignoresOrder &&
      (t.profile.occursAfter .sort .slice || (t.profile.has .sort && !t.profile.has .slice)) then
    (positions .sort t.tokens).reverse.map .remove
  else []

/-- A slice of a table with no sort before it gets one by identifier, right before it. -/
def orderPagination (t : Tracked) : List Edit :=
  match t.tokens, t.profile.slice with
  | .table scan :: _, some slice =>
    if t.profile.occursAfter .slice .sort then [] else [.insert slice (sortByIdentifier scan)]
  | _, _ => []

/-- Under a method that yields one value, a slice is followed by a fork. -/
def isolateAggregation (t : Tracked) : List Edit :=
  if t.profile.method.isScalar then
    match t.profile.slice with
    | none => []
    | some slice =>
      if (t.tokens[slice + 1]?).any (·.isCall "fork") then [] else [.insert (slice + 1) fork]
  else []

/-- Where the part of a pipeline begins in which nothing separates a sort from the filter. -/
def afterLastSlice (request : Request) (filter : Nat) : Nat :=
  match ((positions .slice request).filter (· < filter)).getLast? with
  | none => 0
  | some slice => slice + 1

/-- The sorts that stand before the filter with no slice between. -/
def sortsToMove (request : Request) (filter : Nat) : List Nat :=
  (positions .sort request).filter fun i => afterLastSlice request filter ≤ i && i < filter

/-- The changes that take the sorts out, from the last to the first, and put them behind. -/
def moveSorts (request : Request) (filter : Nat) : List Edit :=
  let moving := sortsToMove request filter
  let sorts := moving.filterMap (request[·]?)
  moving.reverse.map .remove ++
    sorts.mapIdx fun i sort => .insert (filter - moving.length + 1 + i) sort

/-- Whether exactly one of the first filter and the first sort stands after the first slice. -/
def slicedApart (p : Profile) : Bool :=
  p.has .slice && (p.occursAfter .filter .slice != p.occursAfter .sort .slice)

/-- Sorts that precede the first filter in its own part of the pipeline follow it instead. -/
def filterFirst (t : Tracked) : List Edit :=
  if t.profile.occursAfter .filter .sort && !slicedApart t.profile then
    match t.profile.filter with
    | none => []
    | some filter => moveSorts t.tokens filter
  else []

/-- The rules in the order in which they run. -/
def rules : List (Tracked → List Edit) :=
  [dropOrdering, orderPagination, isolateAggregation, filterFirst]

/-- A pipeline after some rules. -/
def applyRules (rules : List (Tracked → List Edit)) (t : Tracked) : Tracked :=
  rules.foldl (fun t rule => t.run (rule t)) t

end Canonical

/-- The canonical form of a pipeline under the method of this name. -/
def canonical (name : String) (request : Request) : Request :=
  (Canonical.applyRules Canonical.rules (Tracked.of name request)).tokens

/-- Whether a pipeline already is its canonical form. -/
def IsCanonical (name : String) (request : Request) : Prop := canonical name request = request

instance (name : String) (request : Request) : Decidable (IsCanonical name request) :=
  inferInstanceAs (Decidable (_ = _))

end RequestCompiler
