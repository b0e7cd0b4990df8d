/-!
# Maps in order of first insertion

`OrderedMap κ α` is a list of bindings in which no key occurs twice. A binding keeps the place it
got when its key was first bound, so listing a map gives the order in which its keys appeared.

* `bindNew` keeps an existing binding: the first value bound to a key stays.
* `alter` puts a new value in the place of the old one, or appends a binding.
* `SameBindings` compares two maps without their order.
-/

namespace RequestCompiler

/-- Bindings in order of first insertion, no key twice. -/
structure OrderedMap (κ α : Type) where
  entries : List (κ × α)
  nodup : (entries.map Prod.fst).Nodup
deriving DecidableEq

namespace OrderedMap

variable {κ α : Type}

/-- The map that binds nothing. -/
def empty : OrderedMap κ α := ⟨[], List.nodup_nil⟩

instance : EmptyCollection (OrderedMap κ α) := ⟨empty⟩

/-- The keys, the first bound first. -/
def keys (m : OrderedMap κ α) : List κ := m.entries.map Prod.fst

/-- The number of keys. -/
def size (m : OrderedMap κ α) : Nat := m.entries.length

/-- Whether nothing is bound. -/
def isEmpty (m : OrderedMap κ α) : Bool := m.entries.isEmpty

theorem nodup_append_new {l : List (κ × α)} (h : (l.map Prod.fst).Nodup) {k : κ} (v : α)
    (hk : k ∉ l.map Prod.fst) : ((l ++ [(k, v)]).map Prod.fst).Nodup := by
  rw [List.map_append, List.nodup_append]
  refine ⟨h, by simp, ?_⟩
  rintro a ha b hb rfl
  simp only [List.map_cons, List.map_nil, List.mem_singleton] at hb
  exact hk (hb ▸ ha)

variable [DecidableEq κ]

/-- The value bound to a key. -/
def find? (m : OrderedMap κ α) (k : κ) : Option α := m.entries.lookup k

/-- Whether a key is bound. -/
def contains (m : OrderedMap κ α) (k : κ) : Bool := m.keys.contains k

theorem map_fst_replace (l : List (κ × α)) (k : κ) (f : α → α) :
    (l.map fun e => if e.1 = k then (e.1, f e.2) else e).map Prod.fst = l.map Prod.fst := by
  rw [List.map_map]
  apply List.map_congr_left
  intro e _
  simp only [Function.comp_apply]
  split <;> rfl

/-- Binds a key that has no value yet; a value it has stays. -/
def bindNew (m : OrderedMap κ α) (k : κ) (v : α) : OrderedMap κ α :=
  if h : k ∈ m.keys then m else ⟨m.entries ++ [(k, v)], nodup_append_new m.nodup v h⟩

/-- Changes the value of a bound key in its place; one without a value gets `f none` at the end. -/
def alter (m : OrderedMap κ α) (k : κ) (f : Option α → α) : OrderedMap κ α :=
  if h : k ∈ m.keys then
    ⟨m.entries.map fun e => if e.1 = k then (e.1, f (some e.2)) else e,
      by rw [map_fst_replace m.entries k fun v => f (some v)]; exact m.nodup⟩
  else ⟨m.entries ++ [(k, f none)], nodup_append_new m.nodup _ h⟩

/-- The bindings of a list, a later value of a key in the place of an earlier one. -/
def ofList (l : List (κ × α)) : OrderedMap κ α :=
  l.foldl (fun m e => m.alter e.1 fun _ => e.2) empty

/-- Whether two maps bind the same keys to the same values, in whatever order. -/
def SameBindings (m n : OrderedMap κ α) : Prop :=
  m.size = n.size ∧ ∀ e ∈ m.entries, n.find? e.1 = some e.2

instance [DecidableEq α] (m n : OrderedMap κ α) : Decidable (m.SameBindings n) :=
  inferInstanceAs (Decidable (_ ∧ _))

/-! ## What the operations do to look-up -/

theorem lookup_cons_ite (e : κ × α) (l : List (κ × α)) (k : κ) :
    (e :: l).lookup k = if k = e.1 then some e.2 else l.lookup k := by
  rw [List.lookup_cons]
  by_cases h : k = e.1
  · simp [h]
  · rw [beq_false_of_ne h, if_neg h]

theorem lookup_append (l l' : List (κ × α)) (k : κ) :
    (l ++ l').lookup k = (l.lookup k).or (l'.lookup k) := by
  induction l with
  | nil => simp
  | cons e l ih =>
    rw [List.cons_append, lookup_cons_ite, lookup_cons_ite, ih]
    split <;> simp

theorem lookup_eq_none {l : List (κ × α)} {k : κ} : l.lookup k = none ↔ k ∉ l.map Prod.fst := by
  induction l with
  | nil => simp
  | cons e l ih =>
    rw [lookup_cons_ite, List.map_cons, List.mem_cons, not_or, ← ih]
    split <;> simp [*]

theorem find?_eq_none {m : OrderedMap κ α} {k : κ} : m.find? k = none ↔ k ∉ m.keys :=
  lookup_eq_none

@[simp] theorem find?_empty (k : κ) : (empty : OrderedMap κ α).find? k = none := rfl

/-- The first value bound to a key stays; other keys are untouched. -/
theorem find?_bindNew (m : OrderedMap κ α) (k : κ) (v : α) (j : κ) :
    (m.bindNew k v).find? j = (m.find? j).or (if j = k then some v else none) := by
  unfold bindNew
  split
  · rename_i h
    split
    · rename_i hj
      subst hj
      cases hf : m.find? j with
      | none => exact absurd h (find?_eq_none.mp hf)
      | some w => rfl
    · simp
  · simp only [find?, lookup_append, lookup_cons_ite, List.lookup_nil]

theorem lookup_map_ite (l : List (κ × α)) (k : κ) (f : α → α) (j : κ) :
    (l.map fun e => if e.1 = k then (e.1, f e.2) else e).lookup j =
      if j = k then (l.lookup j).map f else l.lookup j := by
  induction l with
  | nil => simp
  | cons e l ih =>
    rw [List.map_cons, lookup_cons_ite, lookup_cons_ite, ih]
    by_cases hj : j = k <;> by_cases he : e.1 = k <;> by_cases hje : j = e.1 <;> simp_all

/-- Altering a key is seen at that key alone. -/
theorem find?_alter (m : OrderedMap κ α) (k : κ) (f : Option α → α) (j : κ) :
    (m.alter k f).find? j = if j = k then some (f (m.find? k)) else m.find? j := by
  unfold alter
  split
  · rename_i h
    rw [find?, lookup_map_ite m.entries k fun v => f (some v)]
    split
    · rename_i hj
      subst hj
      cases hv : m.find? j with
      | none => exact absurd h (find?_eq_none.mp hv)
      | some w => rw [find?] at hv; simp [hv]
    · rfl
  · rename_i h
    rw [find?, lookup_append, lookup_cons_ite, find?_eq_none.mpr h]
    split
    · rename_i hj
      subst hj
      rw [lookup_eq_none.mpr h]; rfl
    · simp [find?]

/-- A new key goes to the end. -/
theorem keys_alter (m : OrderedMap κ α) (k : κ) (f : Option α → α) :
    (m.alter k f).keys = if k ∈ m.keys then m.keys else m.keys ++ [k] := by
  unfold alter
  split
  · simp only [keys, map_fst_replace m.entries k fun v => f (some v)]
  · simp [keys]

end OrderedMap

end RequestCompiler
