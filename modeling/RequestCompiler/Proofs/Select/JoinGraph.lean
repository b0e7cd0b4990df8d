import Mathlib.Data.List.Nodup
import Mathlib.Data.List.Perm.Subperm
import RequestCompiler.Proofs.Select.Growth

/-!
# The join graph of a select

The joins of a select are numbered in the order of the list, and no two have the same parent, table
and condition (`Select.Numbered`). So a number names one join, and the parents of a join are one
chain of links: the *chain* of a context is what was joined on the way to it from the root.

A parent may be any number, also one that names no join or that leads back to the join itself. Such
a context has no chain. A chain passes each join once, so as many steps as there are joins are
enough to find it (`Leads.length_le`).

* `chain_eq_some_iff` — the chain that is computed is the one along the parents.
* `Numbered.chain_join` — the chain of a join is that of its parent and one link more.
* `Numbered.chain_injective` — a chain leads to one context.
* `chain_eq_of_below` — joins added below a context leave its chain alone.
* `SelectBuilder.Numbered.perform` — every step of construction keeps the joins numbered.
-/

namespace RequestCompiler

/-- Links from one context to another, each a table and the condition on which it is joined. -/
abbrev Chain := List (String × String)

/-- The link that a join adds to the chain of its parent. -/
def Join.link (j : Join) : String × String := (j.table, j.condition)

/-! ## Chains -/

/-- The chain from the root to a context, if it has no more links than this. -/
def chainWithin (joins : List Join) : Nat → Context → Option Chain
  | _, .root => some []
  | 0, .join _ => none
  | links + 1, .join number =>
    match joins.find? (·.number = number) with
    | none => none
    | some j => (chainWithin joins links j.parent).map (· ++ [j.link])

/-- Whether a chain leads from the root to a context along the parents of joins. -/
inductive Leads (joins : List Join) : Chain → Context → Prop where
  | root : Leads joins [] .root
  | join {number : Nat} {j : Join} {chain : Chain}
      (hj : joins.find? (·.number = number) = some j) (h : Leads joins chain j.parent) :
      Leads joins (chain ++ [j.link]) (.join number)

theorem chainWithin_eq_some_iff {joins : List Join} {links : Nat} {context : Context}
    {chain : Chain} :
    chainWithin joins links context = some chain ↔
      Leads joins chain context ∧ chain.length ≤ links := by
  constructor
  · intro h
    induction links generalizing context chain with
    | zero =>
      cases context with
      | root =>
        cases h
        exact ⟨.root, Nat.le_refl 0⟩
      | join number => cases h
    | succ links ih =>
      cases context with
      | root =>
        cases h
        exact ⟨.root, Nat.zero_le _⟩
      | join number =>
        rw [chainWithin] at h
        split at h
        · cases h
        · next j hj =>
          obtain ⟨chain, hchain, rfl⟩ := Option.map_eq_some_iff.mp h
          obtain ⟨hleads, hlength⟩ := ih hchain
          exact ⟨.join hj hleads, by simpa using hlength⟩
  · rintro ⟨h, hlength⟩
    induction h generalizing links with
    | root => cases links <;> rfl
    | @join number j chain hj h ih =>
      rw [List.length_append, List.length_singleton] at hlength
      obtain ⟨links, rfl⟩ : ∃ n, links = n + 1 := ⟨links - 1, by omega⟩
      rw [chainWithin, hj]
      exact Option.map_eq_some_iff.mpr ⟨chain, ih (by omega), rfl⟩

namespace Leads

variable {joins : List Join} {chain : Chain} {context : Context}

/-- One chain leads to a context. -/
theorem unique {chain' : Chain} (h : Leads joins chain context)
    (h' : Leads joins chain' context) : chain = chain' := by
  induction h generalizing chain' with
  | root =>
    cases h'
    rfl
  | join hj h ih =>
    cases h' with
    | join hj' h' =>
      rw [hj] at hj'
      cases hj'
      rw [ih h']

/-- The joins on a chain differ, as the chains to them differ in length. -/
theorem exists_passed (h : Leads joins chain context) :
    ∃ passed : List Join, passed ⊆ joins ∧ passed.Nodup ∧ passed.length = chain.length ∧
      ∀ j ∈ passed, ∃ part, Leads joins part (.join j.number) ∧ part.length ≤ chain.length := by
  induction h with
  | root => exact ⟨[], List.nil_subset _, List.nodup_nil, rfl, fun j hj => by cases hj⟩
  | @join number j chain hj h ih =>
    obtain ⟨passed, hsub, hnodup, hlength, hparts⟩ := ih
    have hnumber : j.number = number := by simpa using List.find?_some hj
    have hleads : Leads joins (chain ++ [j.link]) (.join j.number) := by
      rw [hnumber]
      exact .join hj h
    have hnew : j ∉ passed := by
      intro hmem
      obtain ⟨part, hpart, hle⟩ := hparts j hmem
      rw [hpart.unique hleads, List.length_append, List.length_singleton] at hle
      omega
    refine ⟨j :: passed, List.cons_subset.mpr ⟨List.mem_of_find?_eq_some hj, hsub⟩,
      List.nodup_cons.mpr ⟨hnew, hnodup⟩, by simp [hlength], ?_⟩
    intro i hi
    rcases List.mem_cons.mp hi with rfl | hi
    · exact ⟨_, hleads, Nat.le_refl _⟩
    · obtain ⟨part, hpart, hle⟩ := hparts i hi
      refine ⟨part, hpart, ?_⟩
      rw [List.length_append]
      omega

/-- No chain is longer than there are joins. -/
theorem length_le (h : Leads joins chain context) : chain.length ≤ joins.length := by
  obtain ⟨passed, hsub, hnodup, hlength, -⟩ := h.exists_passed
  rw [← hlength]
  exact (List.subperm_of_subset hnodup hsub).length_le

/-- A chain stays as joins are added. -/
theorem append (h : Leads joins chain context) (added : List Join) :
    Leads (joins ++ added) chain context := by
  induction h with
  | root => exact .root
  | join hj h ih => exact .join (by rw [List.find?_append, hj]; rfl) ih

end Leads

namespace Select

/-- The chain of links from the root to a context. -/
def chain (s : Select) (context : Context) : Option Chain :=
  chainWithin s.joins s.joins.length context

theorem chain_eq_some_iff {s : Select} {context : Context} {chain : Chain} :
    s.chain context = some chain ↔ Leads s.joins chain context :=
  chainWithin_eq_some_iff.trans ⟨And.left, fun h => ⟨h, h.length_le⟩⟩

/-- Whether the way to one context leads through another. -/
def Below (s : Select) (context below : Context) : Prop :=
  ∃ links, s.chain below = (s.chain context).map (· ++ links)

theorem Below.refl (s : Select) (context : Context) : s.Below context context := by
  refine ⟨[], ?_⟩
  simp

theorem Below.trans {s : Select} {a b c : Context} (h : s.Below a b) (h' : s.Below b c) :
    s.Below a c := by
  obtain ⟨links, hlinks⟩ := h
  obtain ⟨further, hfurther⟩ := h'
  refine ⟨links ++ further, ?_⟩
  rw [hfurther, hlinks, Option.map_map]
  simp [Function.comp_def]

/-- Joins added below a context are on no chain to it. -/
theorem chain_eq_of_below {s s' : Select} {context : Context} {added : List Join}
    (hjoins : s'.joins = s.joins ++ added) (hbelow : ∀ j ∈ added, s'.Below context j.parent) :
    s'.chain context = s.chain context := by
  refine Option.ext fun chain => ?_
  rw [chain_eq_some_iff, chain_eq_some_iff, hjoins]
  refine ⟨fun h => ?_, fun h => h.append added⟩
  -- a chain through an added join is longer than the chain to the context
  have hold : ∀ {part : Chain} {reached : Context}, Leads (s.joins ++ added) part reached →
      part.length ≤ chain.length → Leads s.joins part reached := by
    intro part reached hpart
    induction hpart with
    | root => exact fun _ => .root
    | @join number j part hj hpart ih =>
      intro hle
      rw [List.length_append, List.length_singleton] at hle
      rw [List.find?_append, Option.or_eq_some_iff] at hj
      rcases hj with hj | ⟨-, hj⟩
      · exact .join hj (ih (by omega))
      · obtain ⟨links, hlinks⟩ := hbelow j (List.mem_of_find?_eq_some hj)
        rw [← hjoins] at h hpart
        rw [chain_eq_some_iff.mpr h, chain_eq_some_iff.mpr hpart, Option.map_some,
          Option.some.injEq] at hlinks
        rw [hlinks, List.length_append] at hle
        omega
  exact hold h (Nat.le_refl _)

/-! ## Numbered joins -/

/-- Whether joins have the numbers of their places, and each is there once. -/
structure Numbered (s : Select) : Prop where
  numbers : s.joins.map (·.number) = List.range' 1 s.joins.length
  distinct : (s.joins.map fun j => (j.parent, j.link)).Nodup

namespace Numbered

variable {s s' : Select}

theorem of_joins (h : s.Numbered) (hjoins : s'.joins = s.joins) : s'.Numbered :=
  ⟨by rw [hjoins]; exact h.numbers, by rw [hjoins]; exact h.distinct⟩

theorem of_nil (h : s.joins = []) : s.Numbered := by
  constructor <;> rw [h]
  · rfl
  · exact List.nodup_nil

/-- A number names one join. -/
theorem find?_number (h : s.Numbered) {j : Join} (hj : j ∈ s.joins) :
    s.joins.find? (·.number = j.number) = some j := by
  cases hfound : s.joins.find? (·.number = j.number) with
  | none => simpa using List.find?_eq_none.mp hfound j hj
  | some i =>
    have hnodup : (s.joins.map (·.number)).Nodup := by
      rw [h.numbers]
      exact List.nodup_range'
    have hnumber : i.number = j.number := by simpa using List.find?_some hfound
    rw [List.inj_on_of_nodup_map hnodup (List.mem_of_find?_eq_some hfound) hj hnumber]

/-- The chain of a join is that of its parent and one link more. -/
theorem chain_join (h : s.Numbered) {j : Join} (hj : j ∈ s.joins) :
    s.chain (.join j.number) = (s.chain j.parent).map (· ++ [j.link]) := by
  refine Option.ext fun chain => ?_
  rw [chain_eq_some_iff, Option.map_eq_some_iff]
  constructor
  · intro hleads
    cases hleads with
    | join hi hleads =>
      rw [h.find?_number hj] at hi
      cases hi
      exact ⟨_, chain_eq_some_iff.mpr hleads, rfl⟩
  · rintro ⟨chain, hchain, rfl⟩
    exact .join (h.find?_number hj) (chain_eq_some_iff.mp hchain)

/-- A chain leads to one context. -/
theorem chain_injective (h : s.Numbered) {a b : Context} {chain : Chain}
    (ha : s.chain a = some chain) (hb : s.chain b = some chain) : a = b := by
  rw [chain_eq_some_iff] at ha hb
  induction ha generalizing b with
  | root =>
    generalize hnone : ([] : Chain) = chain at hb
    cases hb with
    | root => rfl
    | join hj hb => simp at hnone
  | @join number j chain hj ha ih =>
    generalize hsame : chain ++ [j.link] = chain' at hb
    cases hb with
    | root => simp at hsame
    | @join number' i chain' hi hb =>
      obtain ⟨rfl, hlink⟩ := List.append_inj' hsame rfl
      -- the last links come from the same parent, so the joins are the same
      have hkey : (j.parent, j.link) = (i.parent, i.link) :=
        Prod.ext (ih hb) (List.singleton_inj.mp hlink)
      have hij : j = i := List.inj_on_of_nodup_map h.distinct (List.mem_of_find?_eq_some hj)
        (List.mem_of_find?_eq_some hi) hkey
      have hnumber : j.number = number := by simpa using List.find?_some hj
      have hnumber' : i.number = number' := by simpa using List.find?_some hi
      rw [← hnumber, ← hnumber', hij]

/-- The join that is followed is numbered like the others, be it new or not. -/
theorem addJoin (h : s.Numbered) (parent : Context) (table condition : String) :
    (s.addJoin parent table condition).2.Numbered := by
  unfold Select.addJoin
  split
  · exact h
  · next hnone =>
    constructor
    · rw [List.map_append, h.numbers, List.length_append, List.length_singleton,
        List.range'_concat]
      simp [Nat.add_comm]
    · rw [List.map_append, List.map_singleton, List.nodup_append]
      refine ⟨h.distinct, List.nodup_singleton _, ?_⟩
      rintro key hkey _ hnew rfl
      -- a join with this key would have been found
      obtain ⟨j, hj, hjkey⟩ := List.mem_map.mp hkey
      rw [List.mem_singleton.mp hnew, Prod.mk.injEq, Join.link, Join.link, Prod.mk.injEq] at hjkey
      unfold findJoin? at hnone
      simpa [hjkey] using List.find?_eq_none.mp hnone j hj

end Numbered

/-- A join that is followed has the parent and the link that were asked for. -/
theorem exists_mem_addJoin (s : Select) (parent : Context) (table condition : String) :
    ∃ j ∈ (s.addJoin parent table condition).2.joins,
      j.number = (s.addJoin parent table condition).1 ∧ j.parent = parent ∧
        j.link = (table, condition) := by
  unfold addJoin
  split
  · next j hj =>
    have hkey : j.parent = parent ∧ j.table = table ∧ j.condition = condition := by
      simpa using List.find?_some hj
    obtain ⟨rfl, rfl, rfl⟩ := hkey
    exact ⟨j, List.mem_of_find?_eq_some hj, rfl, rfl, rfl⟩
  · exact ⟨_, List.mem_append_right _ (List.mem_singleton_self _), rfl, rfl, rfl⟩

/-- What is added when a join is followed hangs on its parent. -/
theorem joins_addJoin (s : Select) (parent : Context) (table condition : String) :
    ∃ added, (s.addJoin parent table condition).2.joins = s.joins ++ added ∧
      ∀ j ∈ added, j.parent = parent := by
  unfold addJoin
  split
  · exact ⟨[], (List.append_nil _).symm, fun j hj => by cases hj⟩
  · refine ⟨_, rfl, fun j hj => ?_⟩
    rw [List.mem_singleton.mp hj]

end Select

/-! ## Builders -/

namespace SelectBuilder

/-- The selects of a builder. -/
def selects (b : SelectBuilder) : List Select := b.main :: (b.subquery.map (·.select)).toList

theorem active_mem_selects (b : SelectBuilder) : b.active ∈ b.selects := by
  unfold active
  cases hb : b.subquery with
  | none => exact List.mem_cons_self
  | some q => simp [selects, hb]

theorem mem_selects_withActive {b : SelectBuilder} {s t : Select}
    (h : t ∈ (b.withActive s).selects) : t = s ∨ t ∈ b.selects := by
  unfold withActive at h
  cases hb : b.subquery with
  | none =>
    simp only [hb, selects, Option.map_none, Option.toList_none, List.mem_singleton] at h
    exact .inl h
  | some q =>
    simp only [hb] at h
    rcases List.mem_pair.mp h with rfl | rfl
    · exact .inr List.mem_cons_self
    · exact .inl rfl

/-- A subquery that hands out a column has the joins that it had. -/
theorem joins_expose (q : Subquery) (context : Context) (name : String) :
    (q.expose context name).2.select.joins = q.select.joins := by
  unfold Subquery.expose
  split <;> rfl

/--
What a select has by its joins alone, every select has behind a step of construction, if the active
one has it behind a join that the step follows.
-/
theorem forall_selects_perform {P : Select → Prop} {b b' : SelectBuilder} {step : Step}
    {answer : Answer} (hnil : ∀ {s : Select}, s.joins = [] → P s)
    (hjoins : ∀ {s s' : Select}, P s → s'.joins = s.joins → P s')
    (hadd : ∀ parent table condition, step = .addJoin parent table condition →
      P b.active → P (b.active.addJoin parent table condition).2)
    (h : ∀ s ∈ b.selects, P s) (hperform : b.perform step = .ok (answer, b')) :
    ∀ s ∈ b'.selects, P s := by
  have hactive : P b.active := h _ b.active_mem_selects
  have hset {s : Select} (hs : P s) : ∀ t ∈ (b.withActive s).selects, P t := by
    intro t ht
    rcases mem_selects_withActive ht with rfl | ht
    · exact hs
    · exact h t ht
  cases changes_of_perform hperform with
  | join parent table condition => exact hset (hadd parent table condition rfl hactive)
  | edit hstep hsame hprojection => exact hset (hjoins hactive hsame)
  | project expression =>
    refine List.forall_mem_cons.mpr ⟨hjoins (h _ List.mem_cons_self) rfl, fun s hs => ?_⟩
    exact h s (List.mem_cons_of_mem _ hs)
  | fork hb =>
    intro s hs
    rcases List.mem_pair.mp hs with rfl | rfl
    · exact hnil rfl
    · exact h _ List.mem_cons_self
  | expose context name =>
    unfold expose
    cases hb : b.subquery with
    | none => exact h
    | some q =>
      intro s hs
      rcases List.mem_pair.mp hs with rfl | rfl
      · exact h _ List.mem_cons_self
      · exact hjoins (h _ (by simp [selects, hb])) (joins_expose q context name)

/-- Whether the joins of every select are numbered. -/
def Numbered (b : SelectBuilder) : Prop := ∀ s ∈ b.selects, s.Numbered

namespace Numbered

variable {b : SelectBuilder}

theorem ofTable (table : String) : (SelectBuilder.ofTable table).Numbered := by
  intro s hs
  rw [List.mem_singleton.mp hs]
  exact .of_nil rfl

theorem active (h : b.Numbered) : b.active.Numbered := h _ b.active_mem_selects

/-- Every step of construction keeps the joins numbered. -/
theorem perform (h : b.Numbered) {step : Step} {answer : Answer} {b' : SelectBuilder}
    (hperform : b.perform step = .ok (answer, b')) : b'.Numbered :=
  forall_selects_perform (P := Select.Numbered) .of_nil .of_joins
    (fun parent table condition _ h => h.addJoin parent table condition) h hperform

end Numbered

end SelectBuilder

end RequestCompiler
