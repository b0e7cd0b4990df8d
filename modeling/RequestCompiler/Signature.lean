import RequestCompiler.ValueType

/-!
# Overloads of a function

A `Signature` lists the types of the operands of one overload and the type it returns.

An overload *accepts* operands when there is a known type of the right kind in every slot; an
untyped operand fits no slot, and operands beyond the last slot are not looked at
(`accepts_iff`). It is *compatible* with operands when there are as many as slots and every known
type fits, an untyped operand fitting any slot (`compatible_iff`).
-/

namespace RequestCompiler

/-- One overload: the types of its operands and the type it returns. -/
structure Signature where
  arguments : List ValueType
  returns : ValueType
deriving DecidableEq, Repr

namespace Signature

/-- Whether every slot holds an operand of exactly its type. -/
def acceptsSlots : List ValueType → List (Option ValueType) → Bool
  | [], _ => true
  | _ :: _, [] => false
  | slot :: slots, operand :: operands => operand == some slot && acceptsSlots slots operands

/-- Whether the overload takes operands of these types, `none` being an untyped operand. -/
def accepts (s : Signature) (operands : List (Option ValueType)) : Bool :=
  acceptsSlots s.arguments operands

/-- Whether every slot may still take its operand, and none is left over. -/
def compatibleSlots : List ValueType → List (Option ValueType) → Bool
  | [], [] => true
  | slot :: slots, operand :: operands =>
    (operand == none || operand == some slot) && compatibleSlots slots operands
  | _, _ => false

/-- Whether the known types leave room for the overload. -/
def compatible (s : Signature) (operands : List (Option ValueType)) : Bool :=
  compatibleSlots s.arguments operands

/-- The overload as written: `(string, integer) -> string`. -/
def text (s : Signature) : String :=
  "(" ++ ", ".intercalate (s.arguments.map ValueType.name) ++ ") -> " ++ s.returns.name

theorem acceptsSlots_iff (slots : List ValueType) (operands : List (Option ValueType)) :
    acceptsSlots slots operands = true ↔ slots.map some <+: operands := by
  induction slots generalizing operands with
  | nil => simp [acceptsSlots]
  | cons slot slots ih =>
    cases operands with
    | nil => simp [acceptsSlots]
    | cons operand operands =>
      rw [acceptsSlots, Bool.and_eq_true, ih, List.map_cons, List.cons_prefix_cons, beq_iff_eq,
        eq_comm (a := operand)]

/-- The slots are, as known types, the first operands. -/
theorem accepts_iff (s : Signature) (operands : List (Option ValueType)) :
    s.accepts operands = true ↔ s.arguments.map some <+: operands :=
  acceptsSlots_iff s.arguments operands

theorem compatibleSlots_iff (slots : List ValueType) (operands : List (Option ValueType)) :
    compatibleSlots slots operands = true ↔
      slots.length = operands.length ∧ ∀ p ∈ slots.zip operands, p.2 = none ∨ p.2 = some p.1 := by
  induction slots generalizing operands with
  | nil => cases operands <;> simp [compatibleSlots]
  | cons slot slots ih =>
    cases operands with
    | nil => simp [compatibleSlots]
    | cons operand operands =>
      simp only [compatibleSlots, Bool.and_eq_true, Bool.or_eq_true, beq_iff_eq, ih,
        List.length_cons, Nat.add_right_cancel_iff, List.zip_cons_cons, List.forall_mem_cons]
      constructor
      · rintro ⟨h, hl, hs⟩
        exact ⟨hl, h, hs⟩
      · rintro ⟨hl, h, hs⟩
        exact ⟨h, hl, hs⟩

/-- As many operands as slots, and every known type is that of its slot. -/
theorem compatible_iff (s : Signature) (operands : List (Option ValueType)) :
    s.compatible operands = true ↔
      s.arguments.length = operands.length ∧
        ∀ p ∈ s.arguments.zip operands, p.2 = none ∨ p.2 = some p.1 :=
  compatibleSlots_iff s.arguments operands

end Signature

end RequestCompiler
