import SsaBlocks.Proofs.Check.Basic

/-!
# Steps on operands

Operands are given types, compared and combined. The tree of the result demands nothing that the
trees of the operands do not demand.
-/

set_option mvcgen.warning false

namespace SsaBlocks.Check

open SsaBlocks.Source (Pos Name)
open SsaBlocks.Types
open SsaBlocks.Typed (Expr)
open Std.Do

variable {s₀ : State}

attribute [local grind =] Expr.demands Expr.demandsOf
attribute [local grind] constantOperand valueOperand typeOperand

/-! ## Types of operands -/

@[spec] theorem convertTo_spec (x : Operand) (target : Ty) :
    Gives s₀ (convertTo x target) fun y s => s = s₀ ∧ y.tree.demands ⊆ x.tree.demands := by
  mvcgen [convertTo] with grind

@[spec] theorem singleValue_spec (x : Operand) : Gives s₀ (singleValue x) fun _ s => s = s₀ := by
  mvcgen [singleValue] with grind

@[spec] theorem assignTo_spec (x : Operand) (target : Option Ty) :
    Gives s₀ (assignTo x target) fun y s => s = s₀ ∧ y.tree.demands ⊆ x.tree.demands := by
  mvcgen [assignTo] with grind

@[spec] theorem matchTypes_spec (x y : Operand) : Gives s₀ (matchTypes x y) fun p s =>
      s = s₀ ∧ p.1.tree.demands ⊆ x.tree.demands ∧ p.2.tree.demands ⊆ y.tree.demands := by
  mvcgen [matchTypes] with grind

/-! ## Generic functions -/

@[spec] theorem freshParams_spec (params : List Nat) :
    Gives s₀ (freshParams params) fun _ s => s₀.Extends s := by
  mvcgen [freshParams] with grind

@[spec] theorem inferArguments_spec (params : List Nat) (given : List (Option Ty))
    (pairs : List (Ty × Ty)) (untyped : List (Nat × Basic)) :
    Gives s₀ (inferArguments params given pairs untyped) fun _ s => s = s₀ := by
  mvcgen [inferArguments] with grind

@[spec] theorem instanceOf_spec (x : Operand) (args : List Ty) :
    Gives s₀ (instanceOf x args) fun y s => s₀.Extends s ∧ y.tree = x.tree ∧ y.mode = x.mode := by
  mvcgen [instanceOf] with grind

@[spec] theorem instantiateFunction_spec (target : Option Ty) (x : Operand) :
    Gives s₀ (instantiateFunction target x) fun y s =>
      s₀.Extends s ∧ y.tree = x.tree ∧ y.mode = x.mode ∧ (x.typeParams = [] → y.type = x.type) := by
  mvcgen [instantiateFunction] with grind [Operand.typeParams]

@[spec] theorem requireInstance_spec (t : Ty) : Gives s₀ (requireInstance t) fun _ s => s = s₀ := by
  mvcgen [requireInstance] with grind

@[spec] theorem notGeneric_spec (target : Option Ty) (x : Operand) :
    Gives s₀ (notGeneric target x) fun y s =>
      s₀.Extends s ∧ y.tree = x.tree ∧ y.mode = x.mode ∧ (x.typeParams = [] → y.type = x.type) := by
  mvcgen [notGeneric] with grind

/-! ## Operators -/

@[spec] theorem constantResult_spec (pos : Pos) (t : Ty) (c : Constant) :
    Gives s₀ (constantResult pos t c) fun y s => s = s₀ ∧ y.tree.demands = [] := by
  mvcgen [constantResult] with grind

@[spec] theorem unary_spec (pos : Pos) (op : String) (x : Operand) :
    Gives s₀ (unary pos op x) fun y s => s = s₀ ∧ y.tree.demands ⊆ x.tree.demands := by
  mvcgen [unary] with grind

/-- The machine knows the operations of the source. -/
theorem isComputed_of_opcode? {op : String} {o : Opcode} (h : opcode? op = some o) :
    o.isComputed := by
  unfold opcode? at h
  split at h
  all_goals cases h
  all_goals rfl

theorem demands_binaryTree (pos : Pos) (op : String) (left right : Expr) :
    (binaryTree pos op left right).demands ⊆ left.demands ++ right.demands := by
  unfold binaryTree
  split
  · simp [Expr.demands]
  · simp [Expr.demands]
  · split
    · next o ho => simp [Expr.demands, isComputed_of_opcode? ho]
    · simp [Expr.demands]

@[spec] theorem comparison_spec (pos : Pos) (op : String) (x y : Operand) :
    Gives s₀ (comparison pos op x y) fun z s =>
      s = s₀ ∧ z.tree.demands ⊆ x.tree.demands ++ y.tree.demands := by
  mvcgen [comparison, convertToDefault] with grind [demands_binaryTree]

@[spec] theorem shift_spec (pos : Pos) (op : String) (x y : Operand) :
    Gives s₀ (shift pos op x y) fun z s => s₀.Extends s ∧ z.tree.demands = [] := by
  mvcgen [shift] with grind

@[spec] theorem binary_spec (pos : Pos) (op : String) (x y : Operand) :
    Gives s₀ (binary pos op x y) fun z s =>
      s₀.Extends s ∧ z.tree.demands ⊆ x.tree.demands ++ y.tree.demands := by
  mvcgen [binary] with grind [demands_binaryTree]

@[spec] theorem convert_spec (pos : Pos) (x : Operand) (t : Ty) {tree : Expr → Expr}
    (htree : ∀ e, (tree e).demands ⊆ e.demands) :
    Gives s₀ (convert pos x t tree) fun y s => s = s₀ ∧ y.tree.demands ⊆ x.tree.demands := by
  mvcgen [convert, convertToDefault] with grind

end SsaBlocks.Check
