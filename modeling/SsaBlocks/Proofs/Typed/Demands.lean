import SsaBlocks.Machine
import SsaBlocks.Proofs.Typed.Scoped

/-!
# What typed trees demand

A tree can be run if its variables are in scope, the functions that it calls are there and take as
many arguments as they are given, and the machine knows its operations. A call one of whose
arguments is not compiled is not compiled either, so that it demands nothing of its function.
-/

namespace SsaBlocks

/-- The machine knows the operation on two words. -/
def Opcode.isComputed : Opcode → Bool
  | .add | .sub | .mul | .div | .mod | .and | .or | .logicalAnd | .logicalOr | .gt | .gte | .eq
  | .neq | .lte | .lt => true
  | _ => false

/-- An operation that the machine knows fails only for a division by zero. -/
theorem Opcode.evalBinary_of_isComputed {op : Opcode} (h : op.isComputed) (l r : Int64) :
    op.evalBinary l r = .error .divisionByZero ∨ ∃ w, op.evalBinary l r = .ok w := by
  cases op with
  | div | mod =>
    simp only [evalBinary]
    split
    · exact .inl rfl
    · exact .inr ⟨_, rfl⟩
  | add | sub | mul | and | or | logicalAnd | logicalOr | gt | gte | eq | neq | lte | lt =>
    exact .inr ⟨_, rfl⟩
  | _ => cases h

namespace Typed

/-- What a tree relies on. -/
inductive Demand
  | var (id : VarId)
  /-- A function that takes a number of arguments. -/
  | func (name : String) (args : Nat)
  /-- An operation that the machine does not know. -/
  | op (op : Opcode)

/-- The expression is not compiled. -/
def Expr.isRefused : Expr → Bool
  | .unsupported .. => true
  | _ => false

mutual

/-- What an expression relies on. -/
def Expr.demands : Expr → List Demand
  | .const .. => []
  | .var _ _ id => [.var id]
  | .unary _ _ operand => operand.demands
  | .binary op left right =>
    (if op.isComputed then [] else [.op op]) ++ (left.demands ++ right.demands)
  | .logical _ left right => left.demands ++ right.demands
  | .convert _ _ operand => operand.demands
  | .call callee args =>
    (if args.any Expr.isRefused then [] else [.func callee args.length]) ++ Expr.demandsOf args
  | .unsupported .. => []

/-- What a list of expressions relies on. -/
def Expr.demandsOf : List Expr → List Demand
  | [] => []
  | e :: rest => e.demands ++ Expr.demandsOf rest

end

theorem Expr.mem_demandsOf {d : Demand} {es : List Expr} :
    d ∈ Expr.demandsOf es ↔ ∃ e ∈ es, d ∈ e.demands := by
  induction es with
  | nil => simp [Expr.demandsOf]
  | cons e es ih => simp [Expr.demandsOf, ih]

mutual

theorem Expr.mem_uses_iff {id : VarId} (e : Expr) : id ∈ e.uses ↔ .var id ∈ e.demands := by
  cases e with
  | const | var | unsupported => simp [Expr.uses, Expr.demands]
  | unary pos op operand =>
    rw [Expr.uses, Expr.demands]
    exact operand.mem_uses_iff
  | binary op left right =>
    have hop : Demand.var id ∉ (if op.isComputed then [] else [.op op] : List Demand) := by
      split <;> simp
    simp [Expr.uses, Expr.demands, left.mem_uses_iff, right.mem_uses_iff, hop]
  | logical op left right =>
    simp [Expr.uses, Expr.demands, left.mem_uses_iff, right.mem_uses_iff]
  | convert pos type operand =>
    rw [Expr.uses, Expr.demands]
    exact operand.mem_uses_iff
  | call callee args =>
    simp [Expr.uses, Expr.demands, Expr.mem_usesOf_iff args]

theorem Expr.mem_usesOf_iff {id : VarId} (es : List Expr) :
    id ∈ Expr.usesOf es ↔ .var id ∈ Expr.demandsOf es := by
  cases es with
  | nil => simp [Expr.usesOf, Expr.demandsOf]
  | cons e rest =>
    simp [Expr.usesOf, Expr.demandsOf, e.mem_uses_iff, Expr.mem_usesOf_iff rest]

end

mutual

/-- What a statement relies on. -/
def Stmt.demands : Stmt → List Demand
  | .empty => []
  | .block body => Stmt.demandsOf body
  | .call callee args => (Expr.call callee args).demands
  | .vars specs => specs.flatMap fun spec => Expr.demandsOf (spec.values.getD [])
  | .assign _ values => Expr.demandsOf values
  | .update _ current op operand => (Expr.binary op current operand).demands
  | .ret value => Expr.demandsOf value.toList
  | .ifThen init cond body otherwise =>
    init.demands ++ (cond.demands ++ (Stmt.demandsOf body ++ otherwise.demands))
  | .loop init cond post body =>
    init.demands ++ (Expr.demandsOf cond.toList ++ (Stmt.postDemands post ++ Stmt.demandsOf body))
  | .leave _ => []
  | .again _ => []
  | .unsupported .. => []

/-- What a post statement relies on, if there is one. -/
def Stmt.postDemands : Option Stmt → List Demand
  | none => []
  | some post => post.demands

/-- What a list of statements relies on. -/
def Stmt.demandsOf : List Stmt → List Demand
  | [] => []
  | s :: rest => s.demands ++ Stmt.demandsOf rest

end

end Typed

end SsaBlocks
