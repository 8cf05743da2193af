import Mathlib.Data.List.Basic
import SsaBlocks.Typed.Tree

/-!
# Scopes of typed trees

Lowering keeps one table of variables for a whole function and never takes an entry back. That is
right if a tree uses only numbers in scope and never gives a number in scope to a new variable. The
numbers in scope are a list `Γ`; a statement adds those that it binds, for the statements after it.
Nothing is asked of what follows a statement that is not compiled.
-/

namespace SsaBlocks.Typed

mutual

/-- The numbers that occur in an expression. -/
def Expr.uses : Expr → List VarId
  | .const .. => []
  | .var _ _ id => [id]
  | .unary _ _ operand => operand.uses
  | .binary _ left right => left.uses ++ right.uses
  | .logical _ left right => left.uses ++ right.uses
  | .convert _ _ operand => operand.uses
  | .call _ args => Expr.usesOf args
  | .unsupported .. => []

/-- The numbers that occur in a list of expressions. -/
def Expr.usesOf : List Expr → List VarId
  | [] => []
  | e :: rest => e.uses ++ Expr.usesOf rest

end

theorem Expr.mem_usesOf {id : VarId} {es : List Expr} :
    id ∈ Expr.usesOf es ↔ ∃ e ∈ es, id ∈ e.uses := by
  induction es with
  | nil => simp [Expr.usesOf]
  | cons e es ih => simp [Expr.usesOf, ih]

/-- The numbers of the variables that a target stands for. -/
def Target.uses : Target → List VarId
  | .var _ _ id => [id]
  | _ => []

/-- The numbers that a target brings into scope. -/
def Target.binds : Target → List VarId
  | .declare b => [b.id]
  | _ => []

namespace VarSpec

/-- The numbers that a specification brings into scope. -/
def binds (spec : VarSpec) : List VarId :=
  spec.binders.filterMap fun b => b.map Binder.id

/-- The values are computed before any variable is declared. -/
def Scoped (Γ : List VarId) (spec : VarSpec) : Prop :=
  Expr.usesOf (spec.values.getD []) ⊆ Γ ∧ List.Disjoint spec.binds Γ

/-- Each specification is in the scope of those before it. -/
def AllScoped (Γ : List VarId) : List VarSpec → Prop
  | [] => True
  | spec :: rest => spec.Scoped Γ ∧ AllScoped (spec.binds ++ Γ) rest

/-- Only the numbers in scope matter, not their order. -/
theorem Scoped.congr {Γ Γ' : List VarId} {spec : VarSpec} (h : ∀ id, id ∈ Γ ↔ id ∈ Γ')
    (hspec : spec.Scoped Γ) : spec.Scoped Γ' :=
  ⟨fun id hid => (h id).mp (hspec.1 hid), fun id hid hmem => hspec.2 hid ((h id).mpr hmem)⟩

/-- One more specification is in the scope of all those before it. -/
theorem allScoped_concat {Γ : List VarId} {specs : List VarSpec} {spec : VarSpec}
    (h : AllScoped Γ specs) (hspec : spec.Scoped (specs.flatMap binds ++ Γ)) :
    AllScoped Γ (specs ++ [spec]) := by
  induction specs generalizing Γ with
  | nil => exact ⟨hspec, trivial⟩
  | cons first specs ih =>
    refine ⟨h.1, ih h.2 (hspec.congr fun id => ?_)⟩
    simp only [List.flatMap_cons, List.mem_append, or_assoc, or_left_comm]

end VarSpec

/-- The numbers that a statement brings into scope for those after it. -/
def Stmt.binds : Stmt → List VarId
  | .vars specs => specs.flatMap VarSpec.binds
  | .assign targets _ => targets.flatMap Target.binds
  | .update target .. => target.binds
  | _ => []

/-- The statement is not compiled, so that nothing after it is. -/
def Stmt.isRefused : Stmt → Bool
  | .unsupported .. => true
  | _ => false

mutual

/-- The statement uses numbers in scope, and gives no number in scope to a new variable. -/
def Stmt.Scoped (Γ : List VarId) : Stmt → Prop
  | .empty => True
  | .block body => Stmt.AllScoped Γ body
  | .call _ args => Expr.usesOf args ⊆ Γ
  | .vars specs => VarSpec.AllScoped Γ specs
  | .assign targets values =>
    targets.length = values.length ∧ Expr.usesOf values ⊆ Γ ∧ targets.flatMap Target.uses ⊆ Γ ∧
      List.Disjoint (targets.flatMap Target.binds) Γ
  | .update target current _ operand =>
    current.uses ⊆ Γ ∧ operand.uses ⊆ Γ ∧ target.uses ⊆ Γ ∧ List.Disjoint target.binds Γ
  | .ret value => Expr.usesOf value.toList ⊆ Γ
  | .ifThen init cond body otherwise =>
    init.Scoped Γ ∧ (init.isRefused = false → cond.uses ⊆ init.binds ++ Γ ∧
      Stmt.AllScoped (init.binds ++ Γ) body ∧ otherwise.Scoped (init.binds ++ Γ))
  | .loop init cond post body =>
    init.Scoped Γ ∧ (init.isRefused = false → Expr.usesOf cond.toList ⊆ init.binds ++ Γ ∧
      Stmt.PostScoped (init.binds ++ Γ) post ∧ Stmt.AllScoped (init.binds ++ Γ) body)
  | .leave _ => True
  | .again _ => True
  | .unsupported .. => True

/-- A post statement, if there is one, keeps to its scope. -/
def Stmt.PostScoped (Γ : List VarId) : Option Stmt → Prop
  | none => True
  | some post => post.Scoped Γ

/-- Each statement is in the scope of those before it. -/
def Stmt.AllScoped (Γ : List VarId) : List Stmt → Prop
  | [] => True
  | s :: rest => s.Scoped Γ ∧ (s.isRefused = false → Stmt.AllScoped (s.binds ++ Γ) rest)

end

end SsaBlocks.Typed
