import SsaBlocks.Proofs.Check.Basic
import SsaBlocks.Proofs.Typed.Terminating

/-!
# Terminating statements and their trees

Whether a statement is terminating is read off the syntax, given which calls never return. The tree
tells the same by itself: a call that never returns is not compiled, and the breaks of the tree are
breaks of the statement.
-/

namespace SsaBlocks.Check.State

open SsaBlocks.Source (Pos)
open SsaBlocks.Typed (Expr)

variable {s s' : State}

/-- The tree tells of the statement whether it is empty and, from the state on, whether it is
terminating. It has breaks only if the statement has some. -/
structure Mirrors (s : State) (st : Source.Stmt) (tree : Typed.Stmt) : Prop where
  empty : isEmptyStmt st → tree.isEmpty
  breaks : tree.hasBreak → hasBreak "" true st
  ends : ∀ s', s.Extends s' → isTerminating s'.neverReturns "" st → tree.isTerminating

/-- The trees tell this of some statements in turn. -/
structure MirrorsAll (s : State) (body : List Source.Stmt) (trees : List Typed.Stmt) : Prop where
  empty : body.all isEmptyStmt → trees.all Typed.Stmt.isEmpty
  breaks : Typed.Stmt.anyBreak trees → anyBreak "" true body
  ends : ∀ s', s.Extends s' → endsTerminating s'.neverReturns body →
    Typed.Stmt.endsTerminating trees

/-- The tree tells this of a statement that may be left out. -/
def MirrorsOption (s : State) (tree : Typed.Stmt) : Option Source.Stmt → Prop
  | none => tree = .empty
  | some st => s.Mirrors st tree

section

variable {st : Source.Stmt} {tree : Typed.Stmt} {body : List Source.Stmt} {trees : List Typed.Stmt}

theorem Mirrors.mono (h : s.Mirrors st tree) (hs : s.Extends s') : s'.Mirrors st tree :=
  ⟨h.empty, h.breaks, fun s'' hs' => h.ends s'' (hs.trans hs')⟩

/-! ## Simple statements -/

/-- A statement whose tree is terminating and has no breaks. -/
theorem Mirrors.of_isTerminating (hst : isEmptyStmt st = false) (htree : tree.hasBreak = false)
    (hends : tree.isTerminating) : s.Mirrors st tree :=
  ⟨by simp [hst], by simp [htree], fun _ _ _ => hends⟩

/-- What is not compiled counts as terminating. -/
theorem Mirrors.of_refused (hst : isEmptyStmt st = false) (pos : Pos) (what : String) :
    s.Mirrors st (.unsupported pos what) :=
  of_isTerminating hst (by simp [Typed.Stmt.hasBreak]) rfl

/-- A statement that is not terminating, whose tree has no breaks. -/
theorem Mirrors.of_plain (hst : isEmptyStmt st = false)
    (hends : ∀ neverReturns, isTerminating neverReturns "" st = false)
    (htree : tree.hasBreak = false) : s.Mirrors st tree :=
  ⟨by simp [hst], by simp [htree], by simp [hends]⟩

theorem Mirrors.leave (pos pos' : Pos) : s.Mirrors (.branch pos "break" none) (.leave pos') :=
  ⟨by simp [isEmptyStmt], by simp [hasBreak], by simp [isTerminating]⟩

theorem Mirrors.again (pos pos' : Pos) : s.Mirrors (.branch pos "continue" none) (.again pos') :=
  of_plain rfl (by simp [isTerminating]) (by simp [Typed.Stmt.hasBreak])

/-- A call that is compiled is none that never returns. -/
theorem Mirrors.call {e callee : Source.Expr} {args : List Source.Expr} {spread : Bool}
    {name : String} {values : List Expr} (he : e.unparen = .call callee args spread)
    (hcompiled : callee.pos ∈ s.compiled) : s.Mirrors (.expr e) (.call name values) := by
  refine ⟨by simp [isEmptyStmt], by simp [Typed.Stmt.hasBreak], fun s' hs hends => ?_⟩
  have hmem : callee.pos ∈ s'.compiled := hs.compiled hcompiled
  simp [isTerminating, he, neverReturns, hmem] at hends

/-! ## Statements in turn -/

theorem MirrorsAll.nil : s.MirrorsAll [] [] :=
  ⟨fun _ => rfl, by simp [Typed.Stmt.anyBreak], by simp [endsTerminating]⟩

theorem MirrorsAll.cons (hst : s.Mirrors st tree) (hrest : s.MirrorsAll body trees) :
    s.MirrorsAll (st :: body) (tree :: trees) where
  empty h := by
    rw [List.all_cons, Bool.and_eq_true] at h ⊢
    exact ⟨hst.empty h.1, hrest.empty h.2⟩
  breaks h := by
    rw [Typed.Stmt.anyBreak, Bool.or_eq_true] at h
    rw [anyBreak, Bool.or_eq_true]
    exact h.imp hst.breaks hrest.breaks
  ends s' hs h := by
    rw [endsTerminating] at h
    rw [Typed.Stmt.endsTerminating]
    split at h
    · next hempty =>
      rw [if_pos (hrest.empty hempty)]
      exact hst.ends s' hs h
    · -- the statement that decides comes later, and its tree is not empty
      have hends := hrest.ends s' hs h
      rw [Typed.Stmt.all_isEmpty_of_endsTerminating hends]
      exact hends

/-! ## Statements with parts -/

variable {init otherwise : Option Source.Stmt} {initTree otherTree : Typed.Stmt} {pos : Pos}

theorem MirrorsOption.breaks (h : s.MirrorsOption tree init) (htree : tree.hasBreak) :
    optionBreak "" true init := by
  cases init with
  | none =>
    cases h
    simp [Typed.Stmt.hasBreak] at htree
  | some st => exact Mirrors.breaks h htree

theorem MirrorsOption.ends (h : s.MirrorsOption tree otherwise) (hs : s.Extends s')
    (hends : optionTerminating s'.neverReturns otherwise) : tree.isTerminating := by
  cases otherwise with
  | none => simp [optionTerminating] at hends
  | some st => exact Mirrors.ends h s' hs hends

theorem Mirrors.block (h : s.MirrorsAll body trees) : s.Mirrors (.block pos body) (.block trees) where
  empty := by simp [isEmptyStmt]
  breaks := by
    rw [Typed.Stmt.hasBreak, hasBreak]
    exact h.breaks
  ends := by
    simp only [isTerminating, Typed.Stmt.isTerminating]
    exact h.ends

theorem Mirrors.ifThen {s₁ s₂ : State} {cond : Source.Expr} {condTree : Expr}
    (hinit : s₁.MirrorsOption initTree init) (hbody : s₂.MirrorsAll body trees)
    (hs : s₂.Extends s) (hother : s.MirrorsOption otherTree otherwise) :
    s.Mirrors (.ifThen pos init cond body otherwise)
      (.ifThen initTree condTree trees otherTree) where
  empty := by simp [isEmptyStmt]
  breaks h := by
    simp only [Typed.Stmt.hasBreak, Bool.or_eq_true] at h
    simp only [hasBreak, Bool.or_eq_true]
    exact h.imp (Or.imp hinit.breaks hbody.breaks) hother.breaks
  ends s' hs' h := by
    simp only [isTerminating, Bool.and_eq_true] at h
    rw [Typed.Stmt.isTerminating, Bool.and_eq_true]
    exact ⟨hbody.ends s' (hs.trans hs') h.1, hother.ends hs' h.2⟩

/-- The breaks of the body leave the loop. -/
theorem Mirrors.loop {s₁ s₂ : State} {cond : Option Source.Expr} {condTree : Option Expr}
    {post : Option Source.Stmt} {postTree : Option Typed.Stmt}
    (hinit : s₁.MirrorsOption initTree init) (hcond : condTree.isNone = cond.isNone)
    (hbody : s₂.MirrorsAll body trees) :
    s.Mirrors (.loop pos init cond post body) (.loop initTree condTree postTree trees) where
  empty := by simp [isEmptyStmt]
  breaks h := by
    rw [Typed.Stmt.hasBreak] at h
    rw [hasBreak, Bool.or_eq_true]
    exact .inl (hinit.breaks h)
  ends s' _ h := by
    simp only [isTerminating, Bool.and_eq_true, Bool.not_eq_true'] at h
    rw [Typed.Stmt.isTerminating, Bool.and_eq_true, hcond, Bool.not_eq_true']
    refine ⟨h.1, ?_⟩
    -- a break in the tree would be one in the body
    by_contra hbreak
    rw [hbody.breaks (by simpa using hbreak)] at h
    exact absurd h.2 (by simp)

end

end SsaBlocks.Check.State
