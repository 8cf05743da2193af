import SsaBlocks.Typed.Tree

/-!
# Terminating statements of a tree

A statement is terminating if nothing is reached after it. As in the syntax, this is read off the
tree, where every break counts, be it reachable or not.
-/

namespace SsaBlocks

namespace Typed.Stmt

mutual

/-- Whether a statement contains a break out of the surrounding loop. -/
def hasBreak : Stmt → Bool
  | .leave _ => true
  | .block body => anyBreak body
  | .ifThen init _ body otherwise => init.hasBreak || anyBreak body || otherwise.hasBreak
  | .loop init _ _ _ => init.hasBreak
  | _ => false

/-- Whether one of some statements contains a break. -/
def anyBreak : List Stmt → Bool
  | [] => false
  | s :: rest => s.hasBreak || anyBreak rest

end

/-- Whether a statement is empty. -/
def isEmpty : Stmt → Bool
  | .empty => true
  | _ => false

mutual

/-- Whether a statement is terminating. What is not compiled has no code after it; the jumps, panics
and choices that are terminating are among this. -/
def isTerminating : Stmt → Bool
  | .ret _ | .unsupported _ _ => true
  | .block body => endsTerminating body
  | .ifThen _ _ body otherwise => endsTerminating body && otherwise.isTerminating
  | .loop _ cond _ body => cond.isNone && !anyBreak body
  | _ => false

/-- Whether the last of some statements, empty ones left out, is terminating. -/
def endsTerminating : List Stmt → Bool
  | [] => false
  | s :: rest => if rest.all isEmpty then s.isTerminating else endsTerminating rest

end

/-- A list that ends in a terminating statement is not made of empty ones. -/
theorem all_isEmpty_of_endsTerminating {l : List Stmt} (h : endsTerminating l) :
    l.all isEmpty = false := by
  induction l with
  | nil => simp [endsTerminating] at h
  | cons s rest ih =>
    rw [endsTerminating] at h
    cases s <;> cases hrest : rest.all isEmpty <;> simp_all [isEmpty, isTerminating]

end Typed.Stmt

end SsaBlocks
