/-!
# Stacks

A stack with its top at the end, so that pushing several elements leaves the last one on top.
-/

namespace SsaBlocks

/-- The elements of a stack, from the bottom to the top. -/
structure Stack (α : Type) where
  items : List α := []
deriving DecidableEq, Repr, Inhabited

/-- Why an operation on a stack was refused. -/
inductive StackError where
  | emptyPop
  | emptyTop
deriving DecidableEq, Repr

def StackError.message : StackError → String
  | emptyPop => "popping from empty stack"
  | emptyTop => "top from empty stack"

namespace Stack

variable {α : Type}

def size (s : Stack α) : Nat :=
  s.items.length

def isEmpty (s : Stack α) : Bool :=
  s.items.isEmpty

/-- Adds elements, the last of which becomes the top. -/
def push (s : Stack α) (elements : List α) : Stack α :=
  ⟨s.items ++ elements⟩

def pop (s : Stack α) : Except StackError (α × Stack α) :=
  match s.items.getLast? with
  | some a => .ok (a, ⟨s.items.dropLast⟩)
  | none => .error .emptyPop

def top (s : Stack α) : Except StackError α :=
  match s.items.getLast? with
  | some a => .ok a
  | none => .error .emptyTop

end Stack

end SsaBlocks
