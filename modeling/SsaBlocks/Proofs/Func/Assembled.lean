import SsaBlocks.Proofs.Func.Built

/-!
# Functions assembled from blocks that exist

A primitive is given blocks by their numbers. What is known of a function whose primitives were
given blocks that exist is that every edge is known at both of its ends, that nothing has been found
out about any block, and that variables that are alive have been written.
-/

namespace SsaBlocks

/-- The blocks that an operation is given. -/
def Primitive.blocks : Primitive → List BlockId
  | newBlock parents => parents
  | addEdge source target => [source, target]
  | jump b target => [b, target]
  | branch b _ otherwise target => [b, otherwise, target]
  | newTemp b | const b _ _ | comment b _ | binary b _ _ _ | unary b _ _ | load b _ | store b _ _
  | call b _ _ _ | ret b _ | declare b _ _ | write b _ _ | read b _ => [b]

namespace Func

variable {fn : Func}

/-- The function has been made and then filled by primitives, each of which was given blocks that
existed at that time. -/
inductive Assembled : Func → Prop
  | make (name : String) (params : List Variable) (type : ValueType) :
    Assembled (Func.make name params type)
  | step {fn : Func} (h : Assembled fn) (p : Primitive) (hp : ∀ b ∈ p.blocks, b < fn.blocks.size) :
    Assembled (p.apply fn)

/-- Whether every operation of a list is given blocks that exist by then. -/
def allFit (fn : Func) : List Primitive → Bool
  | [] => true
  | p :: rest => p.blocks.all (· < fn.blocks.size) && allFit (p.apply fn) rest

theorem Assembled.foldl (h : fn.Assembled) {steps : List Primitive} (hfit : fn.allFit steps) :
    (steps.foldl Primitive.apply fn).Assembled := by
  induction steps generalizing fn with
  | nil => exact h
  | cons p rest ih =>
    rw [allFit, Bool.and_eq_true, List.all_eq_true] at hfit
    exact ih (h.step p fun b hb => by simpa using hfit.1 b hb) hfit.2

/-- Primitives that are given blocks that exist keep what all primitives keep. -/
theorem Kept.apply (h : fn.Kept) (p : Primitive) (hp : ∀ b ∈ p.blocks, b < fn.blocks.size) :
    (p.apply fn).Kept := by
  refine p.apply_of h (fun parents hnew => ?_) (fun s t hadd => ?_) h.addTemp (fun _ _ => h.append)
    (fun _ _ => h.define) (fun _ _ type w u hcur => hcur.keepConst type w u)
    (fun b v u _ => h.declare b v u) h.write fun _ _ => h.await
  · subst hnew
    exact h.addBlock hp
  · subst hadd
    exact h.addEdge (hp s (by simp [Primitive.blocks])) (hp t (by simp [Primitive.blocks]))

theorem Assembled.kept (h : fn.Assembled) : fn.Kept := by
  induction h with
  | make name params type => exact kept_make name params type
  | step _ p hp ih => exact ih.apply p hp

end Func

end SsaBlocks
