import SsaBlocks.Func.Substitution
import SsaBlocks.Graph.Text

/-!
# Resolving the reads of variables

Once the phi nodes have been placed, every placeholder that is left stands for the value with which
its variable reaches the block. The search goes up the chain of single parents first; what is left
is looked for breadth first among all ancestors. A block that is resolved early may copy the
placeholder of another one; a last substitution sends these to the ends of their chains.
-/

namespace SsaBlocks

namespace Func

/-- Searches breadth first from the blocks of a queue for the nearest written value of a variable,
passing over the blocks seen before. -/
def searchWritten (fn : Func) (v : Variable) :
    Nat → List BlockId → List BlockId → Option Temp
  | 0, _, _ => none
  | _ + 1, _, [] => none
  | steps + 1, seen, b :: queue =>
    if b ∈ seen then searchWritten fn v steps seen queue
    else
      match (fn.block b).written.get? v with
      | some t => some t
      | none => searchWritten fn v steps (b :: seen) (queue ++ (fn.block b).parents)

/-- The nearest written value of a variable, searched from the given blocks upward. Every block is
expanded at most once, so the queue never holds more than all edges and the start. -/
def nearestWritten? (fn : Func) (v : Variable) (start : List BlockId) : Option Temp :=
  fn.searchWritten v (start.length + fn.parentCount + 1) [] start

/-- The placeholders that are left and the values found for the others. -/
structure Resolving where
  awaited : Table Variable Temp
  found : Substitution

namespace Resolving

def resolve (s : Resolving) (v : Variable) (actual : Temp) : Resolving :=
  match s.awaited.get? v with
  | some t => { awaited := s.awaited.erase v, found := s.found.insert t actual }
  | none => s

/-- Takes the values that a block has for the variables that are awaited. -/
def takeFrom (s : Resolving) (blk : Block) : Resolving :=
  s.awaited.keys.foldl (fun s v =>
    match blk.written.get? v with
    | some t => s.resolve v t
    | none => s) s

end Resolving

/-- Goes up the chain of single parents while something is awaited. -/
def climb (fn : Func) : Nat → BlockId → Resolving → Except Fault Resolving
  | 0, _, _ => .error .unending
  | steps + 1, b, s =>
    if s.awaited.isEmpty then .ok s
    else
      match (fn.block b).parents with
      | [parent] => climb fn steps parent (s.takeFrom (fn.block parent))
      | _ => .ok s

def findReads (fn : Func) (b : BlockId) : Except Fault Substitution := do
  let blk := fn.block b
  let s ← fn.climb (fn.blocks.size + 2) b { awaited := blk.awaited, found := .empty }
  let s ← s.awaited.keys.foldlM (fun s v =>
    match fn.nearestWritten? v blk.parents with
    | some t => .ok (s.resolve v t)
    | none => .error (.unreadable v.text (fn.blockText b))) s
  return s.found

/-- Replaces the placeholders of a block, with the replacements made in the blocks before. -/
def resolveBlock (state : Func × Substitution) (b : BlockId) :
    Except Fault (Func × Substitution) := do
  let (fn, all) := state
  let found ← fn.findReads b
  let fn := fn.modify b fun blk =>
    { (blk.substituteWritten found.apply).substituteCode found.apply with awaited := .empty }
  return (fn, all.merge found)

def resolveReads (fn : Func) : Except Fault Func := do
  let (fn, all) ← fn.order.foldlM resolveBlock (fn, .empty)
  return fn.substitute fn.order all

end Func

end SsaBlocks
