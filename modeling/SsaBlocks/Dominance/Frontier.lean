import SsaBlocks.Func.Basic

/-!
# Dominance frontiers

The frontier of a block holds the blocks where its dominance ends: those with a parent that it
dominates and which it does not strictly dominate itself. It is filled from the blocks with several
parents: from each parent a runner goes up the immediate dominators until it meets that of the
block, and the block is in the frontier of every block on its way.
-/

namespace SsaBlocks

namespace Func

/-- Sends a runner up from a block, adding `target` to the frontiers on its way. -/
def runFrontier (target : BlockId) : Nat → Func → Option BlockId → Except Fault Func
  | 0, _, _ => .error .unending
  | _ + 1, fn, none => .ok fn
  | steps + 1, fn, some runner =>
    if (fn.block target).idom = some runner then .ok fn
    else
      match (fn.block runner).frontier with
      | none => .error .noFrontier
      | some set =>
        runFrontier target steps
          (fn.modify runner fun blk => { blk with frontier := some (set.insert target) })
          (fn.block runner).idom

/-- Adds a block with several parents to the frontiers that it belongs to. -/
def joinFrontiers (fn : Func) (b : BlockId) : Except Fault Func :=
  let parents := (fn.block b).parents
  if parents.length < 2 then .ok fn
  else parents.foldlM (fun fn p => runFrontier b (fn.blocks.size + 2) fn (some p)) fn

def computeFrontiers (fn : Func) : Except Fault Func :=
  let cleared := fn.order.foldl (fun fn b => fn.modify b fun blk =>
    { blk with frontier := some .empty }) fn
  fn.order.foldlM joinFrontiers cleared

end Func

end SsaBlocks
