import SsaBlocks.Func.Basic

/-!
# Orders of the blocks

The *canonical order* starts at the entry and lists a block before everything that it owns: each
child that it owns is followed by all that this child owns, before the next child. The *postorder*
follows every edge and lists a block after the children that were first reached from it.

Both walks carry the number of steps that are left. Every block is entered once, so a walk of the
canonical order takes at most one step for each edge and one for the entry, and a walk in postorder
is at most as deep as there are blocks.
-/

namespace SsaBlocks

namespace Func

def ownedChildren (fn : Func) (b : BlockId) : List BlockId :=
  (fn.block b).children.filter fun c => (fn.block c).owner? = some b

/-- Continues the canonical order from the blocks on a stack. -/
def walkOwned (fn : Func) : Nat → List BlockId → List BlockId → List BlockId
  | 0, _, seen => seen
  | _ + 1, [], seen => seen
  | steps + 1, b :: stack, seen =>
    if b ∈ seen then walkOwned fn steps stack seen
    else walkOwned fn steps (fn.ownedChildren b ++ stack) (seen ++ [b])

def canonicalOrder (fn : Func) : List BlockId :=
  fn.walkOwned (fn.edgeCount + 1) [fn.entry] []

/-- Continues a postorder from a block, given the blocks entered and the blocks left so far. -/
def walkChildren (fn : Func) :
    Nat → List BlockId × List BlockId → BlockId → List BlockId × List BlockId
  | 0, walk, _ => walk
  | depth + 1, (entered, left), b =>
    let walk := (fn.block b).children.foldl
      (fun walk c => if c ∈ walk.1 then walk else walkChildren fn depth walk c)
      (b :: entered, left)
    (walk.1, walk.2 ++ [b])

def postorder (fn : Func) : List BlockId :=
  (fn.walkChildren (fn.blocks.size + 1) ([], []) fn.entry).2

/-- The blocks in canonical order: as numbered, or as they would be numbered now. -/
def orderedBlocks (fn : Func) : List BlockId :=
  if fn.stage.number < Stage.blocksNumbered.number then fn.canonicalOrder else fn.order

end Func

end SsaBlocks
