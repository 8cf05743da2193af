import SsaBlocks.Func.Order
import SsaBlocks.Graph.Text

/-!
# Removing blocks that do nothing

A block is *removable* if it is not an entry, has no instructions but comments, and no variable is
read or written in it. It must have exactly one child, which is another block: its parents are
linked to that child in its place, jumps to it are sent there, and its comments are put in front of
the child's code.
-/

namespace SsaBlocks

namespace Func

def isRemovable (fn : Func) (b : BlockId) : Bool :=
  let blk := fn.block b
  blk.home ≠ b && blk.code.all (fun i => !i.isCode) && blk.written.isEmpty && blk.awaited.isEmpty

/-- Puts `child` in the place of `b` among the children of `parent`; if it is one of them already,
`b` is only taken out. -/
def bypassParent (b child : BlockId) (fn : Func) (parent : BlockId) : Except Fault Func :=
  let children := (fn.block parent).children
  match children.idxOf? b with
  | none => .error .outOfRange
  | some i =>
    .ok (fn.modify parent fun blk =>
      { blk with
        children := if child ∈ children then children.eraseIdx i else children.set i child })

/-- The parents of the child of a removed block: those of the block come last. -/
def inheritParents (b : BlockId) (parents own : List BlockId) : List BlockId :=
  parents.foldl (fun own p => own.filter (· ≠ p) ++ [p]) (own.filter (· ≠ b))

/-- Takes a block with one child out of the graph; `blocks` are those whose jumps are redirected. -/
def bypass (fn : Func) (blocks : List BlockId) (b child : BlockId) : Except Fault Func := do
  let blk := fn.block b
  let fn := blocks.foldl (fun fn other => fn.modify other fun o =>
    { o with code := o.code.map (Instruction.retarget b child) }) fn
  let fn ← blk.parents.foldlM (bypassParent b child) fn
  let code := (fn.block b).code
  let fn := fn.modify child fun c =>
    { c with parents := inheritParents b blk.parents c.parents, code := code ++ c.code }
  return fn.modify b fun o => { o with parents := [], children := [], code := [] }

def removeIfRedundant (blocks : List BlockId) (fn : Func) (b : BlockId) : Except Fault Func :=
  if fn.isRemovable b then
    match (fn.block b).children with
    | [child] =>
      if child = b then .error (.removableOwnChild (fn.blockText b))
      else fn.bypass blocks b child
    | children => .error (.removableChildren (fn.blockText b) children.length)
  else .ok fn

def removeRedundantBlocks (fn : Func) : Except Fault Func :=
  let blocks := fn.canonicalOrder
  blocks.foldlM (removeIfRedundant blocks) fn

end Func

end SsaBlocks
