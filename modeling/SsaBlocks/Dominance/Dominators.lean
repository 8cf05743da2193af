import SsaBlocks.Func.Order

/-!
# Dominators

A block dominates another if every path from the entry to the other passes through it. The sets of
dominators are the largest solution of

  `dom entry = [entry]`,  `dom n = n` together with what all parents' sets have in common,

which is reached from above by passing over the blocks in reverse postorder until nothing changes.
A parent that the entry does not reach is passed over unless it has a set from elsewhere. A block
enters or leaves a set at most once, so the number of passes is bounded by that of the blocks and
their possible dominators.

The *immediate dominator* of a block is its strict dominator that all its strict dominators
dominate.
-/

namespace SsaBlocks

namespace Func

/-- What the sets of the parents have in common, with the block itself. -/
def meetParents (fn : Func) (b : BlockId) : KeySet BlockId :=
  let sets := (fn.block b).parents.filterMap fun p => (fn.block p).dominators
  match sets with
  | [] => KeySet.empty.insert b
  | s :: rest => (rest.foldl KeySet.inter s).insert b

/-- Recomputes the set of one block and says whether a set has changed so far. -/
def refineBlock (state : Func × Bool) (b : BlockId) : Func × Bool :=
  let (fn, changed) := state
  if b = fn.entry then (fn, changed)
  else
    let set := fn.meetParents b
    if (fn.block b).dominators = some set then (fn, changed)
    else (fn.modify b fun blk => { blk with dominators := some set }, true)

/-- Passes over the blocks, listed in postorder, until nothing changes. -/
def refineDominators (blocks : List BlockId) : Nat → Func → Except Fault Func
  | 0, _ => .error .unending
  | passes + 1, fn =>
    let (fn, changed) := blocks.reverse.foldl refineBlock (fn, false)
    if changed then refineDominators blocks passes fn else .ok fn

/-- The strict dominator of a block that all its strict dominators dominate. There is one at most,
and as it tends to be the youngest, the search starts there. -/
def immediateDominator? (fn : Func) (b : BlockId) : Option BlockId :=
  match (fn.block b).dominators with
  | none => none
  | some dominators =>
    let strict := dominators.erase b
    strict.members.reverse.find? fun c =>
      match (fn.block c).dominators with
      | some set => strict.subset set
      | none => false

/-- Computes the dominators and the immediate dominator of every block that the entry reaches. -/
def computeDominance (fn : Func) : Except Fault Func := do
  let blocks := fn.postorder
  let all := KeySet.ofList blocks
  let start := blocks.foldl (fun fn b => fn.modify b fun blk =>
    { blk with
      idom := none
      dominators := some (if b = fn.entry then .ofList [fn.entry] else all) }) fn
  let solved ← refineDominators blocks (blocks.length * fn.blocks.size + 1) start
  return blocks.foldl (fun fn b => fn.modify b fun blk =>
    { blk with idom := solved.immediateDominator? b }) solved

end Func

/-- Whether the first block dominates the second, as far as has been computed. -/
def Graph.dominates (g : Graph) (a b : BlockId) : Bool :=
  match (g.block b).dominators with
  | some set => set.contains a
  | none => false

end SsaBlocks
