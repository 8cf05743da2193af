import SsaBlocks.Phi.Placement
import SsaBlocks.Phi.Reads

/-!
# The edges of phi nodes

A phi node that was asked for is kept if its variable is alive in the block and in all of its
parents and the block has at least two different parents. It has one edge for each of them, in
increasing order of index, which carries the nearest value of the variable found from that parent
upward. With one parent the phi node is dropped and its result stands for the value from there.
-/

namespace SsaBlocks

/-- What becomes of a phi node that was asked for. -/
inductive PhiFate where
  | kept (node : Phi)
  | renamed (dest value : Temp)
  | dropped
deriving DecidableEq, Repr

namespace Func

def valueFrom (fn : Func) (v : Variable) (parent : BlockId) : Except Fault Temp :=
  match fn.nearestWritten? v [parent] with
  | some t => .ok t
  | none => .error (.unreached v.text (fn.blockText parent))

/-- The parents without repetitions, in increasing order of index. -/
def edgeSources (fn : Func) (b : BlockId) : Except Fault (List BlockId) :=
  let sources := (fn.block b).parents.eraseDups
  match sources.find? fun p => (fn.block p).index.isNone with
  | some p => .error (.blockNotNumbered (fn.blockNumber p))
  | none => .ok (sortByKey fn.blockIndex sources)

/-- Whether a variable is alive in a block and in all of its parents. -/
def inScope (fn : Func) (v : Variable) (b : BlockId) : Bool :=
  let blk := fn.block b
  blk.alive.contains v && blk.parents.all fun p => (fn.block p).alive.contains v

/-- Decides what becomes of the phi node for a variable in a block. -/
def phiFate (fn : Func) (b : BlockId) (v : Variable) (dest : Temp) : Except Fault PhiFate := do
  if !fn.inScope v b then return .dropped
  let values ← (fn.block b).parents.eraseDups.mapM fun p => do
    return (p, ← fn.valueFrom v p)
  match values with
  | [] => return .dropped
  | [(_, value)] => return if value = dest then .dropped else .renamed dest value
  | _ =>
    let sources ← fn.edgeSources b
    return .kept { dest, var := v, edges := sources.map fun p => (p, (values.lookup p).getD 0) }

/-- Decides the phi nodes of a block, with the results dropped in the blocks before. -/
def computePhisIn (state : Func × Substitution) (b : BlockId) :
    Except Fault (Func × Substitution) := do
  let (fn, dropped) := state
  let (phis, dropped) ← (fn.block b).pending.entries.foldlM (fun (phis, dropped) e => do
    match ← fn.phiFate b e.1 e.2 with
    | .kept node => return (phis ++ [node], dropped)
    | .renamed dest value => return (phis, dropped.insert dest value)
    | .dropped => return (phis, dropped)) ([], dropped)
  return (fn.modify b fun blk => { blk with phis }, dropped)

def computePhis (fn : Func) : Except Fault Func := do
  let (fn, dropped) ← fn.order.foldlM computePhisIn (fn, .empty)
  return fn.substitute fn.order dropped

end Func

end SsaBlocks
