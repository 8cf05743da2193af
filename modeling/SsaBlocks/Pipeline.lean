import SsaBlocks.Dominance.Dominators
import SsaBlocks.Dominance.Frontier
import SsaBlocks.Numbering
import SsaBlocks.Phi.Edges
import SsaBlocks.Simplify.Blocks
import SsaBlocks.Simplify.Loads

/-!
# The stages of SSA construction

A function goes through nine stages, each of which has to follow the one before it. `finish` runs
all of them; in a function without a result it first closes the last block with a return. A stage
asked for out of turn is refused and changes nothing. A stage that fails leaves the function marked
with the stage it was to reach; changes that it makes before it fails are not part of the model, so
the function is otherwise left as it was before the stage.
-/

namespace SsaBlocks

namespace Stage

/-- The stage that a function has to be at before it can reach a stage. -/
def previous : Stage → Stage
  | lowering => lowering
  | blocksRemoved => lowering
  | loadsRemoved => blocksRemoved
  | blocksNumbered => loadsRemoved
  | dominance => blocksNumbered
  | frontier => dominance
  | phisPlaced => frontier
  | phisResolved => phisPlaced
  | phisComputed => phisResolved
  | numbered => phisComputed

def all : List Stage :=
  [blocksRemoved, loadsRemoved, blocksNumbered, dominance, frontier, phisPlaced, phisResolved,
   phisComputed, numbered]

def work : Stage → Func → Except Fault Func
  | lowering, fn => .ok fn
  | blocksRemoved, fn => fn.removeRedundantBlocks
  | loadsRemoved, fn => .ok fn.removeRedundantLoads
  | blocksNumbered, fn => .ok fn.numberBlocks
  | dominance, fn => fn.computeDominance
  | frontier, fn => fn.computeFrontiers
  | phisPlaced, fn => fn.placePhis
  | phisResolved, fn => fn.resolveReads
  | phisComputed, fn => fn.computePhis
  | numbered, fn => .ok fn.numberAll

end Stage

namespace Build

def advance (stage : Stage) : Build Unit := do
  let fn ← get
  if fn.stage ≠ stage.previous then throw (.wrongStage fn.name fn.stage stage.previous)
  match stage.work { fn with stage } with
  | .ok done => set done
  | .error fault =>
    set { fn with stage }
    throw fault

/-- Ends the last block of a function with a return, unless it has been ended. -/
def closeVoid : Build Unit := do
  let fn ← get
  let last := fn.canonicalOrder.getLastD fn.entry
  if !(fn.block last).isTerminated then ret last none

def finish : Build Unit := do
  if (← get).resultType = .void then closeVoid
  Stage.all.forM advance

end Build

namespace Func

/-- The function taken through all stages, or the fault that stopped it. -/
def finish (fn : Func) : Except Fault Func :=
  match Build.finish fn with
  | (.ok (), done) => .ok done
  | (.error fault, _) => .error fault

/-- Whether a query about a finished function is in order. -/
def requireNumbered (fn : Func) (what : String) : Except Fault Unit :=
  if fn.isFinished then .ok () else .error (.notNumbered what fn.name)

end Func

end SsaBlocks
