import SsaBlocks.Func.Order

/-!
# Numbering

Blocks are numbered in canonical order. Temporaries are numbered last: the parameters, then block
by block the results of the phi nodes and of the instructions. The variables of a function are its
parameters followed by the variables declared in its blocks.
-/

namespace SsaBlocks

namespace Func

def numberBlocks (fn : Func) : Func :=
  let order := fn.canonicalOrder
  order.zipIdx.foldl (fun fn e => fn.modify e.1 fun blk => { blk with index := some e.2 })
    { fn with order }

/-- The parameters and then the variables declared in the blocks, each once. -/
def declaredVariables (fn : Func) : List Variable :=
  fn.order.foldl (fun vars b => (fn.block b).declared.members.foldl (fun vars v =>
    if v.kind = .param ∨ v ∈ vars then vars else vars ++ [v]) vars) fn.params

def resultsOf (fn : Func) (b : BlockId) : List Temp :=
  (fn.block b).lines.filterMap Line.result?

def definedTemps (fn : Func) : List Temp :=
  fn.paramTemps ++ fn.order.flatMap fn.resultsOf

def numberAll (fn : Func) : Func :=
  let defined := fn.definedTemps
  { fn with
    vars := fn.declaredVariables
    temps := defined.zipIdx.foldl (fun temps e => temps.modify e.1 fun t =>
      { t with index := some e.2 }) fn.temps
    temporaryCount := defined.length
    instructionCount := fn.order.foldl (fun n b => n + (fn.block b).codeCount) 0 }

end Func

end SsaBlocks
