import SsaBlocks.Func.Order
import SsaBlocks.Func.Substitution

/-!
# Removing repeated loads

A load of a variable whose value is already in a temporary, because of an earlier load or store in
the same block, is dropped and its result replaced by that temporary. A call may store into any
variable, so nothing is known after it.
-/

namespace SsaBlocks

/-- What is known while a block is scanned: the replacements found so far, the temporary that holds
each variable, and the instructions kept. -/
structure LoadScan where
  replaced : Substitution
  known : Table Variable Temp
  kept : List Instruction

namespace LoadScan

def step (s : LoadScan) (inst : Instruction) : LoadScan :=
  let inst := inst.substitute s.replaced.apply
  match inst with
  | .load dest v =>
    match s.known.get? v with
    | some t => { s with replaced := s.replaced.insert dest t }
    | none => { s with known := s.known.insert v dest, kept := s.kept ++ [inst] }
  | .store v t => { s with known := s.known.insert v t, kept := s.kept ++ [inst] }
  | .call .. => { s with known := .empty, kept := s.kept ++ [inst] }
  | _ => { s with kept := s.kept ++ [inst] }

end LoadScan

namespace Func

/-- Drops the repeated loads of one block, with the replacements found before. -/
def removeLoadsIn (state : Func × Substitution) (b : BlockId) : Func × Substitution :=
  let (fn, replaced) := state
  let scan := (fn.block b).code.foldl LoadScan.step
    { replaced, known := .empty, kept := [] }
  (fn.modify b fun blk => { blk with code := scan.kept }, scan.replaced)

def removeRedundantLoads (fn : Func) : Func :=
  let blocks := fn.canonicalOrder
  let (fn, replaced) := blocks.foldl removeLoadsIn (fn, .empty)
  fn.substitute blocks replaced

end Func

end SsaBlocks
