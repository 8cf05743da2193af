import SsaBlocks.Graph.Basic

/-!
# Functions as block graphs

A function is a graph of blocks with an entry, from which its blocks are reached. Every operation on
a function makes a new one. A function that has been made on its own has a graph to itself: the
first block is its entry and the first temporaries are its parameters.
-/

namespace SsaBlocks

/-- A function: its signature, its part of a graph and how far SSA construction has come. -/
structure Func extends Graph where
  name : String
  params : List Variable
  resultType : ValueType
  entry : BlockId := 0
  paramTemps : List Temp := []
  stage : Stage := .lowering
  /-- The blocks in canonical order, once they have been numbered. -/
  order : List BlockId := []
  /-- The parameters followed by the locals, once they have been numbered. -/
  vars : List Variable := []
  temporaryCount : Nat := 0
  instructionCount : Nat := 0
deriving DecidableEq, Repr, Inhabited

namespace Func

def modify (fn : Func) (b : BlockId) (f : Block → Block) : Func :=
  { fn with blocks := fn.blocks.modify b f }

def isFinished (fn : Func) : Bool :=
  fn.stage = .numbered

@[simp] theorem block_modify (fn : Func) (b c : BlockId) (f : Block → Block)
    (h : b < fn.blocks.size) :
    (fn.modify b f).block c = if b = c then f (fn.block c) else fn.block c := by
  by_cases hc : c < fn.blocks.size
  · by_cases hbc : b = c
    · subst hbc; simp [modify, Graph.block, Array.getD, Array.getElem_modify, h]
    · simp [modify, Graph.block, Array.getD, Array.getElem_modify, hc, hbc]
  · have hbc : b ≠ c := fun e => hc (e ▸ h)
    simp [modify, Graph.block, Array.getD, hc, hbc]

@[simp] theorem size_modify (fn : Func) (b : BlockId) (f : Block → Block) :
    (fn.modify b f).blocks.size = fn.blocks.size := by
  simp [modify]

end Func

end SsaBlocks
