import SsaBlocks.Fault
import SsaBlocks.Instruction

/-!
# Block graphs

The parents of a block are ordered and the last one is its *owner*, the block that it was made from;
later edges are put in front, so that they never become the owner. Beside its instructions a block
keeps what is known of the variables: where they are declared and alive, the temporary that each one
holds when the block is left (`written`), and the placeholder of each one that was read before it
was written (`awaited`).

Blocks and temporaries are numbers, so a graph is a plain value. A graph may be shared by several
functions, whose blocks and temporaries may then refer to one another. Each block and each temporary
has a *home*, the entry of the function that it was made for; within it they are numbered on their
own.
-/

namespace SsaBlocks

/-- A block with what is known about it. -/
structure Block where
  /-- The entry of the function that the block was made for. -/
  home : BlockId := 0
  code : List Instruction := []
  parents : List BlockId := []
  children : List BlockId := []
  /-- The position in the canonical order, once the blocks have been numbered. -/
  index : Option Nat := none
  /-- The variables declared in this block. -/
  declared : KeySet Variable := {}
  /-- The variables declared here or in a block that this one was made from. -/
  alive : KeySet Variable := {}
  /-- The temporary that each variable holds on leaving the block, as far as is known. -/
  written : Table Variable Temp := {}
  /-- The placeholders of the variables that were read before being written. -/
  awaited : Table Variable Temp := {}
  /-- The results of the phi nodes that have been asked for. -/
  pending : Table Variable Temp := {}
  /-- The phi nodes that have been kept. -/
  phis : List Phi := []
  dominators : Option (KeySet BlockId) := none
  idom : Option BlockId := none
  frontier : Option (KeySet BlockId) := none
  constants : List ((ValueType × Int64) × Temp) := []
deriving DecidableEq, Repr, Inhabited

namespace Block

/-- The last parent. -/
def owner? (b : Block) : Option BlockId :=
  b.parents.getLast?

/-- Whether the last instruction that is not a comment ends the block. -/
def isTerminated (b : Block) : Bool :=
  match b.code.reverse.find? Instruction.isCode with
  | some i => i.isTerminator
  | none => false

def lines (b : Block) : List Line :=
  b.phis.map Line.phi ++ b.code.map Line.code

/-- The number of phi nodes and of instructions that are not comments. -/
def codeCount (b : Block) : Nat :=
  b.phis.length + b.code.countP Instruction.isCode

def distinctChildren (b : Block) : List BlockId :=
  b.children.eraseDups

end Block

structure TempInfo where
  /-- The entry of the function that the temporary was made for. -/
  home : BlockId := 0
  /-- Its position among the results of a function, once they have been numbered. -/
  index : Option Nat := none
deriving DecidableEq, Repr, Inhabited

/-- The blocks and the temporaries that functions consist of. -/
structure Graph where
  blocks : Array Block := #[]
  temps : Array TempInfo := #[]
deriving DecidableEq, Repr, Inhabited

namespace Graph

def block (g : Graph) (b : BlockId) : Block :=
  g.blocks.getD b {}

def temp (g : Graph) (t : Temp) : TempInfo :=
  g.temps.getD t {}

def tempIndex? (g : Graph) (t : Temp) : Option Nat :=
  (g.temp t).index

def blockNumber (g : Graph) (b : BlockId) : Nat :=
  (List.range b).countP fun c => (g.block c).home = (g.block b).home

def tempNumber (g : Graph) (t : Temp) : Nat :=
  (List.range t).countP fun u => (g.temp u).home = (g.temp t).home

/-- The total number of edges, counted at their source. -/
def edgeCount (g : Graph) : Nat :=
  (g.blocks.toList.flatMap (·.children)).length

/-- The total number of edges, counted at their target. -/
def parentCount (g : Graph) : Nat :=
  (g.blocks.toList.flatMap (·.parents)).length

end Graph

end SsaBlocks
