import SsaBlocks.Func.Basic
import SsaBlocks.Graph.Text

/-!
# Building functions

The primitives with which a function is filled: blocks, edges, instructions, and the reads and
writes of variables. A primitive either succeeds or is refused with a fault; a refused one may
already have changed the function (adding an instruction after the end of a block still uses up the
temporary made for its result), so the function is returned in both cases.
-/

namespace SsaBlocks

/-- A step of construction: a fault or a result, with the function as it is afterwards. -/
abbrev Build (α : Type) := ExceptT Fault (StateM Func) α

def Block.declare (b : Block) (v : Variable) (t : Temp) : Block :=
  { b with
    declared := b.declared.insert v
    alive := b.alive.insert v
    written := b.written.insert v t }

namespace Func

/-- A function with a new entry in a graph. The parameters are declared in the entry; their
temporaries come before all others of the function. -/
def makeIn (g : Graph) (name : String) (params : List Variable) (resultType : ValueType) : Func :=
  let entry := g.blocks.size
  let paramTemps := List.range' g.temps.size params.length
  let entryBlock := (params.zip paramTemps).foldl (fun b p => Block.declare b p.1 p.2) { home := entry }
  { name, params, resultType, entry, paramTemps
    blocks := g.blocks.push entryBlock
    temps := g.temps ++ Array.replicate params.length { home := entry } }

def make (name : String) (params : List Variable) (resultType : ValueType) : Func :=
  makeIn {} name params resultType

def paramTemp? (fn : Func) (i : Int) : Option Temp :=
  if 0 ≤ i then fn.paramTemps[i.toNat]? else none

def addTemp (fn : Func) (b : BlockId) : Func :=
  { fn with temps := fn.temps.push { home := (fn.block b).home } }

/-- Adds a parent to a block that is being made: the edge, and the variables alive there. -/
def linkParent (child : BlockId) (fn : Func) (parent : BlockId) : Func :=
  let alive := (fn.block parent).alive
  (fn.modify parent fun b => { b with children := b.children ++ [child] }).modify child fun b =>
    { b with parents := b.parents ++ [parent], alive := b.alive.union alive }

/-- Adds a block with the given parents, which passes on the variables that are alive there. -/
def addBlock (fn : Func) (parents : List BlockId) : Func :=
  parents.foldl (linkParent fn.blocks.size)
    { fn with blocks := fn.blocks.push { home := fn.entry } }

/-- Adds an edge without making its source the owner of its target. -/
def addEdge (fn : Func) (source target : BlockId) : Func :=
  (fn.modify source fun b => { b with children := b.children ++ [target] }).modify target fun b =>
    { b with parents := source :: b.parents }

/-- Records that a variable holds a temporary when the block is left. -/
def write (fn : Func) (b : BlockId) (v : Variable) (t : Temp) : Func :=
  fn.modify b fun blk => { blk with written := blk.written.insert v t }

def declare (fn : Func) (b : BlockId) (v : Variable) (t : Temp) : Func :=
  fn.modify b fun blk => blk.declare v t

end Func

namespace Build

/-- Makes a block with the given parents, unless construction is complete. -/
def newBlock (parents : List BlockId) : Build BlockId := do
  let fn ← get
  if fn.isFinished then throw .functionFinished
  set (fn.addBlock parents)
  return fn.blocks.size

def addEdge (source target : BlockId) : Build Unit :=
  modify fun fn => fn.addEdge source target

def newTemp (b : BlockId) : Build Temp := do
  let fn ← get
  set (fn.addTemp b)
  return fn.temps.size

/-- Adds an instruction at the end of a block that has not been ended. -/
def add (b : BlockId) (inst : Instruction) : Build Unit := do
  let fn ← get
  if (fn.block b).isTerminated then
    throw (.afterEnd (fn.instructionText inst) (fn.blockText b))
  set (fn.modify b fun blk => { blk with code := blk.code ++ [inst] })

def define (b : BlockId) (inst : Temp → Instruction) : Build Temp := do
  let t ← newTemp b
  add b (inst t)
  return t

/-- The temporary of a constant, which is made once in each block. -/
def const (b : BlockId) (type : ValueType) (value : Int64) : Build Temp := do
  let fn ← get
  match (fn.block b).constants.lookup (type, value) with
  | some t => return t
  | none =>
    let t ← define b fun t => .const t type value
    modify fun fn => fn.modify b fun blk =>
      { blk with constants := ((type, value), t) :: blk.constants }
    return t

def boolConst (b : BlockId) (value : Bool) : Build Temp :=
  const b .bool (if value then 1 else 0)

def comment (b : BlockId) (text : String) : Build Unit :=
  add b (.comment text)

def binary (b : BlockId) (op : Opcode) (left right : Temp) : Build Temp :=
  define b fun t => .binary op t left right

def unary (b : BlockId) (op : Opcode) (operand : Temp) : Build Temp :=
  define b fun t => .unary op t operand

def load (b : BlockId) (v : Variable) : Build Temp :=
  define b fun t => .load t v

def store (b : BlockId) (v : Variable) (t : Temp) : Build Unit :=
  add b (.store v t)

def call (b : BlockId) (callee : String) (void : Bool) (args : List Temp) :
    Build (Option Temp) := do
  if void then
    add b (.call none callee args)
    return none
  else
    some <$> define b fun t => .call (some t) callee args

def jump (b target : BlockId) : Build Unit :=
  add b (.jump target)

def branch (b : BlockId) (cond : Temp) (otherwise target : BlockId) : Build Unit :=
  add b (.branch cond otherwise target)

def ret (b : BlockId) (value : Option Temp) : Build Unit :=
  add b (.ret value)

def declare (b : BlockId) (v : Variable) (t : Temp) : Build Unit :=
  modify fun fn => fn.declare b v t

def write (b : BlockId) (v : Variable) (t : Temp) : Build Unit :=
  modify fun fn => fn.write b v t

/-- The value of a variable: what the block wrote last, or a placeholder for the value on entry,
which is the same one for all such reads of the block. -/
def read (b : BlockId) (v : Variable) : Build Temp := do
  let blk := (← get).block b
  match blk.written.get? v with
  | some t => return t
  | none =>
    match blk.awaited.get? v with
    | some t => return t
    | none =>
      let t ← newTemp b
      modify fun fn => fn.modify b fun blk => { blk with awaited := blk.awaited.insert v t }
      return t

end Build

end SsaBlocks
