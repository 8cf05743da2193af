import SsaBlocks.Value
import SsaBlocks.Opcode

/-!
# Instructions

The instructions of a block and the phi nodes at its top. An instruction reads its operands and may
define one temporary. `substitute` replaces operands, never results; `retarget` replaces the
target of a jump.
-/

namespace SsaBlocks

/-- The instructions. `branch` goes to its last block if the condition holds. A call without a
result discards it; a return without a value ends a void function. -/
inductive Instruction where
  | comment (text : String)
  | const (dest : Temp) (type : ValueType) (value : Int64)
  | load (dest : Temp) (var : Variable)
  | store (var : Variable) (value : Temp)
  | binary (op : Opcode) (dest left right : Temp)
  | unary (op : Opcode) (dest operand : Temp)
  | call (dest : Option Temp) (callee : String) (args : List Temp)
  | jump (target : BlockId)
  | branch (cond : Temp) (otherwise target : BlockId)
  | ret (value : Option Temp)
deriving DecidableEq, Repr, Inhabited

namespace Instruction

/-- The instruction's operation; a comment has none. -/
def opcode? : Instruction → Option Opcode
  | comment _ => none
  | const .. => some .const
  | load _ v => some (if v.isGlobal then .loadGlobal else .load)
  | store v _ => some (if v.isGlobal then .storeGlobal else .store)
  | binary op .. => some op
  | unary op .. => some op
  | call none .. => some .voidCall
  | call (some _) .. => some .call
  | jump _ => some .jump
  | branch .. => some .branch
  | ret none => some .returnVoid
  | ret (some _) => some .ret

/-- Everything but a comment is executed and counted. -/
def isCode : Instruction → Bool
  | comment _ => false
  | _ => true

/-- Jumps, branches and returns end a block. -/
def isTerminator : Instruction → Bool
  | jump _ | branch .. | ret _ => true
  | _ => false

def result? : Instruction → Option Temp
  | const d .. | load d _ | binary _ d .. | unary _ d _ => some d
  | call d .. => d
  | _ => none

def operands : Instruction → List Temp
  | store _ t => [t]
  | binary _ _ l r => [l, r]
  | unary _ _ t => [t]
  | call _ _ args => args
  | branch c _ _ => [c]
  | ret (some t) => [t]
  | _ => []

def substitute (f : Temp → Temp) : Instruction → Instruction
  | store v t => store v (f t)
  | binary op d l r => binary op d (f l) (f r)
  | unary op d t => unary op d (f t)
  | call d callee args => call d callee (args.map f)
  | branch c e t => branch (f c) e t
  | ret t => ret (t.map f)
  | inst => inst

def retarget (source target : BlockId) : Instruction → Instruction
  | jump t => jump (if t = source then target else t)
  | branch c e t =>
    branch c (if e = source then target else e) (if t = source then target else t)
  | inst => inst

def targets : Instruction → List BlockId
  | jump t => [t]
  | branch _ e t => [e, t]
  | _ => []

@[simp] theorem operands_substitute (f : Temp → Temp) (i : Instruction) :
    (i.substitute f).operands = i.operands.map f := by
  cases i <;> simp [substitute, operands]
  case ret t => cases t <;> simp

@[simp] theorem result?_substitute (f : Temp → Temp) (i : Instruction) :
    (i.substitute f).result? = i.result? := by
  cases i <;> rfl

@[simp] theorem targets_substitute (f : Temp → Temp) (i : Instruction) :
    (i.substitute f).targets = i.targets := by
  cases i <;> rfl

end Instruction

/-- A phi node: on entry from the block of an edge, `dest` takes that edge's value. -/
structure Phi where
  dest : Temp
  var : Variable
  edges : List (BlockId × Temp)
deriving DecidableEq, Repr, Inhabited

namespace Phi

def operands (p : Phi) : List Temp :=
  p.edges.map (·.2)

def substitute (f : Temp → Temp) (p : Phi) : Phi :=
  { p with edges := p.edges.map fun e => (e.1, f e.2) }

end Phi

/-- What stands in a block when its phi nodes and instructions are read in one sequence. -/
inductive Line where
  | phi (node : Phi)
  | code (inst : Instruction)
deriving DecidableEq, Repr, Inhabited

namespace Line

/-- The line's operation; a comment has none. -/
def opcode? : Line → Option Opcode
  | phi _ => some .phi
  | code i => i.opcode?

def result? : Line → Option Temp
  | phi p => some p.dest
  | code i => i.result?

def operands : Line → List Temp
  | phi p => p.operands
  | code i => i.operands

/-- Everything but a comment is executed and counted. -/
def isCode : Line → Bool
  | phi _ => true
  | code i => i.isCode

end Line

end SsaBlocks
