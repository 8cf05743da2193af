/-!
# Opcodes

The operations of the block code with their numbers in the byte code format. Numbers that no
operation has can still be carried by an instruction; they are kept as `other`.
-/

namespace SsaBlocks

inductive Opcode where
  | load
  | store
  | const
  | add
  | sub
  | mul
  | div
  | mod
  | neg
  | gt
  | gte
  | eq
  | neq
  | lte
  | lt
  | and
  | or
  | logicalAnd
  | logicalOr
  | not
  | new
  | jump
  | branch
  | length
  | phi
  | call
  | voidCall
  | returnVoid
  | ret
  | loadGlobal
  | storeGlobal
  | other (code : Int)
deriving DecidableEq, Repr, Inhabited

namespace Opcode

def named : List (Opcode × Int × String) :=
  [(load, 1, "load"), (store, 2, "store"), (const, 3, "const"), (add, 4, "add"), (sub, 5, "sub"),
   (mul, 6, "mul"), (div, 7, "div"), (mod, 8, "mod"), (neg, 9, "neg"), (gt, 10, "gt"),
   (gte, 11, "gte"), (eq, 12, "eq"), (neq, 13, "neq"), (lte, 14, "lte"), (lt, 15, "lt"),
   (and, 16, "and"), (or, 17, "or"), (logicalAnd, 18, "land"), (logicalOr, 19, "lor"),
   (not, 20, "not"), (new, 21, "new"), (jump, 22, "goto"), (branch, 23, "cgoto"),
   (length, 25, "length"), (phi, 26, "phi"), (call, 28, "call"), (voidCall, 30, "vcall"),
   (returnVoid, 32, "retv"), (ret, 33, "ret"), (loadGlobal, 103, "loadg"),
   (storeGlobal, 104, "storeg")]

def ofCode (code : Int) : Opcode :=
  match named.find? fun e => e.2.1 == code with
  | some e => e.1
  | none => other code

def code : Opcode → Int
  | other n => n
  | op =>
    match named.find? fun e => e.1 == op with
    | some e => e.2.1
    | none => 0

/-- The name of an operation; a number without one is written after `op`. -/
def name : Opcode → String
  | other n => s!"op{n}"
  | op =>
    match named.find? fun e => e.1 == op with
    | some e => e.2.2
    | none => ""

/-- The binary operations whose result is a boolean. -/
def isComparison : Opcode → Bool
  | gt | gte | eq | neq | lte | lt => true
  | _ => false

end Opcode

end SsaBlocks
