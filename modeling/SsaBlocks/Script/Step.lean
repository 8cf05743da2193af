import SsaBlocks.Machine

/-!
# Script steps

A script builds functions, programs and machines step by step and asks about them. A step names
what it makes, and later steps refer to these names; variables, temporaries, blocks, functions,
programs and machines have names of their own.
-/

namespace SsaBlocks.Script

/-- What can be counted in a finished function. -/
inductive Counted where
  | blocks
  | instructions
  | temporaries
deriving DecidableEq, Repr

/-- The steps. A result is given the name `as`, if there is one. -/
inductive Step where
  | makeVariable (as name : String) (kind : VarKind) (type : ValueType)
  | makeFunction (as name : String) (params : List String) (resultType : ValueType)
      (entryName : String)
  | makeBlock (as func : String) (parents : List String)
  | param (as func : String) (position : Int)
  | edge (block target : String)
  | const (as block : String) (type : ValueType) (value : Int64)
  | comment (block text : String)
  | binary (as block : String) (op : Opcode) (left right : String)
  | unary (as block : String) (op : Opcode) (operand : String)
  | load (as block var : String)
  | store (block var temp : String)
  | call (as block callee : String) (void : Bool) (args : List String)
  | jump (block target : String)
  | branch (block cond otherwise target : String)
  | ret (block : String) (temp : Option String)
  | declare (block var temp : String)
  | write (block var temp : String)
  | read (as block var : String)
  | advance (func : String) (stage : Stage)
  | finish (func : String)
  | blockIndex (block : String)
  | tempIndex (temp : String)
  | varIndex (var : String)
  | blockName (block : String)
  | tempName (temp : String)
  | isTerminated (block : String)
  | count (func : String) (what : Counted)
  | isFinished (func : String)
  | varsOf (func : String)
  | blockCount (block : String)
  | successors (block : String)
  | lines (block : String)
  | locals (block var : String)
  | dominates (left right : String)
  | listing (func : String)
  | dot (func title : String)
  | dumpBlock (block : String)
  | dump (func : String)
  | makeProgram (as : String)
  | addFunction (program func : String)
  | addGlobal (program var : String)
  | lookup (program name : String)
  | finishProgram (program : String)
  | summary (program : String)
  | evaluate (program name : String) (args : List Int64)
  | makeMachine (as program : String)
  | callMachine (machine name : String) (args : List Int64)
  | globalValue (machine var : String)
deriving Repr

structure LineReport where
  opcode : Int
  result : Option String
  operands : List String
  text : String
deriving Repr

/-- What is known of a variable in a block. -/
structure LocalsReport where
  declared : Bool
  alive : Bool
  written : Option String
  awaited : Option String
  anyAwaited : Bool
deriving Repr

structure BlockReport where
  block : String
  parents : List String
  children : List String
  pending : Nat
  code : List String
  declared : List String
  alive : List String
  written : List (String × String)
  awaited : List (String × String)
  dominators : Option (List String)
  idom : Option String
  frontier : Option (List String)
deriving Repr

inductive Answer where
  | ok
  | nothing
  | text (value : String)
  | number (value : Int)
  | word (value : Int64)
  | flag (value : Bool)
  | texts (values : List String)
  | numbers (values : List Nat)
  | lines (values : List LineReport)
  | locals (report : LocalsReport)
  | block (report : BlockReport)
  | blocks (reports : List BlockReport)
  | fault (fault : Fault)
  | evaluation (failure : EvalFailure)
  | compilation (error : FinishError)
  | unknownName (name : String)
deriving Repr

end SsaBlocks.Script
