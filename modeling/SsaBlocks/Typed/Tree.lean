import SsaBlocks.Opcode
import SsaBlocks.Source.Token
import SsaBlocks.Value

/-!
# Typed trees

A source file after checking, reduced to what is compiled. Names are resolved to the numbers of the
variables that they denote, constant expressions are replaced by their values, and every construct
outside the supported part of the language is an `unsupported` node with its place and a description.
-/

namespace SsaBlocks.Typed

open SsaBlocks.Source (Pos)

/-- The type of a variable or an expression: one that values have, or any other type as it is
written. -/
inductive SourceType
  | value (type : ValueType)
  | other (text : String)
deriving DecidableEq, Repr, Inhabited

/-- The number of a declared variable; no two variables of a file share one. -/
abbrev VarId := Nat

inductive UnaryOp
  | plus
  | neg
  | not
  | other (text : String)
deriving DecidableEq, Repr, Inhabited

/-- Operators that may skip their second operand. -/
inductive Logical
  | both
  | either
deriving DecidableEq, Repr, Inhabited

def Logical.text : Logical → String
  | both => "&&"
  | either => "||"

inductive Expr
  | const (pos : Pos) (type : SourceType) (value : Int64)
  | var (pos : Pos) (name : String) (id : VarId)
  | unary (pos : Pos) (op : UnaryOp) (operand : Expr)
  | binary (op : Opcode) (left right : Expr)
  | logical (op : Logical) (left right : Expr)
  /-- A conversion, which changes the type and not the value. -/
  | convert (pos : Pos) (type : SourceType) (operand : Expr)
  /-- A call of a function with one result. -/
  | call (callee : String) (args : List Expr)
  | unsupported (pos : Pos) (what : String)
deriving Repr, Inhabited

structure Binder where
  pos : Pos
  name : String
  id : VarId
  type : SourceType
deriving DecidableEq, Repr, Inhabited

/-- Where a value is assigned to. -/
inductive Target
  | blank
  | declare (b : Binder)
  | var (pos : Pos) (name : String) (id : VarId)
  | unsupported (pos : Pos) (what : String)
deriving DecidableEq, Repr, Inhabited

/-- The declaration of variables, of which a blank one has no binder. Without values they start
at zero. -/
structure VarSpec where
  pos : Pos
  binders : List (Option Binder)
  values : Option (List Expr)
deriving Repr, Inhabited

/-- Statements. A part that is left out is `empty`, except that a loop tells a missing condition
and a missing post statement from others. -/
inductive Stmt
  | empty
  | block (body : List Stmt)
  /-- A call of a function whose result, if there is one, is not used. -/
  | call (callee : String) (args : List Expr)
  | vars (specs : List VarSpec)
  /-- All values are computed before any is assigned; there are as many as targets. -/
  | assign (targets : List Target) (values : List Expr)
  /-- A variable gets the result of an operation on its value. -/
  | update (target : Target) (current : Expr) (op : Opcode) (operand : Expr)
  | ret (value : Option Expr)
  | ifThen (init : Stmt) (cond : Expr) (body : List Stmt) (otherwise : Stmt)
  | loop (init : Stmt) (cond : Option Expr) (post : Option Stmt) (body : List Stmt)
  | leave (pos : Pos)
  | again (pos : Pos)
  | unsupported (pos : Pos) (what : String)
deriving Repr, Inhabited

/-- A parameter; one without a name or with a blank one has no number that is used. -/
structure Param where
  typePos : Pos
  name : String
  id : VarId
  type : SourceType
deriving DecidableEq, Repr, Inhabited

inductive Result
  | void
  | value (pos : Pos) (type : SourceType)
  | unsupported (pos : Pos) (what : String)
deriving DecidableEq, Repr, Inhabited

structure Function where
  name : String
  params : List Param
  result : Result
  bodyPos : Pos
  body : List Stmt
deriving Repr, Inhabited

inductive Decl
  | vars (specs : List VarSpec)
  | func (f : Function)
  /-- A function that cannot be compiled, whatever its body; it has a name all the same. -/
  | unsupportedFunc (name : String) (pos : Pos) (what : String)
  | unsupported (pos : Pos) (what : String)
deriving Repr, Inhabited

end SsaBlocks.Typed
