import SsaBlocks.Source.Token

/-!
# Syntax trees

A source file as it is written: declarations, statements, and expressions, which include the
expressions that denote types. Names are not resolved yet. The place of a tree is where its
leftmost token starts.
-/

namespace SsaBlocks.Source

structure Name extends Word where
  pos : Pos
deriving DecidableEq, Repr, Inhabited

inductive LiteralValue
  | int (value : Literal.Numeral)
  | float (value : Literal.Numeral)
  | imaginary (value : Literal.Numeral)
  | char (code : Nat)
  | string (bytes : List UInt8)
deriving DecidableEq, Inhabited

/-- The directions in which a channel can be used. -/
inductive Direction
  | both
  | sendOnly
  | receiveOnly
deriving DecidableEq, Repr, Inhabited

mutual

inductive Expr
  | ident (name : Name)
  | literal (pos : Pos) (value : LiteralValue)
  | func (pos : Pos) (type : Signature) (body : List Stmt)
  /-- A literal of a composite type, which is left out within another such literal. -/
  | composite (brace : Pos) (type : Option Expr) (elements : List Expr)
  | paren (pos : Pos) (inner : Expr)
  | selector (operand : Expr) (field : Name)
  /-- An element of a collection, or a generic function or type with its type arguments. -/
  | index (operand : Expr) (indices : List Expr)
  | slice (operand : Expr) (low high max : Option Expr)
  /-- A type assertion; without a type it is the guard of a type switch. -/
  | typeAssert (operand : Expr) (type : Option Expr)
  | call (callee : Expr) (args : List Expr) (spread : Bool)
  | star (pos : Pos) (operand : Expr)
  | unary (pos : Pos) (op : String) (operand : Expr)
  | binary (op : String) (left right : Expr)
  | keyValue (key value : Expr)
  /-- An array type, or a slice type if it has no length. -/
  | arrayType (pos : Pos) (length : Option Expr) (element : Expr)
  | structType (pos : Pos) (fields : List Field)
  | funcType (pos : Pos) (type : Signature)
  | interfaceType (pos : Pos) (elements : List InterfaceElement)
  | mapType (pos : Pos) (key value : Expr)
  | chanType (pos : Pos) (direction : Direction) (element : Expr)
  /-- The dots of a variadic parameter, or in place of the length of an array. -/
  | ellipsis (pos : Pos) (element : Option Expr)

/-- Names that share a type, or a type alone. -/
inductive Field
  | mk (names : List Name) (type : Expr) (tag : Option (List UInt8))

/-- The parameters and results of a function. The list of results may be empty and yet be written. -/
inductive Signature
  | mk (typeParams params : List Field) (results : Option (List Field)) (resultsPos : Pos)

inductive InterfaceElement
  | method (name : Name) (type : Signature)
  | embedded (type : Expr)

inductive Stmt
  | empty (pos : Pos)
  | labeled (label : Name) (body : Stmt)
  | expr (e : Expr)
  | send (channel value : Expr)
  | incDec (operand : Expr) (increment : Bool)
  | assign (targets : List Expr) (op : String) (values : List Expr)
  | go (pos : Pos) (call : Expr)
  | defer (pos : Pos) (call : Expr)
  | ret (pos : Pos) (values : List Expr)
  | branch (pos : Pos) (keyword : String) (label : Option Name)
  | block (pos : Pos) (body : List Stmt)
  | ifThen (pos : Pos) (init : Option Stmt) (cond : Expr) (body : List Stmt)
      (otherwise : Option Stmt)
  | switch (pos : Pos) (init : Option Stmt) (tag : Option Expr) (clauses : List Clause)
  | typeSwitch (pos : Pos) (init : Option Stmt) (binder : Option Expr) (operand : Expr)
      (clauses : List Clause)
  | select (pos : Pos) (clauses : List Communication)
  | loop (pos : Pos) (init : Option Stmt) (cond : Option Expr) (post : Option Stmt)
      (body : List Stmt)
  | range (pos : Pos) (targets : List Expr) (define : Bool) (operand : Expr) (body : List Stmt)
  | decl (d : Decl)

inductive Clause
  | mk (isDefault : Bool) (values : List Expr) (body : List Stmt)

/-- A clause of a select; the default clause has no communication. -/
inductive Communication
  | mk (comm : Option Stmt) (body : List Stmt)

/-- Declarations that may stand in a file and in a function. -/
inductive Decl
  | vars (pos : Pos) (specs : List ValueSpec)
  | consts (pos : Pos) (specs : List ValueSpec)
  | types (pos : Pos) (specs : List TypeSpec)

/-- Names with a type, values, or both. -/
inductive ValueSpec
  | mk (names : List Name) (type : Option Expr) (values : List Expr)

/-- A new name for a type, or an alias. -/
inductive TypeSpec
  | mk (name : Name) (typeParams : List Field) (isAlias : Bool) (type : Expr)

end

deriving instance Inhabited for Expr
deriving instance Inhabited for Field, Signature, Stmt

namespace Field

/-- The names of a field; a parameter without a name has none, nor has an embedded field. -/
def names : Field → List Name
  | mk names _ _ => names

def type : Field → Expr
  | mk _ type _ => type

end Field

namespace Signature

def typeParams : Signature → List Field
  | mk typeParams _ _ _ => typeParams

def params : Signature → List Field
  | mk _ params _ _ => params

def results : Signature → List Field
  | mk _ _ results _ => results.getD []

def hasResults : Signature → Bool
  | mk _ _ results _ => results.isSome

def resultsPos : Signature → Pos
  | mk _ _ _ pos => pos

end Signature

namespace Expr

def pos : Expr → Pos
  | ident name => name.pos
  | literal pos _ | func pos _ _ | paren pos _ | star pos _ | unary pos _ _ | arrayType pos _ _
  | structType pos _ | funcType pos _ | interfaceType pos _ | mapType pos _ _ | chanType pos _ _
  | ellipsis pos _ => pos
  | composite brace none _ => brace
  | composite _ (some type) _ => type.pos
  | selector operand _ | index operand _ | slice operand _ _ _ | typeAssert operand _ =>
    operand.pos
  | call callee _ _ => callee.pos
  | binary _ left _ => left.pos
  | keyValue key _ => key.pos

def unparen : Expr → Expr
  | paren _ inner => inner.unparen
  | e => e

/-- What kind of tree an expression is, as messages name it. -/
def kind : Expr → String
  | ident _ => "*ast.Ident"
  | literal _ _ => "*ast.BasicLit"
  | func _ _ _ => "*ast.FuncLit"
  | composite _ _ _ => "*ast.CompositeLit"
  | paren _ _ => "*ast.ParenExpr"
  | selector _ _ => "*ast.SelectorExpr"
  | index _ indices => if indices.length ≤ 1 then "*ast.IndexExpr" else "*ast.IndexListExpr"
  | slice _ _ _ _ => "*ast.SliceExpr"
  | typeAssert _ _ => "*ast.TypeAssertExpr"
  | call _ _ _ => "*ast.CallExpr"
  | star _ _ => "*ast.StarExpr"
  | unary _ _ _ => "*ast.UnaryExpr"
  | binary _ _ _ => "*ast.BinaryExpr"
  | keyValue _ _ => "*ast.KeyValueExpr"
  | arrayType _ _ _ => "*ast.ArrayType"
  | structType _ _ => "*ast.StructType"
  | funcType _ _ => "*ast.FuncType"
  | interfaceType _ _ => "*ast.InterfaceType"
  | mapType _ _ _ => "*ast.MapType"
  | chanType _ _ _ => "*ast.ChanType"
  | ellipsis _ _ => "*ast.Ellipsis"

end Expr

namespace Decl

def pos : Decl → Pos
  | vars pos _ | consts pos _ | types pos _ => pos

end Decl

namespace Stmt

def pos : Stmt → Pos
  | empty pos | go pos _ | defer pos _ | ret pos _ | branch pos _ _ | block pos _
  | ifThen pos _ _ _ _ | switch pos _ _ _ | typeSwitch pos _ _ _ _ | select pos _
  | loop pos _ _ _ _ | range pos _ _ _ _ => pos
  | labeled label _ => label.pos
  | expr e | send e _ | incDec e _ => e.pos
  | assign targets _ _ => (targets.head?.map Expr.pos).getD {}
  | decl d => d.pos

/-- What kind of tree a statement is, as messages name it. -/
def kind : Stmt → String
  | empty _ => "*ast.EmptyStmt"
  | labeled _ _ => "*ast.LabeledStmt"
  | expr _ => "*ast.ExprStmt"
  | send _ _ => "*ast.SendStmt"
  | incDec _ _ => "*ast.IncDecStmt"
  | assign _ _ _ => "*ast.AssignStmt"
  | go _ _ => "*ast.GoStmt"
  | defer _ _ => "*ast.DeferStmt"
  | ret _ _ => "*ast.ReturnStmt"
  | branch _ _ _ => "*ast.BranchStmt"
  | block _ _ => "*ast.BlockStmt"
  | ifThen _ _ _ _ _ => "*ast.IfStmt"
  | switch _ _ _ _ => "*ast.SwitchStmt"
  | typeSwitch _ _ _ _ _ => "*ast.TypeSwitchStmt"
  | select _ _ => "*ast.SelectStmt"
  | loop _ _ _ _ _ => "*ast.ForStmt"
  | range _ _ _ _ _ => "*ast.RangeStmt"
  | decl _ => "*ast.DeclStmt"

end Stmt

/-- The declaration of a function, possibly without a body. -/
structure FuncDecl where
  pos : Pos
  receiver : Option (List Field)
  name : Name
  type : Signature
  bodyPos : Pos
  body : Option (List Stmt)

/-- An import: the name that the package gets in the file, if there is one, and its path. A dot for a
name stands for the names of all its members. -/
structure ImportSpec where
  name : Option String
  path : List UInt8

inductive TopDecl
  | imports (specs : List ImportSpec)
  | decl (d : Decl)
  | func (f : FuncDecl)

structure File where
  packageName : String
  decls : List TopDecl
  /-- The release of the language that the file asks for. -/
  release : Option Nat := none

def File.imports (f : File) : List ImportSpec :=
  f.decls.flatMap fun
    | .imports specs => specs
    | _ => []

end SsaBlocks.Source
