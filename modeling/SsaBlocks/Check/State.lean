import SsaBlocks.Typed.Tree
import SsaBlocks.Types.Constant
import SsaBlocks.Types.Finite
import SsaBlocks.Types.Unify

/-!
# The state of checking

Checking resolves names to objects. Objects of the file may be used before they are declared: each
is resolved when it is first needed. Objects of a function are declared in scopes, which are values,
so that leaving a scope is forgetting it.
-/

namespace SsaBlocks

namespace Check

open SsaBlocks.Source (Pos Name)
open SsaBlocks.Types

/-- The predeclared functions. -/
inductive Builtin
  | append
  | cap
  | clear
  | close
  | complex
  | copy
  | delete
  | imag
  | len
  | make
  | max
  | min
  | new
  | panic
  | print
  | println
  | real
  | recover
deriving DecidableEq, Repr, Inhabited

namespace Builtin

def named : List (String × Builtin) :=
  [("append", append), ("cap", cap), ("clear", clear), ("close", close), ("complex", complex),
    ("copy", copy), ("delete", delete), ("imag", imag), ("len", len), ("make", make), ("max", max),
    ("min", min), ("new", new), ("panic", panic), ("print", print), ("println", println),
    ("real", real), ("recover", recover)]

def arity : Builtin → Nat × Bool
  | append | make | max | min => (1, true)
  | cap | clear | close | imag | len | new | panic | real => (1, false)
  | complex | copy | delete => (2, false)
  | print | println => (0, true)
  | recover => (0, false)

end Builtin

/-- What a name stands for. -/
inductive Entity
  | const (type : Ty) (value : Constant)
  | var (type : Ty)
  | typeName (type : Ty)
  | func (type : Ty)
  | builtin (b : Builtin)
  | nilValue
  | iota
deriving Inhabited

abbrev ObjId := Nat

/-- A declaration of the file that has not been resolved. -/
inductive Pending
  | const (type : Option Source.Expr) (value : Source.Expr) (iota : Nat)
  | var (type value : Option Source.Expr)
  /-- One of several variables with the results of one expression. -/
  | shared (type : Option Source.Expr) (group : List ObjId) (value : Source.Expr)
  | type (spec : Source.TypeSpec)
  | func (decl : Source.FuncDecl)
  /-- A package with the objects of its members. -/
  | package (members : List (String × ObjId))
  /-- A member of a package. -/
  | imported (package : ObjId) (entity : Entity)

/-- What an object is, as far as declarations that refer to one another care. -/
inductive ObjectKind
  | value
  | definition
  | synonym
  | function
  | package
deriving DecidableEq, Inhabited

def Pending.kind : Pending → ObjectKind
  | const _ _ _ | var _ _ | shared _ _ _ | imported _ _ => .value
  | type (.mk _ _ isAlias _) => if isAlias then .synonym else .definition
  | func _ => .function
  | package _ => .package

/-- An object: a constant, variable, type or function with its name. -/
structure Object where
  name : String
  kind : ObjectKind := .value
  entity : Option Entity := none
  pending : Option Pending := none
  /-- Whether the object belongs to the file, and not to a function. -/
  isGlobal : Bool := false
  used : Bool := false
  /-- Whether it is an error not to use the object. -/
  mustUse : Bool := false
deriving Inhabited

/-- A condition that is examined when all types are known. -/
inductive Deferred
  /-- The keys of a map are comparable. -/
  | mapKey (t : Ty)
  /-- A variable may have the type: it is no constraint. -/
  | plain (t : Ty)
  /-- The type can be embedded in a structure. -/
  | embedded (t : Ty)
  | methods (t : Ty)
  /-- The alternatives of a constraint are told apart. -/
  | union (terms : List Term)
  | arguments (params : List Nat) (args : List Ty)
  /-- The type can have methods. -/
  | receiver (t : Ty)
  /-- The fields and the methods of a declared type have different names. -/
  | fieldNames (id : Nat)

abbrev Scope := List (String × ObjId)

/-- Where in the file an expression or a statement stands. -/
structure Env where
  scopes : List Scope := []
  iota : Option Nat := none
  /-- The objects of the file to whose declaration references belong. -/
  owners : List ObjId := []
  /-- Whether the place is in the body of a function. -/
  inBody : Bool := false
  /-- The type parameters of the surrounding functions. -/
  typeParams : List Nat := []
  /-- The results of the surrounding function, with the objects of those that have names. -/
  results : List (Option (String × ObjId) × Ty) := []
  canBreak : Bool := false
  canContinue : Bool := false
  canFallThrough : Bool := false

/-- A parameter of a function: its name, its object, its type and where that is written. -/
structure ParamInfo where
  name : String
  id : ObjId
  type : Ty
  typePos : Pos
deriving Inhabited

/-- A signature: the type of the function, and its parameters and results as they are seen by its
body. -/
structure FuncHead where
  type : Ty
  params : List ParamInfo
  results : List ParamInfo
  hasNamedResults : Bool
  /-- The surroundings of the body, in which the parameters are declared. -/
  env : Env

structure State where
  packageName : String := ""
  /-- The release of the language by whose rules the file is read, if it is not the latest. -/
  release : Option Nat := none
  store : Store := {}
  objects : Array Object := #[]
  predeclared : Scope := []
  file : Scope := []
  /-- The objects that are being resolved, the last first. -/
  path : List ObjId := []
  /-- The methods of the types of the file. -/
  methods : List (ObjId × Method) := []
  /-- Which declaration of the file refers to which. -/
  references : List (ObjId × ObjId) := []
  /-- The initial values of the variables of the file. -/
  initials : List (ObjId × Typed.Expr) := []
  /-- How many calls and receives have been met. -/
  calls : Nat := 0
  /-- Where calls stand that never return. -/
  panics : List Pos := []
  /-- Where calls stand alone that are compiled. -/
  compiled : List Pos := []
  deferred : List Deferred := []
  instances : List (List Nat × List Ty) := []
  /-- The bodies of functions in the initial values of the file, which are checked last. -/
  bodies : List (FuncHead × List Source.Stmt) := []
  /-- The signatures of the functions of the file. -/
  heads : List (ObjId × FuncHead) := []

end Check

/-- A step of checking, which may reject the file for a reason. -/
abbrev Check (α : Type) := StateT Check.State (Except String) α

namespace Check

open SsaBlocks.Source (Pos Name)
open SsaBlocks.Types

def reject {α : Type} (reason : String) : Check α :=
  throw reason

def require (condition : Bool) (reason : String) : Check Unit :=
  if condition then pure () else reject reason

/-- Rejects a construct that came with the given release if the file is read by the rules of an
earlier one. -/
def since (release : Nat) : Check Unit := do
  require ((← get).release.all (release ≤ ·)) "construct of a later release"

def store : Check Store := do
  return (← get).store

def modifyStore (f : Store → Store) : Check Unit :=
  modify fun s => { s with store := f s.store }

/-- Leaves a condition on a type for later. -/
def defer (d : Deferred) : Check Unit :=
  modify fun s => { s with deferred := d :: s.deferred }

def underlying (t : Ty) : Check Ty := do
  return (← store).underlying t

/-! ## Objects -/

def newObject (o : Object) : Check ObjId := do
  let s ← get
  set { s with objects := s.objects.push o }
  return s.objects.size

def object (id : ObjId) : Check Object := do
  return (← get).objects.getD id default

def modifyObject (id : ObjId) (f : Object → Object) : Check Unit :=
  modify fun s => { s with objects := s.objects.modify id f }

/-- Makes a variable of a function, which must be used unless it is a parameter. -/
def newLocal (name : String) (type : Ty) (mustUse : Bool) : Check ObjId :=
  newObject { name, entity := some (.var type), mustUse := mustUse && name != "_" }

def newTypeParam (name : String) : Check Nat := do
  let n := (← store).params.size
  modifyStore fun s => { s with params := s.params.push { name } }
  return n

def newDeclared (d : Declared) : Check Nat := do
  let n := (← store).declared.size
  modifyStore fun s => { s with declared := s.declared.push d }
  return n

def modifyDeclared (id : Nat) (f : Declared → Declared) : Check Unit :=
  modifyStore fun s => { s with declared := s.declared.modify id f }

/-! ## Scopes -/

namespace Env

def enter (env : Env) : Env :=
  { env with scopes := [] :: env.scopes }

def innermost (env : Env) : Scope :=
  env.scopes.headD []

def insert (env : Env) (name : String) (id : ObjId) : Env :=
  match env.scopes with
  | s :: rest => { env with scopes := ((name, id) :: s) :: rest }
  | [] => { env with scopes := [[(name, id)]] }

def local? (env : Env) (name : String) : Option ObjId :=
  env.scopes.findSome? fun s => s.lookup name

end Env

/-- Declares a name, which must be new in its scope; the blank name is never declared. -/
def declare (env : Env) (name : String) (id : ObjId) : Check Env := do
  if name == "_" then return env
  require (env.innermost.lookup name).isNone ("redeclared: " ++ name)
  return env.insert name id

def lookup? (env : Env) (name : String) : Check (Option ObjId) := do
  let s ← get
  return (env.local? name).or ((s.file.lookup name).or (s.predeclared.lookup name))

/-- Notes that the surrounding declaration refers to an object of the file. -/
def noteReference (env : Env) (id : ObjId) : Check Unit := do
  if (← object id).isGlobal then
    modify fun s => { s with references := env.owners.map (fun o => (o, id)) ++ s.references }

/-- Notes that an object is used, and with it the package that it comes from. -/
def noteUse (id : ObjId) : Check Unit := do
  modifyObject id fun o => { o with used := true }
  match (← object id).pending with
  | some (.imported package _) => modifyObject package fun o => { o with used := true }
  | _ => pure ()

/-! ## Declarations that refer to one another -/

def resolving {α : Type} (id : ObjId) (act : Check α) : Check α := do
  modify fun s => { s with path := id :: s.path }
  let a ← act
  modify fun s => { s with path := s.path.tail }
  return a

/-- Whether an object that is needed for its own meaning may have one: values that need only values
are looked at again when initial values are ordered, and types may refer to themselves if one of
them is no alias. -/
def mayReferToItself (id : ObjId) : Check Bool := do
  let s ← get
  let cycle := s.path.takeWhile (· != id) ++ [id]
  let kinds := cycle.map fun i => (s.objects.getD i default).kind
  let values := (kinds.filter (· == .value)).length
  return values == kinds.length || (values == 0 && kinds.contains .definition)

/-- Does something without counting the calls in it. -/
def uncounted {α : Type} (act : Check α) : Check α := do
  let calls := (← get).calls
  let a ← act
  modify fun s => { s with calls }
  return a

/-- Notes an instance of a generic declaration, whose arguments must satisfy their constraints. -/
def noteInstance (params : List Nat) (args : List Ty) : Check Unit := do
  defer (.arguments params args)
  modify fun s => { s with instances := (params, args) :: s.instances }

end Check

end SsaBlocks
