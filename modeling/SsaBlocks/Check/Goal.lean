import SsaBlocks.Check.Infer

/-!
# Rules that call one another

Expressions contain types and functions, types contain expressions, and a name may have to be
resolved first. The rules call one another through `Goal`: a rule is given a checker for every goal.
-/

namespace SsaBlocks.Check

open SsaBlocks.Source (Pos Name)
open SsaBlocks.Types

inductive Goal
  /-- An expression, which may also be a type or a generic function; elements of a composite literal
  may take their type from it. -/
  | expr (env : Env) (implied : Option Ty) (e : Source.Expr)
  /-- A type, which may be generic. -/
  | type (env : Env) (e : Source.Expr)
  /-- An object of the file, which is given its meaning. -/
  | object (id : ObjId)
  /-- A statement; the names that it declares are in scope afterwards. -/
  | stmt (env : Env) (s : Source.Stmt)

def Goal.Result : Goal → Type
  | .expr _ _ _ => Operand
  | .type _ _ => Ty
  | .object _ => Unit
  | .stmt _ _ => Env × Typed.Stmt

abbrev Goals := (g : Goal) → Check g.Result

def requireInstance (t : Ty) : Check Unit := do
  require ((← store).missingArguments t).isEmpty "generic type without arguments"

/-- A type must have its type arguments, and a generic function is given them if that is possible. -/
def notGeneric (target : Option Ty) (x : Operand) : Check Operand := do
  if x.isType then requireInstance x.type
  instantiateFunction target x

namespace Goals

variable (goals : Goals)

def genericExpr (env : Env) (e : Source.Expr) : Check Operand :=
  goals (.expr env none e)

def exprOrType (env : Env) (e : Source.Expr) : Check Operand := do
  notGeneric none (← goals (.expr env none e))

/-- Checks an expression that is a single value. A generic function takes its type arguments from
the type that is asked for. -/
def valueFor (env : Env) (target : Option Ty) (e : Source.Expr) : Check Operand := do
  let x ← notGeneric target (← goals (.expr env none e))
  singleValue x
  return x

def value (env : Env) (e : Source.Expr) : Check Operand :=
  goals.valueFor env none e

/-- Checks an element of a composite literal, whose type may be implied. -/
def element (env : Env) (implied : Ty) (e : Source.Expr) : Check Operand := do
  let x ← notGeneric (some implied) (← goals (.expr env (some implied) e))
  singleValue x
  return x

def type (env : Env) (e : Source.Expr) : Check Ty := do
  let t ← goals (.type env e)
  requireInstance t
  return t

/-- Checks the type of a variable, which must not be a constraint. -/
def varType (env : Env) (e : Source.Expr) : Check Ty := do
  let t ← goals.type env e
  defer (.plain t)
  return t

/-- The values of a list of expressions, which may be generic functions; a single call may yield
several. -/
def arguments (env : Env) (es : List Source.Expr) : Check (List Operand) := do
  match es with
  | [e] =>
    let x ← goals.genericExpr env e
    match x.mode, x.type with
    | .value, .tuple ts => return ts.map fun t => valueOperand x.pos t x.tree
    | _, _ =>
      singleValue x
      return [x]
  | es => es.mapM fun e => do
    let x ← goals.genericExpr env e
    singleValue x
    return x

/-- The values of a list of expressions; a single call may yield several. -/
def values (env : Env) (es : List Source.Expr) : Check (List Operand) := do
  (← goals.arguments env es).mapM (notGeneric none)

/-- The meaning of an object, which is resolved first if need be. A type that is being resolved may
be used as a type if it may refer to itself; other objects that are being resolved have no meaning
yet. -/
def entity (id : ObjId) (asType : Bool) : Check Entity := do
  let o ← object id
  let active := (← get).path.contains id
  match o.entity with
  | some (.typeName t) =>
    require (!(asType && active) || (← mayReferToItself id)) ("refers to itself: " ++ o.name)
    return .typeName t
  | some e => return e
  | none =>
    require (!active) ("refers to itself: " ++ o.name)
    goals (.object id)
    match (← object id).entity with
    | some e => return e
    | none => reject ("unresolved: " ++ o.name)

/-- The meaning of a member of a package, if an expression names one and the member is known. -/
def member? (env : Env) (e : Source.Expr) (field : Name) (asType : Bool) :
    Check (Option Entity) := do
  match e with
  | .ident name =>
    match ← lookup? env name.text with
    | none => return none
    | some id =>
      match (← object id).pending with
      | some (.package members) =>
        match members.lookup field.text with
        | some member =>
          noteUse member
          return some (← goals.entity member asType)
        | none => reject ("undefined: " ++ name.text ++ "." ++ field.text)
      | _ => return none
  | _ => return none

end Goals

end SsaBlocks.Check
