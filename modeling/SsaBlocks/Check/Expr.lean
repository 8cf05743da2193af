import SsaBlocks.Check.Call
import SsaBlocks.Check.Label
import SsaBlocks.Check.Terminating

/-!
# Checking expressions

The rule for each kind of expression, and the bodies of functions.
-/

namespace SsaBlocks.Check

open SsaBlocks.Source (Pos Name)
open SsaBlocks.Types

variable (goals : Goals)

/-! ## Bodies -/

/-- Checks statements in turn. Only the last one that is not empty may fall through. -/
def stmts (env : Env) : List Source.Stmt → Check (Env × List Typed.Stmt)
  | [] => return (env, [])
  | s :: rest => do
    let last := rest.all isEmptyStmt
    let (next, tree) ← goals (.stmt { env with canFallThrough := env.canFallThrough && last } s)
    let (next, trees) ← stmts { next with canFallThrough := env.canFallThrough } rest
    return (next, tree :: trees)

/-- Whether an expression is a call that never returns, after all that has been checked. -/
def State.neverReturns (s : State) : Source.Expr → Bool
  | .call callee _ _ => s.panics.contains callee.pos && !s.compiled.contains callee.pos
  | _ => false

def funcBody (head : FuncHead) (body : List Source.Stmt) : Check (List Typed.Stmt) := do
  let results := head.results.map fun r =>
    (if head.hasNamedResults then some (r.name, r.id) else none, r.type)
  let env := { head.env with
    results, inBody := true, canBreak := false, canContinue := false, canFallThrough := false }
  let (_, trees) ← stmts goals env body
  require (labelsOk body) "bad labels"
  require (results.isEmpty || endsTerminating (← get).neverReturns body) "missing return"
  return trees

/-! ## Names and literals -/

/-- What a name stands for as an operand. A variable has a tree of its own. -/
def entityOperand (env : Env) (pos : Pos) (place other : Typed.Expr) (e : Entity) :
    Check Operand := do
  let s ← store
  match e with
  | .const t c => return constantOperand s pos t c
  | .iota =>
    match env.iota with
    | some n => return constantOperand s pos (.basic .untypedInt) (.int n)
    | none => reject "iota outside of a constant declaration"
  | .typeName t => return typeOperand pos t
  | .var t => return { mode := .addressable, type := t, pos, tree := place }
  | .func t => return valueOperand pos t other
  | .builtin b => return { mode := .builtin b, type := .tuple [], pos, tree := other }
  | .nilValue => return valueOperand pos (.basic .untypedNil) other

def identRule (env : Env) (name : Name) : Check Operand := do
  match ← lookup? env name.text with
  | none => reject ("undefined: " ++ name.text)
  | some id =>
    let entity ← goals.entity id false
    noteReference env id
    noteUse id
    entityOperand env name.pos (.var name.pos name.text id)
      (.unsupported name.pos ("reference to " ++ name.text)) entity

/-- A member of a package, or a field or method of something else. -/
def memberOrSelector (env : Env) (e operand : Source.Expr) (field : Name) : Check Operand := do
  match ← goals.member? env operand field false with
  | some entity => entityOperand env e.pos (notCompiled e) (notCompiled e) entity
  | none => selectorRule goals env e (← goals.exprOrType env operand) field

def maxNumeralLength : Nat := 10000

def literalConstant? : Source.LiteralValue → Option (Basic × Constant)
  | .int n => if maxNumeralLength < n.length then none else some (.untypedInt, .int n.mantissa)
  | .float n => if maxNumeralLength < n.length then none
    else (Real.ofNumeral? n).map fun x => (.untypedFloat, .real x)
  | .imaginary n => if maxNumeralLength < n.length then none
    else (Real.ofNumeral? n).map fun x => (.untypedComplex, .complex (.whole 0) x)
  | .char n => some (.untypedRune, .int n)
  | .string bytes => some (.untypedString, .string bytes)

/-- A function in an expression. Its body belongs to the surrounding body; in the initial value of a
variable of the file it is checked once all declarations are known. -/
def literalRule (env : Env) (e : Source.Expr) (sig : Source.Signature) (body : List Source.Stmt) :
    Check Operand := do
  let head ← signature goals env sig
  if env.inBody then uncounted (discard (funcBody goals head body))
  else modify fun s => { s with bodies := (head, body) :: s.bodies }
  return valueOperand e.pos head.type (notCompiled e)

/-! ## Operators -/

def addressRule (pos : Pos) (operand : Source.Expr) (x : Operand) : Check Operand := do
  let isLiteral := match operand.unparen with
    | .composite _ _ _ => true
    | _ => false
  require (isLiteral || x.isAddressable) "address of a value that is no variable"
  return valueOperand pos (.pointer x.type) (.unary pos (.other "&") x.tree)

def channelElement? (s : Store) (receive : Bool) (t : Ty) : Option Ty :=
  let usable := fun
    | .chan d _ => d != (if receive then .sendOnly else .receiveOnly)
    | _ => false
  match s.core? t with
  | some (.chan _ element) => if s.allUnderlying usable t then some element else none
  | _ => none

def receiveRule (pos : Pos) (x : Operand) : Check Operand := do
  match channelElement? (← store) true x.type with
  | some element =>
    modify fun s => { s with calls := s.calls + 1 }
    return { valueOperand pos element (.unary pos (.other "<-") x.tree) with
      mode := .optional, form := .statement }
  | none => reject "receive from something that is no channel"

/-- What a pointer points to, or the type of pointers. -/
def starRule (e : Source.Expr) (x : Operand) : Check Operand := do
  if x.isType then
    defer (.plain x.type)
    return typeOperand e.pos (.pointer x.type)
  singleValue x
  let pointee := fun
    | .pointer base => some base
    | _ => none
  match (← store).commonPart? pointee x.type with
  | some base => return { valueOperand e.pos base (notCompiled e) with mode := .addressable }
  | none => reject "not a pointer"

/-- An element, or a generic function or type with its arguments. A generic function may be given a
part of its arguments. -/
def indexOrInstance (env : Env) (e operand : Source.Expr) (indices : List Source.Expr) :
    Check Operand := do
  let x ← goals.genericExpr env operand
  let x ← if x.given.isEmpty then pure x else notGeneric none x
  match x.mode, x.typeParams with
  | .type, _ =>
    let t ← instantiate x.type (← indices.mapM (goals.varType env))
    defer (.plain t)
    return typeOperand e.pos t
  | .value, p :: rest =>
    let given ← indices.mapM (goals.varType env)
    require (given.length ≤ (p :: rest).length) "too many type arguments"
    let x := { valueOperand e.pos x.type (notCompiled e) with given }
    if given.length == (p :: rest).length then instanceOf x given else return x
  | _, _ =>
    singleValue x
    match indices with
    | [i] => indexRule goals env e x i
    | _ => reject "several indices"

def exprRule (env : Env) (implied : Option Ty) (e : Source.Expr) : Check Operand := do
  match e with
  | .ident name => identRule goals env name
  | .literal pos value =>
    match literalConstant? value with
    | some (b, c) => constantResult pos (.basic b) c
    | none => reject "bad number"
  | .func _ sig body => literalRule goals env e sig body
  | .composite _ type elements => compositeRule goals env implied e type elements
  | .paren _ inner => goals.exprOrType env inner
  | .selector operand field => memberOrSelector goals env e operand field
  | .index operand indices => indexOrInstance goals env e operand indices
  | .slice operand low high max =>
    sliceRule goals env e (← goals.value env operand) low high max
  | .typeAssert operand (some type) =>
    assertRule goals env e (← goals.value env operand) type
  | .typeAssert _ none => reject "type switch guard outside of a type switch"
  | .call callee args spread => callRule goals env e callee args spread
  | .star _ operand => starRule e (← goals.exprOrType env operand)
  | .unary pos op operand =>
    let x ← goals.value env operand
    match op with
    | "&" => addressRule pos operand x
    | "<-" => receiveRule pos x
    | _ => unary pos op x
  | .binary op left right =>
    let x ← goals.value env left
    let y ← goals.value env right
    binary e.pos op x y
  | .keyValue _ _ => reject "misplaced key"
  | .arrayType _ _ _ | .structType _ _ | .funcType _ _ | .interfaceType _ _ | .mapType _ _ _
  | .chanType _ _ _ => return typeOperand e.pos (← goals.type env e)
  | .ellipsis _ _ => reject "misplaced dots"

end SsaBlocks.Check
