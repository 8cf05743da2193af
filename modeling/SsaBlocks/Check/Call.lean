import SsaBlocks.Check.Builtin
import SsaBlocks.Check.Convert

/-!
# Checking calls

Calls of functions, conversions, and calls of predeclared functions.
-/

namespace SsaBlocks.Check

open SsaBlocks.Source (Pos)
open SsaBlocks.Types

variable (goals : Goals)

def paramsFor (params : List Ty) (variadic spread : Bool) (args : Nat) : Check (List Ty) := do
  if variadic && !spread then
    let fixed := params.dropLast
    require (fixed.length ≤ args) "too few arguments"
    match params.getLast? with
    | some (.slice t) => return fixed ++ List.replicate (args - fixed.length) t
    | _ => reject "bad variadic function"
  else
    require (variadic || !spread) "misplaced dots"
    require (params.length == args) "wrong number of arguments"
    return params

/-- The function of the file that a name stands for, unless the name is that of a variable or a type
of the surrounding function. -/
def function? (env : Env) (name : String) : Check (Option ObjId) := do
  match env.local? name, (← get).file.lookup name with
  | none, some id =>
    match (← object id).entity with
    | some (.func _) => return some id
    | _ => return none
  | _, _ => return none

def callTree (env : Env) (pos : Pos) (callee : Source.Expr) (results : Nat) (spread : Bool)
    (args : List Typed.Expr) : Check Typed.Expr := do
  match callee.unparen with
  | .ident name =>
    if (← function? env name.text).isNone then
      return .unsupported pos ("call of " ++ name.text)
    if spread then return .unsupported pos "variadic call"
    if 1 < results then
      return .unsupported pos ("call of " ++ name.text ++ " with multiple results")
    return .call name.text args
  | _ => return .unsupported pos ("call of " ++ callee.kind)

/-- How an expression is compiled that yields several values. Only calls do, and these are refused
already. -/
def severalTree (pos : Pos) : Typed.Expr → Typed.Expr
  | .unsupported pos what => .unsupported pos what
  | _ => .unsupported pos "multiple values"

/-- The trees of a number of arguments that have been passed. A single one may stand for several. -/
def argTrees (args : Nat) (passed : List Operand) : List Typed.Expr :=
  if args == passed.length then passed.map (·.tree)
  else (passed.take 1).map fun x => severalTree x.pos x.tree

def otherCallTree (pos : Pos) (callee : Source.Expr) : Typed.Expr :=
  match callee.unparen with
  | .ident name => .unsupported pos ("call of " ++ name.text)
  | _ => .unsupported pos ("call of " ++ callee.kind)

/-- A generic argument with type parameters of its own, which are returned along with the type
arguments that are given. -/
def freshArgument (x : Operand) : Check (Operand × List (Nat × Option Ty)) := do
  match x.type with
  | .func ps rs variadic (p :: rest) =>
    let (fresh, σ) ← freshParams (p :: rest)
    let given := x.given.map some ++ List.replicate (fresh.length - x.given.length) none
    match (← store).subst σ (.func ps rs variadic []) with
    | .func ps rs variadic _ =>
      return ({ x with type := .func ps rs variadic fresh }, fresh.zip given)
    | _ => return (x, [])
  | _ => return (x, [])

/-- The type arguments of a call: those of the function, of which the first may be given, and those
of arguments that are generic functions themselves. Yields the type arguments of the function, and
the arguments without type parameters. -/
def callArguments (typeParams : List Nat) (given : List Ty) (formal : List Ty)
    (operands : List Operand) : Check (List Ty × List Operand) := do
  if typeParams.isEmpty && operands.all fun x => x.typeParams.isEmpty then return ([], operands)
  require (given.length ≤ typeParams.length) "too many type arguments"
  let (own, σ) ← freshParams typeParams
  let formal := formal.map ((← store).subst σ)
  let renamed ← operands.mapM freshArgument
  let ownGiven := given.map some ++ List.replicate (own.length - given.length) none
  let all := own.zip ownGiven ++ renamed.flatMap (·.2)
  let params := all.map (·.1)
  let operands := renamed.map (·.1)
  let pairs := (formal.zip operands).filter fun p => !p.2.type.isUntyped
  let untyped := (formal.zip operands).filterMap fun (t, x) =>
    match t, x.type with
    | .param p, .basic b =>
      if b.isUntyped && !x.isNil && params.contains p then some (p, b) else none
    | _, _ => none
  let found ← inferArguments params (all.map (·.2)) (pairs.map fun p => (p.1, p.2.type)) untyped
  let known := params.zip found
  let operands ← operands.mapM fun x =>
    if x.typeParams.isEmpty then pure x
    else instanceOf x (x.typeParams.filterMap fun p => known.lookup p)
  return (found.take typeParams.length, operands)

def functionCall (env : Env) (pos : Pos) (callee : Source.Expr) (type : Ty) (given : List Ty)
    (args : List Source.Expr) (spread : Bool) : Check Operand := do
  match (← store).core? type with
  | some (.func params results variadic typeParams) =>
    let operands ← goals.arguments env args
    require (!(spread && args.length == 1 && 1 < operands.length)) "misplaced dots"
    let formal ← paramsFor (params.map (·.2)) variadic spread operands.length
    let (found, operands) ← callArguments typeParams given formal operands
    if !typeParams.isEmpty then noteInstance typeParams found
    let σ := typeParams.zip found
    let s ← store
    let passed ← (operands.zip formal).mapM fun (x, t) => assignTo x (some (s.subst σ t))
    modify fun st => { st with calls := st.calls + 1 }
    let tree ← callTree env pos callee results.length spread (argTrees args.length passed)
    let types := results.map fun r => s.subst σ r.2
    match types with
    | [] =>
      return { valueOperand pos (.tuple []) tree with mode := .noValue, form := .statement }
    | [t] => return { valueOperand pos t tree with form := .statement }
    | ts => return { valueOperand pos (.tuple ts) tree with form := .statement }
  | _ => reject "not a function"

def conversionCall (env : Env) (pos : Pos) (callee : Source.Expr) (t : Ty)
    (args : List Source.Expr) (spread : Bool) : Check Operand := do
  requireInstance t
  match args with
  | [arg] =>
    require (!spread) "misplaced dots"
    let x ← goals.valueFor env (some t) arg
    let s ← store
    require (!s.isInterface t || (s.typeSet t).isMethodSet) "conversion to a constraint"
    convert pos x t fun tree =>
      match callee.unparen with
      | .ident _ => .convert pos (sourceType s t) tree
      | _ => .unsupported pos ("call of " ++ callee.kind)
  | _ => reject "wrong number of arguments"

/-- A call. The function that is called may be generic. -/
def callRule (env : Env) (e callee : Source.Expr) (args : List Source.Expr) (spread : Bool) :
    Check Operand := do
  let f ← goals.genericExpr env callee
  match f.mode with
  | .type => conversionCall goals env e.pos callee f.type args spread
  | .builtin b => builtinRule goals env e.pos (otherCallTree e.pos callee) b args spread
  | .noValue | .constant _ => reject "not a function"
  | _ =>
    singleValue f
    functionCall goals env e.pos callee f.type f.given args spread

end SsaBlocks.Check
