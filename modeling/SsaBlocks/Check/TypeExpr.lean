import SsaBlocks.Check.Goal

/-!
# Checking types

Type expressions, and the signatures of functions, whose parameters are declared in the scope of the
body.
-/

namespace SsaBlocks.Check

open SsaBlocks.Source (Pos Name)
open SsaBlocks.Types

variable (goals : Goals)

def instantiate (t : Ty) (args : List Ty) : Check Ty := do
  let params := (← store).missingArguments t
  require (!params.isEmpty && params.length == args.length) "wrong type arguments"
  noteInstance params args
  match t with
  | .named id _ => return .named id args
  | .synonym id _ => return .synonym id args
  | t => return t

def namedType (env : Env) (name : Name) : Check Ty := do
  match ← lookup? env name.text with
  | none => reject ("undefined: " ++ name.text)
  | some id =>
    noteUse id
    match ← goals.entity id true with
    | .typeName t => return t
    | _ => reject ("not a type: " ++ name.text)

def arrayLength (env : Env) (e : Source.Expr) : Check Nat := do
  let x ← goals.value env e
  match x.constant? with
  | none => reject "array length is not constant"
  | some c =>
    let s ← store
    require (x.type.isUntyped || s.allBasic Basic.isInteger x.type) "array length is no integer"
    match c.toInt? with
    | some n =>
      require (0 ≤ n && Constant.fits .int n) "bad array length"
      return n.toNat
    | none => reject "array length is no integer"

/-! ## Signatures -/

/-- The parameters of a list with their types, before they are declared; the last may be variadic.
Yields whether it is. -/
def collectParams (env : Env) (fields : List Source.Field) : Check (List ParamInfo × Bool) := do
  let parts ← fields.mapM fun f => do
    let (t, variadic) ←
      match f.type with
      | .ellipsis _ (some element) => do pure (Ty.slice (← goals.varType env element), true)
      | e => do pure (← goals.varType env e, false)
    let names := if f.names.isEmpty then [""] else f.names.map (·.text)
    let infos ← names.mapM fun name => do
      return { name, id := ← newLocal name t false, type := t, typePos := f.type.pos : ParamInfo }
    return (infos, variadic)
  return (parts.flatMap (·.1), parts.any (·.2))

def declareParams (env : Env) (params : List ParamInfo) : Check Env :=
  params.foldlM (fun env p => if p.name == "" then pure env else declare env p.name p.id) env

def declareTypeParams (env : Env) (names : List String) : Check (Env × List Nat) :=
  names.foldlM (fun (acc : Env × List Nat) name => do
    let param ← newTypeParam name
    let id ← newObject { name, kind := .definition, entity := some (.typeName (.param param)) }
    return (← declare acc.1 name id, acc.2 ++ [param])) (env, [])

def setConstraint (param : Nat) (constraint : Ty) : Check Unit :=
  modifyStore fun s => { s with
    params := s.params.modify param fun p => { p with constraint } }

/-! ## Structures, interfaces and constraints -/

def embeddedName : Source.Expr → Option String
  | .ident n => some n.text
  | .star _ (.star _ _) => none
  | .star _ e => embeddedName e
  | .index e _ => embeddedName e
  | .selector _ n => some n.text
  | _ => none

def structFields (env : Env) (fields : List Source.Field) :
    Check (List (String × Ty × Bool × List UInt8)) := do
  let all ← fields.flatMapM fun
    | .mk names e tag => do
      let t ← goals.varType env e
      let tag := tag.getD []
      if names.isEmpty then
        match embeddedName e with
        | some name =>
          defer (.embedded t)
          return [(name, t, true, tag)]
        | none => reject "bad embedded field"
      else return names.map fun n => (n.text, t, false, tag)
  let names := (all.map (·.1)).filter (· != "_")
  require (names.eraseDups.length == names.length) "duplicate field"
  return all

def constraintTerms : Source.Expr → List (Bool × Source.Expr)
  | .binary "|" left right => constraintTerms left ++ constraintTerms right
  | .unary _ "~" e => [(true, e)]
  | e => [(false, e)]

def maxTerms : Nat := 100

def constraintElement (env : Env) (e : Source.Expr) : Check Ty := do
  let terms ← (constraintTerms e).mapM fun (tilde, e) => do
    let t ← goals.type env e
    require (!(← store).isParam t) "a type parameter is no alternative"
    return (tilde, t)
  match terms with
  | [(false, t)] => return t
  | terms =>
    require (terms.length ≤ maxTerms) "too many alternatives"
    defer (.union terms)
    return .union terms

/-- A constraint. A type or a union of types stands for the interface that holds it alone. -/
def constraint (env : Env) (e : Source.Expr) : Check Ty := do
  match e with
  | .binary "|" _ _ | .unary _ "~" _ =>
    let t := Ty.interface .plain [] [← constraintElement goals env e]
    defer (.methods t)
    return t
  | e =>
    let t ← goals.type env e
    require (!(← store).isParam t) "a type parameter is no constraint"
    return t

/-- Declares type parameters. Their constraints may mention all of them, and the declaration to which
they belong, which is told of them first. -/
def collectTypeParams (env : Env) (fields : List Source.Field) (known : List Nat → Check Unit) :
    Check (Env × List Nat) := do
  let (env, ids) ← declareTypeParams env (fields.flatMap fun f => f.names.map (·.text))
  known ids
  let constraints ← fields.flatMapM fun f => do
    let t ← constraint goals env f.type
    return f.names.map fun _ => t
  (ids.zip constraints).forM fun (id, t) => setConstraint id t
  return ({ env with typeParams := ids ++ env.typeParams }, ids)

/-- Checks a signature in a scope that has been opened for it. The types are read before any
parameter is declared. -/
def signatureIn (env : Env) (receiver : Option ParamInfo) (sig : Source.Signature) :
    Check FuncHead := do
  let (env, typeParams) ← collectTypeParams goals env sig.typeParams fun _ => pure ()
  let (params, variadic) ← collectParams goals env sig.params
  let (results, _) ← collectParams goals env sig.results
  let env ← declareParams env (receiver.toList ++ params ++ results)
  let named := fun (p : ParamInfo) => (p.name, p.type)
  return {
    type := .func (params.map named) (results.map named) variadic typeParams
    params
    results
    hasNamedResults := sig.results.any fun f => !f.names.isEmpty
    env }

def signature (env : Env) (sig : Source.Signature) : Check FuncHead :=
  signatureIn goals env.enter none sig

def isExported (name : String) : Bool :=
  name.toList.head?.any Text.isUpper

def methodBefore (a b : String × Ty) : Bool :=
  if isExported a.1 == isExported b.1 then a.1 ≤ b.1 else isExported a.1

def interfaceOf (env : Env) (elements : List Source.InterfaceElement) : Check Ty := do
  let parts ← elements.mapM fun
    | .method name sig => do
      require (name.text != "_") "blank method"
      return Sum.inl (name.text, (← signature goals env sig).type)
    | .embedded e => do return Sum.inr (← constraintElement goals env e)
  let methods := parts.filterMap fun
    | .inl m => some m
    | .inr _ => none
  let embedded := parts.filterMap fun
    | .inl _ => none
    | .inr t => some t
  let names := methods.map (·.1)
  require (names.eraseDups.length == names.length) "duplicate method"
  let t := Ty.interface .plain (methods.mergeSort methodBefore) embedded
  defer (.methods t)
  return t

/-! ## Types -/

/-- The type that a type expression stands for. It may be generic if it is a name. -/
def typeRule (env : Env) (e : Source.Expr) : Check Ty := do
  match e with
  | .ident name => namedType goals env name
  | .selector operand field =>
    match ← goals.member? env operand field true with
    | some (.typeName t) => return t
    | _ => reject ("not a type: " ++ field.text)
  | .paren _ e => goals.type env e
  | .star _ e => return .pointer (← goals.varType env e)
  | .arrayType _ none element => return .slice (← goals.varType env element)
  | .arrayType _ (some length) element =>
    match length with
    | .ellipsis _ _ => reject "dots in an array type"
    | _ =>
      let n ← arrayLength goals env length
      return .array n (← goals.varType env element)
  | .mapType _ key value =>
    let k ← goals.varType env key
    let v ← goals.varType env value
    defer (.mapKey k)
    return .map k v
  | .chanType _ d element => return .chan d (← goals.varType env element)
  | .funcType _ sig => return (← signature goals env sig).type
  | .structType _ fields => return .struct (← structFields goals env fields)
  | .interfaceType _ elements => interfaceOf goals env elements
  | .index operand args =>
    let t ← goals (.type env operand)
    instantiate t (← args.mapM (goals.varType env))
  | _ => reject "not a type"

end SsaBlocks.Check
