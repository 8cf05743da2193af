import SsaBlocks.Check.Arith
import SsaBlocks.Check.Element

/-!
# Checking calls of predeclared functions
-/

namespace SsaBlocks.Check

open SsaBlocks.Source (Pos)
open SsaBlocks.Types

variable (goals : Goals)

/-- A call of a predeclared function: where it stands, how it is compiled unless it is constant, and
its arguments. -/
structure BuiltinCall where
  pos : Pos
  tree : Typed.Expr
  args : List Operand
  spread : Bool
  /-- Whether all arguments are the results of one call. -/
  fromOne : Bool := false

namespace BuiltinCall

def value (c : BuiltinCall) (t : Ty) : Operand :=
  valueOperand c.pos t c.tree

def noValue (c : BuiltinCall) : Operand :=
  { valueOperand c.pos (.tuple []) c.tree with mode := .noValue, form := .statement }

end BuiltinCall

def sliceElement? : Ty → Option Ty
  | .slice element => some element
  | _ => none

/-- Whether a value of a type can be treated as bytes: each type that it may stand for is a slice of
bytes or a string. Yields also whether one is a string. -/
def bytesOrString (s : Store) (t : Ty) : Bool × Bool :=
  let isString := fun (u : Ty) =>
    match u with
    | .basic b => b.isString
    | _ => false
  let fits := s.allUnderlying (fun u =>
    isString u || (sliceElement? u).any fun e => s.identical e (.basic .byte)) t
  (fits, (s.specificTypes t).any fun ts => ts.any fun t => isString (s.underlying t))

def appendCall (c : BuiltinCall) (first : Operand) (rest : List Operand) : Check Operand := do
  let s ← store
  let special :=
    match c.spread, rest with
    | true, [x] => isAssignable s first (.slice (.basic .byte)) && bytesOrString s x.type == (true, true)
    | _, _ => false
  if special then return c.value first.type
  match s.commonPart? sliceElement? first.type with
  | some element =>
    require (!(c.spread && c.fromOne)) "misplaced dots"
    if c.spread then
      match rest with
      | [x] => discard (assignTo x (some (.slice element)))
      | _ => reject "wrong number of arguments"
    else rest.forM fun x => discard (assignTo x (some element))
    return c.value first.type
  | none => reject "append to something that is no slice"

def copyCall (c : BuiltinCall) (dst src : Operand) : Check Operand := do
  let s ← store
  let special := isAssignable s dst (.slice (.basic .byte)) && (bytesOrString s src.type).1
  let source :=
    (s.commonPart? sliceElement? src.type).or
      (if s.allBasic Basic.isString src.type then some (.basic .byte) else none)
  match special, s.commonPart? sliceElement? dst.type, source with
  | true, _, _ => return { c.value Ty.int with form := .statement }
  | false, some a, some b =>
    require (s.identical a b) "mismatched elements"
    return { c.value Ty.int with form := .statement }
  | _, _, _ => reject "cannot be copied"

def hasLength (s : Store) (isLen : Bool) (u : Ty) : Bool :=
  match u with
  | .basic b => b.isString && isLen
  | .slice _ | .chan _ _ => true
  | .map _ _ => isLen
  | u => (s.array? u).isSome

/-- The length or the capacity of a value. The length of an array is constant unless the argument
contains a call. -/
def lengthCall (c : BuiltinCall) (isLen : Bool) (hasCalls : Bool) (x : Operand) :
    Check Operand := do
  let s ← store
  require (s.allUnderlying (hasLength s isLen) x.type) "no length"
  if s.isParam x.type then return c.value Ty.int
  match s.array? x.type, x.constant? with
  | some (n, _), _ =>
    return if hasCalls then c.value Ty.int else constantOperand s c.pos Ty.int (.int n)
  | none, some (.string bytes) => return constantOperand s c.pos Ty.int (.int bytes.length)
  | none, _ => return c.value Ty.int

/-- The floating-point type of the parts of a complex type. -/
def partType? : Basic → Option Basic
  | .complex64 => some .float32
  | .complex128 => some .float64
  | .untypedComplex => some .untypedFloat
  | _ => none

def complexType? : Basic → Option Basic
  | .float32 => some .complex64
  | .float64 => some .complex128
  | .untypedFloat => some .untypedComplex
  | _ => none

def partCall (c : BuiltinCall) (isReal : Bool) (x : Operand) : Check Operand := do
  let s ← store
  -- An untyped constant number of any kind counts as complex.
  let x ←
    if x.isConstant && x.type.isUntyped && s.allBasic Basic.isNumeric x.type then
      pure { x with type := .basic .untypedComplex }
    else convertTo x (.basic .complex128)
  match (s.basic? x.type).bind partType?, x.constant?.bind Constant.parts? with
  | some b, some (re, im) =>
    return constantOperand s c.pos (.basic b) (.real (if isReal then re else im))
  | some b, none => return c.value (.basic b)
  | none, _ => reject "not a complex number"

/-- An untyped constant number as a floating-point number, if it is a real number. -/
def realConstant (s : Store) (x : Operand) : Operand :=
  if s.allBasic Basic.isNumeric x.type && (x.constant?.bind Constant.toReal?).isSome then
    { x with type := .basic .untypedFloat }
  else x

def complexCall (c : BuiltinCall) (x y : Operand) : Check Operand := do
  let s ← store
  let (x, y) ←
    match x.type.isUntyped, y.type.isUntyped with
    | true, false => do pure (← convertTo x y.type, y)
    | false, true => do pure (x, ← convertTo y x.type)
    | true, true => do
      if x.isConstant && y.isConstant then pure (realConstant s x, realConstant s y)
      else pure (← convertTo x (.basic .float64), ← convertTo y (.basic .float64))
    | false, false => pure (x, y)
  require (s.identical x.type y.type) "mismatched types"
  match (s.basic? x.type).bind complexType? with
  | none => reject "not a real number"
  | some b =>
    let part := fun (x : Operand) => (x.constant?.bind Constant.toReal?).map Real.widen
    match part x, part y with
    | some re, some im => return constantOperand s c.pos (.basic b) (.complex re im)
    | _, _ => return c.value (.basic b)

/-- The least or the largest of some values. All constants among them must fit the type of the
result. -/
def extremeCall (c : BuiltinCall) (isMax : Bool) (first : Operand) (rest : List Operand) :
    Check Operand := do
  let s ← store
  (first :: rest).forM fun x =>
    require (s.allBasic Basic.isOrdered x.type) "not ordered"
  let best ← rest.foldlM (fun (best : Operand) x => do
    let (best, x) ← matchTypes best x
    require (s.identical best.type x.type) "mismatched types"
    match best.constant?, x.constant? with
    | some a, some b =>
      let better := if isMax then Constant.less a b else Constant.less b a
      return if better then x else best
    | _, _ => return c.value best.type) first
  let t := if best.isConstant then best.type else best.type.defaultType
  let awaited := (first :: rest).flatMap awaitedBy
  require (t.isUntyped || awaited.all (settles s t)) "constant does not fit"
  match best.constant? with
  | some v => return constantOperand s c.pos t v
  | none => return c.value t

def makeCall (env : Env) (c : BuiltinCall) (type : Source.Expr) (sizes : List Source.Expr) :
    Check Operand := do
  let t ← goals.varType env type
  let least ← do
    match (← store).core? t with
    | some (.slice _) => pure 1
    | some (.map _ _) | some (.chan _ _) => pure 0
    | _ => reject "cannot be made"
  require (least ≤ sizes.length && sizes.length ≤ least + 1) "wrong number of arguments"
  let ns ← sizes.mapM fun e => do
    let x ← goals.value env e
    -- A size may be written as a whole number of another kind.
    indexValue x
  match ns with
  | [some length, some capacity] => require (length ≤ capacity) "length beyond the capacity"
  | _ => pure ()
  return c.value t

/-- Making a variable of a type, or one that holds a value. -/
def newCall (env : Env) (c : BuiltinCall) (arg : Source.Expr) : Check Operand := do
  let x ← goals.exprOrType env arg
  if x.isType then
    defer (.plain x.type)
    return c.value (.pointer x.type)
  singleValue x
  since 26
  let x ← if x.type.isUntyped then assignTo x none else pure x
  return c.value (.pointer x.type)

/-- A call of a predeclared function whose arguments are values. -/
def valueCall (c : BuiltinCall) (b : Builtin) (hasCalls : Bool) : Check Operand := do
  let s ← store
  match b, c.args with
  | .append, first :: rest => appendCall c first rest
  | .cap, [x] => lengthCall c false hasCalls x
  | .len, [x] => lengthCall c true hasCalls x
  | .clear, [x] =>
    let clearable := fun
      | .map _ _ | .slice _ => true
      | _ => false
    require (s.allUnderlying clearable x.type) "cannot be cleared"
    return c.noValue
  | .close, [x] =>
    let closable := fun
      | .chan d _ => d != .receiveOnly
      | _ => false
    require (s.allUnderlying closable x.type) "cannot be closed"
    return c.noValue
  | .complex, [x, y] => complexCall c x y
  | .copy, [dst, src] => copyCall c dst src
  | .delete, [m, key] =>
    let keyOf := fun
      | .map k _ => some k
      | _ => none
    match s.commonPart? keyOf m.type with
    | some k =>
      discard (assignTo key (some k))
      return c.noValue
    | none => reject "not a map"
  | .imag, [x] => partCall c false x
  | .real, [x] => partCall c true x
  | .max, first :: rest => extremeCall c true first rest
  | .min, first :: rest => extremeCall c false first rest
  | .panic, [x] =>
    discard (assignTo x (some Ty.any))
    modify fun st => { st with panics := c.pos :: st.panics }
    return c.noValue
  | .print, args | .println, args =>
    args.forM fun x => discard (assignTo x none)
    return c.noValue
  | .recover, [] =>
    return { c.value (.interface .plain [] []) with form := .statement }
  | _, _ => reject "wrong arguments"

def builtinRule (env : Env) (pos : Pos) (tree : Typed.Expr) (b : Builtin)
    (args : List Source.Expr) (spread : Bool) : Check Operand := do
  require (!spread || b == .append) "misplaced dots"
  let c : BuiltinCall := { pos, tree, args := [], spread }
  let x ←
    match b, args with
    | .make, type :: sizes => makeCall goals env c type sizes
    | .new, [arg] => newCall goals env c arg
    | .make, [] | .new, _ => reject "wrong number of arguments"
    | _, _ => do
      let before := (← get).calls
      let operands ← goals.values env args
      let hasCalls := before < (← get).calls
      let (least, more) := b.arity
      require (least ≤ operands.length && (more || operands.length == least))
        "wrong number of arguments"
      valueCall { c with args := operands, fromOne := args.length == 1 && 1 < operands.length } b
        hasCalls
  -- Calls with a constant value are no calls.
  if !x.isConstant then modify fun st => { st with calls := st.calls + 1 }
  return x

end SsaBlocks.Check
