import SsaBlocks.Check.Goal

/-!
# Checking operators

Unary and binary operators, comparisons and shifts. Operations on constants are carried out.
-/

namespace SsaBlocks.Check

open SsaBlocks.Source (Pos)
open SsaBlocks.Types

/-- The value of a constant operation must fit its type, and an untyped one must not grow beyond
all bounds. -/
def constantResult (pos : Pos) (t : Ty) (c : Constant) : Check Operand := do
  let s ← store
  match s.basic? t with
  | none => reject "constant of a type without constants"
  | some b =>
    if b.isUntyped then
      require (!c.isExcessive) "constant is too large"
      return constantOperand s pos t c
    else
      match c.represent? b with
      | some c => return constantOperand s pos t c
      | none => reject "constant does not fit"

/-! ## Unary operators -/

def unaryAllows : String → Basic → Bool
  | "+", b | "-", b => b.isNumeric
  | "^", b => b.isInteger
  | "!", b => b.isBoolean
  | _, _ => false

def unaryOp : String → Typed.UnaryOp
  | "+" => .plus
  | "-" => .neg
  | "!" => .not
  | o => .other o

/-- An operator with one operand, other than the address of a variable and the receive from a
channel. -/
def unary (pos : Pos) (op : String) (x : Operand) : Check Operand := do
  let s ← store
  require (s.allBasic (unaryAllows op) x.type) "operator not defined"
  match x.constant?, s.basic? x.type with
  | some c, some b =>
    match c.unary? op b with
    | some c => constantResult pos x.type c
    | none => reject "operator not defined"
  | _, _ =>
    return { valueOperand pos x.type (.unary pos (unaryOp op) x.tree) with
      awaiting := x.awaiting }

/-! ## Binary operators -/

def opcode? : String → Option Opcode
  | "+" => some .add
  | "-" => some .sub
  | "*" => some .mul
  | "/" => some .div
  | "%" => some .mod
  | "&" => some .and
  | "|" => some .or
  | "==" => some .eq
  | "!=" => some .neq
  | "<" => some .lt
  | "<=" => some .lte
  | ">" => some .gt
  | ">=" => some .gte
  | _ => none

def binaryTree (pos : Pos) (op : String) (left right : Typed.Expr) : Typed.Expr :=
  match op with
  | "&&" => .logical .both left right
  | "||" => .logical .either left right
  | _ =>
    match opcode? op with
    | some o => .binary o left right
    | none => .unsupported pos ("operator " ++ op)

def awaitedBy (x : Operand) : List (Constant × Bool) :=
  match x.constant? with
  | some c => if x.type.isUntyped then [(c, false)] else []
  | none => x.awaiting

def binaryAllows (op : String) (b : Basic) : Bool :=
  match op with
  | "+" => b.isNumeric || b.isString
  | "-" | "*" | "/" => b.isNumeric
  | "%" | "&" | "|" | "^" | "&^" => b.isInteger
  | "&&" | "||" => b.isBoolean
  | _ => false

def comparisons : List String :=
  ["==", "!=", "<", "<=", ">", ">="]

/-- A comparison. Its result has no type yet. -/
def comparison (pos : Pos) (op : String) (x y : Operand) : Check Operand := do
  let s ← store
  require (isAssignable s x y.type || isAssignable s y x.type) "mismatched types"
  if op == "==" || op == "!=" then
    if x.isNil || y.isNil then
      require (s.hasNil (if x.isNil then y.type else x.type)) "nil"
    else
      require (s.comparable x.type && s.comparable y.type) "not comparable"
  else
    require (s.allBasic Basic.isOrdered x.type && s.allBasic Basic.isOrdered y.type) "not ordered"
  match x.constant?, y.constant? with
  | some c, some d =>
    match Constant.compare? op c d with
    | some b => return constantOperand s pos (.basic .untypedBool) (.bool b)
    | none => reject "not comparable"
  | _, _ =>
    let x ← if x.isNil then pure x else convertToDefault x
    let y ← if y.isNil then pure y else convertToDefault y
    return valueOperand pos (.basic .untypedBool) (binaryTree pos op x.tree y.tree)

def maxShift : Nat := 1074

/-- A shift. If its operand is an untyped constant and the count is not constant, the operand takes
the type that the shift is given. -/
def shift (pos : Pos) (op : String) (x y : Operand) : Check Operand := do
  let s ← store
  let xInt := x.constant?.bind Constant.toInt?
  require (s.allBasic Basic.isInteger x.type || (x.type.isUntyped && xInt.isSome))
    "shifted operand is no integer"
  match y.constant? with
  | some d =>
    match d.toInt? with
    | some n => require (0 ≤ n) "negative shift count"
    | none => pure ()
    if y.type.isUntyped then
      require (d.represent? .uint).isSome "bad shift count"
    else require (s.allBasic Basic.isInteger y.type) "shift count is no integer"
  | none =>
    if !s.allBasic Basic.isInteger y.type then
      require y.type.isUntyped "shift count is no integer"
      discard (convertTo y (.basic .uint))
  let tree := Typed.Expr.unsupported pos ("operator " ++ op)
  match x.constant?, y.constant? with
  | some _, some d =>
    match xInt, d.toInt? with
    | some n, some k =>
      require (k.toNat ≤ maxShift) "shift count is too large"
      let t := if s.allBasic Basic.isInteger x.type then x.type else .basic .untypedInt
      constantResult pos t (.int (Constant.shift (op == "<<") n k.toNat))
    | _, _ => reject "bad shift"
  | some c, none =>
    if x.type.isUntyped then
      return { valueOperand pos x.type tree with awaiting := [(c, true)] }
    return valueOperand pos x.type tree
  | none, _ =>
    return { valueOperand pos x.type tree with
      awaiting := x.awaiting.map fun a => (a.1, true) }

def binary (pos : Pos) (op : String) (x y : Operand) : Check Operand := do
  if op == "<<" || op == ">>" then return ← shift pos op x y
  let (x, y) ← matchTypes x y
  if comparisons.contains op then return ← comparison pos op x y
  let s ← store
  require (s.identical x.type y.type) "mismatched types"
  require (s.allBasic (binaryAllows op) x.type) "operator not defined"
  if op == "/" || op == "%" then
    let zero := y.constant?.any Constant.isZero
    require (!(zero && (x.isConstant || s.allBasic Basic.isInteger x.type))) "division by zero"
    -- The square of a divisor may be zero although it is not.
    let vanishes := y.constant?.any Constant.hasZeroSquare
    require (!(vanishes && x.isConstant && s.allBasic Basic.isComplex x.type)) "division by zero"
  match x.constant?, y.constant? with
  | some c, some d =>
    match Constant.binary? op (s.allBasic Basic.isInteger x.type) c d with
    | some r => constantResult pos x.type r
    | none => reject "operator not defined"
  | _, _ =>
    return { valueOperand pos x.type (binaryTree pos op x.tree y.tree) with
      awaiting := awaitedBy x ++ awaitedBy y }

end SsaBlocks.Check
