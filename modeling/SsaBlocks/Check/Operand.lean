import SsaBlocks.Check.State

/-!
# Operands

What is known of an expression after it has been checked: whether it is a value, a variable, a
constant, a type, or something else; its type; and its typed tree. Constants and comparisons have no
type of their own until they meet one: `convertTo` gives it to them.
-/

namespace SsaBlocks.Check

open SsaBlocks.Source (Pos)
open SsaBlocks.Types

/-- What an expression denotes. -/
inductive Mode
  | noValue
  | builtin (b : Builtin)
  | type
  | constant (value : Constant)
  | addressable
  | mapElement
  | value
  /-- A value that may come with a flag that tells whether it is there. -/
  | optional
deriving Inhabited

/-- What an expression may be used for if it stands alone. -/
inductive Form
  | expression
  | statement
deriving DecidableEq, Inhabited

structure Operand where
  mode : Mode
  type : Ty
  pos : Pos
  tree : Typed.Expr
  form : Form := .expression
  /-- The type arguments of a generic function that has not been given all of them. -/
  given : List Ty := []
  /-- Constants within the expression that take its type when it is given one, and whether that
  must be an integer type. -/
  awaiting : List (Constant × Bool) := []
deriving Inhabited

namespace Operand

def constant? (x : Operand) : Option Constant :=
  match x.mode with
  | .constant c => some c
  | _ => none

def isConstant (x : Operand) : Bool :=
  x.constant?.isSome

def isNil (x : Operand) : Bool :=
  match x.mode, x.type with
  | .value, .basic .untypedNil => true
  | _, _ => false

/-- Whether an expression denotes a variable. -/
def isAddressable (x : Operand) : Bool :=
  match x.mode with
  | .addressable => true
  | _ => false

def isType (x : Operand) : Bool :=
  match x.mode with
  | .type => true
  | _ => false

def typeParams (x : Operand) : List Nat :=
  match x.type with
  | .func _ _ _ typeParams => typeParams
  | _ => []

end Operand

def sourceType (s : Store) (t : Ty) : Typed.SourceType :=
  match s.basic? t with
  | some .int | some .untypedInt => .value .int
  | some .int64 => .value .long
  | some .bool | some .untypedBool => .value .bool
  | _ => .other (s.text t)

def constantWord : Constant → Int64
  | .bool b => if b then 1 else 0
  | c => Int64.ofInt (c.toInt?.getD 0)

def constantOperand (s : Store) (pos : Pos) (t : Ty) (c : Constant) : Operand :=
  { mode := .constant c, type := t, pos, tree := .const pos (sourceType s t) (constantWord c) }

def valueOperand (pos : Pos) (t : Ty) (tree : Typed.Expr) : Operand :=
  { mode := .value, type := t, pos, tree }

def typeOperand (pos : Pos) (t : Ty) : Operand :=
  { mode := .type, type := t, pos, tree := .unsupported pos "type" }

/-! ## Giving a type -/

/-- The type and, if it is a constant, the value that an untyped operand takes where a basic type is
asked for. -/
def implicitBasic? (x : Operand) (b : Basic) : Option (Option Constant) :=
  match x.constant?, x.type with
  | some c, _ => (c.represent? b).map some
  | none, .basic own =>
    if own.isBoolean && b.isBoolean || own.isNumeric && b.isNumeric || own.isString && b.isString
    then some none else none
  | none, _ => none

/-- The type that an untyped operand takes where a type other than a type parameter is asked for, and
its value there if that changes. A value in an interface has its default type, and nil stays without
one. -/
def implicitPlain? (s : Store) (x : Operand) (target : Ty) : Option (Ty × Option Constant) :=
  match x.type, target with
  | .basic a, .basic b =>
    if b.isUntyped then (a.join? b).map fun j => (.basic j, none)
    else (implicitBasic? x b).map fun c => (target, c)
  | _, _ =>
    match s.underlying target with
    | .basic b => (implicitBasic? x b).map fun c => (target, c)
    | .interface _ _ _ =>
      if x.isNil then some (x.type, none)
      else if (s.typeSet target).isAll then some (x.type.defaultType, none)
      else none
    | .pointer _ | .func _ _ _ _ | .slice _ | .map _ _ | .chan _ _ =>
      if x.isNil then some (x.type, none) else none
    | _ => none

/-- The type that an untyped operand takes where a type is asked for, and its value there if that
changes. A type parameter must be able to have the value in all its types. -/
def implicit? (s : Store) (x : Operand) (target : Ty) : Option (Ty × Option Constant) :=
  if s.isParam target then
    if s.allUnderlying (fun t => (implicitPlain? s x t).isSome) target then
      some (if x.isNil then x.type else target, none)
    else none
  else implicitPlain? s x target

/-- A constant that awaits a type must be representable in it, and its type may have to be an
integer type. -/
def settles (s : Store) (t : Ty) (awaited : Constant × Bool) : Bool :=
  let x := constantOperand s {} (.basic .untypedComplex) awaited.1
  let x := match awaited.1 with
    | .bool _ => { x with type := .basic .untypedBool }
    | .string _ => { x with type := .basic .untypedString }
    | _ => x
  (!awaited.2 || s.allBasic Basic.isInteger t) && (implicit? s x t).isSome

/-- Gives an untyped operand the type that it takes where a type is asked for. Operands with a type
are left alone, and nil stays without one. -/
def convertTo (x : Operand) (target : Ty) : Check Operand := do
  if !x.type.isUntyped then return x
  let s ← store
  match implicit? s x target with
  | none => reject "untyped value does not fit"
  | some (t, value) =>
    match x.constant? with
    | some c =>
      let c := value.getD c
      -- A value that keeps its precision must nevertheless fit the type.
      require (t.isUntyped || settles s t (c, false)) "constant does not fit"
      return { constantOperand s x.pos t c with form := x.form }
    | none =>
      if t.isUntyped then return { x with type := t }
      require (x.awaiting.all (settles s t)) "constant does not fit"
      return { x with type := t, awaiting := [] }

def convertToDefault (x : Operand) : Check Operand :=
  convertTo x x.type.defaultType

def singleValue (x : Operand) : Check Unit := do
  match x.mode, x.type with
  | .noValue, _ => reject "no value"
  | .builtin _, _ => reject "a predeclared function must be called"
  | .type, _ => reject "a type is no value"
  | _, .tuple _ => reject "several values"
  | _, _ => pure ()

def isAssignable (s : Store) (x : Operand) (t : Ty) : Bool :=
  s.identical x.type t ||
    if x.type.isUntyped then (implicit? s x t).isSome else s.assignable x.type t

/-- Assigns an operand to a variable of a type, or to the blank one. In an interface it has its
default type. -/
def assignTo (x : Operand) (target : Option Ty) : Check Operand := do
  singleValue x
  let s ← store
  require (!(x.isNil && target.isNone)) "use of nil without a type"
  let x ← convertTo x <|
    match target with
    | some t => if s.isInterface t then x.type.defaultType else t
    | none => x.type.defaultType
  require x.typeParams.isEmpty "a generic function is no value"
  match target with
  | none => return x
  | some t =>
    require (isAssignable s x t) "not assignable"
    return x

/-- An operation on operands without types: both get the type of the other if that is allowed. -/
def matchTypes (x y : Operand) : Check (Operand × Operand) := do
  let s ← store
  if !x.type.isUntyped && !y.type.isUntyped then return (x, y)
  let isPointer := fun (t : Ty) =>
    match s.underlying t with
    | .pointer _ => true
    | _ => false
  let may :=
    if s.isInterface x.type || s.isInterface y.type then true
    else if s.allBasic Basic.isBoolean x.type != s.allBasic Basic.isBoolean y.type then false
    else if s.allBasic Basic.isString x.type != s.allBasic Basic.isString y.type then false
    else if x.isNil then s.hasNil y.type
    else if y.isNil then s.hasNil x.type
    else !(isPointer x.type || isPointer y.type)
  if !may then return (x, y)
  let x ← convertTo x y.type
  let y ← convertTo y x.type
  return (x, y)

end SsaBlocks.Check
