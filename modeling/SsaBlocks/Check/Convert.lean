import SsaBlocks.Check.Arith

/-!
# Conversions

A constant converted to a type of constants stays a constant.
-/

namespace SsaBlocks.Check

open SsaBlocks.Source (Pos)
open SsaBlocks.Types

/-- The character that a number stands for; all others give the replacement character. -/
def characterOf (n : Int) : Char :=
  if 0 ≤ n ∧ n ≤ 0x10FFFF ∧ !(0xD800 ≤ n ∧ n < 0xE000) then Char.ofNat n.toNat
  else Char.ofNat 0xFFFD

/-- The character that a whole number of any size stands for: a number of 64 bits counts by its last
32 bits. -/
def characterOfLarge (n : Int) : Char :=
  if Constant.fits .uint64 n then characterOf (n.bmod (Nat.pow 2 32)) else Char.ofNat 0xFFFD

def convertConstant? (s : Store) (x : Operand) (c : Constant) (t : Ty) : Option Constant := do
  let b ← s.basic? t
  match c.represent? b with
  | some c => return c
  | none =>
    let source ← s.basic? x.type
    if source.isInteger && b.isString then
      return .string (String.utf8EncodeChar (characterOfLarge (← c.toInt?)))
    else none

/-- Whether an operand can be converted between two types that are no type parameters. -/
def isConvertiblePlain (s : Store) (x : Operand) (t : Ty) : Bool :=
  let v := x.type
  let vu := s.underlying v
  let tu := s.underlying t
  isAssignable s x t || s.identicalIgnoringTags vu tu ||
    (match s.unalias v, s.unalias t with
      | .pointer a, .pointer b =>
        !s.isParam a && !s.isParam b && s.identicalIgnoringTags (s.underlying a) (s.underlying b)
      | _, _ => false) ||
    (match vu, tu with
      | .basic a, .basic b =>
        ((a.isInteger || a.isFloat) && (b.isInteger || b.isFloat)) ||
          (a.isComplex && b.isComplex) || (a.isInteger && b.isString)
      | .basic a, .slice _ => a.isString && s.isBytesOrRunes t
      | .slice _, .basic b => b.isString && s.isBytesOrRunes v
      | .slice a, .array _ b => s.identical a b
      | .slice a, .pointer p =>
        match s.underlying p with
        | .array _ b => s.identical a b
        | _ => false
      | _, _ => false)

/-- Whether an operand can be converted to a type. A type parameter stands for all of its types. -/
def isConvertible (s : Store) (x : Operand) (t : Ty) : Bool :=
  isAssignable s x t ||
    match s.specificTypes x.type, s.specificTypes t with
    | some vs, some ts => vs.all fun v => ts.all (isConvertiblePlain s { x with type := v })
    | _, _ => false

/-- Whether a constant can be converted to what a type stands for, in the type set of a type
parameter. -/
def constantFits (s : Store) (x : Operand) (c : Constant) (t : Ty) : Bool :=
  (s.allBasic Basic.isString x.type && s.isBytesOrRunes t) || (convertConstant? s x c t).isSome

/-- The type that an untyped operand takes in a conversion that is no constant. -/
def finalType (s : Store) (x : Operand) (t : Ty) : Ty :=
  if s.isInterface t || x.isNil || x.isConstant then x.type.defaultType else t

/-- Converts an operand to a type; `tree` says how a conversion that is no constant is compiled. -/
def convert (pos : Pos) (x : Operand) (t : Ty) (tree : Typed.Expr → Typed.Expr) :
    Check Operand := do
  let s ← store
  match x.constant?, s.isParam t, (s.basic? t).any Basic.isConstType with
  | some c, false, true =>
    match convertConstant? s x c t with
    | some c => return constantOperand s pos t c
    | none => reject "constant cannot be converted"
  | some c, true, _ =>
    require (s.allUnderlying (constantFits s x c) t) "constant cannot be converted"
    let x ← convertToDefault x
    return valueOperand pos t (tree x.tree)
  | _, _, _ =>
    require (isConvertible s x t) "cannot be converted"
    let x ← convertTo x (finalType s x t)
    return valueOperand pos t (tree x.tree)

end SsaBlocks.Check
