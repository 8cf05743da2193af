import SsaBlocks.Source.Literal
import SsaBlocks.Types.Scaled

/-!
# Real constants

Whole numbers are exact. Other numbers are exact fractions as long as their parts are not too long;
from then on they have a precision of 512 bits. Once the precision has been lost it stays lost.
-/

namespace SsaBlocks.Types

/-- A real number as constant expressions know it. -/
inductive Real
  | whole (n : Int)
  | ratio (q : Rat)
  | float (x : Scaled)
deriving DecidableEq, Inhabited

namespace Real

/-- The bits of a number that is no longer exact. -/
def precision : Nat := 512

/-- The bound on the bits of the parts of a fraction, and on the top of a number that may become
exact. -/
def maxBits : Nat := 4096

/-- Whether a number is short enough to be a part of a fraction. -/
def isShort (n : Int) : Bool :=
  bitLength n.natAbs < maxBits

/-- Whether a number is of a size that fractions have. -/
def isModerate (x : Scaled) : Bool :=
  -(maxBits : Int) < x.top && x.top < maxBits

/-- Rounds to the precision of inexact numbers. -/
def approximate (x : Scaled) : Scaled :=
  x.round .nearestEven precision

/-- A fraction with the precision of inexact numbers. -/
def ofFraction (q : Rat) : Scaled :=
  Scaled.div precision ⟨q.num, 0⟩ ⟨q.den, 0⟩

/-- A fraction, which is exact if it is short. -/
def ofRat (q : Rat) : Real :=
  if isShort q.num && isShort q.den then ratio q else float (ofFraction q)

/-- A number with the precision of inexact numbers. -/
def toScaled : Real → Scaled
  | whole n => approximate ⟨n, 0⟩
  | ratio q => ofFraction q
  | float x => x

/-- A whole number as a number that need not be whole. -/
def widen : Real → Real
  | whole n => if isShort n then ratio n else float (approximate ⟨n, 0⟩)
  | x => x

def isZero : Real → Bool
  | whole n => n = 0
  | ratio q => q = 0
  | float x => x.significand = 0

/-- The whole number that a number is. An inexact number counts as whole if it becomes so when its
last bits are rounded off. -/
def toInt? : Real → Option Int
  | whole n => some n
  | ratio q => if q.den = 1 then some q.num else none
  | float x =>
    if isModerate x then
      let slack := precision - 4
      (x.toInt?).or (((x.round .towardZero slack).toInt?).or (x.round .awayFromZero slack).toInt?)
    else none

/-! ## Operations -/

inductive Op
  | add
  | sub
  | mul
  | div
deriving DecidableEq, Repr

/-- An operation on inexact numbers. Division is by a number other than zero. -/
def scaledOp : Op → Scaled → Scaled → Scaled
  | .add, x, y => Scaled.add precision x y
  | .sub, x, y => Scaled.add precision x y.neg
  | .mul, x, y => Scaled.mul precision x y
  | .div, x, y => Scaled.div precision x y

def ratOp : Op → Rat → Rat → Rat
  | .add, x, y => x + y
  | .sub, x, y => x - y
  | .mul, x, y => x * y
  | .div, x, y => x / y

/-- An operation on two numbers. It has no result if that is infinite, or if it is a division by
zero. -/
def op? (o : Op) (x y : Real) : Option Real :=
  if o = .div ∧ y.isZero then none
  else
    match o, x, y with
    | .add, whole a, whole b => some (whole (a + b))
    | .sub, whole a, whole b => some (whole (a - b))
    | .mul, whole a, whole b => some (whole (a * b))
    | o, whole a, whole b => some (ofRat (ratOp o a b))
    | o, whole a, ratio b => some (ofRat (ratOp o a b))
    | o, ratio a, whole b => some (ofRat (ratOp o a b))
    | o, ratio a, ratio b => some (ofRat (ratOp o a b))
    | o, x, y => (scaledOp o x.toScaled y.toScaled).limit.map float

def neg : Real → Real
  | whole n => whole (-n)
  | ratio q => ofRat (-q)
  | float x => float x.neg

def less : Real → Real → Bool
  | whole a, whole b => a < b
  | whole a, ratio b => (a : Rat) < b
  | ratio a, whole b => a < (b : Rat)
  | ratio a, ratio b => a < b
  | x, y => x.toScaled.less y.toScaled

def equal (x y : Real) : Bool :=
  !x.less y && !y.less x

/-! ## Literals -/

def digitBits (radix : Nat) : Nat :=
  if radix = 16 then 4 else if radix = 8 then 3 else 1

/-- The exponents of two and of five in a number that is written with a fraction or an exponent. -/
def exponents (n : Source.Literal.Numeral) : Int × Int :=
  let e := n.exponent
  if n.radix = 10 then (e - n.places, e - n.places)
  else (e - n.places * digitBits n.radix, 0)

/-- The product of a number and a power of five, to the precision of inexact numbers. -/
def timesPow5 (x : Scaled) (e : Int) : Option Scaled :=
  if e = 0 then some (approximate x)
  else
    match Scaled.pow5 (precision + 64) e.natAbs with
    | some p =>
      if 0 < e then (Scaled.mul precision x p).limit else (Scaled.div precision x p).limit
    | none => if 0 < e then none else some .zero

/-- The product of a number and powers of two and of five. -/
def exactValue (n : Nat) (two five : Int) : Rat :=
  let power := fun (base : Nat) (e : Int) =>
    if 0 ≤ e then (Nat.pow base e.toNat : Rat) else 1 / (Nat.pow base e.natAbs : Rat)
  (n : Rat) * power 2 two * power 5 five

/-- The value of a number that is written with a fraction or an exponent. Beyond the range of
exponents it has none; one that is too small to be told from zero is zero. -/
def ofNumeral? (n : Source.Literal.Numeral) : Option Real :=
  let (two, five) := exponents n
  if !n.valid || Nat.pow 2 63 ≤ n.exponent.natAbs then none
  else if n.mantissa = 0 then some (ratio 0)
  else
    let start : Scaled := ⟨n.mantissa, two⟩
    if start.top < -(Scaled.maxTop : Int) || (Scaled.maxTop : Int) ≤ start.top then none
    else do
      let x ← timesPow5 start five
      if x.significand = 0 then return ratio 0
      if isModerate x then return ratio (exactValue n.mantissa two five)
      return float x

end Real

end SsaBlocks.Types
