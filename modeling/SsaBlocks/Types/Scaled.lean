/-!
# Numbers with a limited precision

A number of great or small size is kept as a significand and a power of two. Operations are exact up
to a final rounding to a number of bits. The exponents have a range; beyond it a number is infinite
or zero.
-/

namespace SsaBlocks.Types

/-- The number `significand * 2 ^ exponent`. -/
structure Scaled where
  significand : Int
  exponent : Int
deriving DecidableEq, Repr, Inhabited

/-- Where a number goes that lies between two others. -/
inductive Rounding
  | nearestEven
  | towardZero
  | awayFromZero
deriving DecidableEq, Repr

def bitLength (n : Nat) : Nat :=
  if n = 0 then 0 else n.log2 + 1

/-- The whole number nearest to a quotient, with ties to the even one. -/
def roundHalfEven (num den : Nat) : Nat :=
  let q := num / den
  let r := num % den
  if 2 * r < den then q
  else if den < 2 * r then q + 1
  else if q % 2 = 0 then q else q + 1

def Rounding.quotient : Rounding → Nat → Nat → Nat
  | nearestEven, num, den => roundHalfEven num den
  | towardZero, num, den => num / den
  | awayFromZero, num, den => if num % den = 0 then num / den else num / den + 1

namespace Scaled

def zero : Scaled := ⟨0, 0⟩

/-- The least exponent whose power of two is greater than a number, apart from its sign. -/
def top (x : Scaled) : Int :=
  bitLength x.significand.natAbs + x.exponent

/-- A number with a significand of exactly the given number of bits; zero has none. -/
def round (mode : Rounding) (bits : Nat) (x : Scaled) : Scaled :=
  let n := x.significand.natAbs
  let length := bitLength n
  if n = 0 then zero
  else if length ≤ bits then
    ⟨x.significand * (Nat.pow 2 (bits - length) : Nat), x.exponent - (bits - length : Nat)⟩
  else
    let shift := length - bits
    let q := mode.quotient n (Nat.pow 2 shift)
    -- Rounding may have carried into one more bit.
    let (q, shift) := if q = Nat.pow 2 bits then (q / 2, shift + 1) else (q, shift)
    ⟨x.significand.sign * q, x.exponent + shift⟩

def neg (x : Scaled) : Scaled :=
  { x with significand := -x.significand }

def mul (bits : Nat) (x y : Scaled) : Scaled :=
  round .nearestEven bits ⟨x.significand * y.significand, x.exponent + y.exponent⟩

/-- A quotient. The remainder is kept as one more bit, which decides how it is rounded. -/
def div (bits : Nat) (x y : Scaled) : Scaled :=
  let n := x.significand.natAbs
  let d := y.significand.natAbs
  let shift := bits + 2 + bitLength d - bitLength n
  let n := n * Nat.pow 2 shift
  let q := 2 * (n / d) + (if n % d = 0 then 0 else 1)
  round .nearestEven bits
    ⟨x.significand.sign * y.significand.sign * q, x.exponent - y.exponent - shift - 1⟩

/-- The greatest distance over which two exponents are aligned. It is far beyond the precision of
the numbers, so that past it the smaller summand only decides how the sum is rounded. -/
def maxAlignment : Nat := 8192

def add (bits : Nat) (x y : Scaled) : Scaled :=
  if x.significand = 0 then y
  else if y.significand = 0 then x
  else
    let (high, low) := if y.exponent ≤ x.exponent then (x, y) else (y, x)
    let gap := (high.exponent - low.exponent).toNat
    if gap ≤ maxAlignment then
      round .nearestEven bits
        ⟨high.significand * (Nat.pow 2 gap : Nat) + low.significand, low.exponent⟩
    else
      round .nearestEven bits
        ⟨high.significand * (Nat.pow 2 maxAlignment : Nat) + low.significand.sign,
          high.exponent - maxAlignment⟩

/-- Whether one number is less than another, if both have significands of equal length. -/
def less (x y : Scaled) : Bool :=
  if x.significand.sign ≠ y.significand.sign then x.significand < y.significand
  else if x.exponent = y.exponent then x.significand < y.significand
  else if 0 < x.significand then x.exponent < y.exponent
  else y.exponent < x.exponent

def toInt? (x : Scaled) : Option Int :=
  if 0 ≤ x.exponent then some (x.significand * (Nat.pow 2 x.exponent.toNat : Nat))
  else
    let unit : Int := (Nat.pow 2 x.exponent.natAbs : Nat)
    if x.significand % unit = 0 then some (x.significand / unit) else none

def toRat (x : Scaled) : Rat :=
  if 0 ≤ x.exponent then (x.significand * (Nat.pow 2 x.exponent.toNat : Nat) : Int)
  else mkRat x.significand (Nat.pow 2 x.exponent.natAbs)

/-! ## The range of exponents -/

def maxTop : Nat := 2147483648

/-- A number within the range of exponents; none if it is infinite. -/
def limit (x : Scaled) : Option Scaled :=
  if (maxTop : Int) ≤ x.top then none
  else if x.top < -(maxTop : Int) then some zero
  else some x

/-! ## Powers of five -/

/-- The largest exponent of a power of five that is a word. -/
def exactPower : Nat := 27

/-- Multiplies by a power of five whose exponent is given by its binary digits. `square` is the power
of five that belongs to the next digit, and none if it is infinite. -/
def timesPow5 : Nat → Nat → Nat → Scaled → Option Scaled → Option Scaled
  | 0, _, _, x, _ => some x
  | fuel + 1, bits, n, x, square =>
    if n = 0 then some x
    else do
      let x ← if n % 2 = 1 then (mul bits x (← square)).limit else some x
      let square := square.bind fun s => (mul (bits + 64) s s).limit
      timesPow5 fuel bits (n / 2) x square

/-- A power of five to a precision of the given number of bits; none if it is infinite. -/
def pow5 (bits n : Nat) : Option Scaled :=
  if n ≤ exactPower then some (round .nearestEven bits ⟨(Nat.pow 5 n : Nat), 0⟩)
  else
    timesPow5 (bitLength n) bits (n - exactPower)
      (round .nearestEven bits ⟨(Nat.pow 5 exactPower : Nat), 0⟩) (some ⟨5, 0⟩)

end Scaled

end SsaBlocks.Types
