import SsaBlocks.Types.Basic
import SsaBlocks.Types.Real

/-!
# Constants

The values of constant expressions. A number is rounded to the precision of a floating-point type
only when it is given that type.
-/

namespace SsaBlocks.Types

/-- The value of a constant expression; a string is the list of its bytes. -/
inductive Constant
  | bool (value : Bool)
  | string (bytes : List UInt8)
  | real (x : Real)
  | complex (re im : Real)
deriving DecidableEq, Inhabited

namespace Constant

def int (n : Int) : Constant :=
  real (.whole n)

def toReal? : Constant → Option Real
  | real x => some x
  | complex re im => if im.isZero then some re else none
  | _ => none

def toInt? (c : Constant) : Option Int :=
  c.toReal? >>= Real.toInt?

def parts? : Constant → Option (Real × Real)
  | real x => some (x, .whole 0)
  | complex re im => some (re, im)
  | _ => none

def isZero (c : Constant) : Bool :=
  c.parts?.any fun p => p.1.isZero && p.2.isZero

/-! ## Rounding -/

/-- A binary floating-point format: the bits of the significand and the least and the largest
exponent of a number whose significand is between one and two. -/
structure FloatFormat where
  precision : Nat
  minExponent : Int
  maxExponent : Int

def FloatFormat.single : FloatFormat := ⟨24, -126, 127⟩

def FloatFormat.double : FloatFormat := ⟨53, -1022, 1023⟩

def pow2 (e : Int) : Rat :=
  if e < 0 then 1 / (Nat.pow 2 e.natAbs : Rat) else (Nat.pow 2 e.toNat : Rat)

/-- The exponent of a positive number whose significand is between one and two. -/
def exponentOf (num den : Nat) : Int :=
  let guess : Int := (num.log2 : Int) - (den.log2 : Int)
  -- The guess is right or one too large.
  if 0 ≤ guess then
    if num < den * Nat.pow 2 guess.toNat then guess - 1 else guess
  else
    if num * Nat.pow 2 guess.natAbs < den then guess - 1 else guess

/-- The number of a format nearest to a fraction, if it is not too large. -/
def FloatFormat.roundRat? (f : FloatFormat) (q : Rat) : Option Rat :=
  if q = 0 then some 0
  else
    let num := q.num.natAbs
    let e := max (exponentOf num q.den) f.minExponent
    -- The weight of the last bit.
    let unit := e - ((f.precision : Int) - 1)
    let m :=
      if 0 ≤ unit then roundHalfEven num (q.den * Nat.pow 2 unit.toNat)
      else roundHalfEven (num * Nat.pow 2 unit.natAbs) q.den
    let magnitude := (m : Rat) * pow2 unit
    if pow2 (f.maxExponent + 1) ≤ magnitude then none
    else some (if q.num < 0 then -magnitude else magnitude)

/-- The number of a format nearest to a number, if it is not too large. -/
def FloatFormat.round? (f : FloatFormat) (x : Real) : Option Real :=
  match x with
  | .whole n => (f.roundRat? n).map .ratio
  | .ratio q => (f.roundRat? q).map .ratio
  | .float x =>
    -- Numbers far out of the range need not be written out.
    if f.maxExponent + 2 < x.top then none
    else if x.top < f.minExponent - f.precision - 1 then some (.ratio 0)
    else (f.roundRat? x.toRat).map .ratio

/-! ## Representability -/

def fits (b : Basic) (n : Int) : Bool :=
  match b with
  | .untypedInt | .untypedRune => true
  | _ =>
    if b.isUnsigned then 0 ≤ n && n < Nat.pow 2 b.bits
    else -(Nat.pow 2 (b.bits - 1) : Int) ≤ n && n < Nat.pow 2 (b.bits - 1)

/-- The constant as a value of a type, rounded if it is a floating-point type, or nothing if the
type has no such value. -/
def represent? (c : Constant) (b : Basic) : Option Constant :=
  if b.isInteger then do
    let n ← c.toInt?
    if fits b n then some (int n) else none
  else match b with
    | .float32 => do return real (← FloatFormat.single.round? (← c.toReal?).widen)
    | .float64 => do return real (← FloatFormat.double.round? (← c.toReal?).widen)
    | .untypedFloat => do
      let _ ← c.toReal?
      return c
    | .complex64 => do
      let (re, im) ← c.parts?
      return complex (← FloatFormat.single.round? re) (← FloatFormat.single.round? im)
    | .complex128 => do
      let (re, im) ← c.parts?
      return complex (← FloatFormat.double.round? re) (← FloatFormat.double.round? im)
    | .untypedComplex => do
      let _ ← c.parts?
      return c
    | b =>
      match c with
      | .string _ => if b.isString then some c else none
      | .bool _ => if b.isBoolean then some c else none
      | _ => none

/-! ## Operations -/

/-- The bits that are set in both numbers, negative numbers having infinitely many. -/
def bitAnd : Int → Int → Int
  | .ofNat a, .ofNat b => (a &&& b : Nat)
  | .ofNat a, .negSucc b => (a - (a &&& b) : Nat)
  | .negSucc a, .ofNat b => (b - (b &&& a) : Nat)
  | .negSucc a, .negSucc b => .negSucc (a ||| b)

def bitNot (a : Int) : Int :=
  -a - 1

def bitOr (a b : Int) : Int :=
  bitNot (bitAnd (bitNot a) (bitNot b))

def bitXor (a b : Int) : Int :=
  bitAnd (bitOr a b) (bitNot (bitAnd a b))

/-- An operation on whole numbers; division is truncated. -/
def intOp? (op : String) (a b : Int) : Option Int :=
  match op with
  | "+" => some (a + b)
  | "-" => some (a - b)
  | "*" => some (a * b)
  | "/" => if b = 0 then none else some (a.tdiv b)
  | "%" => if b = 0 then none else some (a.tmod b)
  | "&" => some (bitAnd a b)
  | "|" => some (bitOr a b)
  | "^" => some (bitXor a b)
  | "&^" => some (bitAnd a (bitNot b))
  | _ => none

def realOp? : String → Option Real.Op
  | "+" => some .add
  | "-" => some .sub
  | "*" => some .mul
  | "/" => some .div
  | _ => none

def complexOp? (o : Real.Op) (a b c d : Real) : Option Constant :=
  match o with
  | .add => do return complex (← Real.op? .add a c) (← Real.op? .add b d)
  | .sub => do return complex (← Real.op? .sub a c) (← Real.op? .sub b d)
  | .mul => do
    let ac ← Real.op? .mul a c
    let bd ← Real.op? .mul b d
    let bc ← Real.op? .mul b c
    let ad ← Real.op? .mul a d
    return complex (← Real.op? .sub ac bd) (← Real.op? .add bc ad)
  | .div => do
    let ac ← Real.op? .mul a c
    let bd ← Real.op? .mul b d
    let bc ← Real.op? .mul b c
    let ad ← Real.op? .mul a d
    let s ← Real.op? .add (← Real.op? .mul c c) (← Real.op? .mul d d)
    return complex (← Real.op? .div (← Real.op? .add ac bd) s)
      (← Real.op? .div (← Real.op? .sub bc ad) s)

def numberOp? (o : Real.Op) : Constant → Constant → Option Constant
  | .real x, .real y => (Real.op? o x y).map real
  | x, y => do
    let (a, b) ← x.parts?
    let (c, d) ← y.parts?
    complexOp? o a b c d

def binary? (op : String) (isInteger : Bool) (x y : Constant) : Option Constant :=
  match x, y with
  | .bool a, .bool b =>
    match op with
    | "&&" => some (.bool (a && b))
    | "||" => some (.bool (a || b))
    | _ => none
  | .string a, .string b => if op = "+" then some (.string (a ++ b)) else none
  | x, y =>
    if isInteger then do
      return int (← intOp? op (← x.toInt?) (← y.toInt?))
    else do numberOp? (← realOp? op) x y

/-- Whether the bytes of one string come before those of another. -/
def bytesLess : List UInt8 → List UInt8 → Bool
  | [], [] => false
  | [], _ :: _ => true
  | _ :: _, [] => false
  | a :: as, b :: bs => a < b || (a == b && bytesLess as bs)

def less (x y : Constant) : Bool :=
  match x, y with
  | .string a, .string b => bytesLess a b
  | _, _ =>
    match x.toReal?, y.toReal? with
    | some a, some b => a.less b
    | _, _ => false

def equal (x y : Constant) : Bool :=
  match x.parts?, y.parts? with
  | some (a, b), some (c, d) => a.equal c && b.equal d
  | _, _ => x == y

def compare? (op : String) (x y : Constant) : Option Bool :=
  match op with
  | "==" => some (equal x y)
  | "!=" => some !(equal x y)
  | "<" => some (less x y)
  | "<=" => some (!less y x)
  | ">" => some (less y x)
  | ">=" => some (!less x y)
  | _ => none

def unary? (op : String) (type : Basic) (x : Constant) : Option Constant :=
  match op, x with
  | "!", .bool b => some (.bool !b)
  | "+", x => x.parts?.map fun _ => x
  | "-", .real x => some (real x.neg)
  | "-", .complex re im => some (complex re.neg im.neg)
  | "^", x => do
    let n ← x.toInt?
    return int (if type.isUnsigned then (Nat.pow 2 type.bits : Int) - 1 - n else bitNot n)
  | _, _ => none

def shift (left : Bool) (n : Int) (count : Nat) : Int :=
  if left then n * Nat.pow 2 count else n.fdiv (Nat.pow 2 count)

/-- Whether a whole number is too large for an untyped constant. -/
def isExcessive : Constant → Bool
  | .real (.whole n) => Real.precision < bitLength n.natAbs
  | _ => false

def hasZeroSquare (c : Constant) : Bool :=
  c.parts?.any fun p =>
    (Real.op? .mul p.1 p.1).any Real.isZero && (Real.op? .mul p.2 p.2).any Real.isZero

/-! ## Telling constants apart -/

/-- The values by which constants of a switch are told apart. Numbers that are not exact in the
formats of 64 bits have none, nor have complex numbers and truth values. -/
def caseKey? : Constant → Option Constant
  | .real (.whole n) => if fits .int64 n || fits .uint64 n then some (int n) else none
  | .real x => do
    let y ← FloatFormat.double.round? x
    if y.equal x then some (.real y) else none
  | .string bytes => some (.string bytes)
  | _ => none

end Constant

end SsaBlocks.Types
