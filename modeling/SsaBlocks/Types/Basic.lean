/-!
# Basic types

The predeclared types of booleans, numbers and strings, the types that constants have before they
are given one, and their properties.
-/

namespace SsaBlocks.Types

/-- The basic types. `byte` and `rune` are other names of `uint8` and `int32`. -/
inductive Basic
  | bool
  | string
  | int
  | int8
  | int16
  | int32
  | int64
  | uint
  | uint8
  | uint16
  | uint32
  | uint64
  | uintptr
  | float32
  | float64
  | complex64
  | complex128
  | byte
  | rune
  | untypedBool
  | untypedInt
  | untypedRune
  | untypedFloat
  | untypedComplex
  | untypedString
  | untypedNil
deriving DecidableEq, Repr, Inhabited

namespace Basic

def predeclared : List Basic :=
  [bool, string, int, int8, int16, int32, int64, uint, uint8, uint16, uint32, uint64, uintptr,
    float32, float64, complex64, complex128, byte, rune]

def name : Basic → String
  | bool => "bool"
  | string => "string"
  | int => "int"
  | int8 => "int8"
  | int16 => "int16"
  | int32 => "int32"
  | int64 => "int64"
  | uint => "uint"
  | uint8 => "uint8"
  | uint16 => "uint16"
  | uint32 => "uint32"
  | uint64 => "uint64"
  | uintptr => "uintptr"
  | float32 => "float32"
  | float64 => "float64"
  | complex64 => "complex64"
  | complex128 => "complex128"
  | byte => "byte"
  | rune => "rune"
  | untypedBool => "untyped bool"
  | untypedInt => "untyped int"
  | untypedRune => "untyped rune"
  | untypedFloat => "untyped float"
  | untypedComplex => "untyped complex"
  | untypedString => "untyped string"
  | untypedNil => "untyped nil"

def canonical : Basic → Basic
  | byte => uint8
  | rune => int32
  | b => b

/-- Types of constants and results that have not been given a type. -/
def isUntyped : Basic → Bool
  | untypedBool | untypedInt | untypedRune | untypedFloat | untypedComplex | untypedString
  | untypedNil => true
  | _ => false

def isBoolean : Basic → Bool
  | bool | untypedBool => true
  | _ => false

def isString : Basic → Bool
  | string | untypedString => true
  | _ => false

def isUnsigned : Basic → Bool
  | uint | uint8 | uint16 | uint32 | uint64 | uintptr | byte => true
  | _ => false

def isInteger : Basic → Bool
  | int | int8 | int16 | int32 | int64 | rune | untypedInt | untypedRune => true
  | b => b.isUnsigned

/-- Types of real numbers that are not whole. -/
def isFloat : Basic → Bool
  | float32 | float64 | untypedFloat => true
  | _ => false

def isComplex : Basic → Bool
  | complex64 | complex128 | untypedComplex => true
  | _ => false

def isNumeric (b : Basic) : Bool :=
  b.isInteger || b.isFloat || b.isComplex

def isOrdered (b : Basic) : Bool :=
  b.isInteger || b.isFloat || b.isString

def isConstType (b : Basic) : Bool :=
  b.isBoolean || b.isNumeric || b.isString

def bits : Basic → Nat
  | int8 | uint8 | byte => 8
  | int16 | uint16 => 16
  | int32 | uint32 | rune => 32
  | _ => 64

/-- The type that an untyped value takes where none is asked for. -/
def defaultType : Basic → Basic
  | untypedBool => bool
  | untypedInt => int
  | untypedRune => rune
  | untypedFloat => float64
  | untypedComplex => complex128
  | untypedString => string
  | b => b

/-- The order of the untyped kinds of numbers. -/
def untypedRank : Basic → Option Nat
  | untypedInt => some 0
  | untypedRune => some 1
  | untypedFloat => some 2
  | untypedComplex => some 3
  | _ => none

/-- The untyped type of an operation on two untyped values. -/
def join? (a b : Basic) : Option Basic :=
  if a = b then some a
  else match a.untypedRank, b.untypedRank with
    | some m, some n => some (if m < n then b else a)
    | _, _ => none

end Basic

end SsaBlocks.Types
