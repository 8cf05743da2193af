/-!
# Literals

Numbers, characters and strings as they are written in a source text. Each reader takes the
characters from the start of the literal on and returns its value with the characters after it, or
nothing if the literal is malformed.
-/

namespace SsaBlocks.Source.Literal

/-! ## Numbers -/

def digitValue (c : Char) : Nat :=
  if c.isDigit then c.toNat - '0'.toNat
  else if 'a' ≤ c ∧ c ≤ 'f' then c.toNat - 'a'.toNat + 10
  else if 'A' ≤ c ∧ c ≤ 'F' then c.toNat - 'A'.toNat + 10
  else 16

/-- A digit of a literal in the given base; in the bases below ten all decimal digits belong to
the literal, even if they are too large for it. -/
def isDigitOf (base : Nat) (c : Char) : Bool :=
  if base ≤ 10 then c.isDigit else digitValue c < 16

/-- The digits and separators at the start of a text, and what follows them. -/
def digits (base : Nat) (cs : List Char) : List Char × List Char :=
  let belongs := fun c => isDigitOf base c || c == '_'
  (cs.takeWhile belongs, cs.dropWhile belongs)

/-- The number that digits stand for; separators are left out. -/
def valueOf (base : Nat) (cs : List Char) : Nat :=
  (cs.filter (· != '_')).foldl (fun n c => n * base + digitValue c) 0

/-- The marks at the start of a number that choose its base. -/
inductive Base
  | decimal
  | leadingZero
  | binary
  | octal
  | hexadecimal
deriving DecidableEq

namespace Base

def radix : Base → Nat
  | decimal => 10
  | leadingZero | octal => 8
  | binary => 2
  | hexadecimal => 16

end Base

def basePart : List Char → Base × List Char
  | '0' :: c :: rest =>
    if c == 'x' || c == 'X' then (.hexadecimal, rest)
    else if c == 'o' || c == 'O' then (.octal, rest)
    else if c == 'b' || c == 'B' then (.binary, rest)
    else (.leadingZero, c :: rest)
  | ['0'] => (.leadingZero, [])
  | cs => (.decimal, cs)

/-- Separators stand between digits; the mark of a base counts as a digit. The first argument
tells what came before: a digit, a separator, or anything else. -/
def separated (hexadecimal : Bool) : Option Bool → List Char → Bool
  | before, [] => before != some false
  | before, c :: rest =>
    if c == '_' then before == some true && separated hexadecimal (some false) rest
    else if c.isDigit || (hexadecimal && digitValue c < 16) then
      separated hexadecimal (some true) rest
    else before != some false && separated hexadecimal none rest

def wellSeparated (number : List Char) : Bool :=
  match basePart number with
  | (.hexadecimal, rest) => separated true (some true) rest
  | (.octal, rest) | (.binary, rest) => separated false (some true) rest
  | _ => separated false none number

/-- A number as it is written: the digits of its mantissa as one number, how many of them stand after
the point, and an exponent of ten or, if `binary`, of two. -/
structure Numeral where
  radix : Nat
  mantissa : Nat
  places : Nat := 0
  binary : Bool := false
  exponent : Int := 0
  /-- Whether all digits belong to the radix. -/
  valid : Bool := true
  /-- The number of characters. -/
  length : Nat
deriving DecidableEq, Repr, Inhabited

/-- What a number is: whole, with a fraction or an exponent, or imaginary. -/
inductive Number
  | whole (value : Numeral)
  | fraction (value : Numeral)
  | imaginary (value : Numeral)

/-- The exponent of a number, if it has one: its mark, its value and the characters after it. -/
def exponent? (cs : List Char) : Option (Option (Char × Int) × List Char) :=
  match cs with
  | c :: rest =>
    if c == 'e' || c == 'E' || c == 'p' || c == 'P' then
      let (negative, rest) :=
        match rest with
        | '+' :: rest => (false, rest)
        | '-' :: rest => (true, rest)
        | rest => (false, rest)
      let (ds, rest) := digits 10 rest
      if ds.any Char.isDigit then
        let n : Int := valueOf 10 ds
        some (some (c.toLower, if negative then -n else n), rest)
      else none
    else some (none, cs)
  | [] => some (none, [])

def number? (cs : List Char) : Option (Number × List Char) := do
  let (base, afterMark) := basePart cs
  -- A leading zero is itself a digit.
  let (whole, afterWhole) := digits base.radix afterMark
  let (point, fractionDigits, afterFraction) :=
    match afterWhole with
    | '.' :: rest =>
      let (ds, rest) := digits base.radix rest
      (true, ds, rest)
    | rest => (false, [], rest)
  if point && (base == .octal || base == .binary) then none
  if !(base == .leadingZero || whole.any (· != '_') || fractionDigits.any (· != '_')) then none
  let (exponent, afterExponent) ← exponent? afterFraction
  match exponent with
  | some ('e', _) => if !(base == .decimal || base == .leadingZero) then none
  | some _ => if base != .hexadecimal then none
  | none => if base == .hexadecimal && point then none
  let (imaginary, rest) :=
    match afterExponent with
    | 'i' :: rest => (true, rest)
    | rest => (false, rest)
  let consumed := cs.take (cs.length - rest.length)
  if !wellSeparated consumed then none
  let length := consumed.length
  let fits := fun (radix : Nat) => whole.all fun c => c == '_' || digitValue c < radix
  if !point && exponent.isNone && !imaginary then
    if !fits base.radix then none
    return (.whole { radix := base.radix, mantissa := valueOf base.radix whole, length }, rest)
  -- Fractions and imaginary numbers with a leading zero are decimal.
  let radix := if base == .leadingZero then 10 else base.radix
  let numeral : Numeral :=
    { radix
      mantissa := valueOf radix (whole ++ fractionDigits)
      places := (fractionDigits.filter (· != '_')).length
      binary := exponent.any fun e => e.1 == 'p'
      exponent := (exponent.map (·.2)).getD 0
      valid := fits radix
      length }
  return (if imaginary then .imaginary numeral else .fraction numeral, rest)

/-! ## Characters and strings -/

/-- An escape stands for a byte or for a code point. -/
inductive Escape
  | byte (value : Nat)
  | code (value : Nat)

def fixedDigits? (base : Nat) : Nat → Nat → List Char → Option (Nat × List Char)
  | 0, value, cs => some (value, cs)
  | n + 1, value, c :: cs =>
    if digitValue c < base then fixedDigits? base n (value * base + digitValue c) cs else none
  | _ + 1, _, [] => none

def isCode (n : Nat) : Bool :=
  n ≤ 0x10FFFF && !(0xD800 ≤ n && n < 0xE000)

/-- Reads an escape after its backslash; the quote of the surrounding literal may be escaped. -/
def escape? (quote : Char) : List Char → Option (Escape × List Char)
  | [] => none
  | c :: rest =>
    if c == quote then some (.code c.toNat, rest)
    else match c with
      | 'a' => some (.code 7, rest)
      | 'b' => some (.code 8, rest)
      | 'f' => some (.code 12, rest)
      | 'n' => some (.code 10, rest)
      | 'r' => some (.code 13, rest)
      | 't' => some (.code 9, rest)
      | 'v' => some (.code 11, rest)
      | '\\' => some (.code 92, rest)
      | 'x' => (fixedDigits? 16 2 0 rest).map fun p => (.byte p.1, p.2)
      | 'u' => do
        let (n, rest) ← fixedDigits? 16 4 0 rest
        if isCode n then return (.code n, rest) else none
      | 'U' => do
        let (n, rest) ← fixedDigits? 16 8 0 rest
        if isCode n then return (.code n, rest) else none
      | _ => do
        let (n, rest) ← fixedDigits? 8 3 0 (c :: rest)
        if n ≤ 255 then return (.byte n, rest) else none

def bytesOf (c : Char) : List UInt8 :=
  String.utf8EncodeChar c

def charQuote : Char := Char.ofNat 39

def rawQuote : Char := Char.ofNat 96

/-- Reads a character in single quotes, from after the first quote on. -/
def char? : List Char → Option (Nat × List Char)
  | [] => none
  | c :: rest => do
    if c == '\n' || c == charQuote then none
    let (code, rest) ← if c == '\\' then escape? charQuote rest else some (.code c.toNat, rest)
    let code := match code with
      | .byte n | .code n => n
    match rest with
    | [] => none
    | q :: rest => if q == charQuote then return (code, rest) else none

/-- Reads the contents of a string in double quotes, from after the first quote on. Every step
takes a character, so that the length of the text is fuel enough. -/
def stringBody? : Nat → List UInt8 → List Char → Option (List UInt8 × List Char)
  | 0, _, _ | _, _, [] => none
  | fuel + 1, bytes, c :: rest =>
    if c == '"' then some (bytes.reverse, rest)
    else if c == '\n' then none
    else if c == '\\' then do
      let (e, rest) ← escape? '"' rest
      let more := match e with
        | .byte n => [n.toUInt8]
        | .code n => bytesOf (Char.ofNat n)
      stringBody? fuel (more.reverse ++ bytes) rest
    else stringBody? fuel ((bytesOf c).reverse ++ bytes) rest

/-- Reads a string in double quotes, from after the first quote on. -/
def string? (cs : List Char) : Option (List UInt8 × List Char) :=
  stringBody? (cs.length + 1) [] cs

/-- Reads a raw string, from after the first quote on; carriage returns are left out. -/
def rawString? (cs : List Char) : Option (List UInt8 × List Char) :=
  match cs.dropWhile (· != rawQuote) with
  | [] => none
  | _ :: rest =>
    some (((cs.takeWhile (· != rawQuote)).filter (· != '\r')).flatMap bytesOf, rest)

end SsaBlocks.Source.Literal
