import SsaBlocks.Text.Digit
import SsaBlocks.Text.Letter
import SsaBlocks.Text.Printable
import SsaBlocks.Text.Upper

/-!
# Character classes

Letters, capital letters, decimal digits, spaces and printable characters of all scripts.
-/

namespace SsaBlocks.Text

/-- Whether a code point belongs to the class with the given runs: the lengths of the stretches of
code points that are outside and inside of the class, in turn. -/
def inRuns : List Nat → Nat → Bool
  | outside :: inside :: rest, n =>
    if n < outside then false
    else if n < outside + inside then true
    else inRuns rest (n - (outside + inside))
  | _, _ => false

def isLetter (c : Char) : Bool :=
  if c.toNat < 128 then c.isAlpha else inRuns letterRuns c.toNat

/-- Capital letters of all scripts. -/
def isUpper (c : Char) : Bool :=
  if c.toNat < 128 then c.isUpper else inRuns upperRuns c.toNat

def isDigit (c : Char) : Bool :=
  if c.toNat < 128 then c.isDigit else inRuns digitRuns c.toNat

/-- Characters that stand for themselves in a quoted text. -/
def isPrintable (c : Char) : Bool :=
  if c.toNat < 128 then 32 ≤ c.toNat && c.toNat < 127 else inRuns printableRuns c.toNat

def spaceRuns : List Nat := [
  9, 5, 18, 1, 100, 1, 26, 1, 5599, 1, 2431, 11, 29, 2, 5, 1, 47, 1, 4000, 1]

/-- Spaces and line ends of all scripts. -/
def isSpace (c : Char) : Bool :=
  inRuns spaceRuns c.toNat

def trim (cs : List Char) : List Char :=
  ((cs.dropWhile isSpace).reverse.dropWhile isSpace).reverse

end SsaBlocks.Text
