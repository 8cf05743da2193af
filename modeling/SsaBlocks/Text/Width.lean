import SsaBlocks.Text.Cluster
import SsaBlocks.Text.Combining
import SsaBlocks.Text.Wide

/-!
# Width

The number of columns that a text takes on a screen. A cluster is as wide as the first of its
characters that has a width at all.
-/

namespace SsaBlocks.Text

def hiddenRuns : List Nat := [
  0, 32, 95, 33, 13, 1, 1633, 1, 4347, 4, 2044, 5, 24, 7, 59, 6, 56975, 1, 249, 3, 2, 2]

def charWidth (c : Char) : Nat :=
  if inRuns hiddenRuns c.toNat || inRuns combiningRuns c.toNat then 0
  else if inRuns wideRuns c.toNat then 2
  else 1

def clusterWidth (cs : List Char) : Nat :=
  ((cs.map charWidth).find? (· != 0)).getD 0

/-- The columns that a text takes, if all its characters are sent to the screen as they are. -/
def rawWidth (s : String) : Nat :=
  (clusters s.toList).foldl (fun n c => n + clusterWidth c) 0

/-! ## Colour sequences -/

/-- Whether a text is a list of numbers of up to three digits between semicolons. -/
def isParameterList (cs : List Char) : Bool :=
  cs.isEmpty || ((String.ofList cs).splitOn ";").all fun p => 1 ≤ p.length && p.length ≤ 3

/-- The length of the sequence at the start of a text that sets a colour or erases a line, or zero if
there is none. -/
def sequenceLength : List Char → Nat
  | '\x1b' :: '[' :: rest =>
    let belongs := fun c : Char => c.isDigit || c == ';'
    let parameters := rest.takeWhile belongs
    match rest.dropWhile belongs with
    | 'm' :: _ | '|' :: _ | 'K' :: _ =>
      if isParameterList parameters then parameters.length + 3 else 0
    | _ => 0
  | _ => 0

/-- The text without colour sequences, from after the given number of characters on. -/
def plainFrom : Nat → List Char → List Char
  | _, [] => []
  | n + 1, _ :: rest => plainFrom n rest
  | 0, c :: rest =>
    match sequenceLength (c :: rest) with
    | 0 => c :: plainFrom 0 rest
    | n + 1 => plainFrom n rest

/-- The columns that a text takes on a screen that knows colour sequences. -/
def width (s : String) : Nat :=
  rawWidth (String.ofList (plainFrom 0 s.toList))

end SsaBlocks.Text
