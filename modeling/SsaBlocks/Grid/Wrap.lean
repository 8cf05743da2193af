import SsaBlocks.Text.Width

/-!
# Breaking text into lines

A text is broken at spaces so that its lines are about equally long: the sum of the squares of the
columns that are left over, in all lines but the last, is as small as it can be. Of two equally good
ways the one with the shorter first line is taken.
-/

namespace SsaBlocks.Grid

/-- The best way to break some words into lines: its cost, and the number of words in the first
line. -/
structure Break where
  cost : Nat
  count : Nat
deriving DecidableEq, Repr, Inhabited

namespace Break

/-- The cost of a line that does not fit, over and above that of its length. -/
def penalty : Nat := 100000

def lineCost (limit width : Nat) : Nat :=
  if width ≤ limit then (limit - width) * (limit - width)
  else (width - limit) * (width - limit) + penalty

/-- The ways to break words, none of which puts all of them on the first line. Given are the width
and the number of the words that stand on it already, the widths of those that follow, and the best
break at each of these. -/
def options (limit : Nat) : Nat → Nat → List Nat → List Break → List Break
  | width, count, w :: widths, next :: breaks =>
    { cost := lineCost limit width + next.cost, count } ::
      options limit (width + 1 + w) (count + 1) widths breaks
  | _, _, _, _ => []

/-- The better of two breaks; the first if they are equally good. -/
def better (a b : Break) : Break :=
  if b.cost < a.cost then b else a

/-- The best break of a word and those that follow it, given the best breaks of the latter. -/
def best (limit w : Nat) (widths : List Nat) (breaks : List Break) : Break :=
  let all : Break := { cost := 0, count := widths.length + 1 }
  if widths.foldl (fun width next => width + 1 + next) w ≤ limit then all
  else match options limit w 1 widths breaks with
    | [] => all
    | first :: rest => rest.foldl better first

def plan (limit : Nat) : List Nat → List Break
  | [] => []
  | w :: widths =>
    let breaks := plan limit widths
    best limit w widths breaks :: breaks

def cut : Nat → List String → List Break → List (List String)
  | n + 1, words, b :: breaks =>
    words.take b.count :: cut n (words.drop b.count) ((b :: breaks).drop b.count)
  | _, _, _ => []

end Break

def greatest (ns : List Nat) : Nat :=
  ns.foldl max 0

/-- Breaks words into lines within a limit. A word that is wider raises the limit. -/
def wrapWords (limit : Nat) (words : List String) : List String :=
  let widths := words.map Text.rawWidth
  let limit := max limit (greatest widths)
  (Break.cut words.length words (Break.plan limit widths)).map (String.intercalate " ")

end SsaBlocks.Grid
