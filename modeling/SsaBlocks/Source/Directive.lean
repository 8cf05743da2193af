import SsaBlocks.Source.Pos

/-!
# Comments that move the text after them

A comment of the form `line file:line:column` says that the text after it comes from that place. The
column may be left out, and the file may be if there is a column.
-/

namespace SsaBlocks.Source

/-- What a comment says about the text after it. Without a file it stays in the same one; a column
that is not given is zero. -/
structure LineDirective where
  file : Option String
  line : Int
  column : Int
deriving DecidableEq, Repr

inductive DirectiveReading
  | absent
  | malformed
  | directive (d : LineDirective)

namespace LineDirective

/-- The text before and the text after the last colon. -/
def splitLast? (cs : List Char) : Option (List Char × List Char) :=
  let last := (cs.reverse.takeWhile (· != ':')).reverse
  if last.length == cs.length then none
  else some (cs.take (cs.length - last.length - 1), last)

def words : Nat := 0x10000000000000000

/-- A number as a word, the upper half of which is negative. -/
def number? (cs : List Char) : Option Int :=
  if cs.isEmpty || !cs.all Char.isDigit then none
  else
    let n := cs.foldl (fun n c => 10 * n + (c.toNat - '0'.toNat)) 0
    if n < words then some (Int.bmod n words) else none

def limit : Int := 0x40000000

/-- Whether a directive may name this line or column. -/
def inRange (n : Int) : Bool :=
  n != 0 && n ≤ limit

/-- Reads what follows the word `line` and a blank. Without a colon this is some other comment. -/
def read (text : List Char) : DirectiveReading :=
  match splitLast? text with
  | none => .absent
  | some (before, last) =>
    match number? last with
    | none => .malformed
    | some n =>
      match (splitLast? before).bind fun p => (number? p.2).map (p.1, ·) with
      | some (file, line) =>
        if inRange n && inRange line then
          .directive ⟨if file.isEmpty then none else some (String.ofList file), line, n⟩
        else .malformed
      | none =>
        if inRange n then .directive ⟨some (String.ofList before), n, 0⟩ else .malformed

def word : List Char := "line ".toList

def ofComment (text : List Char) : DirectiveReading :=
  if word.isPrefixOf text then read (text.drop word.length) else .absent

end LineDirective

/-- The anchor that a directive sets for the text from a point on. -/
def Anchor.follow (a : Anchor) (d : LineDirective) (p : Cursor) : Anchor :=
  ⟨p, ⟨d.file.or a.place.file, d.line, d.column⟩⟩

end SsaBlocks.Source
