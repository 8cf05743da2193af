import SsaBlocks.Files.Path

/-!
# Places

Lines of a source text count from one, columns count the bytes of a line from one. The text may say
of itself that it comes from another place, even one that does not exist. A position is where
something really stands together with the place from which the text was last said to count.
-/

namespace SsaBlocks.Source

/-- Where a character is in the text that is read. -/
structure Cursor where
  line : Nat := 1
  column : Nat := 1
deriving DecidableEq, Repr, Inhabited

namespace Cursor

def after (p : Cursor) (c : Char) : Cursor :=
  if c = '\n' then ⟨p.line + 1, 1⟩ else { p with column := p.column + c.utf8Size }

def afterAll (p : Cursor) (cs : List Char) : Cursor :=
  cs.foldl after p

end Cursor

/-- A place as messages name it: the file, unless it is the one that is read, the line, and the
column, which is zero if it is not known. -/
structure Place where
  file : Option String := none
  line : Int := 1
  column : Int := 1
deriving DecidableEq, Repr, Inhabited

namespace Place

/-- The path of a file that is named in the text of another file: a path that does not start at the
root starts at the directory of that text. -/
def resolve (path file : String) : String :=
  if file == "" then ""
  else if file.startsWith "/" then Path.clean file
  else Path.join (Path.directory path) (Path.clean file)

/-- The name of a place in the text of the given path. A line that is not positive is left out, and
so is an unknown column. -/
def text (p : Place) (path : String) : String :=
  let file := (p.file.map (resolve path)).getD path
  let column := if p.column == 0 then "" else s!":{p.column}"
  let within := if 0 < p.line then s!"{p.line}{column}" else ""
  if file == "" then if within == "" then "-" else within
  else if within == "" then file
  else s!"{file}:{within}"

end Place

/-- A point of the text and the place that it is said to be, from which the text after it counts
on. -/
structure Anchor where
  cursor : Cursor := {}
  place : Place := {}
deriving DecidableEq, Repr, Inhabited

/-- The place that a point after the anchor is said to be. Lines count on from the anchor; on its
own line columns do so too, and if its column is not known no column is. -/
def Anchor.locate (a : Anchor) (p : Cursor) : Place :=
  let line := a.place.line + ((p.line : Int) - a.cursor.line)
  let column : Int :=
    if a.place.column == 0 then 0
    else if p.line == a.cursor.line then a.place.column + ((p.column : Int) - a.cursor.column)
    else p.column
  ⟨a.place.file, line, column⟩

structure Pos where
  cursor : Cursor := {}
  anchor : Anchor := {}
deriving DecidableEq, Repr, Inhabited

def Pos.text (p : Pos) (path : String) : String :=
  (p.anchor.locate p.cursor).text path

end SsaBlocks.Source
