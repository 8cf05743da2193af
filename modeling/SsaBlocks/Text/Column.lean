/-!
# Output with a column

Output that grows at its end and knows the column of its end, counted in bytes from the last
newline. It is written in pieces, which may end in the middle of a character.
-/

namespace SsaBlocks

/-- What has been written and the column that it ends at. -/
structure ColumnText where
  bytes : ByteArray := .empty
  column : Nat := 0
deriving Inhabited

namespace ColumnText

def advance (column : Nat) (byte : UInt8) : Nat :=
  if byte = '\n'.toUInt8 then 0 else column + 1

def writeBytes (w : ColumnText) (bytes : ByteArray) : ColumnText :=
  { bytes := w.bytes ++ bytes, column := bytes.data.foldl advance w.column }

def write (w : ColumnText) (s : String) : ColumnText :=
  w.writeBytes s.toUTF8

def newline (w : ColumnText) : ColumnText :=
  w.write "\n"

/-- Moves to a column, on a new line if the end is past it. -/
def indentTo (w : ColumnText) (column : Int) : ColumnText :=
  let w := if column < w.column then w.newline else w
  if (w.column : Int) < column then
    w.write (String.ofList (List.replicate (column - w.column).toNat ' '))
  else w

/-- The output as a text, if its bytes are one. -/
def text (w : ColumnText) : String :=
  (String.fromUTF8? w.bytes).getD ""

end ColumnText

end SsaBlocks
