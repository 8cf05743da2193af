import SsaBlocks.Grid.Wrap

/-!
# Tables

A table is drawn with a header, rows and a footer, between rules of dashes. Text that is too wide
for a cell is broken into lines. Numbers stand at the right of a cell and other text at the left;
header and footer are centred and in capitals.
-/

namespace SsaBlocks

/-- A table. All its rows have as many cells as the header. -/
structure Grid where
  header : List String
  rows : List (List String)
  footer : List String

namespace Grid

/-! ## Cells -/

/-- The greatest width of a cell whose text can be broken. -/
def maxWidth : Nat := 30

/-- A cell: its lines, and the columns that it needs. A text that is too wide needs the greatest
width, even if its lines turn out shorter. -/
structure Cell where
  lines : List String
  width : Nat
deriving DecidableEq, Repr, Inhabited

namespace Cell

/-- The cell of a text. Line ends in the text count as spaces. -/
def ofText (s : String) : Cell :=
  let paragraphs := s.splitOn "\n"
  let limit := min (greatest (paragraphs.map Text.width)) maxWidth
  let lines := wrapWords limit ((String.intercalate " " paragraphs).splitOn " ")
  { lines, width := max limit (greatest (lines.map Text.width)) }

/-- A line of a cell; a cell that is shorter than its row has blank ones. -/
def line (c : Cell) (n : Nat) : String :=
  (c.lines[n]?).getD ""

end Cell

/-! ## Alignment -/

def blanks (n : Nat) : String :=
  String.ofList (List.replicate n ' ')

def alignLeft (width : Nat) (s : String) : String :=
  s ++ blanks (width - Text.width s)

def alignRight (width : Nat) (s : String) : String :=
  blanks (width - Text.width s) ++ s

/-- A text in the middle of a cell. If the space is odd there is more of it on the right. -/
def alignCentre (width : Nat) (s : String) : String :=
  let gap := width - Text.width s
  blanks (gap / 2) ++ s ++ blanks (gap - gap / 2)

/-- Groups of three digits, each after a comma. -/
def isGrouped : List Char → Bool
  | [] => true
  | ',' :: a :: b :: c :: rest => a.isDigit && b.isDigit && c.isDigit && isGrouped rest
  | _ => false

/-- Digits, which may be in groups. -/
def isWhole (cs : List Char) : Bool :=
  let first := cs.takeWhile Char.isDigit
  let rest := cs.dropWhile Char.isDigit
  !first.isEmpty && (rest.isEmpty || (first.length ≤ 3 && isGrouped rest))

/-- Whether a text is a number, which may have a sign and a fraction. -/
def isNumber (s : String) : Bool :=
  let cs := match Text.trim s.toList with
    | '-' :: rest => rest
    | cs => cs
  let whole := cs.takeWhile (· != '.')
  match cs.dropWhile (· != '.') with
  | [] => isWhole whole
  | _ :: fraction => isWhole whole && !fraction.isEmpty && fraction.all Char.isDigit

def align (width : Nat) (s : String) : String :=
  if isNumber s then alignRight width s else alignLeft width s

/-! ## Drawing -/

def height (cells : List Cell) : Nat :=
  greatest (cells.map (·.lines.length))

def rule (widths : List Nat) : String :=
  let dashes := widths.map fun w => String.ofList (List.replicate (w + 2) '-') ++ "+"
  "+" ++ String.join dashes ++ "\n"

def rowLine (widths : List Nat) (cells : List Cell) (n : Nat) : String :=
  let parts := (cells.zip widths).map fun (c, w) => "| " ++ align w (c.line n) ++ " "
  String.join parts ++ "|\n"

def row (widths : List Nat) (cells : List Cell) : String :=
  String.join ((List.range (height cells)).map (rowLine widths cells))

def headerLine (widths : List Nat) (cells : List Cell) (n : Nat) : String :=
  let parts := (cells.zip widths).map fun (c, w) =>
    " " ++ alignCentre w (c.line n).toUpper ++ " |"
  "|" ++ String.join parts ++ "\n"

/-- One line of a footer. There is no bar after an empty cell. -/
def footerLine (widths : List Nat) (cells : List Cell) (n : Nat) : String :=
  let parts := (cells.zip widths).map fun (c, w) =>
    " " ++ alignCentre w (c.line n).toUpper ++ (if (c.line 0).isEmpty then "  " else " |")
  "|" ++ String.join parts ++ "\n"

def columnWidths (columns : Nat) (rows : List (List Cell)) : List Nat :=
  (List.range columns).map fun n =>
    greatest (rows.map fun r => ((r[n]?).map (·.width)).getD 0)

def render (g : Grid) : String :=
  let header := g.header.map Cell.ofText
  let rows := g.rows.map (·.map Cell.ofText)
  let footer := g.footer.map Cell.ofText
  let widths := columnWidths header.length (header :: footer :: rows)
  let line := rule widths
  line ++ String.join ((List.range (height header)).map (headerLine widths header)) ++ line ++
    String.join (rows.map (row widths)) ++ line ++
    String.join ((List.range (height footer)).map (footerLine widths footer)) ++ line

end Grid

end SsaBlocks
