import SsaBlocks.Source.Literal
import SsaBlocks.Toml.Basic

/-!
# Reading TOML

A reader takes characters from the front of the text and counts lines; every carriage return and
every line feed counts. Alternatives are tried in order, and the first that fits is kept.

After a header, entries may follow on the same line, and several entries may share a line. Outside
of tables an entry has its line to itself.
-/

namespace SsaBlocks.Toml

/-- The characters to come, and the line of the first of them. -/
structure Input where
  rest : List Char
  line : Nat := 1

abbrev Reader (α : Type) := StateT Input Option α

namespace Reader

/-! ## Characters -/

def isLineEnd (c : Char) : Bool :=
  c == '\n' || c == '\r'

def isBlank (c : Char) : Bool :=
  c == ' ' || c == '\t'

/-- Characters that are neither control characters nor delimiters of a quoted text. -/
def isPlain (c : Char) : Bool :=
  ' ' ≤ c && c != '"' && c != '\\'

def charOf (p : Char → Bool) : Reader Char := fun i =>
  match i.rest with
  | c :: rest => if p c then some (c, ⟨rest, if isLineEnd c then i.line + 1 else i.line⟩) else none
  | [] => none

/-- All characters of a kind that come next. -/
def span (p : Char → Bool) : Reader (List Char) := fun i =>
  let taken := i.rest.takeWhile p
  some (taken, ⟨i.rest.dropWhile p, i.line + taken.countP isLineEnd⟩)

def char (c : Char) : Reader Unit := do
  let _ ← charOf (· == c)

def word (s : String) : Reader Unit :=
  s.toList.forM char

def line : Reader Nat := do
  return (← get).line

def maybe {α : Type} (r : Reader α) : Reader (Option α) := fun i =>
  match r i with
  | some (a, rest) => some (some a, rest)
  | none => some (none, i)

def upTo {α : Type} : Nat → Reader α → Reader (List α)
  | 0, _ => return []
  | n + 1, r => do
    match ← maybe r with
    | some a => return a :: (← upTo n r)
    | none => return []

/-- As many things of a kind as there are. Each of them must take a character. -/
def all {α : Type} (r : Reader α) : Reader (List α) := do
  upTo (← get).rest.length r

def blanks : Reader Unit := do
  let _ ← span isBlank

def space : Reader Unit := do
  let _ ← span fun c => isBlank c || isLineEnd c

def lineEnds : Reader Unit := do
  let _ ← charOf isLineEnd
  let _ ← span isLineEnd

def remark : Reader Unit := do
  char '#'
  let _ ← span fun c => c == '\t' || ' ' ≤ c

def done : Reader Unit := do
  guard (← get).rest.isEmpty

/-! ## Quoted texts -/

def codeChar (digits : Nat) : Reader Char := fun i => do
  let (n, rest) ← Source.Literal.fixedDigits? 16 digits 0 i.rest
  guard (Source.Literal.isCode n)
  return (Char.ofNat n, ⟨rest, i.line⟩)

/-- A character of a quoted text, which may be written with a backslash. -/
def quotedChar : Reader Char :=
  charOf isPlain <|> do
    char '\\'
    match ← charOf fun _ => true with
    | 'b' => return Char.ofNat 8
    | 't' => return '\t'
    | 'n' => return '\n'
    | 'f' => return Char.ofNat 12
    | 'r' => return '\r'
    | '"' => return '"'
    | '\\' => return '\\'
    | 'u' => codeChar 4
    | 'U' => codeChar 8
    | _ => failure

def quoted : Reader String := do
  char '"'
  let cs ← all quotedChar
  char '"'
  return String.ofList cs

/-- A piece of a quoted text on several lines: a character, ends of lines, or a backslash that joins
two lines. -/
def longPiece : Reader (List Char) :=
  (do return [← quotedChar]) <|>
  (do return (← charOf isLineEnd) :: (← span isLineEnd)) <|>
  (do char '\\'; lineEnds; space; return [])

/-- A quoted text on several lines. Ends of lines right after the quotes do not count. -/
def longQuoted : Reader String := do
  word "\"\"\""
  let _ ← span isLineEnd
  let pieces ← all longPiece
  word "\"\"\""
  return String.ofList pieces.flatten

/-- A text without escapes on one line. -/
def verbatim : Reader String := do
  char Source.Literal.charQuote
  let cs ← span fun c => (c == '\t' || ' ' ≤ c) && c != Source.Literal.charQuote
  char Source.Literal.charQuote
  return String.ofList cs

/-- Three quotes around a text without escapes. -/
def longQuote : Reader Unit := do
  char Source.Literal.charQuote
  char Source.Literal.charQuote
  char Source.Literal.charQuote

/-- A character that does not start the closing quotes. -/
def longVerbatimChar : Reader Char := do
  match ← maybe fun i => (longQuote i).map fun _ => ((), i) with
  | some () => failure
  | none => charOf fun c => c == '\t' || ' ' ≤ c || isLineEnd c

/-- A text without escapes on several lines. -/
def longVerbatim : Reader String := do
  longQuote
  let cs ← all longVerbatimChar
  longQuote
  return String.ofList (cs.dropWhile isLineEnd)

def text : Reader String :=
  longVerbatim <|> verbatim <|> longQuoted <|> quoted

/-! ## Numbers and dates -/

def digit : Reader Char :=
  charOf Char.isDigit

def nextDigit : Reader Char :=
  digit <|> (do char '_'; digit)

def twoDigits : Reader Unit := do
  let _ ← digit
  let _ ← digit

/-- Digits of a whole number. A number of several digits does not start with zero. -/
def wholeDigits : Reader (List Char) :=
  (do
    let first ← charOf fun c => c.isDigit && c != '0'
    let second ← nextDigit
    return first :: second :: (← all nextDigit)) <|>
  (do return [← digit])

/-- A sign, which may be missing. -/
def negative : Reader Bool := do
  match ← maybe (charOf fun c => c == '+' || c == '-') with
  | some c => return c == '-'
  | none => return false

def integer : Reader Int := do
  let minus ← negative
  let n := Source.Literal.valueOf 10 (← wholeDigits)
  return if minus then -(n : Int) else n

def fraction : Reader Unit := do
  char '.'
  let _ ← digit
  let _ ← all nextDigit

def exponent : Reader Unit := do
  let _ ← charOf fun c => c == 'e' || c == 'E'
  let _ ← negative
  let _ ← digit
  let _ ← all nextDigit

/-- A number with a fraction or an exponent. -/
def decimal : Reader Unit := do
  let _ ← integer
  (do fraction; let _ ← maybe exponent) <|> exponent

def clock : Reader Unit := do
  twoDigits
  char ':'
  twoDigits
  char ':'
  twoDigits
  let _ ← maybe do
    char '.'
    let _ ← digit
    span Char.isDigit

/-- The distance of a time from universal time. -/
def zone : Reader Unit :=
  char 'Z' <|> do
    let _ ← charOf fun c => c == '+' || c == '-'
    twoDigits
    char ':'
    twoDigits

/-- A date, which may have a time of day, or a time of day alone. -/
def date : Reader Unit :=
  (do
    twoDigits
    twoDigits
    char '-'
    twoDigits
    char '-'
    twoDigits
    let _ ← maybe do
      char 'T'
      clock
      maybe zone) <|> clock

/-! ## Keys and values -/

/-- The name of an entry or a table. -/
def key : Reader String :=
  (do
    let isBare (c : Char) : Bool := c.isAlphanum || c == '-' || c == '_'
    let first ← charOf isBare
    return String.ofList (first :: (← span isBare))) <|> quoted

def scalar : Reader Value :=
  (do date; return .other) <|>
  (do decimal; return .other) <|>
  (do return .integer (← integer)) <|>
  (do return .text (← text)) <|>
  (do word "true" <|> word "false"; return .other)

def entryOf (value : Reader Value) : Reader (String × Nat × Value) := do
  let k ← key
  blanks
  char '='
  blanks
  let v ← value
  return (k, ← line, v)

/-- A remark that may stand before or after the comma of an array. -/
def elementGap : Reader Unit := do
  space
  let _ ← maybe remark
  space

def elements (value : Reader Value) : Reader (List Value) := do
  let first ← value
  let rest ← all do
    elementGap
    char ','
    elementGap
    value
  space
  let _ ← maybe (char ',')
  space
  let _ ← maybe remark
  return first :: rest

/-- An array, which may extend over several lines. -/
def array (value : Reader Value) : Reader Value := do
  char '['
  space
  let items ← maybe (elements value)
  space
  char ']'
  return .array (items.getD [])

def inlineTable (value : Reader Value) : Reader Value := do
  let start ← line
  char '{'
  blanks
  let entries ← all do
    let e ← entryOf value
    let _ ← maybe (do blanks; char ','; blanks)
    return e
  blanks
  char '}'
  return .table start entries

/-- A value in which others are nested up to a depth. -/
def valueUpTo : Nat → Reader Value
  | 0 => scalar
  | depth + 1 =>
    scalar <|> array (valueUpTo depth) <|> inlineTable (valueUpTo depth)

def entry : Reader Item := do
  let depth := (← get).rest.length
  let (k, line, v) ← entryOf (valueUpTo depth)
  return .entry k line v

/-! ## Texts -/

def path : Reader (List String) := do
  let first ← key
  let rest ← all do
    blanks
    char '.'
    blanks
    key
  return first :: rest

def header : Reader Item :=
  (do
    char '['
    blanks
    let p ← path
    blanks
    char ']'
    return .header false (← line) p) <|>
  (do
    word "[["
    blanks
    let p ← path
    blanks
    word "]]"
    return .header true (← line) p)

/-- Blanks and a remark at the end of a line. -/
def tail : Reader Unit := do
  blanks
  let _ ← maybe remark

/-- A header with the entries that follow it, an entry, or a line that says nothing. -/
def items : Reader (List Item) :=
  (do
    blanks
    let h ← header
    tail
    let rest ← all do
      space
      let e ← entry
      tail
      return e
    return h :: rest) <|>
  (do
    blanks
    let e ← entry
    tail
    return [e]) <|>
  (do
    tail
    return [])

def file : Reader (List Item) := do
  let first ← items
  let rest ← all do
    lineEnds
    items
  done
  return first ++ rest.flatten

end Reader

/-- The headers and entries of a text, unless it does not fit the grammar. -/
def items? (s : String) : Option (List Item) :=
  (Reader.file { rest := s.toList }).map (·.1)

end SsaBlocks.Toml
