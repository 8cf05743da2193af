import SsaBlocks.Source.Directive
import SsaBlocks.Source.Release
import SsaBlocks.Source.Token

/-!
# Reading tokens

A source text is a sequence of tokens between blanks and comments. A line end after a token that
can end a statement counts as a semicolon; so does a comment that contains a line end. A text with
a malformed token has no tokens at all.

Comments may move the text after them to other places, and those before the first token may choose a
release of the language.
-/

namespace SsaBlocks.Source.Lexer

/-- A comment up to a star and a slash, and the text after them. -/
def comment? : List Char → Option (List Char × List Char)
  | [] => none
  | '*' :: '/' :: rest => some ([], rest)
  | c :: rest => (comment? rest).map fun p => (c :: p.1, p.2)

/-- What stands at the start of a text. -/
inductive Item
  /-- A blank or a line end. -/
  | blank (newline : Bool)
  /-- A comment up to the end of its line. -/
  | lineComment (text : List Char)
  /-- A comment between marks. -/
  | blockComment (text : List Char)
  | token (t : Token)

def operator? (cs : List Char) : Option (Token × List Char) :=
  match Token.operators.find? fun o => o.toList.isPrefixOf cs with
  | some o => some (.op o, cs.drop o.length)
  | none => none

def item? (cs : List Char) : Option (Item × List Char) :=
  match cs with
  | [] => some (.token .eof, [])
  | '/' :: '/' :: rest =>
    -- The line end after the comment is left in place.
    some (.lineComment (rest.takeWhile (· != '\n')), rest.dropWhile (· != '\n'))
  | '/' :: '*' :: rest => (comment? rest).map fun p => (.blockComment p.1, p.2)
  | '"' :: rest => (Literal.string? rest).map fun p => (.token (.string p.1), p.2)
  | ';' :: rest => some (.token .semicolon, rest)
  | c :: rest =>
    if c == '\n' then some (.blank true, rest)
    else if c == ' ' || c == '\t' || c == '\r' then some (.blank false, rest)
    else if c == Literal.rawQuote then
      (Literal.rawString? rest).map fun p => (.token (.string p.1), p.2)
    else if c == Literal.charQuote then
      (Literal.char? rest).map fun p => (.token (.char p.1), p.2)
    else if isNameStart c then
      some (.token (.ofWord (.start cs)), cs.dropWhile isNamePart)
    else if c.isDigit || (c == '.' && (rest.head?.any Char.isDigit)) then
      (Literal.number? cs).map fun (n, rest) =>
        match n with
        | .whole v => (.token (.int v), rest)
        | .fraction v => (.token (.float v), rest)
        | .imaginary v => (.token (.imaginary v), rest)
    else (operator? cs).map fun p => (.token p.1, p.2)

/-- The tokens of a text, and the release of the language that it chooses. -/
structure Lexemes where
  tokens : List Located := []
  release : Option Nat := none

/-- What has been read of a text: its lexemes with the last token first, the place that the text is
said to be at, and whether a line end would end a statement. -/
structure Reading extends Lexemes where
  anchor : Anchor := {}
  ends : Bool := false

namespace Reading

def push (r : Reading) (t : Token) (p : Cursor) : Reading :=
  { r with tokens := ⟨t, ⟨p, r.anchor⟩⟩ :: r.tokens, ends := t.endsStatement }

def endStatement (r : Reading) (p : Cursor) : Reading :=
  if r.ends then r.push .semicolon p else r

/-- Takes note of what a comment says about the text from the given place on. -/
def follow? (r : Reading) (text : List Char) (p : Cursor) : Option Reading :=
  match LineDirective.ofComment text with
  | .absent => some r
  | .malformed => none
  | .directive d => some { r with anchor := r.anchor.follow d p }

/-- Takes note of a condition that a comment before all tokens gives. -/
def restrict (r : Reading) (text : List Char) : Reading :=
  match r.tokens, BuildCondition.ofComment? text with
  | [], some c => { r with release := c.release? true }
  | _, _ => r

/-- A comment up to the end of its line, without the mark of a line end. It moves the text of the
next line if it starts its own. -/
def lineComment? (r : Reading) (text : List Char) (p : Cursor) : Option Reading :=
  let text := if text.getLast? == some '\r' then text.dropLast else text
  let r := r.restrict text
  if p.column == 1 then r.follow? text ⟨p.line + 1, 1⟩ else some r

end Reading

/-- Reads all tokens. The fuel counts characters. -/
def run : Nat → Cursor → List Char → Reading → Option Lexemes
  | 0, _, _, _ => none
  | fuel + 1, p, cs, r => do
    let (item, rest) ← item? cs
    let next := p.afterAll (cs.take (cs.length - rest.length))
    match item with
    | .blank newline => run fuel next rest (if newline then r.endStatement p else r)
    | .lineComment text => run fuel next rest (← r.lineComment? text p)
    | .blockComment text =>
      let r := if text.contains '\n' then r.endStatement p else r
      run fuel next rest (← r.follow? text next)
    | .token .eof =>
      let r := (r.endStatement p).push .eof p
      return { r.toLexemes with tokens := r.tokens.reverse }
    | .token t => run fuel next rest (r.push t p)

/-- A mark that may stand at the very start of a text and nowhere else. -/
def byteOrderMark : Char := Char.ofNat 0xFEFF

/-- The tokens of a source text, if all are well formed. -/
def lexemes? (source : String) : Option Lexemes :=
  let cs := source.toList
  let (p, cs) :=
    match cs with
    | c :: rest => if c == byteOrderMark then (Cursor.after {} c, rest) else ({}, cs)
    | [] => ({}, cs)
  if cs.any fun c => c == byteOrderMark || c.toNat == 0 then none
  else run (cs.length + 2) p cs {}

end SsaBlocks.Source.Lexer
