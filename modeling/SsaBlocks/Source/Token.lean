import SsaBlocks.Source.Literal
import SsaBlocks.Source.Pos
import SsaBlocks.Text.Class

/-!
# Tokens

The words of a source text with their places.
-/

namespace SsaBlocks.Source

def isNameStart (c : Char) : Bool :=
  c == '_' || Text.isLetter c

def isNamePart (c : Char) : Bool :=
  isNameStart c || Text.isDigit c

/-- A text of characters of names. -/
structure Word where
  text : String
  parts : text.toList.all isNamePart
deriving DecidableEq, Repr

namespace Word

instance : Inhabited Word := ⟨⟨"", rfl⟩⟩

def start (cs : List Char) : Word where
  text := String.ofList (cs.takeWhile isNamePart)
  parts := by simp

end Word

/-- What a token is. Numbers are kept as they are written, and the bytes of a string are those between
its quotes after the escapes have been read. -/
inductive Token
  | ident (name : Word)
  | int (value : Literal.Numeral)
  | float (value : Literal.Numeral)
  | imaginary (value : Literal.Numeral)
  | char (code : Nat)
  | string (bytes : List UInt8)
  | keyword (name : String)
  | op (text : String)
  | semicolon
  | eof
deriving DecidableEq, Inhabited

namespace Token

def keywords : List String :=
  ["break", "case", "chan", "const", "continue", "default", "defer", "else", "fallthrough", "for",
    "func", "go", "goto", "if", "import", "interface", "map", "package", "range", "return",
    "select", "struct", "switch", "type", "var"]

/-- The operators and delimiters, each before its own beginnings. -/
def operators : List String :=
  ["<<=", ">>=", "&^=", "...",
    "&&", "||", "<-", "++", "--", "==", "!=", "<=", ">=", ":=", "+=", "-=", "*=", "/=", "%=",
    "&=", "|=", "^=", "<<", ">>", "&^",
    "+", "-", "*", "/", "%", "&", "|", "^", "<", ">", "=", "!", "(", ")", "[", "]", "\x7b", "\x7d",
    ",", ".", ":", "~"]

/-- A word is a name unless it is reserved. -/
def ofWord (word : Word) : Token :=
  if keywords.contains word.text then .keyword word.text else .ident word

def endsStatement : Token → Bool
  | .ident _ | .int _ | .float _ | .imaginary _ | .char _ | .string _ => true
  | .keyword k => ["break", "continue", "fallthrough", "return"].contains k
  | .op o => ["++", "--", ")", "]", "\x7d"].contains o
  | .semicolon | .eof => false

/-- How tightly a binary operator binds; zero for all other tokens. -/
def precedence : Token → Nat
  | .op "||" => 1
  | .op "&&" => 2
  | .op o =>
    if ["==", "!=", "<", "<=", ">", ">="].contains o then 3
    else if ["+", "-", "|", "^"].contains o then 4
    else if ["*", "/", "%", "<<", ">>", "&", "&^"].contains o then 5
    else 0
  | _ => 0

end Token

structure Located where
  token : Token
  pos : Pos
deriving Inhabited

end SsaBlocks.Source
