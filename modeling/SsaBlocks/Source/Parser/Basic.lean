import SsaBlocks.Source.Syntax

/-!
# Parsers

A parser takes tokens from the front of a list and yields a tree, or nothing if the tokens do not
fit the grammar. The rules of the grammar call one another through `Goal`: a rule is given a parser
for every goal, and `SsaBlocks.Source.Parser.Decl` closes the circle with a bounded number of
nested calls.
-/

namespace SsaBlocks.Source

/-- What a parser reads: the tokens to come, and how deep they are nested in brackets. The level
is negative in the head of a control statement, where a brace opens the body. -/
structure ParserState where
  tokens : List Located
  level : Int := 0

abbrev Parser (α : Type) := StateT ParserState Option α

/-- The parts of the grammar that contain one another. -/
inductive Goal
  /-- A chain of binary operators that bind at least as tightly as given. -/
  | binary (precedence : Nat)
  | unary
  /-- A type, if there is one. -/
  | type
  /-- The elements of a composite literal, in braces. -/
  | elements
  | stmt

def Goal.Result : Goal → Type
  | .binary _ | .unary => Expr
  | .type => Option Expr
  | .elements => Pos × List Expr
  | .stmt => Stmt

abbrev Goals := (g : Goal) → Parser g.Result

namespace Parser

def next : Parser Located := do
  match (← get).tokens with
  | t :: _ => return t
  | [] => return default

def token : Parser Token := do
  return (← next).token

def pos : Parser Pos := do
  return (← next).pos

/-- Takes the next token; the end of the text is never taken. -/
def advance : Parser Unit :=
  modify fun s =>
    match s.tokens with
    | _ :: t :: rest => { s with tokens := t :: rest }
    | _ => s

def isOp (o : String) : Parser Bool := do
  return (← token) == .op o

def isOneOf (os : List String) : Parser Bool := do
  match ← token with
  | .op o => return os.contains o
  | _ => return false

def isKeyword (k : String) : Parser Bool := do
  return (← token) == .keyword k

def isSemicolon : Parser Bool := do
  return (← token) == .semicolon

def isEnd : Parser Bool := do
  return (← token) == .eof

def expect (t : Token) : Parser Pos := do
  let l ← next
  if l.token == t then
    advance
    return l.pos
  else failure

def op (o : String) : Parser Pos :=
  expect (.op o)

def keyword (k : String) : Parser Pos :=
  expect (.keyword k)

def accept (o : String) : Parser Bool := do
  if ← isOp o then
    advance
    return true
  else return false

def name : Parser Name := do
  let l ← next
  match l.token with
  | .ident word =>
    advance
    return { word with pos := l.pos }
  | _ => failure

def isName : Parser Bool := do
  match ← token with
  | .ident _ => return true
  | _ => return false

/-- Takes the end of a statement, which may be left out before a closing bracket. -/
def terminator : Parser Unit := do
  if ← isOneOf [")", "\x7d"] then return
  discard (expect .semicolon)

/-- Whether a list goes on: a comma must follow an element unless the list is closed. -/
def comma (closing : String) : Parser Bool := do
  if ← accept "," then return true
  if ← isOp closing then return false
  failure

/-- Repeats a step, with fuel. -/
def iterateWith {α β : Type} (step : α → Parser (α ⊕ β)) : Nat → α → Parser β
  | 0, _ => failure
  | fuel + 1, a => do
    match ← step a with
    | .inl a => iterateWith step fuel a
    | .inr b => return b

/-- Repeats a step that takes at least one token whenever it goes on. -/
def iterate {α β : Type} (step : α → Parser (α ⊕ β)) (a : α) : Parser β := do
  iterateWith step ((← get).tokens.length + 1) a

def commaList {α : Type} (item : Parser α) : Parser (List α) := do
  iterate (fun items => do
    let items := (← item) :: items
    if ← accept "," then return .inl items
    return .inr items.reverse) []

/-- Items up to a closing bracket, which is not taken; a comma may follow the last one. -/
def closedList {α : Type} (closing : String) (item : Parser α) : Parser (List α) := do
  iterate (fun items => do
    if (← isOp closing) || (← isEnd) then return .inr items.reverse
    let items := (← item) :: items
    if ← comma closing then return .inl items
    return .inr items.reverse) []

def nested {α : Type} (p : Parser α) : Parser α := do
  modify fun s => { s with level := s.level + 1 }
  let a ← p
  modify fun s => { s with level := s.level - 1 }
  return a

def head {α : Type} (p : Parser α) : Parser α := do
  let level := (← get).level
  modify fun s => { s with level := -1 }
  let a ← p
  modify fun s => { s with level }
  return a

end Parser

namespace Goals

variable (goals : Goals)

def expr : Parser Expr :=
  goals (.binary 1)

def exprs : Parser (List Expr) :=
  Parser.commaList goals.expr

def type : Parser Expr := do
  match ← goals .type with
  | some t => return t
  | none => failure

end Goals

end SsaBlocks.Source
