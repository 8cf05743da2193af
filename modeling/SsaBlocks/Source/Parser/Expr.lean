import SsaBlocks.Source.Parser.Type

/-!
# Parsing expressions

Operands, the selectors, indices, calls and literals that may follow them, and operators.
-/

namespace SsaBlocks.Source.Parser

variable (goals : Goals)

/-- Statements up to the end of a block or clause. -/
def stmts : Parser (List Stmt) :=
  iterate (fun before => do
    let t ← token
    if t == .keyword "case" || t == .keyword "default" || t == .op "\x7d" || t == .eof then
      return .inr before.reverse
    return .inl ((← goals .stmt) :: before)) []

def block : Parser (List Stmt) := do
  discard (op "\x7b")
  let body ← stmts goals
  discard (op "\x7d")
  return body

/-! ## Operands -/

def funcTypeOrLiteral : Parser Expr := do
  let start ← keyword "func"
  let type ← signature goals []
  if ← isOp "\x7b" then
    return .func start type (← nested (block goals))
  return .funcType start type

def operand : Parser Expr := do
  let start ← pos
  match ← token with
  | .ident _ => return .ident (← name)
  | .int v =>
    advance
    return .literal start (.int v)
  | .float v =>
    advance
    return .literal start (.float v)
  | .imaginary v =>
    advance
    return .literal start (.imaginary v)
  | .char v =>
    advance
    return .literal start (.char v)
  | .string v =>
    advance
    return .literal start (.string v)
  | .op "(" =>
    advance
    let inner ← nested goals.expr
    discard (op ")")
    return .paren start inner
  | .keyword "func" => funcTypeOrLiteral goals
  | _ => goals.type

/-! ## What follows an operand -/

/-- An index, a slice, or type arguments, after the bracket. -/
def indexTail (e : Expr) : Parser Expr := do
  let result ← nested do
    let first ← if ← isOp ":" then pure none else some <$> goals.expr
    if ← isOp ":" then
      let high ← bound
      if ← isOp ":" then
        match high, ← bound with
        | some h, some m => return .slice e first (some h) (some m)
        | _, _ => failure
      return .slice e first high none
    match first with
    | none => failure
    | some i =>
      if ← accept "," then
        let more ← closedList "]" goals.type
        return .index e (i :: more)
      return .index e [i]
  discard (op "]")
  return result
where
  /-- A bound of a slice after its colon. -/
  bound : Parser (Option Expr) := do
    discard (op ":")
    if (← isOneOf [":", "]"]) || (← isEnd) then return none
    return some (← goals.expr)

/-- The arguments of a call, after the parenthesis. Dots after an argument end the list. -/
def callTail (callee : Expr) : Parser Expr := do
  let (args, spread) ← nested <| iterate (fun args => do
    if (← isOp ")") || (← isEnd) then return .inr (args.reverse, false)
    let args := (← goals.expr) :: args
    let spread ← accept "..."
    let more ← comma ")"
    if spread then return .inr (args.reverse, true)
    if more then return .inl args
    return .inr (args.reverse, false)) []
  discard (op ")")
  return .call callee args spread

/-- A selector or a type assertion, after the dot. -/
def selectorTail (e : Expr) : Parser Expr := do
  if ← accept "(" then
    let type ← if ← isKeyword "type" then do
        advance
        pure none
      else some <$> goals.type
    discard (op ")")
    return .typeAssert e type
  return .selector e (← name)

/-- Whether a brace after an expression opens a composite literal of that type. -/
def opensLiteral (e : Expr) : Parser Bool := do
  match e.unparen with
  | .ident _ | .selector _ _ | .index _ _ => return 0 ≤ (← get).level
  | .arrayType _ _ _ | .structType _ _ | .mapType _ _ _ => return true
  | _ => return false

/-- The selectors, indices, calls and literals after an operand. -/
def primaryTail (first : Expr) : Parser Expr :=
  iterate (fun e => do
    if ← accept "." then return .inl (← selectorTail goals e)
    if ← accept "[" then return .inl (← indexTail goals e)
    if ← accept "(" then return .inl (← callTail goals e)
    if (← isOp "\x7b") && (← opensLiteral e) then
      match e with
      | .paren _ _ => failure
      | _ =>
        let (brace, elements) ← goals .elements
        return .inl (.composite brace (some e) elements)
    return .inr e) first

/-- The value of an element: an expression, or a composite literal without its type. -/
def elementValue : Parser Expr := do
  if ← isOp "\x7b" then
    let (brace, elements) ← goals .elements
    return .composite brace none elements
  goals.expr

def elementsRule : Parser (Pos × List Expr) := do
  let brace ← op "\x7b"
  let elements ← nested <| closedList "\x7d" do
    let first ← elementValue goals
    if ← accept ":" then return .keyValue first (← elementValue goals)
    return first
  discard (op "\x7d")
  return (brace, elements)

/-! ## Operators -/

/-- An arrow before a channel type belongs to that type: the arrow of each channel passes to the
one within it. -/
def receiveFrom (start : Pos) : Expr → Option Expr
  | .chanType _ .both element => some (.chanType start .receiveOnly element)
  | .chanType p .sendOnly element =>
    (receiveFrom p element).map (.chanType start .receiveOnly ·)
  | _ => none

def unaryRule : Parser Expr := do
  let start ← pos
  match ← token with
  | .op "<-" =>
    advance
    match ← goals .unary with
    | .chanType p d element =>
      match receiveFrom start (.chanType p d element) with
      | some t => return t
      | none => failure
    | e => return .unary start "<-" e
  | .op "*" =>
    advance
    return .star start (← goals .unary)
  | .op o =>
    if ["+", "-", "!", "^", "&", "~"].contains o then
      advance
      return .unary start o (← goals .unary)
    primaryTail goals (← operand goals)
  | _ => primaryTail goals (← operand goals)

/-- The operators after an operand that bind at least as tightly as given. -/
def binaryTail (precedence : Nat) (first : Expr) : Parser Expr :=
  iterate (fun left => do
    let t ← token
    match t with
    | .op o =>
      if 0 < t.precedence && precedence ≤ t.precedence then
        advance
        return .inl (.binary o left (← goals (.binary (t.precedence + 1))))
      return .inr left
    | _ => return .inr left) first

def binaryRule (precedence : Nat) : Parser Expr := do
  binaryTail goals precedence (← goals .unary)

end SsaBlocks.Source.Parser
