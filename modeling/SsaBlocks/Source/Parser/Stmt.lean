import SsaBlocks.Source.Parser.Expr

/-!
# Parsing statements

Statements, and the declarations that may stand among them.
-/

namespace SsaBlocks.Source.Parser

variable (goals : Goals)

/-! ## Declarations -/

def specs {α : Type} (spec : Parser α) : Parser (List α) := do
  if ← accept "(" then
    let all ← iterate (fun before => do
      if (← isOp ")") || (← isEnd) then return .inr before.reverse
      return .inl ((← spec) :: before)) []
    discard (op ")")
    terminator
    return all
  return [← spec]

def valueSpec (isConst : Bool) : Parser ValueSpec := do
  let names ← commaList name
  let type ←
    if isConst then goals .type
    else if ← isOp "=" then pure none
    else some <$> goals.type
  let values ← if ← accept "=" then goals.exprs else pure []
  terminator
  return .mk names type values

def isTypeElement : Expr → Bool
  | .arrayType _ _ _ | .structType _ _ | .funcType _ _ | .interfaceType _ _ | .mapType _ _ _
  | .chanType _ _ _ => true
  | .binary _ l r => isTypeElement l || isTypeElement r
  | .unary _ o e => o == "~" || isTypeElement e
  | .paren _ e => isTypeElement e
  | _ => false

/-- Splits an expression into the name of a type parameter and the start of its constraint.
`force` tells that a list of type parameters is certain. -/
def splitTypeParam (force : Bool) : Expr → Option Name × Option Expr
  | .ident n => (some n, none)
  | .binary "*" (.ident n) right =>
    if force || isTypeElement right then (some n, some (.star right.pos right)) else (none, none)
  | .binary "|" left right =>
    match splitTypeParam (force || isTypeElement right) left with
    | (some n, some l) => (some n, some (.binary "|" l right))
    | _ => (none, none)
  | .call (.ident n) [arg] false =>
    if force || isTypeElement arg then (some n, some (.paren arg.pos arg)) else (none, none)
  | _ => (none, none)

/-- The rest of the declaration of a type after its name and a bracket, which opens a list of type
parameters or an array type. -/
def typeSpecTail (typeName : Name) (bracket : Pos) : Parser TypeSpec := do
  if !(← isName) then
    return .mk typeName [] false (← arrayType goals bracket)
  let first ← name
  let e ←
    if ← isOp "[" then pure (Expr.ident first)
    else nested do
      binaryTail goals 1 (← primaryTail goals (.ident first))
  let (paramName, paramType) := splitTypeParam (← isOp ",") e
  match paramName with
  | some n =>
    if paramType.isSome || !(← isOp "]") then
      let entry ←
        match paramType with
        | some t => do pure (some n, some (← constraintTail goals t))
        | none => namedEntry goals true n
      let params ← typeParams goals (some entry)
      let isAlias ← accept "="
      return .mk typeName params isAlias (← goals.type)
    return .mk typeName [] false (← arrayTail goals bracket (some e))
  | none => return .mk typeName [] false (← arrayTail goals bracket (some e))

def typeSpec : Parser TypeSpec := do
  let typeName ← name
  let bracket ← pos
  let spec ←
    if ← accept "[" then typeSpecTail goals typeName bracket
    else do
      let isAlias ← accept "="
      pure (.mk typeName [] isAlias (← goals.type))
  terminator
  return spec

def declaration (start : Pos) (word : String) : Parser Decl := do
  match word with
  | "var" => return .vars start (← specs (valueSpec goals false))
  | "const" => return .consts start (← specs (valueSpec goals true))
  | "type" => return .types start (← specs (typeSpec goals))
  | _ => failure

/-! ## Simple statements -/

/-- Where a simple statement stands, which decides what it may be. -/
inductive Place
  | plain
  | labels
  | ranges
deriving DecidableEq

/-- A simple statement or the head of a loop over a range. -/
inductive Simple
  | stmt (s : Stmt)
  | range (targets : List Expr) (define : Bool) (operand : Expr)

def assignOperators : List String :=
  [":=", "=", "+=", "-=", "*=", "/=", "%=", "&=", "|=", "^=", "<<=", ">>=", "&^="]

def simple (place : Place) : Parser Simple := do
  let targets ← goals.exprs
  if ← isOneOf assignOperators then
    match ← token with
    | .op o =>
      advance
      if place == .ranges && (o == ":=" || o == "=") && (← isKeyword "range") then
        advance
        return .range targets (o == ":=") (← goals.expr)
      return .stmt (.assign targets o (← goals.exprs))
    | _ => failure
  match targets with
  | [e] =>
    if place == .labels && (← isOp ":") then
      match e with
      | .ident label =>
        advance
        return .stmt (.labeled label (← goals .stmt))
      | _ => failure
    if ← accept "<-" then return .stmt (.send e (← goals.expr))
    if ← accept "++" then return .stmt (.incDec e true)
    if ← accept "--" then return .stmt (.incDec e false)
    return .stmt (.expr e)
  | _ => failure

def simpleStmt (place : Place) : Parser Stmt := do
  match ← simple goals place with
  | .stmt s => return s
  | .range _ _ _ => failure

def asExpr : Stmt → Parser Expr
  | .expr e => pure e
  | _ => failure

/-! ## Control statements -/

def ifStmt (start : Pos) : Parser Stmt := do
  let (init, cond) ← head do
    let first ← if ← isSemicolon then pure none else some <$> simpleStmt goals .plain
    if ← isOp "\x7b" then
      match first with
      | some s => return (none, ← asExpr s)
      | none => failure
    discard (expect .semicolon)
    return (first, ← asExpr (← simpleStmt goals .plain))
  let body ← block goals
  if ← isKeyword "else" then
    advance
    if (← isKeyword "if") || (← isOp "\x7b") then
      return .ifThen start init cond body (some (← goals .stmt))
    failure
  terminator
  return .ifThen start init cond body none

def forStmt (start : Pos) : Parser Stmt := do
  if ← isOp "\x7b" then finish none none none
  else
    let parts ← head do
      if ← isKeyword "range" then
        advance
        return Sum.inr (([] : List Expr), false, ← goals.expr)
      let first ←
        if ← isSemicolon then pure none
        else
          match ← simple goals .ranges with
          | .range targets define operand => return .inr (targets, define, operand)
          | .stmt s => pure (some s)
      if !(← isSemicolon) then
        match first with
        | some s => return .inl (none, some (← asExpr s), none)
        | none => failure
      advance
      let cond ← if ← isSemicolon then pure none
        else some <$> (do asExpr (← simpleStmt goals .plain))
      discard (expect .semicolon)
      let post ← if ← isOp "\x7b" then pure none else some <$> simpleStmt goals .plain
      return .inl (first, cond, post)
    match parts with
    | .inl (init, cond, post) => finish init cond post
    | .inr (targets, define, operand) =>
      if 2 < targets.length then failure
      let body ← block goals
      terminator
      return .range start targets define operand body
where
  /-- The body of a loop. -/
  finish (init : Option Stmt) (cond : Option Expr) (post : Option Stmt) : Parser Stmt := do
    let body ← block goals
    terminator
    return .loop start init cond post body

/-- A clause of a switch, from its word on. -/
def clause : Parser Clause := do
  let isDefault ← isKeyword "default"
  advance
  let values ← if isDefault then pure [] else goals.exprs
  discard (op ":")
  return .mk isDefault values (← stmts goals)

def clauses {α : Type} (item : Parser α) : Parser (List α) := do
  discard (op "\x7b")
  let all ← iterate (fun before => do
    if (← isKeyword "case") || (← isKeyword "default") then return .inl ((← item) :: before)
    return .inr before.reverse) []
  discard (op "\x7d")
  terminator
  return all

/-- The guard of a type switch: the name that it binds and the expression. -/
def guardOf : Stmt → Option (Option Expr × Expr)
  | .expr (.typeAssert e none) => some (none, e)
  | .assign [binder] ":=" [.typeAssert e none] => some (some binder, e)
  | _ => none

def switchStmt (start : Pos) : Parser Stmt := do
  let (init, tag) ← head do
    if ← isOp "\x7b" then return (none, none)
    let first ← if ← isSemicolon then pure none else some <$> simpleStmt goals .plain
    if ← isSemicolon then
      advance
      if ← isOp "\x7b" then return (first, none)
      return (first, some (← simpleStmt goals .plain))
    return (none, first)
  match tag with
  | none => return .switch start init none (← clauses (clause goals))
  | some s =>
    match guardOf s with
    | some (binder, e) => return .typeSwitch start init binder e (← clauses (clause goals))
    | none => do
      let e ← asExpr s
      return .switch start init (some e) (← clauses (clause goals))

/-- A clause of a select, from its word on. -/
def communication : Parser Communication := do
  let isDefault ← isKeyword "default"
  advance
  let comm ←
    if isDefault then pure none
    else do
      let targets ← goals.exprs
      match targets, ← token with
      | [e], .op "<-" =>
        advance
        pure (some (Stmt.send e (← goals.expr)))
      | _, .op o =>
        if o == "=" || o == ":=" then
          if 2 < targets.length then failure
          advance
          pure (some (.assign targets o [← goals.expr]))
        else
          match targets with
          | [e] => pure (some (.expr e))
          | _ => failure
      | _, _ => failure
  discard (op ":")
  return .mk comm (← stmts goals)

def suspended : Parser Expr := do
  match ← goals.expr with
  | .call callee args spread =>
    terminator
    return .call callee args spread
  | _ => failure

def startsSimple : Token → Bool
  | .ident _ | .int _ | .float _ | .imaginary _ | .char _ | .string _ => true
  | .keyword k => ["func", "struct", "map", "chan", "interface"].contains k
  | .op o => ["(", "[", "+", "-", "*", "&", "^", "<-", "!"].contains o
  | _ => false

def stmtRule : Parser Stmt := do
  let start ← pos
  match ← token with
  | .semicolon =>
    advance
    return .empty start
  | .op "\x7d" => return .empty start
  | .op "\x7b" =>
    let body ← block goals
    terminator
    return .block start body
  | .keyword "go" =>
    advance
    return .go start (← suspended goals)
  | .keyword "defer" =>
    advance
    return .defer start (← suspended goals)
  | .keyword "return" =>
    advance
    let values ← if (← isSemicolon) || (← isOp "\x7d") then pure [] else goals.exprs
    terminator
    return .ret start values
  | .keyword "if" =>
    advance
    ifStmt goals start
  | .keyword "for" =>
    advance
    forStmt goals start
  | .keyword "switch" =>
    advance
    switchStmt goals start
  | .keyword "select" =>
    advance
    return .select start (← clauses (communication goals))
  | .keyword "fallthrough" =>
    advance
    terminator
    return .branch start "fallthrough" none
  | t =>
    match t with
    | .keyword k =>
      if ["var", "const", "type"].contains k then
        advance
        return .decl (← declaration goals start k)
      if ["break", "continue", "goto"].contains k then
        advance
        let label ← if k == "goto" || (← isName) then some <$> name else pure none
        terminator
        return .branch start k label
    | _ => pure ()
    if !startsSimple t then failure
    let s ← simpleStmt goals .labels
    match s with
    | .labeled _ _ => return s
    | _ =>
      terminator
      return s

end SsaBlocks.Source.Parser
