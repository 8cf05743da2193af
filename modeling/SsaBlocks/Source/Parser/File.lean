import SsaBlocks.Source.Lexer
import SsaBlocks.Source.Parser.Stmt

/-!
# Parsing files

A file names its package and then declares functions, variables, constants and types. The rules
for the parts of the grammar that contain one another are joined here.
-/

namespace SsaBlocks.Source

namespace Goals

def rule (goals : Goals) : Goals
  | .binary precedence => Parser.binaryRule goals precedence
  | .unary => Parser.unaryRule goals
  | .type => Parser.typeRule goals
  | .elements => Parser.elementsRule goals
  | .stmt => Parser.stmtRule goals

/-- Parsers for trees that nest no deeper than the given bound. -/
def upTo : Nat → Goals
  | 0 => fun _ => failure
  | n + 1 => fun g => rule (upTo n) g

end Goals

namespace Parser

/-- An imported path with an optional name. -/
def importSpec : Parser ImportSpec := do
  let given ←
    if ← isName then do pure (some (← name).text)
    else if ← accept "." then pure (some ".")
    else pure none
  match ← token with
  | .string path =>
    advance
    terminator
    return { name := given, path }
  | _ => failure

def funcDecl (goals : Goals) (start : Pos) : Parser FuncDecl := do
  let receiver ← if ← isOp "(" then some <$> params goals else pure none
  let funcName ← name
  let tparams ← if ← accept "[" then typeParams goals none else pure []
  let type ← signature goals tparams
  let bodyPos ← pos
  if ← isOp "\x7b" then
    let body ← block goals
    terminator
    return { pos := start, receiver, name := funcName, type, bodyPos, body := some body }
  terminator
  if ← isOp "\x7b" then failure
  return { pos := start, receiver, name := funcName, type, bodyPos, body := none }

def topDecl (goals : Goals) : Parser TopDecl := do
  let start ← pos
  match ← token with
  | .keyword "func" =>
    advance
    return .func (← funcDecl goals start)
  | .keyword k =>
    advance
    return .decl (← declaration goals start k)
  | _ => failure

def file (goals : Goals) : Parser File := do
  discard (keyword "package")
  let packageName ← name
  terminator
  let imports ← iterate (fun before => do
    if ← isKeyword "import" then
      advance
      return .inl (TopDecl.imports (← specs importSpec) :: before)
    return .inr before.reverse) []
  let decls ← iterate (fun before => do
    if ← isEnd then return .inr before.reverse
    return .inl ((← topDecl goals) :: before)) []
  return { packageName := packageName.text, decls := imports ++ decls }

end Parser

/-- Reads a source file. A tree has a token of its own at least at every eighth level, so that the
bound on nesting is never met. -/
def File.parse? (source : String) : Option File := do
  let { tokens, release } ← Lexer.lexemes? source
  let (file, _) ← (Parser.file (Goals.upTo (8 * tokens.length + 8))).run { tokens }
  return { file with release }

end SsaBlocks.Source
