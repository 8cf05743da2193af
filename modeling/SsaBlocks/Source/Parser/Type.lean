import SsaBlocks.Source.Parser.Basic

/-!
# Parsing types

Types, and the lists of parameters, type parameters and fields within them.
-/

namespace SsaBlocks.Source.Parser

variable (goals : Goals)

def qualified (first : Name) : Parser Expr := do
  if ← accept "." then
    return .selector (.ident first) (← name)
  return .ident first

def instantiated (t : Expr) : Parser Expr := do
  if ← accept "[" then
    let args ← nested (closedList "]" goals.type)
    discard (op "]")
    if args.isEmpty then failure
    return .index t args
  return t

def typeName (first : Name) : Parser Expr := do
  instantiated goals (← qualified first)

/-- The rest of an array or slice type, after its bracket and its length. -/
def arrayTail (bracket : Pos) (length : Option Expr) : Parser Expr := do
  discard (op "]")
  return .arrayType bracket length (← goals.type)

def arrayType (bracket : Pos) : Parser Expr := do
  let length ← nested do
    let dots ← pos
    if ← accept "..." then return some (.ellipsis dots none)
    if ← isOp "]" then return none
    return some (← goals.expr)
  arrayTail goals bracket length

/-- What follows a name and a bracket: the type of that name, which is an array, or the type
arguments of that name, which is a type. -/
def arrayOrInstance (first : Name) : Parser (Option Name × Expr) := do
  let bracket ← op "["
  let args ← nested (closedListNoted)
  discard (op "]")
  match args with
  | ([], _) => return (some first, .arrayType bracket none (← goals.type))
  | ([arg], trailing) =>
    match ← goals .type with
    | some element =>
      if trailing then failure
      return (some first, .arrayType bracket (some arg) element)
    | none => return (none, .index (.ident first) [arg])
  | (args, _) => return (none, .index (.ident first) args)
where
  closedListNoted : Parser (List Expr × Bool) :=
    iterate (fun items => do
      if ← isOp "]" then return .inr (items.reverse, !items.isEmpty)
      let items := (← goals.expr) :: items
      if ← accept "," then return .inl items
      return .inr (items.reverse, false)) []

/-! ## Constraints -/

def constraintTerm : Parser Expr := do
  let p ← pos
  if ← accept "~" then return .unary p "~" (← goals.type)
  goals.type

def constraintTail (first : Expr) : Parser Expr :=
  iterate (fun e => do
    if ← accept "|" then return .inl (.binary "|" e (← constraintTerm goals))
    return .inr e) first

def constraint : Parser Expr := do
  constraintTail goals (← constraintTerm goals)

/-! ## Parameters -/

/-- A parameter as it is read: a name, a type, or both. A name alone may turn out to be a type. -/
abbrev Entry := Option Name × Option Expr

def dotsType : Parser Expr := do
  let dots ← op "..."
  return .ellipsis dots (some (← goals.type))

/-- The rest of a parameter that starts with a name. -/
def namedEntry (constraints : Bool) (first : Name) : Parser Entry := do
  if ← isOp "..." then return (some first, some (← dotsType goals))
  if constraints && (← isOp "~") then return (some first, some (← constraint goals))
  if constraints && (← isOp "|") then
    return (none, some (← constraintTail goals (.ident first)))
  let (name, type) ← do
    if ← isOp "[" then
      let (name, type) ← arrayOrInstance goals first
      pure (name, some type)
    else if ← isOp "." then
      pure (none, some (← typeName goals first))
    else
      pure (some first, ← goals .type)
  match type with
  | some t =>
    if constraints && (← isOp "|") then return (name, some (← constraintTail goals t))
    return (name, some t)
  | none => return (name, none)

def entry (constraints : Bool) : Parser Entry := do
  if constraints && (← isOp "~") then return (none, some (← constraint goals))
  if ← isOp "..." then return (none, some (← dotsType goals))
  match ← token with
  | .ident _ => namedEntry goals constraints (← name)
  | _ =>
    let t ← goals.type
    if constraints && (← isOp "|") then return (none, some (← constraintTail goals t))
    return (none, some t)

/-- The fields that the parameters of a list make up. If no parameter has both a name and a type,
all are types; otherwise all have names, and names without a type share the next one. -/
def fieldsOf (constraints : Bool) (entries : List Entry) : Option (List Field) :=
  if entries.all fun e => e.1.isNone || e.2.isNone then
    if constraints && !entries.isEmpty then none
    else some (entries.filterMap fun e =>
      match e with
      | (_, some t) => some (.mk [] t none)
      | (some n, none) => some (.mk [] (.ident n) none)
      | (none, none) => none)
  else group [] entries
where
  group (names : List Name) : List Entry → Option (List Field)
    | [] => if names.isEmpty then some [] else none
    | (some n, none) :: rest => group (names ++ [n]) rest
    | (some n, some t) :: rest => (group [] rest).map (.mk (names ++ [n]) t none :: ·)
    | (none, _) :: _ => none

/-- A list of parameters up to its closing bracket, after some that were read already. -/
def entries (constraints : Bool) (closing : String) (first : Option Entry) :
    Parser (List Field) := do
  let before ←
    match first with
    | some e => do
      discard (comma closing)
      pure [e]
    | none => pure []
  let rest ← closedList closing (entry goals constraints)
  match fieldsOf constraints (before ++ rest) with
  | some fields => return fields
  | none => failure

def isVariadic : Field → Bool
  | .mk _ (.ellipsis _ _) _ => true
  | _ => false

/-- Whether only the final parameter of a list, if any, takes any number of values. -/
def endsVariadic : List Field → Bool
  | [] => true
  | [.mk names type tag] => names.length ≤ 1 || !isVariadic (.mk names type tag)
  | field :: rest => !isVariadic field && endsVariadic rest

def params : Parser (List Field) := do
  discard (op "(")
  let fields ← entries goals false ")" none
  discard (op ")")
  if !endsVariadic fields then failure
  return fields

def results : Parser (List Field) := do
  let fields ← params goals
  if fields.any isVariadic then failure
  return fields

def typeParams (first : Option Entry) : Parser (List Field) := do
  let fields ← entries goals true "]" first
  discard (op "]")
  if fields.isEmpty || fields.any isVariadic then failure
  return fields

def signature (typeParams : List Field) : Parser Signature := do
  let ps ← params goals
  let start ← pos
  if ← isOp "(" then
    return .mk typeParams ps (some (← results goals)) start
  match ← goals .type with
  | some t => return .mk typeParams ps (some [.mk [] t none]) t.pos
  | none => return .mk typeParams ps none start

/-! ## Structures and interfaces -/

/-- Names and a type, an embedded type, or an embedded pointer. -/
def structField : Parser Field := do
  let start ← pos
  let (names, type) ←
    if ← accept "*" then do
      pure ([], Expr.star start (← typeName goals (← name)))
    else do
      let first ← name
      let t ← token
      let embedded := t == .op "." || t == .semicolon || t == .op "\x7d" ||
        match t with
        | .string _ => true
        | _ => false
      if embedded then
        if t == .op "." then pure ([], ← typeName goals first)
        else pure ([], .ident first)
      else
        let more ← if ← accept "," then commaList name else pure []
        if more.isEmpty && (← isOp "[") then
          let (fieldName, type) ← arrayOrInstance goals first
          pure (fieldName.toList, type)
        else pure (first :: more, ← goals.type)
  let tag ← do
    match ← token with
    | .string bytes =>
      advance
      pure (some bytes)
    | _ => pure none
  terminator
  return .mk names type tag

def structType (start : Pos) : Parser Expr := do
  discard (op "\x7b")
  let fields ← iterate (fun fields => do
    if (← isName) || (← isOp "*") then return .inl ((← structField goals) :: fields)
    return .inr fields.reverse) []
  discard (op "\x7d")
  return .structType start fields

def methodOrEmbedded : Parser InterfaceElement := do
  let first ← name
  if ← isOp "(" then
    return .method first (← signature goals [])
  if ← isOp "[" then
    -- A method has no type parameters, so that only type arguments can follow.
    return .embedded (← constraintTail goals (← instantiated goals (.ident first)))
  return .embedded (← constraintTail goals (← typeName goals first))

def interfaceType (start : Pos) : Parser Expr := do
  discard (op "\x7b")
  let elements ← iterate (fun elements => do
    if ← isName then
      let e ← methodOrEmbedded goals
      terminator
      return .inl (e :: elements)
    if ← isOp "~" then
      let e ← constraint goals
      terminator
      return .inl (InterfaceElement.embedded e :: elements)
    match ← goals .type with
    | some t =>
      let e ← constraintTail goals t
      terminator
      return .inl (.embedded e :: elements)
    | none => return .inr elements.reverse) []
  discard (op "\x7d")
  return .interfaceType start elements

def chanType : Parser Expr := do
  let start ← pos
  if ← accept "<-" then
    discard (keyword "chan")
    return .chanType start .receiveOnly (← goals.type)
  discard (keyword "chan")
  if ← accept "<-" then return .chanType start .sendOnly (← goals.type)
  return .chanType start .both (← goals.type)

def typeRule : Parser (Option Expr) := do
  let start ← pos
  match ← token with
  | .ident _ => return some (← typeName goals (← name))
  | .op "[" =>
    advance
    return some (← arrayType goals start)
  | .op "*" =>
    advance
    return some (.star start (← goals.type))
  | .op "<-" => return some (← chanType goals)
  | .op "(" =>
    advance
    let t ← goals.type
    discard (op ")")
    return some (.paren start t)
  | .keyword "struct" =>
    advance
    return some (← structType goals start)
  | .keyword "func" =>
    advance
    return some (.funcType start (← signature goals []))
  | .keyword "interface" =>
    advance
    return some (← interfaceType goals start)
  | .keyword "map" =>
    advance
    discard (op "[")
    let key ← goals.type
    discard (op "]")
    return some (.mapType start key (← goals.type))
  | .keyword "chan" => return some (← chanType goals)
  | _ => return none

end SsaBlocks.Source.Parser
