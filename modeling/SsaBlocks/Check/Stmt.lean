import SsaBlocks.Check.Expr

/-!
# Checking statements

Assignments, declarations and control statements. What is not compiled is checked all the same.
-/

namespace SsaBlocks.Check

open SsaBlocks.Source (Pos Name)
open SsaBlocks.Types

variable (goals : Goals)

def notCompiledStmt (s : Source.Stmt) : Typed.Stmt :=
  .unsupported s.pos ("statement " ++ s.kind)

/-! ## Assignment -/

/-- A target of an assignment: its type, unless it is blank, and how it is compiled. To be assigned
to is no use of a variable. -/
def assignTarget (env : Env) (e : Source.Expr) : Check (Option Ty × Typed.Target) := do
  let check := do
    let x ← goals.value env e
    match x.mode with
    | .addressable | .mapElement => return x
    | _ => reject "cannot be assigned to"
  match e.unparen with
  | .ident name =>
    if name.text == "_" then return (none, .blank)
    match ← lookup? env name.text with
    | some id =>
      let used := (← object id).used
      let x ← check
      modifyObject id fun o => { o with used }
      return (some x.type, .var name.pos name.text id)
    | none => reject ("undefined: " ++ name.text)
  | _ =>
    let x ← check
    return (some x.type, .unsupported e.pos ("assignment to " ++ e.kind))

/-- The values for some variables, whose types may be known: one expression for each, or a single
expression that yields several. `flag` allows a value with the flag that tells whether it is there. -/
def valuesFor (env : Env) (targets : List (Option Ty)) (flag : Bool) (es : List Source.Expr) :
    Check (List Operand) := do
  if es.length == targets.length then
    return ← (es.zip targets).mapM fun (e, t) => goals.valueFor env t e
  match es with
  | [e] =>
    let x ← goals.exprOrType env e
    match x.mode, x.type with
    | .value, .tuple ts =>
      require (ts.length == targets.length) "wrong number of values"
      return ts.map fun t => valueOperand x.pos t x.tree
    | .optional, t | .mapElement, t =>
      require (flag && targets.length == 2) "wrong number of values"
      return [{ valueOperand x.pos t x.tree with mode := .value },
        valueOperand x.pos (.basic .untypedBool) x.tree]
    | _, _ => reject "wrong number of values"
  | _ => reject "wrong number of values"

def assignStmt (env : Env) (pos : Pos) (targets values : List Source.Expr) :
    Check Typed.Stmt := do
  let lhs ← targets.mapM (assignTarget goals env)
  let xs ← valuesFor goals env (lhs.map (·.1)) true values
  let xs ← (xs.zip lhs).mapM fun (x, t) => assignTo x t.1
  if targets.length == values.length then
    return .assign (lhs.map (·.2)) (xs.map (·.tree))
  return .unsupported pos "multi-value assignment"

def initialType (x : Operand) : Check Ty := do
  require (!x.isNil) "use of nil without a type"
  return x.type.defaultType

/-- A declaration of new variables along with assignments to variables of the same scope. -/
def defineStmt (env : Env) (pos : Pos) (targets values : List Source.Expr) :
    Check (Env × Typed.Stmt) := do
  let names ← targets.mapM fun
    | .ident name => pure name
    | _ => reject "declaration of something that is no name"
  let texts := (names.map (·.text)).filter (· != "_")
  require (texts.eraseDups.length == texts.length) "repeated name"
  let existing ← names.mapM fun name => do
    match env.innermost.lookup name.text with
    | some id =>
      match (← object id).entity with
      | some (.var t) => pure (some (id, t))
      | _ => reject "cannot be assigned to"
    | none => pure none
  let xs ← valuesFor goals env (existing.map fun e => e.map (·.2)) true values
  let declared ← ((names.zip existing).zip xs).mapM fun ((name, found), x) => do
    match found with
    | some (id, t) =>
      return (none, Typed.Target.var name.pos name.text id, ← assignTo x (some t))
    | none =>
      let t ← initialType x
      let x ← assignTo x (some t)
      if name.text == "_" then return (none, .blank, x)
      let id ← newLocal name.text t true
      let binder := ⟨name.pos, name.text, id, sourceType (← store) t⟩
      return (some (name.text, id), .declare binder, x)
  let new := declared.filterMap (·.1)
  require (!new.isEmpty) "no new variables"
  let env := new.foldl (fun env p => env.insert p.1 p.2) env
  if targets.length == values.length then
    return (env, .assign (declared.map (·.2.1)) (declared.map (·.2.2.tree)))
  return (env, .unsupported pos "multi-value assignment")

/-- An assignment of the result of an operation on a variable. -/
def updateStmt (env : Env) (pos : Pos) (op : String) (target : Source.Expr) (y : Check Operand)
    (compiled : Bool) : Check Typed.Stmt := do
  let x ← goals.value env target
  let r ← binary pos op x (← y)
  let (t, place) ← assignTarget goals env target
  require t.isSome "blank variable has no value"
  let r ← assignTo r t
  if !compiled then return .unsupported pos ("assignment operator " ++ op ++ "=")
  match r.tree with
  | .binary o left right => return .update place left o right
  | _ => return .unsupported pos ("assignment operator " ++ op ++ "=")

def compiledAssignments : List String :=
  ["+", "-", "*", "/", "%", "&", "|"]

/-! ## Declarations -/

def declareBinder (env : Env) : Option Typed.Binder → Check Env
  | some b => declare env b.name b.id
  | none => pure env

/-- The first values of variables with the types that they take, if there are values. -/
def firstValues (env : Env) (names : List Name) (given : Option Ty) (values : List Source.Expr) :
    Check (List (Option (Ty × Operand))) := do
  if values.isEmpty then return names.map fun _ => none
  let xs ← valuesFor goals env (names.map fun _ => given) true values
  xs.mapM fun x => do
    let t ← match given with
      | some t => pure t
      | none => initialType x
    return some (t, ← assignTo x (some t))

def varSpec (env : Env) (names : List Name) (type : Option Source.Expr)
    (values : List Source.Expr) : Check (Env × Typed.VarSpec) := do
  let given ← type.mapM (goals.varType env)
  let xs ← firstValues goals env names given values
  let declared ← (names.zip xs).mapM fun (name, x) => do
    let t ←
      match given, x with
      | some t, _ | none, some (t, _) => pure t
      | none, none => reject "variable without a type"
    if name.text == "_" then return none
    let id ← newLocal name.text t true
    return some (⟨name.pos, name.text, id, sourceType (← store) t⟩ : Typed.Binder)
  let env ← declared.foldlM declareBinder env
  let trees := xs.filterMap fun x => x.map fun p => p.2.tree
  let trees := if names.length == values.length then trees else trees.take 1
  return (env, {
    pos := (names.head?.map Name.pos).getD {}
    binders := declared
    values := if values.isEmpty then none else some trees })

/-- Gives the constants of a group the type and values of the last specification that has some. -/
def repeatedSpecs : Option Source.Expr × List Source.Expr → Nat → List Source.ValueSpec →
    List (Nat × List Name × Option Source.Expr × List Source.Expr)
  | _, _, [] => []
  | last, iota, .mk names type values :: rest =>
    let (type, values) := if type.isSome || !values.isEmpty then (type, values) else last
    (iota, names, type, values) :: repeatedSpecs (type, values) (iota + 1) rest

def constEntity (env : Env) (type : Option Source.Expr) (value : Source.Expr) : Check Entity := do
  let given ← type.mapM fun e => do
    let t ← goals.type env e
    require (((← store).basic? t).any Basic.isConstType) "no type of constants"
    return t
  let x ← goals.value env value
  require x.isConstant "not a constant"
  let x ← assignTo x (some (given.getD x.type))
  match x.constant? with
  | some c => return .const (given.getD x.type) c
  | none => reject "not a constant"

def declareConst (env : Env) (c : Name × Entity) : Check Env := do
  let id ← newObject { name := c.1.text, entity := some c.2 }
  declare env c.1.text id

def constSpecs (env : Env) (specs : List Source.ValueSpec) : Check Env :=
  (repeatedSpecs (none, []) 0 specs).foldlM (fun env (iota, names, type, values) => do
    require (names.length == values.length) "wrong number of values"
    let entities ← values.mapM (constEntity goals { env with iota := some iota } type)
    (names.zip entities).foldlM declareConst env) env

def setEntity (id : ObjId) (e : Entity) : Check Unit :=
  modifyObject id fun o => { o with entity := some e }

def typeEntity (env : Env) (spec : Source.TypeSpec) (id : ObjId) (d : Declared) : Check Unit := do
  match spec with
  | .mk _ typeParams isAlias type =>
    if isAlias && !typeParams.isEmpty then since 23
    let n ← newDeclared d
    setEntity id (.typeName (if isAlias then .synonym n [] else .named n []))
    let (env, params) ← collectTypeParams goals env.enter typeParams fun params =>
      modifyDeclared n fun d => { d with typeParams := params }
    let t ← goals.type env type
    -- An alias may be another name of a type parameter, but not of its own.
    match (← store).param? t with
    | some p => require (isAlias && !params.contains p) "a type parameter is no definition"
    | none => pure ()
    modifyDeclared n fun d => { d with definition := some t }
    if !isAlias then
      defer (.fieldNames n)
      if env.inBody then require ((← store).isFinite n) "type contains itself"

def typeSpecs (env : Env) (specs : List Source.TypeSpec) : Check Env :=
  specs.foldlM (fun env spec => do
    match spec with
    | .mk name _ isAlias _ =>
      let kind := if isAlias then ObjectKind.synonym else .definition
      let id ← newObject { name := name.text, kind }
      let env ← declare env name.text id
      let qualified := (← get).packageName ++ "." ++ name.text
      resolving id (typeEntity goals env spec id { name := qualified, ambient := env.typeParams })
      return env) env

def declStmt (env : Env) (d : Source.Decl) : Check (Env × Typed.Stmt) := do
  match d with
  | .vars _ specs =>
    let (env, trees) ← specs.foldlM (fun (acc : Env × List Typed.VarSpec) spec => do
      match spec with
      | .mk names type values =>
        let (env, tree) ← varSpec goals acc.1 names type values
        return (env, acc.2 ++ [tree])) (env, [])
    return (env, .vars trees)
  | .consts _ specs => return (← constSpecs goals env specs, .empty)
  | .types pos specs =>
    return (← typeSpecs goals env specs, .unsupported pos "type declaration")

/-! ## Control statements -/

def optionStmt (env : Env) : Option Source.Stmt → Check (Env × Typed.Stmt)
  | none => return (env, .empty)
  | some s => goals (.stmt { env with canFallThrough := false } s)

def inScope (env : Env) (body : List Source.Stmt) : Check (List Typed.Stmt) := do
  return (← stmts goals env.enter body).2

def condition (env : Env) (e : Source.Expr) : Check Typed.Expr := do
  let x ← goals.value env e
  require ((← store).allBasic Basic.isBoolean x.type) "condition is no boolean"
  return x.tree

def returnStmt (env : Env) (pos : Pos) (values : List Source.Expr) : Check Typed.Stmt := do
  if values.isEmpty then
    if !env.results.isEmpty then
      require (env.results.all fun r => r.1.isSome) "missing values"
      env.results.forM fun (named, _) =>
        match named with
        | some (name, id) =>
          require (name == "_" || env.local? name == some id) "result is shadowed"
        | none => pure ()
    return .ret none
  require (!env.results.isEmpty) "too many values"
  let xs ← valuesFor goals env (env.results.map fun r => some r.2) false values
  let xs ← (xs.zip env.results).mapM fun (x, r) => assignTo x (some r.2)
  match values, xs with
  | [_], x :: _ => return .ret (some x.tree)
  | _, _ => return .unsupported pos "multiple return values"

/-- The clauses of a switch over values: the values must be comparable with the tag, and constants
must differ. -/
def switchClauses (env : Env) (tag : Operand) : List (Ty × Constant) → List Source.Clause →
    Check Unit
  | _, [] => pure ()
  | seen, .mk _ values body :: rest => do
    let seen ← values.foldlM (fun (seen : List (Ty × Constant)) e => do
      let v ← goals.value env e
      let (v, x) ← matchTypes v tag
      discard (comparison e.pos "==" v x)
      let s ← store
      match v.constant?.bind Constant.caseKey? with
      | none => return seen
      | some c =>
        require (!seen.any fun p => p.2.equal c && s.identical p.1 v.type) "duplicate case"
        return (v.type, c) :: seen) seen
    -- All clauses but the last may fall through.
    discard (inScope goals { env with canFallThrough := !rest.isEmpty } body)
    switchClauses env tag seen rest

def oneDefault (clauses : List Source.Clause) : Bool :=
  (clauses.filter fun | .mk isDefault _ _ => isDefault).length ≤ 1

def switchStmt (env : Env) (init : Option Source.Stmt) (tag : Option Source.Expr)
    (clauses : List Source.Clause) : Check Unit := do
  let (env, _) ← optionStmt goals env.enter init
  let x ←
    match tag with
    | some e => do
      let x ← assignTo (← goals.value env e) none
      let s ← store
      require (s.comparable x.type || s.hasNil x.type) "cannot be compared"
      pure x
    | none => do pure (constantOperand (← store) {} (.basic .bool) (.bool true))
  require (oneDefault clauses) "several default clauses"
  switchClauses goals { env with canBreak := true } x [] clauses

def namesNil (env : Env) (e : Source.Expr) : Check Bool := do
  match e.unparen with
  | .ident name =>
    match ← lookup? env name.text with
    | some id =>
      match (← object id).entity with
      | some .nilValue => return true
      | _ => return false
    | none => return false
  | _ => return false

/-- The types of a clause of a type switch; nil counts as one. -/
def caseTypes (env : Env) (x : Ty) (seen : List (Option Ty)) (values : List Source.Expr) :
    Check (List (Option Ty) × List (Option Ty)) := do
  let own ← values.mapM fun e => do
    if ← namesNil env e then return none
    let t ← goals.varType env e
    require (mayHold (← store) x t) "impossible case"
    return some t
  let s ← store
  let same := fun (a b : Option Ty) =>
    match a, b with
    | none, none => true
    | some a, some b => s.identical a b
    | _, _ => false
  let seen ← own.foldlM (fun (seen : List (Option Ty)) t => do
    require (!seen.any (same t)) "duplicate case"
    return t :: seen) seen
  return (own, seen)

/-- The clauses of a type switch. Yields the variables that they declare. -/
def typeClauses (env : Env) (x : Ty) (binder : Option String) : List (Option Ty) →
    List Source.Clause → Check (List ObjId)
  | _, [] => return []
  | seen, .mk _ values body :: rest => do
    let (own, seen) ← caseTypes goals env x seen values
    let (inner, ids) ←
      match binder with
      | none => pure (env.enter, [])
      | some name => do
        let t := match own with
          | [some t] => t
          | _ => x
        let id ← newLocal name t false
        pure ((env.enter).insert name id, [id])
    discard (stmts goals inner body)
    return ids ++ (← typeClauses env x binder seen rest)

/-- A type switch. The variable that it declares must be used in one clause at least. -/
def typeSwitchStmt (env : Env) (init : Option Source.Stmt) (binder : Option Source.Expr)
    (operand : Source.Expr) (clauses : List Source.Clause) : Check Unit := do
  let (env, _) ← optionStmt goals env.enter init
  let name ←
    match binder with
    | none => pure none
    | some (.ident n) => do
      require (n.text != "_") "no new variable"
      pure (some n.text)
    | some _ => reject "declaration of something that is no name"
  let x ← goals.value env operand
  require ((← store).isInterface x.type) "not an interface"
  require (oneDefault clauses) "several default clauses"
  let env := { env with canBreak := true, canFallThrough := false }
  let ids ← typeClauses goals env x.type name [] clauses
  if name.isSome then
    let objects := (← get).objects
    require (ids.any fun id => (objects.getD id default).used) "unused variable"

def selectClauses (env : Env) : List Source.Communication → Check Unit
  | [] => pure ()
  | .mk comm body :: rest => do
    let isReceive : Source.Expr → Bool := fun e =>
      match e.unparen with
      | .unary _ "<-" _ => true
      | _ => false
    let valid := match comm with
      | none | some (.send _ _) => true
      | some (.expr e) => isReceive e
      | some (.assign _ _ [e]) => isReceive e
      | _ => false
    require valid "clause is no communication"
    let (inner, _) ← optionStmt goals env.enter comm
    discard (stmts goals inner body)
    selectClauses env rest

def rangeTypes (s : Store) (t : Ty) : Option (Option Ty × Option Ty) := do
  let core ← s.core? t
  match core, s.array? core with
  | _, some (_, element) => some (some Ty.int, some element)
  | .basic b, none =>
    if b.isString then some (some Ty.int, some (.basic .rune))
    else if b.isInteger then some (some t, none)
    else none
  | .slice element, none => some (some Ty.int, some element)
  | .map key value, none => some (some key, some value)
  | .chan d element, none => if d = .sendOnly then none else some (some element, none)
  | .func [(_, yield)] [] _ _, none =>
    -- The loop body becomes a function that tells whether to go on.
    match s.core? yield with
    | some (.func params [(_, result)] false _) =>
      if params.length ≤ 2 && s.identical result (.basic .bool) then
        some ((params[0]?).map (·.2), (params[1]?).map (·.2))
      else none
    | _ => none
  | _, none => none

/-- Loops over integers and over functions came with later releases than the others. -/
def rangeRelease (s : Store) (t : Ty) : Nat :=
  match s.core? t with
  | some (.basic b) => if b.isInteger then 22 else 0
  | some (.func _ _ _ _) => 23
  | _ => 0

/-- The variables that a loop over a range declares, one of which must not be blank. -/
def rangeVars (env : Env) (targets : List Source.Expr) (types : List Ty) : Check Env := do
  let names ← targets.mapM fun
    | .ident name => pure name.text
    | _ => reject "declaration of something that is no name"
  require (names.any (· != "_")) "no new variables"
  (names.zip types).foldlM (fun env (name, t) => do
    declare env name (← newLocal name t true)) env

/-- A loop over a range. A number that has no type takes that of the first target. -/
def rangeStmt (env : Env) (targets : List Source.Expr) (define : Bool) (operand : Source.Expr)
    (body : List Source.Stmt) : Check Unit := do
  let env := env.enter
  let x ← goals.value env operand
  let s ← store
  match rangeTypes s x.type with
  | none => reject "no range"
  | some (key, value) =>
    since (rangeRelease s x.type)
    let types := [key, value].filterMap id
    require (targets.length ≤ types.length) "too many variables"
    let overInt := (s.basic? x.type).any Basic.isInteger
    let env ←
      if define then do
        let types ←
          if overInt then do
            let t := x.type.defaultType
            discard (assignTo x (some t))
            pure [t]
          else pure types
        rangeVars env targets types
      else do
        (targets.zip types).forM fun (e, t) => do
          let (target, _) ← assignTarget goals env e
          if overInt then
            let x ← assignTo x target
            require (((← store).basic? x.type).any Basic.isInteger) "iteration over no integer"
          else discard (assignTo (valueOperand e.pos t (notCompiled e)) target)
        pure env
    if targets.isEmpty && overInt then discard (assignTo x none)
    let inner := { env with canBreak := true, canContinue := true, canFallThrough := false }
    discard (inScope goals inner body)

/-! ## Statements -/

/-- An expression that stands alone must be a call or a receive. -/
def exprStmt (env : Env) (s : Source.Stmt) (e : Source.Expr) : Check Typed.Stmt := do
  let x ← goals.exprOrType env e
  match x.mode with
  | .builtin _ | .type => reject "not a statement"
  | _ => require (x.form == .statement) "unused value"
  match e.unparen, x.tree with
  | .call f _ _, .call callee args =>
    modify fun st => { st with compiled := f.pos :: st.compiled }
    return .call callee args
  | .call _ _ _, .unsupported pos what => return .unsupported pos what
  | _, _ => return .unsupported s.pos "expression statement"

/-- The rule for a statement: the surroundings after it, and its tree. -/
def stmtRule (env : Env) (s : Source.Stmt) : Check (Env × Typed.Stmt) := do
  let inner := { env with canFallThrough := false }
  match s with
  | .empty _ => return (env, .empty)
  | .labeled _ body =>
    let (env, _) ← goals (.stmt env body)
    return (env, notCompiledStmt s)
  | .expr e => return (env, ← exprStmt goals env s e)
  | .send channel value =>
    let ch ← goals.value env channel
    match channelElement? (← store) false ch.type with
    | some element => discard (assignTo (← goals.valueFor env (some element) value) (some element))
    | none => reject "send to something that is no channel"
    return (env, notCompiledStmt s)
  | .incDec operand increment =>
    let x ← goals.value env operand
    let st ← store
    require (st.allBasic Basic.isNumeric x.type) "not a number"
    let one := constantOperand st operand.pos (.basic .untypedInt) (.int 1)
    let op := if increment then "+" else "-"
    return (env, ← updateStmt goals env s.pos op operand (pure one) true)
  | .assign targets "=" values => return (env, ← assignStmt goals env s.pos targets values)
  | .assign targets ":=" values => defineStmt goals env s.pos targets values
  | .assign [target] op [value] =>
    let op := (op.dropEnd 1).toString
    let compiled := compiledAssignments.contains op
    return (env, ← updateStmt goals env s.pos op target (goals.value env value) compiled)
  | .assign _ _ _ => reject "assignment of several values with an operator"
  | .go _ call | .defer _ call =>
    let x ← goals.exprOrType env call
    require (x.form == .statement) "not a call"
    return (env, notCompiledStmt s)
  | .ret pos values => return (env, ← returnStmt goals env pos values)
  | .branch pos keyword (some _) => return (env, .unsupported pos ("labeled " ++ keyword))
  | .branch pos "break" none =>
    require env.canBreak "misplaced break"
    return (env, .leave pos)
  | .branch pos "continue" none =>
    require env.canContinue "misplaced continue"
    return (env, .again pos)
  | .branch pos keyword none =>
    require (keyword == "fallthrough" && env.canFallThrough) "misplaced branch"
    return (env, .unsupported pos keyword)
  | .block _ body => return (env, .block (← inScope goals inner body))
  | .ifThen _ init cond body otherwise =>
    let (scope, initTree) ← optionStmt goals inner.enter init
    let c ← condition goals scope cond
    let thenTree ← inScope goals scope body
    let (_, elseTree) ← optionStmt goals scope otherwise
    return (env, .ifThen initTree c thenTree elseTree)
  | .switch _ init tag clauses =>
    switchStmt goals inner init tag clauses
    return (env, notCompiledStmt s)
  | .typeSwitch _ init binder operand clauses =>
    typeSwitchStmt goals inner init binder operand clauses
    return (env, notCompiledStmt s)
  | .select _ clauses =>
    require ((clauses.filter fun | .mk comm _ => comm.isNone).length ≤ 1) "several default clauses"
    selectClauses goals { inner with canBreak := true } clauses
    return (env, notCompiledStmt s)
  | .loop _ init cond post body =>
    let (scope, initTree) ← optionStmt goals inner.enter init
    let condTree ← cond.mapM (condition goals scope)
    let postTree ← post.mapM fun p => do
      match p with
      | .assign _ ":=" _ => reject "declaration in a post statement"
      | _ => return (← goals (.stmt scope p)).2
    let bodyTree ← inScope goals { scope with canBreak := true, canContinue := true } body
    return (env, .loop initTree condTree postTree bodyTree)
  | .range _ targets define operand body =>
    rangeStmt goals inner targets define operand body
    return (env, notCompiledStmt s)
  | .decl d => declStmt goals env d

end SsaBlocks.Check
