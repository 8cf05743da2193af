import SsaBlocks.Check.Declaration
import SsaBlocks.Source.Release

/-!
# Checking files

All objects of a file are declared first. Then its types, aliases, methods, constants, variables and
signatures are resolved, and last the bodies of its functions are checked.
-/

namespace SsaBlocks.Check

open SsaBlocks.Source (Pos Name)
open SsaBlocks.Types

/-! ## Joining the rules -/

def Goals.rule (goals : Goals) : Goals
  | .expr env implied e => exprRule goals env implied e
  | .type env e => typeRule goals env e
  | .object id => objectRule goals id
  | .stmt env s => stmtRule goals env s

/-- Checkers for what nests no deeper than the given bound. -/
def Goals.upTo : Nat → Goals
  | 0 => fun _ => reject "nested too deeply"
  | n + 1 => fun g => Goals.rule (upTo n) g

/-! ## Packages and predeclared names -/

/-- A package with its members. -/
structure Package where
  name : String
  members : List (String × Entity)

/-- What files can import: packages by their paths, with their types and type parameters. The types
are numbered after those that are predeclared. -/
structure Library where
  types : Array Declared := #[]
  params : Array Parameter := #[]
  package? : List UInt8 → Option Package := fun _ => none

def predeclaredTypes : Array Declared :=
  #[{ name := "error"
      definition := some (.interface .plain [("Error", .func [] [("", Ty.string)] false [])] [])
      isForeign := true },
    { name := "comparable"
      definition := some (.interface .comparable [] [])
      isForeign := true }]

def predeclaredEntities : List (String × Entity) :=
  Basic.predeclared.map (fun b => (b.name, .typeName (.basic b))) ++
    Builtin.named.map (fun p => (p.1, .builtin p.2)) ++
    [("true", .const (.basic .untypedBool) (.bool true)),
      ("false", .const (.basic .untypedBool) (.bool false)),
      ("nil", .nilValue), ("iota", .iota), ("any", .typeName Ty.any),
      ("error", .typeName (.named 0 [])), ("comparable", .typeName (.named 1 []))]

def State.start (lib : Library) (f : Source.File) (depth : Nat) : State :=
  { packageName := f.packageName
    release := f.release.map (max Source.firstRelease)
    store := {
      declared := predeclaredTypes ++ lib.types.map ({ · with isForeign := true })
      params := lib.params
      depth }
    objects := (predeclaredEntities.map fun p =>
      ({ name := p.1, entity := some p.2 } : Object)).toArray
    predeclared := predeclaredEntities.zipIdx.map fun p => (p.1.1, p.2) }

/-! ## Collecting objects -/

/-- A declaration of the file with the objects that it declares. -/
inductive Entry
  | vars (specs : List (List (Name × ObjId) × Nat))
  | consts (ids : List ObjId)
  | types (pos : Pos) (ids : List ObjId)
  | func (id : ObjId) (decl : Source.FuncDecl)

def isReserved (packageName name : String) : Bool :=
  name == "init" || (name == "main" && packageName == "main")

def declareGlobal (name : String) (inScope : Bool) (pending : Pending) : Check ObjId := do
  let id ← newObject {
    name, kind := pending.kind, pending := some pending, isGlobal := true
    mustUse := pending.kind == .package && name != "_" }
  if inScope && name != "_" then
    let s ← get
    require (s.file.lookup name).isNone ("redeclared: " ++ name)
    set { s with file := (name, id) :: s.file }
  return id

def declareValue (name : String) (pending : Pending) : Check ObjId := do
  require (!isReserved (← get).packageName name) ("must be a function: " ++ name)
  declareGlobal name true pending

def declareVars (names : List Name) (type : Option Source.Expr) (values : List Source.Expr) :
    Check (List ObjId) := do
  match values with
  | [] => names.mapM fun n => declareValue n.text (.var type none)
  | [value] =>
    if names.length == 1 then names.mapM fun n => declareValue n.text (.var type (some value))
    else
      let first := (← get).objects.size
      let group := List.range' first names.length
      names.mapM fun n => declareValue n.text (.shared type group value)
  | values =>
    require (names.length == values.length) "wrong number of values"
    (names.zip values).mapM fun (n, v) => declareValue n.text (.var type (some v))

/-- Declares the variables of a specification, and counts its values. -/
def collectVars (names : List Name) (type : Option Source.Expr) (values : List Source.Expr) :
    Check (List (Name × ObjId) × Nat) := do
  let ids ← declareVars names type values
  return (names.zip ids, values.length)

/-- The signature of an initializer or a main function must be empty, and an initializer has a
body. -/
def checkReserved (decl : Source.FuncDecl) : Check Unit := do
  if decl.receiver.isNone && isReserved (← get).packageName decl.name.text then
    require (decl.type.typeParams.isEmpty && decl.type.params.isEmpty && !decl.type.hasResults)
      "bad signature"
    require (decl.name.text != "init" || decl.body.isSome) "missing body"

/-- Declares a package and its members that can be seen from outside. They are known by their own
names if the import has a dot. -/
def importPackage (lib : Library) (spec : Source.ImportSpec) : Check Unit := do
  match lib.package? spec.path with
  | none => reject "unknown package"
  | some p =>
    let name := spec.name.getD p.name
    require (name != "init") "package with the name of an initializer"
    let exported := p.members.filter fun m => isExported m.1
    let first := (← get).objects.size + 1
    let members := exported.zipIdx.map fun (m, i) => (m.1, first + i)
    let package ← declareGlobal name (name != ".") (.package members)
    exported.forM fun m => discard (declareGlobal m.1 (name == ".") (.imported package m.2))

def collect (lib : Library) (d : Source.TopDecl) : Check (Option Entry) := do
  match d with
  | .imports specs =>
    specs.forM (importPackage lib)
    return none
  | .decl (.vars _ specs) =>
    return some (.vars (← specs.mapM fun
      | .mk names type values => collectVars names type values))
  | .decl (.consts _ specs) =>
    let ids ← (repeatedSpecs (none, []) 0 specs).flatMapM fun (iota, names, type, values) => do
      require (names.length == values.length) "wrong number of values"
      (names.zip values).mapM fun (n, v) => declareValue n.text (.const type v iota)
    return some (.consts ids)
  | .decl (.types pos specs) =>
    let ids ← specs.mapM fun spec =>
      match spec with
      | .mk name _ _ _ => declareValue name.text (.type spec)
    return some (.types pos ids)
  | .func decl =>
    checkReserved decl
    let inScope := decl.receiver.isNone && decl.name.text != "init"
    return some (.func (← declareGlobal decl.name.text inScope (.func decl)) decl)

/-! ## Checking a file -/

def resolveAll (goals : Goals) (ids : List ObjId) : Check Unit :=
  ids.forM fun id => do discard (goals.entity id false)

def headOf (goals : Goals) (id : ObjId) : Check FuncHead := do
  discard (goals.entity id false)
  match (← get).heads.lookup id with
  | some head => return head
  | none => reject "function without a signature"

def specTree (names : List (Name × ObjId)) (values : Nat) : Check Typed.VarSpec := do
  let s ← get
  let binders := names.map fun (name, id) =>
    if name.text == "_" then none
    else
      let t := match (s.objects.getD id default).entity with
        | some (.var t) => t
        | _ => Ty.int
      some (⟨name.pos, name.text, id, sourceType s.store t⟩ : Typed.Binder)
  let trees := (names.take values).filterMap fun p => s.initials.lookup p.2
  return {
    pos := (names.head?.map fun p => p.1.pos).getD {}
    binders
    values := if values == 0 then none else some trees }

def resultOf (s : Store) (sig : Source.Signature) (head : FuncHead) : Typed.Result :=
  match sig.results with
  | [] => .void
  | [.mk [] type _] =>
    match head.results with
    | r :: _ => .value type.pos (sourceType s r.type)
    | [] => .void
  | [.mk [_] _ _] => .unsupported sig.resultsPos "named result"
  | _ => .unsupported sig.resultsPos "multiple results"

/-- Checks the body of a function and compiles it, unless its form is not supported. -/
def funcTree (goals : Goals) (id : ObjId) (decl : Source.FuncDecl) : Check Typed.Decl := do
  let head ← headOf goals id
  let body ← decl.body.mapM (funcBody goals head)
  let name := decl.name.text
  let refused := fun (what : String) =>
    Typed.Decl.unsupportedFunc name decl.pos (what ++ " " ++ name)
  if decl.receiver.isSome then return refused "method"
  if !decl.type.typeParams.isEmpty then return refused "generic function"
  match body with
  | none => return refused "function without a body"
  | some body =>
    let s ← store
    let params := head.params.map fun p =>
      (⟨p.typePos, if p.name == "" then "_" else p.name, p.id, sourceType s p.type⟩ : Typed.Param)
    return .func { name, params, result := resultOf s decl.type head, bodyPos := decl.bodyPos, body }

/-- The declaration as it is compiled; constants leave nothing to compile. -/
def entryTree (goals : Goals) : Entry → Check (Option Typed.Decl)
  | .vars specs => do
    return some (.vars (← specs.mapM fun (names, values) => specTree names values))
  | .consts _ => return none
  | .types pos _ => return some (.unsupported pos "type declaration")
  | .func id decl => some <$> funcTree goals id decl

/-- What must hold when all has been checked: types meet their conditions, finitely many instances
are needed, variables are used, and no constant or variable is needed for its own initial value. -/
def finalConditions : Check Unit := do
  let s ← get
  s.deferred.forM fun d => require (d.holds s.store) "bad type"
  require (s.store.finitelyInstantiated s.instances) "endless instances"
  s.objects.forM fun o => require (!o.mustUse || o.used) ("unused: " ++ o.name)
  s.objects.toList.zipIdx.forM fun (o, id) => do
    if o.isGlobal && o.kind == .value then
      let start := s.references.filterMap fun r => if r.1 == id then some r.2 else none
      require (!(Store.reachable s.references start).contains id) "initialization cycle"

def objectsOfKind (kind : ObjectKind) : Check (List ObjId) := do
  let s ← get
  return s.objects.toList.zipIdx.filterMap fun (o, id) =>
    if o.isGlobal && o.kind == kind then some id else none

/-- Resolves all objects of a file, types first. -/
def resolveFile (goals : Goals) (entries : List Entry) : Check Unit := do
  resolveAll goals (← objectsOfKind .definition)
  resolveAll goals (← objectsOfKind .synonym)
  let s ← store
  (List.range s.declared.size).forM fun id => require (s.isFinite id) "type contains itself"
  entries.forM fun
    | .func id decl => do if decl.receiver.isSome then discard (headOf goals id)
    | _ => pure ()
  resolveAll goals (← objectsOfKind .value)
  resolveAll goals (← objectsOfKind .function)

def file (lib : Library) (goals : Goals) (f : Source.File) : Check (List Typed.Decl) := do
  require (f.packageName != "_") "blank package name"
  require (f.release.all (· ≤ Source.currentRelease)) "unknown release"
  let entries ← f.decls.filterMapM (collect lib)
  entries.forM fun
    | .func id decl => assignMethod id decl
    | _ => pure ()
  resolveFile goals entries
  (← get).bodies.forM fun (head, body) => discard (funcBody goals head body)
  let trees ← entries.filterMapM (entryTree goals)
  finalConditions
  return trees

end SsaBlocks.Check

namespace SsaBlocks.Source

/-- Checks a file: its typed declarations, or the reason why it is rejected. The bound on nesting
is far beyond what a file of the given size can hold. -/
def File.check (lib : Check.Library) (f : File) (size : Nat) : Except String (List Typed.Decl) :=
  let bound := 16 * size + 1000
  match (Check.file lib (Check.Goals.upTo bound) f).run (Check.State.start lib f bound) with
  | .ok (decls, _) => .ok decls
  | .error reason => .error reason

end SsaBlocks.Source
