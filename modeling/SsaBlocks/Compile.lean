import SsaBlocks.Check.File
import SsaBlocks.Lower.Function
import SsaBlocks.Source.Parser.File

/-!
# Compiling a source file

A file is parsed, checked against a library of packages and lowered, and all its functions are taken
through SSA construction. Functions are lowered at the same time: if several of them are not
supported, the one that is reported is whichever failed first.
Global variables come in source order. Initializers get names of their own; they and the initial
values of globals make up a last function, which sets up the globals.
-/

namespace SsaBlocks

open SsaBlocks.Source (Pos)
open SsaBlocks.Typed

/-- Why a file was not compiled. -/
inductive CompileError
  | parse
  | imports
  | type
  | unsupported (pos : Pos) (what : String)
  | finish (e : FinishError)
  | fault (f : Fault)
deriving DecidableEq, Repr

namespace CompileError

/-- The text of an error in a file. A fault outside of SSA construction has a text of its own. -/
def message (file : String) : CompileError → String
  | parse => s!"{file}: parse failed"
  | imports => s!"{file}: imported packages had errors"
  | type => s!"{file}: type check failed"
  | unsupported pos what => s!"{file}: {pos.text file}: unsupported {what}"
  | finish e => s!"{file}: {e.message}"
  | fault f => f.message?.getD ""

def ofFailure : Lower.Failure → CompileError
  | .unsupported pos what => unsupported pos what
  | .fault f => fault f

end CompileError

/-- The results of steps that are taken at the same time. If some of them fail, any of them may be the
one that fails first: `first` tells which. -/
def gather {ε α : Type} (first : Nat) (results : List (Except ε α)) : Except ε (List α) :=
  let failures := results.filterMap fun
    | .error e => some e
    | .ok _ => none
  match failures[first % failures.length]? with
  | some e => .error e
  | none => results.mapM id

/-- A file before its functions are lowered: its global variables, the specifications with initial
values, its functions under the names that they get, and the number of initializers. -/
structure Outline where
  globals : List Variable := []
  bindings : Lower.Bindings := []
  initSpecs : List VarSpec := []
  functions : List (String × Decl) := []
  initializers : Nat := 0

namespace Outline

/-- Adds a global variable. Variables are numbered from one. -/
def addGlobal (o : Outline) (b : Binder) : Except CompileError Outline :=
  match b.type with
  | .value type =>
    let v : Variable :=
      { id := o.globals.length + 1, name := b.name, kind := .globalVar, type }
    .ok { o with globals := o.globals ++ [v], bindings := (b.id, v) :: o.bindings }
  | .other text => .error (.unsupported b.pos ("type " ++ text))

def addSpec (o : Outline) (spec : VarSpec) : Except CompileError Outline := do
  let o ← (spec.binders.filterMap id).foldlM addGlobal o
  return if spec.values.isSome then { o with initSpecs := o.initSpecs ++ [spec] } else o

/-- Adds a function under its name. Initializers are numbered. -/
def addFunction (o : Outline) (name : String) (d : Decl) : Outline :=
  if name == Program.initName then
    { o with
      functions := o.functions ++ [(Lower.initializerName (o.initializers + 1), d)]
      initializers := o.initializers + 1 }
  else { o with functions := o.functions ++ [(name, d)] }

def add (o : Outline) (d : Decl) : Except CompileError Outline :=
  match d with
  | .vars specs => specs.foldlM addSpec o
  | .func f => .ok (o.addFunction f.name d)
  | .unsupportedFunc name _ _ => .ok (o.addFunction name d)
  | .unsupported pos what => .error (.unsupported pos what)

def ofDecls (ds : List Decl) : Except CompileError Outline :=
  ds.foldlM add {}

/-- The numbers of the variables of a function, which are larger than those of globals. -/
def supply (o : Outline) (n : Nat) : Nat :=
  o.globals.length + 1 + n

def lower (o : Outline) (lowering : Lower Unit) : Except CompileError Func :=
  match Lower.run o.bindings o.supply lowering with
  | .ok fn => .ok fn
  | .error e => .error (.ofFailure e)

def lowerDecl (o : Outline) (p : String × Decl) : Except CompileError Func :=
  match p.2 with
  | .func f => o.lower (Lower.function p.1 f)
  | .unsupportedFunc _ pos what | .unsupported pos what => .error (.unsupported pos what)
  | .vars _ => .error (.fault .outOfRange)

/-- Lowers all functions, and the one that sets up the globals if it is needed. -/
def lowerAll (o : Outline) (first : Nat) : Except CompileError (List Func) := do
  let fns ← gather first (o.functions.map o.lowerDecl)
  if o.initSpecs.isEmpty && o.initializers == 0 then return fns
  return fns ++ [← o.lower (Lower.initFunction o.initSpecs o.initializers)]

end Outline

def Program.ofFunctions (globals : List Variable) (fns : List Func) :
    Except CompileError Program := do
  let added := fns.foldlM (fun (p : Program) fn => p.addFunction fn) { globals }
  match added with
  | .error f => throw (.fault f)
  | .ok p =>
    match p.finish with
    | .ok p => return p
    | .error e => throw (.finish e)

def compileDecls (first : Nat) (ds : List Decl) : Except CompileError Program := do
  let o ← Outline.ofDecls ds
  Program.ofFunctions o.globals (← o.lowerAll first)

/-- Compiles a source file with the packages of a library. Of the functions that are not supported,
`first` tells the one that is reported. -/
def compile (lib : Check.Library) (first : Nat) (source : String) : Except CompileError Program :=
  match Source.File.parse? source with
  | none => .error .parse
  | some file =>
    match file.check lib source.length with
    | .error _ =>
      if file.imports.any fun spec => (lib.package? spec.path).isNone then .error .imports
      else .error .type
    | .ok ds => compileDecls first ds

end SsaBlocks
