import SsaBlocks.Lower.Stmt
import SsaBlocks.Program

/-!
# Lowering functions

A function is lowered into its entry block; the end of its body returns if it has no result. The
function that sets up the globals stores their initial values in source order and then calls the
initializers that the file declares.
-/

namespace SsaBlocks.Lower

open SsaBlocks.Source (Pos)
open SsaBlocks.Typed

def entry : BlockId := 0

def param (p : Param) : Lower Variable := do
  let type ← valueType p.typePos p.type
  let v ← newVariable p.name .param type
  bind p.id v
  return v

def resultType : Result → Lower ValueType
  | .void => pure .void
  | .value pos type => valueType pos type
  | .unsupported pos what => unsupported pos what

def start (name : String) (params : List Variable) (type : ValueType) : Lower Unit :=
  modify fun s => { s with fn := Func.make name params type }

/-- Ends the body of a function: only a function without a result may reach its end. -/
def finishBody (f : Function) (next : Option BlockId) : Lower Unit := do
  if let some b := next then
    if (← get).fn.resultType ≠ .void then
      unsupported f.bodyPos ("missing return in " ++ f.name)
    build (.ret b none)

def function (name : String) (f : Function) : Lower Unit := do
  let params ← f.params.mapM param
  start name params (← resultType f.result)
  let flow ← stmts false (some entry) f.body
  finishBody f flow.next

def initSpec (b : BlockId) (spec : VarSpec) : Lower BlockId := do
  let (ts, b) ← exprs b (spec.values.getD [])
  if ts.length ≠ spec.binders.length then unsupported spec.pos "multi-value initializer"
  (spec.binders.zip ts).forM fun
    | (none, _) => pure ()
    | (some binder, t) => assign b (.var binder.pos binder.name binder.id) t
  return b

def initSpecs (b : BlockId) : List VarSpec → Lower BlockId
  | [] => pure b
  | spec :: rest => do
    let b ← initSpec b spec
    initSpecs b rest

/-- The name under which an initializer of the file is compiled; they are counted from one. No name
in a source has a dot, so that these names are new. -/
def initializerName (i : Nat) : String :=
  s!"{Program.initName}.{i}"

def initFunction (specs : List VarSpec) (initializers : Nat) : Lower Unit := do
  start Program.initName [] .void
  let b ← initSpecs entry specs
  (List.range initializers).forM fun i =>
    discard (build (.call b (initializerName (i + 1)) true []))
  build (.ret b none)

def run (globals : Bindings) (supply : Nat → Nat) (lowering : Lower Unit) :
    Except Failure Func :=
  match lowering { globals, supply } { fn := Func.make "" [] .void } with
  | .ok ((), s) => .ok s.fn
  | .error e => .error e

end SsaBlocks.Lower
