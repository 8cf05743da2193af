import SsaBlocks.Func.Build
import SsaBlocks.Typed.Tree

/-!
# Lowering: the state

Lowering fills a function with the blocks of a typed tree. Its state is the function, the variables
that have been declared, and two counters. The numbers of new variables come from a supply, which
need only be increasing: functions are lowered independently of one another.
-/

namespace SsaBlocks.Lower

open SsaBlocks.Source (Pos)
open SsaBlocks.Typed

/-- Why a tree was not lowered. -/
inductive Failure
  | unsupported (pos : Pos) (what : String)
  | fault (f : Fault)
deriving DecidableEq, Repr, Inhabited

abbrev Bindings := List (VarId × Variable)

structure State where
  fn : Func
  bindings : Bindings := []
  made : Nat := 0
  /-- How many logical operators have been met; their results are variables named by number. -/
  logicals : Nat := 0

/-- What lowering reads: the global variables and the supply of variable numbers. -/
structure Context where
  globals : Bindings
  supply : Nat → Nat

end Lower

abbrev Lower (α : Type) := ReaderT Lower.Context (StateT Lower.State (Except Lower.Failure)) α

namespace Lower

open SsaBlocks.Source (Pos)
open SsaBlocks.Typed

def unsupported {α : Type} (pos : Pos) (what : String) : Lower α :=
  throw (.unsupported pos what)

def build {α : Type} (step : Build α) : Lower α := do
  match step (← get).fn with
  | (.ok a, fn) =>
    modify fun s => { s with fn }
    return a
  | (.error f, _) => throw (.fault f)

def valueType (pos : Pos) : SourceType → Lower ValueType
  | .value t => pure t
  | .other text => unsupported pos ("type " ++ text)

def newVariable (name : String) (kind : VarKind) (type : ValueType) : Lower Variable := do
  let s ← get
  set { s with made := s.made + 1 }
  return { id := (← read).supply s.made, name, kind, type }

/-- Lets a number stand for a variable. -/
def bind (id : VarId) (v : Variable) : Lower Unit :=
  modify fun s => { s with bindings := (id, v) :: s.bindings }

def declare (b : BlockId) (binder : Binder) (value : Temp) : Lower Unit := do
  let type ← valueType binder.pos binder.type
  let v ← newVariable binder.name .localVar type
  bind binder.id v
  build (.declare b v value)

def assign (b : BlockId) (target : Target) (value : Temp) : Lower Unit := do
  match target with
  | .blank => pure ()
  | .declare binder => declare b binder value
  | .var pos name id =>
    match (← get).bindings.lookup id, (← read).globals.lookup id with
    | some v, _ => build (.write b v value)
    | none, some v => build (.store b v value)
    | none, none => unsupported pos ("assignment to " ++ name)
  | .unsupported pos what => unsupported pos what

end Lower

end SsaBlocks
