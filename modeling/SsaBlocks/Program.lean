import SsaBlocks.Pipeline

/-!
# Programs

A program is a list of functions with different names and a list of global variables. Finishing it
takes every function through SSA construction. The function called `init`, if there is one, sets up
the globals.
-/

namespace SsaBlocks

/-- The functions and global variables of one compilation unit. -/
structure Program where
  functions : List Func := []
  globals : List Variable := []
deriving DecidableEq, Repr, Inhabited

/-- A function of the program could not be finished. -/
structure FinishError where
  function : String
  fault : Fault
deriving DecidableEq, Repr

namespace FinishError

def message (e : FinishError) : String :=
  let text := e.fault.message?.getD "<runtime error>"
  s!"compilation failed: {e.function}: {text}"

end FinishError

namespace Program

def initName : String := "init"

def lookup? (p : Program) (name : String) : Option Func :=
  p.functions.find? fun fn => fn.name == name

def addFunction (p : Program) (fn : Func) : Except Fault Program :=
  if (p.lookup? fn.name).isSome then .error (.definedTwice fn.name)
  else .ok { p with functions := p.functions ++ [fn] }

def addGlobal (p : Program) (v : Variable) : Program :=
  { p with globals := p.globals ++ [v] }

/-- Takes one function through construction, with the error that was met before. -/
def finishFunction (state : Option FinishError × List Func) (fn : Func) :
    Option FinishError × List Func :=
  match Build.finish fn with
  | (.ok (), done) => (state.1, state.2 ++ [done])
  | (.error fault, left) =>
    (state.1.or (some { function := fn.name, fault }), state.2 ++ [left])

/-- Takes every function through construction. The functions do not depend on one another: a
failure of one does not keep the others from being finished. -/
def finishAll (p : Program) : Option FinishError × Program :=
  let (error, functions) := p.functions.foldl finishFunction (none, [])
  (error, { p with functions })

/-- The program with all its functions finished, or the first error. -/
def finish (p : Program) : Except FinishError Program :=
  match p.finishAll with
  | (none, done) => .ok done
  | (some e, _) => .error e

def summary (p : Program) : String :=
  s!"program with {p.functions.length} functions and {p.globals.length} globals"

end Program

end SsaBlocks
