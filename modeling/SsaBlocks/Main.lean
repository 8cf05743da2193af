import SsaBlocks.Command.Run

/-!
# The program

Carries out a command line on the files of the machine that the program runs on. There are no
packages to import, and functions are lowered in turn.
-/

namespace SsaBlocks

/-- Why the operating system refused a file. -/
def FileCause.ofError : IO.Error → FileCause
  | .noFileOrDirectory .. => .missing
  | .inappropriateType .. => .isFolder
  | e => .other (toString e)

def readFile (path : String) : IO (Except FileError String) := do
  match ← (IO.FS.readFile path).toBaseIO with
  | .ok text => return .ok text
  | .error e =>
    let cause := FileCause.ofError e
    return .error ⟨if cause = .isFolder then "read" else "open", path, cause⟩

def writeFile (path text : String) : IO (Except FileError Unit) := do
  match ← (IO.FS.writeFile path text).toBaseIO with
  | .ok () => return .ok ()
  | .error e => return .error ⟨"open", path, .ofError e⟩

/-- The files of the machine that the program runs on. -/
def machineDisk : Disk IO where
  read := readFile
  write := writeFile

end SsaBlocks

open SsaBlocks

/-- Carries out a command line. -/
def main (args : List String) : IO UInt32 := do
  let outcome ← Invocation.perform machineDisk {} (fun _ => 0) args
  IO.print outcome.stdout
  IO.eprint outcome.stderr
  return outcome.exit.toUInt32
