import SsaBlocks.Case.Basic
import SsaBlocks.Compile
import SsaBlocks.Machine

/-!
# Running cases

Every case is evaluated by a new machine, on the program of its source file. A source file is
compiled once, whether that succeeds or fails, and kept for the cases that follow. Which failure a
compilation reports if there are several is decided anew each time. A program that breaks down puts
an end to the whole run.
-/

namespace SsaBlocks

/-- Why a source file has no program. -/
inductive SourceError
  | unreadable (e : FileError)
  | rejected (path : String) (e : CompileError)
deriving DecidableEq, Repr

namespace SourceError

def message : SourceError → String
  | unreadable e => e.message
  | rejected path e => e.message path

end SourceError

/-- A failure that no part of a run can recover from. -/
inductive Breakdown
  | fault (f : Fault)
  | outOfSteps
deriving DecidableEq, Repr

/-- Why a case has no result. -/
inductive CaseError
  | source (e : SourceError)
  | evaluation (active : List String) (cause : EvalCause)
deriving DecidableEq, Repr

namespace CaseError

def message : CaseError → String
  | source (.unreadable e) => "reading source: " ++ e.message
  | source (.rejected path e) => e.message path
  | evaluation active cause => EvalFailure.errorText active cause

end CaseError

structure CaseResult where
  case : Case
  outcome : Except CaseError Int64

namespace CaseResult

def got (r : CaseResult) : Int64 :=
  match r.outcome with
  | .ok w => w
  | .error _ => 0

def error? (r : CaseResult) : Option CaseError :=
  match r.outcome with
  | .ok _ => none
  | .error e => some e

def passed (r : CaseResult) : Bool :=
  match r.outcome with
  | .ok w => w == r.case.want
  | .error _ => false

end CaseResult

def Program.ofRead (lib : Check.Library) (first : Nat) (path : String) :
    Except FileError String → Except SourceError Program
  | .error e => .error (.unreadable e)
  | .ok text =>
    match compile lib first text with
    | .ok p => .ok p
    | .error e => .error (.rejected path e)

namespace Case

def sourcePath (directory : String) (c : Case) : String :=
  Path.join directory c.file

/-- Whether a case is asked for: its function is the one that is named, or none is named. -/
def isSelected (only : String) (c : Case) : Bool :=
  only == "" || c.func == only

def evaluate (c : Case) (source : Except SourceError Program) : Except Breakdown CaseResult :=
  match source with
  | .error (.rejected _ (.fault f)) => .error (.fault f)
  | .error e => .ok { case := c, outcome := .error (.source e) }
  | .ok program =>
    match program.evaluate c.func c.args with
    | .ok w => .ok { case := c, outcome := .ok w }
    | .error (.error active cause) => .ok { case := c, outcome := .error (.evaluation active cause) }
    | .error (.fault f) => .error (.fault f)
    | .error .outOfSteps => .error .outOfSteps

/-- The programs of source files, by the names that cases use. -/
abbrev Sources := List (String × Except SourceError Program)

/-- The program of a source file, which is compiled if it is not there yet. The compilations of a run
are numbered. -/
def Sources.fetch (load : Nat → String → Except SourceError Program) (known : Sources)
    (file : String) : Except SourceError Program × Sources :=
  match known.lookup file with
  | some source => (source, known)
  | none =>
    let source := load known.length file
    (source, (file, source) :: known)

/-- Runs the cases that are asked for, given the source files that are known. -/
def runFrom (load : Nat → String → Except SourceError Program) (only : String) :
    Sources → List Case → Except Breakdown (List CaseResult)
  | _, [] => .ok []
  | known, c :: rest =>
    if c.isSelected only then do
      let (source, known) := Sources.fetch load known c.file
      let result ← c.evaluate source
      return result :: (← runFrom load only known rest)
    else runFrom load only known rest

def loadSource (lib : Check.Library) (read : String → Except FileError String) (directory : String)
    (first : Nat) (file : String) : Except SourceError Program :=
  Program.ofRead lib first (Path.join directory file) (read (Path.join directory file))

/-- Runs the cases that are asked for, with source files from a directory. The failure that each
compilation reports is given by `race`. -/
def runAll (lib : Check.Library) (race : Nat → Nat) (read : String → Except FileError String)
    (directory : String) (cases : List Case) (only : String) :
    Except Breakdown (List CaseResult) :=
  runFrom (fun k => loadSource lib read directory (race k)) only [] cases

end Case

end SsaBlocks
