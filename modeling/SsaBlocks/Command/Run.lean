import SsaBlocks.Case.Run
import SsaBlocks.Command.Flags
import SsaBlocks.Dot
import SsaBlocks.Grid.Layout
import SsaBlocks.Listing

/-!
# Commands

What the commands print, and whether they succeed. Commands read and write files through a disk;
everything else about them is a function of what was read.
-/

namespace SsaBlocks

/-- What a command leaves: whether it failed, what it printed and what it complained of. -/
structure Outcome where
  exit : Nat := 0
  stdout : String := ""
  stderr : String := ""
deriving DecidableEq, Repr, Inhabited

namespace Outcome

def print (text : String) : Outcome :=
  { stdout := text }

def fail (message : String) (printed : String) : Outcome :=
  { exit := 1, stdout := printed, stderr := message ++ "\n" }

def breakDown (b : Breakdown) : Outcome :=
  let text := match b with
    | .fault f => f.message?.getD "access to something that is not there"
    | .outOfSteps => "the evaluation does not end"
  { exit := 2, stderr := text ++ "\n" }

end Outcome

namespace Command

/-! ## Running cases -/

def caseStatus (r : CaseResult) : String :=
  if r.error?.isSome then "error" else if r.passed then "ok" else "FAIL"

def caseRow (r : CaseResult) : List String :=
  let got := match r.error? with
    | some e => e.message
    | none => toString r.got.toInt
  [r.case.file, r.case.func,
    String.intercalate " " (r.case.args.map fun w => toString w.toInt),
    toString r.case.want.toInt, got, caseStatus r]

def caseGrid (results : List CaseResult) : Grid where
  header := ["File", "Func", "Args", "Want", "Got", "Result"]
  rows := results.map caseRow
  footer := ["", "", "", "", "Failed", toString (results.countP (!·.passed))]

def caseOutcome (results : List CaseResult) : Outcome :=
  let failed := results.countP (!·.passed)
  let table := (caseGrid results).render
  if failed = 0 then .print table
  else .fail s!"{failed} of {results.length} cases failed" table

/-- Evaluates the cases of a file. The source files are those of the cases that are asked for. -/
def runCases {m : Type → Type} [Monad m] (disk : Disk m) (lib : Check.Library) (race : Nat → Nat)
    (directory path only : String) : m Outcome := do
  match Case.ofRead path (← disk.read path) with
  | .error e => return .fail (e.message?.getD s!"{path}: malformed case file") ""
  | .ok cases =>
    let paths := ((cases.filter (·.isSelected only)).map (·.sourcePath directory)).eraseDups
    let texts ← paths.mapM fun p => do return (p, ← disk.read p)
    let read (p : String) : Except FileError String :=
      (texts.lookup p).getD (.error ⟨"open", p, .missing⟩)
    match Case.runAll lib race read directory cases only with
    | .ok results => return caseOutcome results
    | .error b => return .breakDown b

/-! ## Showing functions -/

def listing (p : Program) (only : String) : String :=
  let globals := p.globals.map fun v => s!"global {v.name} {v.type.name}\n"
  let functions := (p.functions.filter fun fn => only == "" || fn.name == only).map fun fn =>
    fn.listing ++ "\n"
  String.join globals ++ String.join functions

def blockNames (fn : Func) (bs : List BlockId) : String :=
  String.intercalate " " (bs.map fn.blockText)

def blockRow (fn : Func) (b : BlockId) : List String :=
  let block := fn.block b
  [fn.blockText b, blockNames fn block.parents, blockNames fn block.children,
    (block.idom.map fn.blockText).getD "", toString block.phis.length,
    toString block.codeCount]

def blockGrid (fn : Func) : Grid where
  header := ["Block", "Parents", "Children", "Idom", "Phis", "Instructions"]
  rows := fn.order.map (blockRow fn)
  footer := ["", "", "", "", "Total", toString fn.instructionCount]

def withProgram {m : Type → Type} [Monad m] (disk : Disk m) (lib : Check.Library) (first : Nat)
    (directory file : String) (use : Program → m Outcome) : m Outcome := do
  let path := Path.join directory file
  match Program.ofRead lib first path (← disk.read path) with
  | .ok p => use p
  | .error (.rejected _ (.fault f)) => return .breakDown (.fault f)
  | .error e => return .fail e.message ""

def withFunction {m : Type → Type} [Monad m] (p : Program) (name : String)
    (use : Func → m Outcome) : m Outcome :=
  match p.lookup? name with
  | some fn => use fn
  | none => return .fail s!"no function named '{name}'" ""

def drawing {m : Type → Type} [Monad m] (disk : Disk m) (file out : String) (fn : Func) :
    m Outcome := do
  let text := fn.dot (file ++ ": " ++ fn.name)
  if out == "" then return .print text
  match ← disk.write out text with
  | .ok () => return {}
  | .error e => return .fail e.message ""

def perform {m : Type → Type} [Monad m] (disk : Disk m) (lib : Check.Library) (race : Nat → Nat)
    (directory : String) : Command → m Outcome
  | run cases only =>
    let path := if cases == "" then Path.join directory "cases.toml" else cases
    runCases disk lib race directory path only
  | dump file only =>
    withProgram disk lib (race 0) directory file fun p => return .print (listing p only)
  | dot file func out =>
    withProgram disk lib (race 0) directory file fun p =>
      withFunction p func (drawing disk file out)
  | blocks file func =>
    withProgram disk lib (race 0) directory file fun p => withFunction p func fun fn =>
      return .print (blockGrid fn).render

end Command

namespace Invocation

def perform {m : Type → Type} [Monad m] (disk : Disk m) (lib : Check.Library) (race : Nat → Nat)
    (words : List String) : m Outcome :=
  match parse words with
  | .ok i => i.command.perform disk lib race i.directory
  | .error e => return .fail e.message ""

end Invocation

end SsaBlocks
