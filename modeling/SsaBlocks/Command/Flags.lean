/-!
# Command lines

A command line is a list of words: options for the program, the name of a command, and options for
the command. An option starts with one or two dashes and has a value, which follows an equals sign
or is the next word. Of two values for one option the last counts.
-/

namespace SsaBlocks

/-- What the program is asked to do. -/
inductive Command
  /-- Evaluates the cases of a file, or those of them whose function is named. -/
  | run (cases only : String)
  /-- Lists the functions of a source file, or the one that is named. -/
  | dump (file only : String)
  /-- Draws the blocks of a function as a graph, into a file if one is named. -/
  | dot (file func out : String)
  | blocks (file func : String)
deriving DecidableEq, Repr

/-- A command, and the directory of the source files. -/
structure Invocation where
  directory : String
  command : Command
deriving DecidableEq, Repr

/-- Why a command line is not understood. -/
inductive UsageError
  | unknownOption (name : String)
  | missingValue (name : String)
  | missingOption (name : String)
  | noCommand
  | unknownCommand (name : String)
deriving DecidableEq, Repr

namespace UsageError

def message : UsageError → String
  | unknownOption name => s!"unknown option: {name}"
  | missingValue name => s!"option needs a value: {name}"
  | missingOption name => s!"option is required: {name}"
  | noCommand => "no command"
  | unknownCommand name => s!"unknown command: {name}"

end UsageError

namespace Command

/-- The values of options. The last value of an option comes first. -/
abbrev Options := List (String × String)

/-- The name of an option in a word, and the value that follows an equals sign. -/
def splitOption (word : String) : Option (String × Option String) :=
  match word.toList with
  | '-' :: c :: rest =>
    let body := if c == '-' then rest else c :: rest
    let name := String.ofList (body.takeWhile (· != '='))
    match body.dropWhile (· != '=') with
    | [] => some (name, none)
    | _ :: value => some (name, some (String.ofList value))
  | _ => none

/-- Reads options that have one of some names, up to a word that is no option or to two dashes. -/
def options (known : List String) : List String → Options → Except UsageError (Options × List String)
  | [], found => .ok (found, [])
  | "--" :: rest, found => .ok (found, rest)
  | word :: rest, found =>
    match splitOption word with
    | none => .ok (found, word :: rest)
    | some (name, value) =>
      if !known.contains name then .error (.unknownOption name)
      else match value, rest with
        | some v, rest => options known rest ((name, v) :: found)
        | none, v :: rest => options known rest ((name, v) :: found)
        | none, [] => .error (.missingValue name)

def optional (found : Options) (name : String) : String :=
  (found.lookup name).getD ""

def required (found : Options) (name : String) : Except UsageError String :=
  match found.lookup name with
  | some v => .ok v
  | none => .error (.missingOption name)

def parse : List String → Except UsageError Command
  | [] => .error .noCommand
  | "run" :: words => do
    let (found, _) ← options ["cases", "func"] words []
    return run (optional found "cases") (optional found "func")
  | "dump" :: words => do
    let (found, _) ← options ["file", "func"] words []
    return dump (← required found "file") (optional found "func")
  | "dot" :: words => do
    let (found, _) ← options ["file", "func", "out"] words []
    return dot (← required found "file") (← required found "func") (optional found "out")
  | "blocks" :: words => do
    let (found, _) ← options ["file", "func"] words []
    return blocks (← required found "file") (← required found "func")
  | name :: _ => .error (.unknownCommand name)

end Command

namespace Invocation

def defaultDirectory : String := "front/testdata"

/-- Reads a command line. How much is logged has no influence on what a command does. -/
def parse (words : List String) : Except UsageError Invocation := do
  let (found, rest) ← Command.options ["dir", "verbosity"] words []
  let directory := (found.lookup "dir").getD defaultDirectory
  return { directory, command := ← Command.parse rest }

end Invocation

end SsaBlocks
