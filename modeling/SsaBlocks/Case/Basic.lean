import SsaBlocks.Files.Disk
import SsaBlocks.Toml.Document

/-!
# Cases

A case names a function of a source file, arguments for it and the result that is wanted. A case
file is a TOML text with an array of tables called `case`. Names are compared without regard to the
case of letters, and a name that is not known is an error with a line; a missing value is empty or
zero.
-/

namespace SsaBlocks

/-- A function to evaluate and the result that is wanted. -/
structure Case where
  file : String := ""
  func : String := ""
  args : List Int64 := []
  want : Int64 := 0
deriving DecidableEq, Repr, Inhabited

/-- Why there are no cases to be had from a file. -/
inductive CaseFileError
  | unreadable (e : FileError)
  | unknownKey (path : String) (line : Nat) (key : String) (inCase : Bool)
  | malformed
deriving DecidableEq, Repr, Inhabited

namespace CaseFileError

def message? : CaseFileError → Option String
  | unreadable e => some e.message
  | unknownKey path line key inCase =>
    let place := if inCase then "front.CaseT" else "front.caseFileT"
    some s!"{path}, line {line}: field '{key}' is not defined in {place}"
  | malformed => none

end CaseFileError

namespace Case

open SsaBlocks.Toml (Node Fields)

/-- The lower-case form of a letter, as far as it is in ASCII. Of the letters that are not in ASCII
the dotted capital I and the sign of the kelvin have such a form. -/
def lower (c : Char) : Char :=
  if c.toNat == 0x130 then 'i' else if c.toNat == 0x212A then 'k' else c.toLower

/-- A name with all letters in lower case. -/
def foldKey (key : String) : String :=
  String.ofList (key.toList.map lower)

def word? (n : Int) : Option Int64 :=
  if Int64.minValue.toInt ≤ n && n ≤ Int64.maxValue.toInt then some (Int64.ofInt n) else none

def text? : Node → Option String
  | .value _ (.text s) => some s
  | _ => none

def valueWord? : Toml.Value → Option Int64
  | .integer n => word? n
  | _ => none

def nodeWord? : Node → Option Int64
  | .value _ v => valueWord? v
  | _ => none

def words? : Node → Option (List Int64)
  | .value _ (.array items) => items.mapM valueWord?
  | _ => none

def require {α : Type} (a : Option α) : Except CaseFileError α :=
  match a with
  | some a => .ok a
  | none => .error .malformed

def setField (path : String) (c : Case) (field : String × Node) : Except CaseFileError Case := do
  let (key, node) := field
  match foldKey key with
  | "file" => return { c with file := ← require (text? node) }
  | "func" => return { c with func := ← require (text? node) }
  | "args" => return { c with args := ← require (words? node) }
  | "want" => return { c with want := ← require (nodeWord? node) }
  | _ => throw (.unknownKey path node.line key true)

def ofFields (path : String) (fields : Fields) : Except CaseFileError Case :=
  fields.foldlM (setField path) {}

def listOf (path : String) : Node → Except CaseFileError (List Case)
  | .tables items => items.mapM fun t => ofFields path t.2
  | .value _ (.array []) => .ok []
  | _ => .error .malformed

def ofDocument (path : String) (fields : Fields) : Except CaseFileError (List Case) :=
  fields.foldlM (fun _ (key, node) =>
    if foldKey key == "case" then listOf path node
    else .error (.unknownKey path node.line key false)) []

def parse (path text : String) : Except CaseFileError (List Case) :=
  match Fields.parse? text with
  | some fields => ofDocument path fields
  | none => .error .malformed

def ofRead (path : String) : Except FileError String → Except CaseFileError (List Case)
  | .ok text => parse path text
  | .error e => .error (.unreadable e)

end Case

end SsaBlocks
