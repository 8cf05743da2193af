import SsaBlocks.Files.Path

/-!
# Reading and writing files

A disk is a way to read and write files by path. `Files` is a disk in memory: folders and files
below the place where a program runs.
-/

namespace SsaBlocks

/-- Why a path leads nowhere. -/
inductive FileCause
  | missing
  | notFolder
  | isFolder
  | tooLong
  | badCharacter
  | other (text : String)
deriving DecidableEq, Repr, Inhabited

namespace FileCause

def message : FileCause → String
  | missing => "no such file or directory"
  | notFolder => "not a directory"
  | isFolder => "is a directory"
  | tooLong => "file name too long"
  | badCharacter => "invalid argument"
  | other text => text

end FileCause

/-- A failure to open or to read a file. -/
structure FileError where
  action : String
  path : String
  cause : FileCause
deriving DecidableEq, Repr, Inhabited

namespace FileError

def message (e : FileError) : String :=
  s!"{e.action} {e.path}: {e.cause.message}"

end FileError

structure Disk (m : Type → Type) where
  read : String → m (Except FileError String)
  write : String → String → m (Except FileError Unit)

/-- Folders and files. Every one is known by its components. -/
structure Files where
  folders : List (List String) := []
  contents : List (List String × String) := []
deriving Inhabited

namespace Files

def isFolder (fs : Files) (place : List String) : Bool :=
  place.isEmpty || fs.folders.contains place

def addFolder (fs : Files) (place : List String) : Files :=
  if fs.isFolder place then fs else { fs with folders := place :: fs.folders }

def put (fs : Files) (place : List String) (text : String) : Files :=
  { fs with contents := (place, text) :: fs.contents.filter (·.1 != place) }

def insert (fs : Files) (path : String) (text : String) : Files :=
  let place := Path.components (Path.clean path)
  let folders := (List.range place.length).map place.take
  (folders.foldl addFolder fs).put place text

def maxComponent : Nat := 255

def maxPath : Nat := 4095

/-- Follows components from a folder. The last of them need not be there. -/
def locate (fs : Files) : List String → List String → Except FileCause (List String)
  | place, [] => .ok place
  | place, c :: rest =>
    if c == "" || c == "." then locate fs place rest
    else if c == ".." then
      if place.isEmpty then .error .missing else locate fs place.dropLast rest
    else if maxComponent < c.utf8ByteSize then .error .tooLong
    else
      let next := place ++ [c]
      if fs.isFolder next then locate fs next rest
      else if rest.isEmpty then .ok next
      else if (fs.contents.lookup next).isSome then .error .notFolder
      else .error .missing

/-- The place that a path leads to. Nothing is known of the root. -/
def resolve (fs : Files) (path : String) : Except FileCause (List String) :=
  if path.toList.contains '\x00' then .error .badCharacter
  else if maxPath < path.utf8ByteSize then .error .tooLong
  else if path == "" || path.startsWith "/" then .error .missing
  else fs.locate [] (Path.components path)

/-- Reads a file. A folder can be opened but not read. -/
def read (fs : Files) (path : String) : Except FileError String :=
  match fs.resolve path with
  | .error cause => .error ⟨"open", path, cause⟩
  | .ok place =>
    if fs.isFolder place then .error ⟨"read", path, .isFolder⟩
    else match fs.contents.lookup place with
      | some text => .ok text
      | none => .error ⟨"open", path, .missing⟩

def write (fs : Files) (path text : String) : Except FileError Files :=
  match fs.resolve path with
  | .error cause => .error ⟨"open", path, cause⟩
  | .ok place =>
    if fs.isFolder place then .error ⟨"open", path, .isFolder⟩ else .ok (fs.put place text)

def disk : Disk (StateM Files) where
  read path := do return (← get).read path
  write path text := do
    match (← get).write path text with
    | .ok fs => set fs; return .ok ()
    | .error e => return .error e

end Files

end SsaBlocks
