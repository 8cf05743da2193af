/-!
# Paths

Paths are written with slashes. The clean form of a path has no empty component, no `.`, and `..`
only at its start.
-/

namespace SsaBlocks.Path

def components (path : String) : List String :=
  path.splitOn "/"

/-- Adds a component to a clean path, which is kept in reverse. At the root there is nothing
above. -/
def push (rooted : Bool) (done : List String) (c : String) : List String :=
  if c == "" || c == "." then done
  else if c == ".." then
    match done with
    | [] => if rooted then [] else [c]
    | d :: above => if d == ".." then c :: done else above
  else c :: done

def clean (path : String) : String :=
  let rooted := path.startsWith "/"
  let kept := ((components path).foldl (push rooted) []).reverse
  let text := String.intercalate "/" kept
  if rooted then "/" ++ text else if text == "" then "." else text

def directory (path : String) : String :=
  String.intercalate "/" ((components path).dropLast ++ [""])

/-- A file within a directory. An empty part does not count. -/
def join (directory file : String) : String :=
  if directory == "" then if file == "" then "" else clean file
  else clean (directory ++ "/" ++ file)

end SsaBlocks.Path
