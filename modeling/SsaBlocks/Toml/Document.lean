import SsaBlocks.Toml.Reader

/-!
# TOML documents

The tree of tables that the headers and entries of a text describe. A name belongs to one thing
only: an entry, a table or an array of tables. A table may be named by a header once; those on the
way to it come into being without one. Names lead into the last element of an array of tables.

A table in braces is a table that no header has named, and one in an array is an element of an array
of tables. If a name is given several tables in braces, they are parts of one table.
-/

namespace SsaBlocks.Toml

/-- What a name stands for. A table that no header has named yet is only `implied`. -/
inductive Node
  | value (line : Nat) (v : Value)
  | table (line : Nat) (implied : Bool) (fields : List (String × Node))
  | tables (items : List (Nat × List (String × Node)))
deriving Inhabited

/-- The contents of a table in the order in which they were added. -/
abbrev Fields := List (String × Node)

/-- The line of a thing; for an array of tables, that of its first element. -/
def Node.line : Node → Nat
  | value line _ | table line _ _ => line
  | tables items => (items.head?.map (·.1)).getD 0

namespace Fields

/-- Gives a name a meaning, in the place of its old one if it has one. -/
def put (key : String) (n : Node) : Fields → Fields
  | [] => [(key, n)]
  | (k, old) :: rest => if k == key then (k, n) :: rest else (k, old) :: put key n rest

/-- Changes the table that names lead to. Tables that are missing on the way are added with a
line. -/
def updateAt (line : Nat) (change : Fields → Option Fields) :
    List String → Fields → Option Fields
  | [], fields => change fields
  | key :: path, fields =>
    match fields.lookup key with
    | none => do
      let inner ← updateAt line change path []
      return put key (.table line true inner) fields
    | some (.table first implied inner) => do
      let inner ← updateAt line change path inner
      return put key (.table first implied inner) fields
    | some (.tables items) => do
      let (first, inner) ← items.getLast?
      let inner ← updateAt line change path inner
      return put key (.tables (items.dropLast ++ [(first, inner)])) fields
    | some (.value _ _) => none

/-- Starts a table, or an element of an array of tables, by a header or in braces. -/
def start (array braces : Bool) (line : Nat) (key : String) (fields : Fields) : Option Fields :=
  match array, fields.lookup key with
  | true, none => some (put key (.tables [(line, [])]) fields)
  | true, some (.tables items) => some (put key (.tables (items ++ [(line, [])])) fields)
  | false, none => some (put key (.table line braces []) fields)
  | false, some (.table _ true inner) => some (put key (.table line braces inner) fields)
  | _, _ => none

def addEntry (key : String) (line : Nat) (v : Value) (fields : Fields) : Option Fields :=
  if (fields.lookup key).isSome then none else some (put key (.value line v) fields)

end Fields

mutual

/-- Adds a value under a name to the table that a path leads to. Within an array, tables in braces
are elements of an array of tables. -/
def addValue (inArray : Bool) (path : List String) (key : String) (line : Nat) :
    Value → Fields → Option Fields
  | .table first entries, fields => do
    let fields ← Fields.updateAt first (Fields.start inArray true first key) path fields
    addEntries inArray (path ++ [key]) entries fields
  | .array items, fields =>
    if anyHoldsTable items then addElements path key items fields
    else Fields.updateAt line (Fields.addEntry key line (.array items)) path fields
  | .integer n, fields => Fields.updateAt line (Fields.addEntry key line (.integer n)) path fields
  | .text s, fields => Fields.updateAt line (Fields.addEntry key line (.text s)) path fields
  | .other, fields => Fields.updateAt line (Fields.addEntry key line .other) path fields

def addElements (path : List String) (key : String) : List Value → Fields → Option Fields
  | [], fields => some fields
  | .table first entries :: rest, fields => do
    let fields ← Fields.updateAt first (Fields.start true true first key) path fields
    let fields ← addEntries true (path ++ [key]) entries fields
    addElements path key rest fields
  | .array items :: rest, fields => do
    let fields ← addElements path key items fields
    addElements path key rest fields
  | .integer _ :: rest, fields | .text _ :: rest, fields | .other :: rest, fields =>
    addElements path key rest fields

def addEntries (inArray : Bool) (path : List String) :
    List (String × Nat × Value) → Fields → Option Fields
  | [], fields => some fields
  | (key, line, v) :: rest, fields => do
    let fields ← addValue inArray path key line v fields
    addEntries inArray path rest fields

end

/-- A document as far as it has been read: the path to the table that was last started, and the
tree. -/
structure Document where
  path : List String := []
  fields : Fields := []

namespace Document

def add (d : Document) : Item → Option Document
  | .header array line path => do
    let key ← path.getLast?
    let fields ← Fields.updateAt line (Fields.start array false line key) path.dropLast d.fields
    return { path, fields }
  | .entry key line v => do
    return { d with fields := ← addValue false d.path key line v d.fields }

/-- The tree of a sequence of headers and entries. -/
def ofItems? (items : List Item) : Option Fields :=
  (items.foldlM add {}).map (·.fields)

end Document

/-- The tree of a text, unless it does not fit the grammar or gives a name two meanings. -/
def Fields.parse? (s : String) : Option Fields :=
  items? s >>= Document.ofItems?

end SsaBlocks.Toml
