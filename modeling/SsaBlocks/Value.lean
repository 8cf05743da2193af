import SsaBlocks.Ranked

/-!
# Values and variables

A value is a 64-bit word; its type says how it is written. A variable is a storage location of the
source program: a parameter or local of a function, which SSA construction replaces by temporaries,
or a global, which stays in memory.
-/

namespace SsaBlocks

/-- The types of values. A boolean is the word 0 or 1. -/
inductive ValueType where
  | void
  | int
  | long
  | bool
deriving DecidableEq, Repr, Inhabited

namespace ValueType

def name : ValueType → String
  | void => "void"
  | int => "int"
  | long => "long"
  | bool => "bool"

/-- All types, in the order of their codes. -/
def all : List ValueType := [void, int, long, bool]

/-- The type with a code, the codes being counted from zero. -/
def ofCode? (code : Int) : Option ValueType :=
  if code < 0 then none else all[code.toNat]?

def ofName? (name : String) : Option ValueType :=
  all.find? fun t => t.name == name

end ValueType

/-- Where a variable lives. -/
inductive VarKind where
  | param
  | localVar
  | globalVar
deriving DecidableEq, Repr, Inhabited

/-- A variable of the source program. Its `id` tells it from every other variable, and variables
made later have larger ones. -/
structure Variable where
  id : Nat
  name : String
  kind : VarKind
  type : ValueType
deriving DecidableEq, Repr, Inhabited

namespace Variable

instance : Ranked Variable := ⟨Variable.id⟩

/-- The variable's name made unique by its number. -/
def text (v : Variable) : String :=
  s!"{v.name}_{v.id}"

def signature (v : Variable) : String :=
  s!"{v.name} {v.type.name}"

def isGlobal (v : Variable) : Bool :=
  v.kind = .globalVar

end Variable

/-- A temporary, numbered from zero within its graph in the order of creation. -/
abbrev Temp := Nat

/-- A block, numbered from zero within its graph in the order of creation. -/
abbrev BlockId := Nat

end SsaBlocks
