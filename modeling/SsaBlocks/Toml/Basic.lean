/-!
# TOML values

The values of a TOML text, and the items that such a text is a sequence of: table headers and
entries. Truth values, fractions and dates are read but not kept, because nothing asks for them.
-/

namespace SsaBlocks.Toml

/-- A value. A table in braces knows the line that it starts on, and each of its entries the line
that it ends on. -/
inductive Value
  | integer (n : Int)
  | text (s : String)
  | other
  | array (items : List Value)
  | table (line : Nat) (entries : List (String × Nat × Value))
deriving Repr, Inhabited

/-- A line of a text that says something: a header, which may start a new element of an array of
tables, or an entry of the table that was last started. -/
inductive Item
  | header (array : Bool) (line : Nat) (path : List String)
  | entry (key : String) (line : Nat) (value : Value)
deriving Repr, Inhabited

mutual

/-- Whether a value is or contains a table in braces. -/
def Value.holdsTable : Value → Bool
  | .table _ _ => true
  | .array items => anyHoldsTable items
  | .integer _ | .text _ | .other => false

/-- Whether one of several values is or contains a table in braces. -/
def anyHoldsTable : List Value → Bool
  | [] => false
  | v :: rest => v.holdsTable || anyHoldsTable rest

end

end SsaBlocks.Toml
