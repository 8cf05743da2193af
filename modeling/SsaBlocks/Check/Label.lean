import SsaBlocks.Source.Syntax

/-!
# Labels

A label is declared once in a function and must be used. A break or continue names a surrounding
statement; a goto must not jump into a block or over the declaration of a variable.
-/

namespace SsaBlocks.Check

open SsaBlocks.Source

/-- What a label stands at, as far as breaks and continues care. -/
inductive Labeled
  | loop
  | choice
  | other
deriving DecidableEq, Inhabited

def Labeled.of : Stmt → Labeled
  | .loop _ _ _ _ _ | .range _ _ _ _ _ => loop
  | .switch _ _ _ _ | .typeSwitch _ _ _ _ _ | .select _ _ => choice
  | _ => other

/-- A block: the labeled statement to which it belongs, and the labels declared in it so far. -/
structure LabelBlock where
  owner : Option (String × Labeled)
  labels : List String := []

/-- The jumps of a block to labels that have not been found, and of these the ones before the last
declaration of a variable. -/
structure Jumps where
  block : LabelBlock
  /-- The labeled statement to which nested blocks belong. -/
  current : Option (String × Labeled)
  forward : List (String × Pos) := []
  overVariable : List Pos := []

abbrev Labels := StateT (List (String × Bool)) Option

def useLabel (name : String) : Labels Unit :=
  modify fun all => all.map fun l => if l.1 == name then (name, true) else l

/-- Notes that a variable is declared here. -/
def Jumps.atVariable (j : Jumps) : Jumps :=
  { j with overVariable := j.forward.map (·.2) }

def declareLabel (j : Jumps) (name : Name) : Labels Jumps := do
  if name.text == "_" then return j
  if (← get).any fun l => l.1 == name.text then failure
  let (found, left) := j.forward.partition fun f => f.1 == name.text
  modify fun all => (name.text, !found.isEmpty) :: all
  if found.any fun f => j.overVariable.contains f.2 then failure
  return { j with
    block := { j.block with labels := name.text :: j.block.labels }
    forward := left }

/-- A break, continue or goto with a label, within the given blocks. -/
def jumpTo (outer : List LabelBlock) (j : Jumps) (pos : Pos) (keyword : String) (name : String) :
    Labels Jumps := do
  let blocks := j.block :: outer
  match keyword with
  | "goto" =>
    if blocks.any fun b => b.labels.contains name then
      useLabel name
      return j
    return { j with forward := j.forward ++ [(name, pos)] }
  | _ =>
    match blocks.findSome? fun b => b.owner.filter fun o => o.1 == name with
    | some (_, kind) =>
      if kind == .loop || (kind == .choice && keyword == "break") then
        useLabel name
        return j
      failure
    | none => failure

/-- The start of a block that belongs to a labeled statement. -/
def Jumps.start (owner : Option (String × Labeled)) : Jumps :=
  { block := { owner }, current := owner }

mutual

def stmtLabels (outer : List LabelBlock) (j : Jumps) : Stmt → Labels Jumps
  | .decl (.vars _ _) => return j.atVariable
  | .assign _ ":=" _ => return j.atVariable
  | .labeled name body => do
    let j ← declareLabel j name
    let current := if name.text == "_" then j.current else some (name.text, .of body)
    let j ← stmtLabels outer { j with current } body
    return { j with current := j.block.owner }
  | .branch _ _ none => return j
  | .branch pos keyword (some label) => jumpTo outer j pos keyword label.text
  | .block _ body | .loop _ _ _ _ body | .range _ _ _ _ body => do
    let inner ← stmtsLabels (j.block :: outer) (.start j.current) body
    return { j with forward := j.forward ++ inner.forward }
  | .ifThen _ _ _ body otherwise => do
    let inner ← stmtsLabels (j.block :: outer) (.start j.current) body
    optionLabels outer { j with forward := j.forward ++ inner.forward } otherwise
  | .switch _ _ _ clauses | .typeSwitch _ _ _ _ clauses => do
    -- The clauses are blocks within the block of the switch.
    let body : LabelBlock := { owner := j.current }
    let forward ← clauseLabels (body :: j.block :: outer) clauses
    return { j with forward := j.forward ++ forward }
  | .select _ clauses => do
    let body : LabelBlock := { owner := j.current }
    let forward ← communicationLabels (body :: j.block :: outer) clauses
    return { j with forward := j.forward ++ forward }
  | _ => return j

def optionLabels (outer : List LabelBlock) (j : Jumps) : Option Stmt → Labels Jumps
  | none => return j
  | some s => stmtLabels outer j s

def stmtsLabels (outer : List LabelBlock) (j : Jumps) : List Stmt → Labels Jumps
  | [] => return j
  | s :: rest => do
    let j ← stmtLabels outer j s
    stmtsLabels outer j rest

def clauseLabels (outer : List LabelBlock) : List Clause → Labels (List (String × Pos))
  | [] => return []
  | .mk _ _ body :: rest => do
    let inner ← stmtsLabels outer (.start none) body
    return inner.forward ++ (← clauseLabels outer rest)

def communicationLabels (outer : List LabelBlock) :
    List Communication → Labels (List (String × Pos))
  | [] => return []
  | .mk _ body :: rest => do
    let inner ← stmtsLabels outer (.start none) body
    return inner.forward ++ (← communicationLabels outer rest)

end

/-- Whether the labels of a function body are declared and used as they should be. -/
def labelsOk (body : List Stmt) : Bool :=
  match (stmtsLabels [] (.start none) body).run [] with
  | some (j, all) => j.forward.isEmpty && all.all fun l => l.2
  | none => false

end SsaBlocks.Check
