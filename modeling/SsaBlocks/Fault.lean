/-!
# Faults

Why an operation on a function, a program or a machine was refused. Most faults are violations of
the order in which things have to be done or of the shape of the block graph, and have a message;
`outOfRange` and `noFrontier` are accesses to something that is not there and have none.
`unending` stands for a search that would never come to an end.
-/

namespace SsaBlocks

/-- The stages of SSA construction, in order. -/
inductive Stage where
  | lowering
  | blocksRemoved
  | loadsRemoved
  | blocksNumbered
  | dominance
  | frontier
  | phisPlaced
  | phisResolved
  | phisComputed
  | numbered
deriving DecidableEq, Repr, Inhabited

namespace Stage

def number : Stage → Nat
  | lowering => 0
  | blocksRemoved => 1
  | loadsRemoved => 2
  | blocksNumbered => 3
  | dominance => 4
  | frontier => 5
  | phisPlaced => 6
  | phisResolved => 7
  | phisComputed => 8
  | numbered => 9

end Stage

/-- Why an operation was refused. Blocks and temporaries without an index are given by their numbers in
their function, others and instructions as written. -/
inductive Fault where
  | temporaryNotNumbered (temp : Nat)
  | variableNotNumbered (name : String)
  | blockNotNumbered (block : Nat)
  | functionFinished
  | wrongStage (name : String) (current expected : Stage)
  | notNumbered (what name : String)
  | afterEnd (instruction block : String)
  | removableChildren (block : String) (count : Nat)
  | removableOwnChild (block : String)
  | unreadable (var block : String)
  | unreached (var block : String)
  | definedTwice (name : String)
  | outOfRange
  | noFrontier
  | unending
deriving DecidableEq, Repr, Inhabited

namespace Fault

/-- The text of a fault; an access to something that is not there has none. -/
def message? : Fault → Option String
  | temporaryNotNumbered t =>
    some s!"ordering violation: temporary ?{t} has not been numbered"
  | variableNotNumbered name =>
    some s!"ordering violation: variable {name} has not been numbered"
  | blockNotNumbered b => some s!"ordering violation: block ?b{b} has not been numbered"
  | functionFinished => some "ordering violation: adding a block to a finished function"
  | wrongStage name current expected =>
    some s!"ordering violation: {name} is at stage {current.number}, expected {expected.number}"
  | notNumbered what name =>
    some s!"ordering violation: {what} of {name} requested before numbering"
  | afterEnd inst block => some s!"adding {inst} after the end of block {block}"
  | removableChildren block count => some s!"removable block {block} has {count} children"
  | removableOwnChild block => some s!"removable block {block} is its own child"
  | unreadable var block => some s!"could not find a value for {var} read in {block}"
  | unreached var block => some s!"no value for {var} reaches {block}"
  | definedTwice name => some s!"function '{name}' defined twice"
  | outOfRange => none
  | noFrontier => none
  | unending => some "the search does not end"

/-- Whether a stage of the construction was asked for out of turn. -/
def isWrongStage : Fault → Bool
  | wrongStage .. => true
  | _ => false

end Fault

end SsaBlocks
