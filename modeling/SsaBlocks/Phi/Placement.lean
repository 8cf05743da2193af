import SsaBlocks.Func.Build

/-!
# Placing phi nodes

Every block in the frontier of a block that assigns a variable gets a phi node for it, which is
itself an assignment, and so on: the phi nodes of a variable stand in its iterated frontier. If the
block has read the variable before writing it, the placeholder becomes the result of the phi node.
-/

namespace SsaBlocks

/-- Puts an element in its place in a list ordered by a key, after those with the same key. -/
def insertByKey {α : Type} (key : α → Nat) (a : α) : List α → List α
  | [] => [a]
  | b :: rest => if key a < key b then a :: b :: rest else b :: insertByKey key a rest

def sortByKey {α : Type} (key : α → Nat) (l : List α) : List α :=
  l.foldl (fun sorted a => insertByKey key a sorted) []

namespace Func

def blockIndex (fn : Func) (b : BlockId) : Nat :=
  ((fn.block b).index).getD 0

def orderedFrontier (fn : Func) (b : BlockId) : List BlockId :=
  match (fn.block b).frontier with
  | some set => sortByKey fn.blockIndex set.members
  | none => []

/-- Asks for a phi node for a variable at the top of a block, once. -/
def placePhi (fn : Func) (b : BlockId) (v : Variable) : Func :=
  let blk := fn.block b
  if blk.pending.contains v then fn
  else
    let (dest, fn) := match blk.awaited.get? v with
      | some t => (t, fn)
      | none => (fn.temps.size, fn.addTemp b)
    fn.modify b fun blk =>
      { blk with
        pending := blk.pending.insert v dest
        written := if blk.written.contains v then blk.written else blk.written.insert v dest
        awaited := blk.awaited.erase v }

/-- What is known while phi nodes are placed. The variables take turns, numbered from 1: `placed` marks
a block with the last turn in which it got a phi node, `listed` with the last one in which it was put
on the list. The list itself has the last one first. -/
structure Placing where
  fn : Func
  turn : Nat := 0
  placed : Table BlockId Nat := .empty
  listed : Table BlockId Nat := .empty
  work : List BlockId := []

namespace Placing

/-- The turn that a block is marked with, 0 if there is none. -/
def mark (marks : Table BlockId Nat) (b : BlockId) : Nat :=
  (marks.get? b).getD 0

def visit (v : Variable) (s : Placing) (b : BlockId) : Placing :=
  if mark s.placed b < s.turn then
    let s := { s with fn := s.fn.placePhi b v, placed := s.placed.insert b s.turn }
    if mark s.listed b < s.turn then
      { s with listed := s.listed.insert b s.turn, work := b :: s.work }
    else s
  else s

/-- Works off the list; each block is put on it at most once. -/
def run (v : Variable) : Nat → Placing → Except Fault Placing
  | 0, _ => .error .unending
  | steps + 1, s =>
    match s.work with
    | [] => .ok s
    | b :: rest =>
      run v steps ((s.fn.orderedFrontier b).foldl (visit v) { s with work := rest })

/-- The next turn starts with some blocks on the list. The marks of earlier turns stay. -/
def next (s : Placing) (blocks : List BlockId) : Placing :=
  { s with
    turn := s.turn + 1
    listed := blocks.foldl (fun marks b => marks.insert b (s.turn + 1)) s.listed
    work := blocks.reverse }

/-- Places the phi nodes of one variable, which is written in the given blocks. -/
def placeVariable (s : Placing) (v : Variable) (blocks : List BlockId) : Except Fault Placing :=
  run v (s.fn.blocks.size + blocks.length + 1) (s.next blocks)

end Placing

/-- The blocks that write each variable, in canonical order. -/
def assignments (fn : Func) : Table Variable (List BlockId) :=
  fn.order.foldl (fun table b => (fn.block b).written.keys.foldl (fun table v =>
    table.insert v ((table.get? v).getD [] ++ [b])) table) .empty

/-- Places the phi nodes of all variables, in the order in which the variables were made. -/
def placePhis (fn : Func) : Except Fault Func := do
  return (← fn.assignments.entries.foldlM (fun s e => s.placeVariable e.1 e.2) ({ fn } : Placing)).fn

end Func

end SsaBlocks
