import SsaBlocks.Func.Order
import SsaBlocks.Graph.Text
import SsaBlocks.Text.Column

/-!
# The listing of a function

A listing gives the signature of a function and then its blocks in canonical order: a header with
the edges and the immediate dominator, and the lines of the block. Every line but a comment is
numbered through the function, and the text of every line starts at column 8.
-/

namespace SsaBlocks

namespace Func

def blockListText (fn : Func) (blocks : List BlockId) : String :=
  "(" ++ String.intercalate " " (blocks.map fn.blockText) ++ ")"

def signatureText (fn : Func) : String :=
  let params := String.intercalate ", " (fn.params.map Variable.signature)
  s!"func {fn.name}({params}) {fn.resultType.name}"

def listHeader (fn : Func) (b : BlockId) (w : ColumnText) : ColumnText :=
  let blk := fn.block b
  let w := w.write s!"{fn.blockText b}:"
  let w := (w.indentTo 8).write s!"parents {fn.blockListText blk.parents}"
  let w := (w.indentTo 32).write s!"children {fn.blockListText blk.children}"
  let w := match blk.idom with
    | some d => (w.indentTo 56).write s!"idom {fn.blockText d}"
    | none => w
  w.newline

/-- Writes a line of a block; a line that is counted is given its number. -/
def listLine (fn : Func) (state : ColumnText × Nat) (line : Line) : ColumnText × Nat :=
  let (w, count) := state
  let (w, count) :=
    if line.isCode then ((w.indentTo 2).write (toString count), count + 1) else (w, count)
  (((w.indentTo 8).write (fn.lineText line)).newline, count)

def listBlock (fn : Func) (state : ColumnText × Nat) (b : BlockId) : ColumnText × Nat :=
  (fn.block b).lines.foldl fn.listLine (fn.listHeader b state.1, state.2)

def listing (fn : Func) : String :=
  let start := (({} : ColumnText).write fn.signatureText).newline
  (fn.orderedBlocks.foldl fn.listBlock (start, 0)).1.text

end Func

end SsaBlocks
