import SsaBlocks.Func.Order
import SsaBlocks.Graph.Text
import SsaBlocks.Text.Quoted

/-!
# Block graphs in DOT

The block graph of a function in the language of Graphviz. A node is labelled with the lines of its
block; the edges from a block to the children that it owns are solid and all others are dashed.
-/

namespace SsaBlocks

namespace Func

/-- Marks the quotes of a label; backslashes are left for Graphviz. -/
def escapeLabel (s : String) : String :=
  String.join (s.toList.map fun c => if c = '"' then "\\\"" else c.toString)

def dotNode (fn : Func) (b : BlockId) : String :=
  let lines := fn.blockText b :: (fn.block b).lines.map fn.lineText
  let label := escapeLabel (String.join (lines.map fun line => line ++ "\\l"))
  s!"  n{fn.blockNumber b} [label=\"{label}\"];\n"

def dotEdges (fn : Func) (b : BlockId) : String :=
  String.join ((fn.block b).distinctChildren.map fun c =>
    let style := if (fn.block c).owner? = some b then "" else " [style=dashed]"
    s!"  n{fn.blockNumber b} -> n{fn.blockNumber c}{style};\n")

def dot (fn : Func) (title : String) : String :=
  let heading :=
    if title = "" then ""
    else s!"  labelloc=\"t\";\n  label=\"{escapeLabel title}\";\n"
  let blocks := fn.orderedBlocks
  s!"digraph {Text.quote fn.name} \x7b\n  node [shape=box, fontname=\"monospace\"];\n" ++ heading ++
    String.join (blocks.map fn.dotNode) ++ String.join (blocks.map fn.dotEdges) ++ "\x7d\n"

end Func

end SsaBlocks
