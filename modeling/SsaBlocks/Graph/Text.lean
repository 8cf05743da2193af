import SsaBlocks.Graph.Basic

/-!
# How blocks, temporaries and instructions are written

A numbered temporary is written `t4` and a numbered block `b2`; before numbering they are written
by their numbers in the order of creation within their function, `?7` and `?b3`.
-/

namespace SsaBlocks

namespace Graph

def tempText (g : Graph) (t : Temp) : String :=
  match g.tempIndex? t with
  | some i => s!"t{i}"
  | none => s!"?{g.tempNumber t}"

def blockText (g : Graph) (b : BlockId) : String :=
  match (g.block b).index with
  | some i => s!"b{i}"
  | none => s!"?b{g.blockNumber b}"

/-- How a constant is written: longs are marked and booleans are named. -/
def constText (type : ValueType) (value : Int64) : String :=
  match type with
  | .bool => if value = 0 then "false" else "true"
  | .long => s!"{value.toInt}L"
  | _ => s!"{value.toInt}"

def operationText (g : Graph) (inst : Instruction) : String :=
  let op := match inst.opcode? with
    | some op => op.name
    | none => ";"
  match inst with
  | .comment text => s!"{op} {text}"
  | .const _ type value => s!"{op} {constText type value}"
  | .load _ v => s!"{op} {v.name}"
  | .store v t => s!"{op} {v.name} {g.tempText t}"
  | .binary _ _ l r => s!"{op} {g.tempText l} {g.tempText r}"
  | .unary _ _ t => s!"{op} {g.tempText t}"
  | .call _ callee args =>
    args.foldl (fun text arg => s!"{text} {g.tempText arg}") s!"{op} {callee}"
  | .jump t => s!"{op} {g.blockText t}"
  | .branch c e t => s!"{op} {g.tempText c} {g.blockText t} else {g.blockText e}"
  | .ret none => op
  | .ret (some t) => s!"{op} {g.tempText t}"

def instructionText (g : Graph) (inst : Instruction) : String :=
  match inst.result? with
  | some t => s!"{g.tempText t} = {g.operationText inst}"
  | none => g.operationText inst

def phiText (g : Graph) (p : Phi) : String :=
  p.edges.foldl (fun text e => s!"{text} [{g.blockText e.1} {g.tempText e.2}]")
    s!"{g.tempText p.dest} = {Opcode.phi.name} {p.var.name}"

def lineText (g : Graph) : Line → String
  | .phi p => g.phiText p
  | .code i => g.instructionText i

end Graph

end SsaBlocks
