import SsaBlocks.Lower.Basic

/-!
# Lowering expressions

Operands are evaluated from left to right. The logical operators need blocks of their own, so that
an expression may end in another block than it starts in.
-/

namespace SsaBlocks.Lower

open SsaBlocks.Source (Pos)
open SsaBlocks.Typed

/-- Lowers an operator with two operands whose second is needed only if the first does not settle
the result: the result is written to a variable on both ways and read where they meet. `second`
lowers the second operand. -/
def logical (op : Logical) (context : BlockId) (left : Temp)
    (second : BlockId → Lower (Temp × BlockId)) : Lower (Temp × BlockId) := do
  modify fun s => { s with logicals := s.logicals + 1 }
  let count := (← get).logicals
  let result ← newVariable s!"{op.text}{count}" .localVar .bool
  build (.comment context op.text)
  let elseStart ← build (.newBlock [context])
  let thenStart ← build (.newBlock [context])
  build (.branch context left elseStart thenStart)
  let (short, long) := if op = .both then (elseStart, thenStart) else (thenStart, elseStart)
  let settled ← build (.boolConst short (op = .either))
  build (.declare short result settled)
  let (right, long) ← second long
  build (.declare long result right)
  let join ← build (.newBlock [short, long])
  build (.jump short join)
  return (← build (.read join result), join)

mutual

/-- Lowers an expression that starts in a block: its value, and the block in which it ends. -/
def expr (b : BlockId) : Expr → Lower (Temp × BlockId)
  | .const pos type value => do
    let type ← valueType pos type
    return (← build (.const b type value), b)
  | .var pos name id => do
    match (← get).bindings.lookup id, (← read).globals.lookup id with
    | some v, _ => return (← build (.read b v), b)
    | none, some v => return (← build (.load b v), b)
    | none, none => unsupported pos ("reference to " ++ name)
  | .unary pos op operand => do
    let (t, b) ← expr b operand
    match op with
    | .plus => return (t, b)
    | .neg => return (← build (.unary b .neg t), b)
    | .not => return (← build (.unary b .not t), b)
    | .other text => unsupported pos ("operator " ++ text)
  | .binary op left right => do
    let (l, b) ← expr b left
    let (r, b) ← expr b right
    return (← build (.binary b op l r), b)
  | .logical op left right => do
    let (l, b) ← expr b left
    logical op b l fun b => expr b right
  | .convert pos type operand => do
    discard (valueType pos type)
    expr b operand
  | .call callee args => do
    let (ts, b) ← exprs b args
    return (← build (.define b fun t => .call (some t) callee ts), b)
  | .unsupported pos what => unsupported pos what

def exprs (b : BlockId) : List Expr → Lower (List Temp × BlockId)
  | [] => pure ([], b)
  | e :: rest => do
    let (t, b) ← expr b e
    let (ts, b) ← exprs b rest
    return (t :: ts, b)

end

end SsaBlocks.Lower
